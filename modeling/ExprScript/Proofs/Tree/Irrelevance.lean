import ExprScript.Proofs.Raw.Exchange
import ExprScript.Proofs.Tree.Shape

set_option autoImplicit false

/-! # Ids and spans have no part in the outcome

Trees of one shape have the same script and are reported at the same addresses (`Tree.Shape`).
A program built from its statements alone differs from the one built of the whole raw tree in the
span of its root and in nothing else (`buildTree_nodes_of_build`). No report is about the root, so
the two compile to the same (`compileRaw_nodes_of_parse`).
-/

namespace ExprScript

namespace Node

theorem exists_generator_of_shaped {n : Node} (h : n.Shaped) (g : Generator) :
    ∃ text g', g.generate? n = some (text, g') := by
  obtain ⟨piece, hpiece⟩ := exists_render_of_shaped h g.indent
  exact ⟨_, _, by rw [Generator.generate?, Generator.render?, hpiece]; rfl⟩

/-- Below the root, a tree is the same whatever the span of its root. -/
theorem at?_cons_of_children {m n : Node} (h : m.children = n.children) (j : Nat) (a : List Nat) :
    m.at? (j :: a) = n.at? (j :: a) := by
  rw [at?, at?, h]

end Node

/-- Reports of programs with the same statements are the same. -/
theorem ReportedAlike.eq {globals : List String} {p q : Node} {d e : Diagnostic}
    (h : ReportedAlike globals p q d e) (hp : p.kind = .program)
    (hchildren : p.children = q.children) : d = e := by
  obtain ⟨a, m, n, name, hm, hn, rfl, rfl⟩ := h
  obtain ⟨j, b, rfl⟩ := List.exists_cons_of_ne_nil (hm.place_ne_nil hp)
  have hhere := hn.here
  rw [← Node.at?_cons_of_children hchildren, hm.here] at hhere
  obtain rfl := Option.some.inj hhere
  rfl

/-- A program tree built from a raw node is, but for the span of its root, the one built from the
children of that node. -/
theorem Node.buildTree_nodes_of_build {raw : RawNode} {p : Node} (h : build raw = .ok p)
    (hp : p.kind = .program) : buildTree (.nodes raw.children) = .ok { p with span := .empty } := by
  have hraw : ofRaw 0 raw = (.ok p, (ofRaw 0 raw).2) := Prod.ext h rfl
  obtain ⟨kind, nodes, own, -, hnodes, -, rfl, -⟩ := ofRaw_eq_ok_iff.1 hraw
  obtain rfl : kind = .program := hp
  simp only [buildTree, buildProgram, hnodes]

/-- **A text compiles to what its statements compile to**, handed over as a list of raw trees. -/
theorem Settings.compileRaw_nodes_of_parse (settings : Settings) {source : SourceText}
    {raw : RawNode} (h : parse source.content = .ok raw) :
    settings.compileRaw source (.nodes raw.children) = settings.compile source := by
  obtain ⟨p, hbuild⟩ := exists_build_of_parse h
  have hnode : Node.buildTree (.node raw) = .ok p := hbuild
  have hkind : p.kind = .program := (grammatical_of_parse h hbuild).2.2
  have hnodes := Node.buildTree_nodes_of_build hbuild hkind
  set q : Node := { p with span := .empty }
  have hshape : p.shape = q.shape := by rw [Node.shape_eq p, Node.shape_eq q]
  have hreports : (defaultRules settings.globals).analyze q =
      (defaultRules settings.globals).analyze p := by
    have halike := reportedAlike_of_shape (Node.buildTree_distinctIds hnode)
      (Node.buildTree_distinctIds hnodes) hshape settings.globals
    rw [eq_comm, ← List.forall₂_eq_eq_eq]
    exact halike.imp fun d e hde => hde.eq hkind rfl
  have hscript : generate? settings.indent q = generate? settings.indent p := by
    rw [← Node.generate?_shape, ← hshape, Node.generate?_shape]
  rw [settings.compile_of_parse source h, compileRaw, compileRaw, buildProgramTree,
    buildProgramTree, hnodes, hnode]
  simp only [analyze, hreports]
  cases (defaultRules settings.globals).analyze p with
  | nil => simp only [script, hscript]
  | cons d ds => rfl

/-- **Ids and spans have no part in the outcome.** Trees of one shape, each with distinct ids, get
the same script from every generator, and a check reports undefined names at the same addresses
in the same order, so that it accepts both or neither. In particular it makes no difference
whether a text is compiled, or its statements are handed over without the program around them. -/
theorem ids_and_spans_irrelevant :
    (∀ m n : Node, m.Shaped → Node.sameShape m n = true → m.DistinctIds → n.DistinctIds →
      (∀ g : Generator, ∃ text g', g.generate? m = some (text, g') ∧
        g.generate? n = some (text, g')) ∧
      ∀ globals, List.Forall₂ (ReportedAlike globals m n) ((defaultRules globals).analyze m)
        ((defaultRules globals).analyze n)) ∧
    ∀ (settings : Settings) (source : SourceText) (raw : RawNode),
      parse source.content = .ok raw →
        settings.compileRaw source (.nodes raw.children) = settings.compile source := by
  refine ⟨fun m n hm hmn hidm hidn => ?_, fun settings source raw =>
    settings.compileRaw_nodes_of_parse⟩
  have hshape : m.shape = n.shape := Node.sameShape_iff_shape.1 hmn
  refine ⟨fun g => ?_, reportedAlike_of_shape hidm hidn hshape⟩
  obtain ⟨text, g', htext⟩ := Node.exists_generator_of_shaped hm g
  refine ⟨text, g', htext, ?_⟩
  rw [← Node.generator_shape, ← hshape, Node.generator_shape, htext]

/-- A call with two undefined names, built once from zero on and once after other trees. -/
theorem ids_and_spans_irrelevant_callOfName :
    ∃ raw m n last, parse "f(a)" = .ok raw ∧ Node.build raw = .ok m ∧
      Node.ofRaw 7 raw = (.ok n, last) ∧ n.id ≠ m.id ∧
      (∃ text g, Generator.generate? {} m = some (text, g) ∧
        Generator.generate? {} n = some (text, g)) ∧
      List.Forall₂ (ReportedAlike [] m n) ((defaultRules []).analyze m)
        ((defaultRules []).analyze n) ∧
      ∀ settings : Settings, settings.compileRaw ⟨"call", "f(a)"⟩ (.nodes raw.children) =
        settings.compile ⟨"call", "f(a)"⟩ := by
  obtain ⟨raw, m, hparse, hm, hid⟩ : ∃ raw m, parse "f(a)" = .ok raw ∧ Node.build raw = .ok m ∧
      m.id = 4 := ⟨_, _, rfl, rfl, rfl⟩
  have hraw : Node.ofRaw 0 raw = (.ok m, (Node.ofRaw 0 raw).2) := Prod.ext hm rfl
  obtain ⟨hdescribes, hshaped⟩ := Node.describes_of_ofRaw hraw
  obtain ⟨n, last, hn, hsame⟩ := Node.ofRaw_of_describes hdescribes hshaped 7
  have hids := (Node.ofRaw_ids hn).1
  have hmn : Node.sameShape m n = true :=
    Node.sameShape_iff_shape.2 (Node.sameShape_iff_shape.1 hsame).symm
  have hdistinct : n.DistinctIds := by
    apply Node.distinctIds_of_nodup
    rw [hids]
    exact List.nodup_range'
  have hseven : 7 ≤ n.id := by
    have hmem : n.id ∈ n.postorder.map Node.id :=
      List.mem_map_of_mem (Node.mem_postorder_iff.2 ⟨[], rfl⟩)
    rw [hids, List.mem_range'_1] at hmem
    exact hmem.1
  have hbuilt : Node.buildTree (.node raw) = .ok m := hm
  obtain ⟨hscript, hreports⟩ := ids_and_spans_irrelevant.1 m n hshaped hmn
    (Node.buildTree_distinctIds hbuilt) hdistinct
  exact ⟨raw, m, n, last, hparse, hm, hn, by omega, hscript {}, hreports [], fun settings =>
    ids_and_spans_irrelevant.2 settings ⟨"call", "f(a)"⟩ raw hparse⟩

end ExprScript
