import ExprScript.Proofs.Tree.Build
import ExprScript.Script.Generator

set_option autoImplicit false

/-! # When a tree has a script

The script of a node is put together from the scripts of its children (`render?_eq_some_iff`).
It lacks nothing when every node has the children its type calls for
(`exists_render_of_shaped`), so there is a script for every tree that a build returns.
-/

namespace ExprScript

namespace Node

variable {indent : String}

theorem renderAll?_eq_some_iff {ns : List Node} {ps : List Piece} :
    renderAll? indent ns = some ps ↔
      List.Forall₂ (fun n p => render? indent n = some p) ns ps := by
  induction ns generalizing ps with
  | nil =>
      rw [renderAll?]
      cases ps <;> simp
  | cons n ns ih =>
      rw [renderAll?]
      constructor
      · intro h
        split at h
        · rename_i p qs hp hqs
          obtain rfl := Option.some.inj h
          exact .cons hp (ih.1 hqs)
        · simp at h
      · rintro (_ | ⟨hp, hps⟩)
        rw [hp, ih.2 hps]

/-- The script of a node, from the scripts of its children. -/
theorem render?_eq_some_iff {n : Node} {p : Piece} :
    n.render? indent = some p ↔
      ∃ ps text, List.Forall₂ (fun n p => render? indent n = some p) n.children ps ∧
        n.kind.assemble? indent ps = some text ∧
        p = ⟨n.kind, text, n.kind.readsStd ps || (n.kind.written ps).any (·.usesStd)⟩ := by
  obtain ⟨id, kind, children, span⟩ := n
  rw [render?]
  constructor
  · intro h
    split at h
    · simp at h
    · rename_i ps hps
      obtain ⟨text, htext, rfl⟩ := Option.map_eq_some_iff.1 h
      exact ⟨ps, text, renderAll?_eq_some_iff.1 hps, htext, rfl⟩
  · rintro ⟨ps, text, hps, htext, rfl⟩
    rw [renderAll?_eq_some_iff.2 hps]
    show (kind.assemble? indent ps).map _ = _
    rw [htext]
    rfl

theorem kind_of_render? {n : Node} {p : Piece} (h : n.render? indent = some p) :
    p.kind = n.kind := by
  obtain ⟨ps, text, -, -, rfl⟩ := render?_eq_some_iff.1 h
  rfl

theorem map_kind_of_renders {ns : List Node} {ps : List Piece}
    (h : List.Forall₂ (fun n p => render? indent n = some p) ns ps) :
    ps.map (·.kind) = ns.map kind := by
  induction h with
  | nil => rfl
  | cons hp _ ih => simp only [List.map_cons, ih, kind_of_render? hp]

theorem map_type_of_renders {ns : List Node} {ps : List Piece}
    (h : List.Forall₂ (fun n p => render? indent n = some p) ns ps) :
    ps.map (·.kind.type) = ns.map type := by
  have hkinds := congrArg (List.map Kind.type) (map_kind_of_renders h)
  rw [List.map_map, List.map_map] at hkinds
  exact hkinds

end Node

/-- Two children with given types, and what goes with them. -/
theorem exists_pair {R : Node → Piece → Prop} {ns : List Node} {ps : List Piece} {t u : NodeType}
    (htypes : ns.map Node.type = [t, u]) (h : List.Forall₂ R ns ps) :
    ∃ c c' q q', ns = [c, c'] ∧ ps = [q, q'] ∧ R c q ∧ R c' q' ∧ c.type = t ∧ c'.type = u := by
  match ns, ps, h with
  | [c, c'], [q, q'], .cons hc (.cons hc' .nil) =>
      obtain ⟨ht, hu⟩ : c.type = t ∧ c'.type = u := by simpa using htypes
      exact ⟨c, c', q, q', rfl, rfl, hc, hc', ht, hu⟩
  | [], _, _ => simp at htypes
  | [c], _, _ => simp at htypes
  | c :: c' :: d :: ns, _, _ => simp at htypes

/-- An operand, an operator and what follows, with spaces between them. -/
theorem toList_intercalate_operand (a o : String) {bs : List String} (hbs : bs ≠ []) :
    (" ".intercalate (a :: o :: bs)).toList =
      a.toList ++ ((' ' :: (o.toList ++ [' '])) ++ (" ".intercalate bs).toList) := by
  rw [String.intercalate_cons_cons, String.intercalate_cons_of_ne_nil hbs]
  simp [String.toList_append]

/-- Children whose types fit are enough to put a script together. -/
theorem Kind.exists_assemble_of_shapeFault? {k : Kind} {ps : List Piece}
    (h : k.type.shapeFault? (ps.map (·.kind.type)) = none) (indent : String) :
    ∃ text, k.assemble? indent ps = some text := by
  cases k with
  | object => cases ps <;> exact ⟨_, rfl⟩
  | objectProperty | call | propertyAccess =>
      obtain _ | ⟨p, _ | ⟨q, ps⟩⟩ := ps
      · simp [type, NodeType.shapeFault?] at h
      · simp [type, NodeType.shapeFault?] at h
      · exact ⟨_, rfl⟩
  | functionDeclaration name =>
      obtain _ | ⟨p, _ | ⟨q, ps⟩⟩ := ps
      · simp [type, NodeType.shapeFault?] at h
      · exact ⟨_, rfl⟩
      · exact ⟨_, rfl⟩
  | namedFunction =>
      obtain _ | ⟨p, _ | ⟨q, ps⟩⟩ := ps
      · simp [type, NodeType.shapeFault?] at h
      · simp [type, NodeType.shapeFault?] at h
      · exact ⟨_, rfl⟩
  | anonymousFunction =>
      obtain _ | ⟨p, ps⟩ := ps
      · simp [type, NodeType.shapeFault?] at h
      · exact ⟨_, rfl⟩
  | _ => exact ⟨_, rfl⟩

namespace Node

/-- **A tree with the right children throughout has a script.** -/
theorem exists_render_of_shaped {n : Node} (h : n.Shaped) (indent : String) :
    ∃ p, n.render? indent = some p := by
  induction h with
  | @intro n own _ ih =>
      have hall : ∃ ps, List.Forall₂ (fun n p => render? indent n = some p) n.children ps := by
        clear own
        generalize n.children = ns at ih
        induction ns with
        | nil => exact ⟨[], .nil⟩
        | cons c ns ihl =>
            obtain ⟨p, hp⟩ := ih c (by simp)
            obtain ⟨ps, hps⟩ := ihl fun c hc => ih c (by simp [hc])
            exact ⟨p :: ps, .cons hp hps⟩
      obtain ⟨ps, hps⟩ := hall
      rw [← map_type_of_renders hps] at own
      obtain ⟨text, htext⟩ := Kind.exists_assemble_of_shapeFault? own indent
      exact ⟨_, render?_eq_some_iff.2 ⟨ps, text, hps, htext, rfl⟩⟩

end Node

theorem exists_generate_of_shaped {n : Node} (h : n.Shaped) (indent : String) :
    ∃ text, generate? indent n = some text := by
  obtain ⟨p, hp⟩ := Node.exists_render_of_shaped h indent
  have hp : n.render? (Generator.mk indent false).indent = some p := hp
  simp [generate?, Generator.generate?, Generator.render?, hp]

end ExprScript
