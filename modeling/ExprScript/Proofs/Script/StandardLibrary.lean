import ExprScript.Proofs.Compile
import ExprScript.Proofs.Tree.WellFormed

set_option autoImplicit false

/-! # When the standard library is put in front

A tree *accesses the standard library* when it holds, at any depth, a property access whose first
child is the name of the library (`Node.accessesStd`). The renderer does not look for one: it
takes note of each access it writes, and passes the note up with the script.

Nothing is missed on the way, because every child of a built node is written
(`Kind.written_of_shapeFault?`); so the note of a script is right about its tree
(`usesStd_of_render?`). From this follows what one request does to a generator
(`answer?_of_shaped`), and from that, by induction over the requests, what a generator remembers
and returns at any time of its life (`shim_injection`).
-/

namespace ExprScript

/-! ## One tree -/

/-- The kinds that are written from two children have two. -/
theorem Kind.exists_two_of_shapeFault? {α : Type} {k : Kind} {f : α → NodeType} {xs : List α}
    (hk : k = .objectProperty ∨ k = .call ∨ k = .propertyAccess)
    (h : k.type.shapeFault? (xs.map f) = none) : ∃ x y, xs = [x, y] := by
  refine List.length_eq_two.1 ?_
  rcases hk with rfl | rfl | rfl
  all_goals
    obtain ⟨other, hpair⟩ := NodeType.shapeFault?_eq_none_iff.1 h
    simpa using congrArg List.length hpair

/-- Every child of a node whose children fit is written. -/
theorem Kind.written_of_shapeFault? {k : Kind} {ps : List Piece}
    (h : k.type.shapeFault? (ps.map (·.kind.type)) = none) : k.written ps = ps := by
  cases k with
  | integer _ | string _ | boolean _ | void | identifier _ | binaryOperator _ =>
      -- a leaf leaves its children out, and has none
      have hnil : ps = [] := by simpa [type, NodeType.shapeFault?] using h
      rw [hnil]
      rfl
  | objectProperty | call | propertyAccess =>
      obtain ⟨p, q, rfl⟩ := exists_two_of_shapeFault? (by simp) h
      rfl
  | _ => rfl

namespace Node

/-- The node reads a property of the standard library. -/
def isStdAccess (n : Node) : Bool :=
  n.kind = .propertyAccess && n.children.head?.any (·.kind = .identifier stdName)

def accessesStd (n : Node) : Bool := n.postorder.any isStdAccess

theorem accessesStd_eq (n : Node) :
    n.accessesStd = (n.isStdAccess || n.children.any accessesStd) := by
  have hbelow : (n.children.flatMap postorder).any isStdAccess = n.children.any accessesStd := by
    rw [List.any_flatMap]
    rfl
  rw [accessesStd, postorder_eq, List.any_append, hbelow, List.any_cons, List.any_nil,
    Bool.or_false, Bool.or_comm]

variable {indent : String}

theorem readsStd_of_renders {n : Node} {ps : List Piece}
    (h : List.Forall₂ (fun c p => render? indent c = some p) n.children ps) :
    n.kind.readsStd ps = n.isStdAccess := by
  obtain ⟨id, kind, children, span⟩ := n
  cases kind with
  | propertyAccess =>
      cases h with
      | nil => rfl
      | cons hp _ =>
          have hkind := kind_of_render? hp
          simp [Kind.readsStd, isStdAccess, hkind]
  | _ => rfl

/-- **The note of a script is right about its tree.** -/
theorem usesStd_of_render? {n : Node} {p : Piece} (hn : n.Shaped)
    (h : n.render? indent = some p) : p.usesStd = n.accessesStd := by
  induction n using childrenInduction generalizing p with
  | step n ih =>
      obtain ⟨ps, text, hps, -, rfl⟩ := render?_eq_some_iff.1 h
      have hbelow : ps.any (·.usesStd) = n.children.any accessesStd := by
        have hchildren : ∀ c ∈ n.children, ∀ q, c.render? indent = some q →
            q.usesStd = c.accessesStd := fun c hc q hq => ih c hc (hn.child hc) hq
        clear ih hn h
        generalize n.children = children at hps hchildren
        induction hps with
        | nil => rfl
        | @cons c q _ _ hq _ ihl =>
            have hfirst := hchildren c (by simp) q hq
            rw [List.any_cons, List.any_cons, hfirst, ihl fun c hc => hchildren c (by simp [hc])]
      have hwritten : n.kind.written ps = ps := by
        obtain ⟨hshape, -⟩ := hn
        rw [← map_type_of_renders hps] at hshape
        exact Kind.written_of_shapeFault? hshape
      rw [accessesStd_eq, ← readsStd_of_renders hps, ← hbelow, hwritten]

end Node

/-! ## Requests to a generator -/

/-- What a generator can be asked for: the script of a tree, or a complete script. -/
inductive Request where
  | render (n : Node)
  | generate (n : Node)

def Request.tree : Request → Node
  | .render n => n
  | .generate n => n

/-- What is returned for a tree with the given script: a complete script begins with the standard
library if it is needed. -/
def Request.complete (stdAccessed : Bool) (script : String) : Request → String
  | .render _ => script
  | .generate _ => if stdAccessed then stdShim ++ script else script

namespace Generator

/-- The answer to a request, and the generator afterwards. -/
def answer? (g : Generator) : Request → Option (String × Generator)
  | .render n => g.render? n
  | .generate n => g.generate? n

/-- The answers to requests one after the other, each with the generator after it. -/
def answers? (g : Generator) : List Request → Option (List (String × Generator))
  | [] => some []
  | r :: rs =>
    match g.answer? r with
    | none => none
    | some (text, g') => (answers? g' rs).map ((text, g') :: ·)

def seeing (g : Generator) (n : Node) : Generator :=
  { g with stdAccessed := g.stdAccessed || n.accessesStd }

theorem render?_of_shaped {n : Node} (hn : n.Shaped) (g : Generator) :
    ∃ p, n.render? g.indent = some p ∧ g.render? n = some (p.text, g.seeing n) := by
  obtain ⟨p, hp⟩ := Node.exists_render_of_shaped hn g.indent
  refine ⟨p, hp, ?_⟩
  rw [render?, hp, Option.map_some, Node.usesStd_of_render? hn hp, seeing]

/-- **What one request does.** The script in the answer is that of the tree alone; what the
generator has seen before only decides whether the library goes in front. -/
theorem answer?_of_shaped {r : Request} (hr : r.tree.Shaped) (g : Generator) :
    ∃ p, r.tree.render? g.indent = some p ∧
      g.answer? r = some (r.complete (g.seeing r.tree).stdAccessed p.text, g.seeing r.tree) := by
  obtain ⟨p, hp, hrender⟩ := render?_of_shaped hr g
  refine ⟨p, hp, ?_⟩
  cases r with
  | render n => exact hrender
  | generate n =>
      have hrender : g.render? n = some (p.text, g.seeing n) := hrender
      rw [answer?, generate?, hrender]
      rfl

theorem answers?_cons {g g' : Generator} {r : Request} {rs : List Request} {text : String}
    {steps : List (String × Generator)} (hr : g.answer? r = some (text, g'))
    (hrs : g'.answers? rs = some steps) : g.answers? (r :: rs) = some ((text, g') :: steps) := by
  rw [answers?, hr]
  dsimp only
  rw [hrs, Option.map_some]

/-- **What a run of requests does.** After each of them the generator has seen the trees up to
there, and the answer is completed by what it has seen. -/
theorem answers?_of_shaped {rs : List Request} (hrs : ∀ r ∈ rs, r.tree.Shaped) (g : Generator) :
    ∃ steps, g.answers? rs = some steps ∧ steps.length = rs.length ∧
      ∀ i r, rs[i]? = some r → ∃ p flag, r.tree.render? g.indent = some p ∧
        flag = (g.stdAccessed || (rs.take (i + 1)).any (·.tree.accessesStd)) ∧
        steps[i]? = some (r.complete flag p.text, ⟨g.indent, flag⟩) := by
  induction rs generalizing g with
  | nil => exact ⟨[], rfl, rfl, by simp⟩
  | cons r rs ih =>
      obtain ⟨p, hp, hanswer⟩ := answer?_of_shaped (hrs r (by simp)) g
      obtain ⟨steps, hsteps, hlen, hat⟩ := ih (fun q hq => hrs q (by simp [hq])) (g.seeing r.tree)
      refine ⟨_, answers?_cons hanswer hsteps, by simp [hlen], ?_⟩
      intro i q hq
      cases i with
      | zero =>
          obtain rfl := Option.some.inj hq
          refine ⟨p, (g.seeing r.tree).stdAccessed, hp, ?_, rfl⟩
          simp [seeing]
      | succ i =>
          obtain ⟨p, flag, hp, hflag, hstep⟩ := hat i q hq
          refine ⟨p, flag, hp, ?_, hstep⟩
          rw [hflag, seeing, Bool.or_assoc, List.take_succ_cons, List.any_cons]

end Generator

/-! ## A generator and its whole life -/

def Node.Built (n : Node) : Prop := ∃ tree : RawTree, Node.buildTree tree = .ok n

theorem Node.Built.shaped {n : Node} (h : n.Built) : n.Shaped := by
  obtain ⟨tree, htree⟩ := h
  exact shaped_of_buildTree htree

/-- **The standard library goes in front exactly when it has been accessed.** For any run of
requests about built trees to one generator: all are answered; after each of them the generator
knows of an access exactly when one of the trees so far has one; the script in the answer is the
one that a new generator renders; and a complete script is that script, with the library in front
when the generator then knows of an access. So a generator of its own puts the library in front
of a program exactly when the program accesses it. -/
theorem shim_injection (indent : String) :
    (∀ requests : List Request, (∀ r ∈ requests, r.tree.Built) →
      ∃ steps, Generator.answers? { indent } requests = some steps ∧
        steps.length = requests.length ∧
        ∀ i r, requests[i]? = some r → ∃ text g script g₀,
          steps[i]? = some (text, g) ∧
          (g.stdAccessed = true ↔
            ∃ q ∈ requests.take (i + 1), q.tree.accessesStd = true) ∧
          Generator.render? { indent } r.tree = some (script, g₀) ∧
          text = r.complete g.stdAccessed script) ∧
    ∀ p : Node, p.Built → ∃ script g₀,
      Generator.render? { indent } p = some (script, g₀) ∧
      generate? indent p = some (if p.accessesStd then stdShim ++ script else script) := by
  refine ⟨fun requests hbuilt => ?_, fun p hbuilt => ?_⟩
  · have hshaped : ∀ r ∈ requests, r.tree.Shaped := fun r hr => (hbuilt r hr).shaped
    obtain ⟨steps, hsteps, hlen, hat⟩ := Generator.answers?_of_shaped hshaped { indent }
    refine ⟨steps, hsteps, hlen, fun i r hr => ?_⟩
    obtain ⟨p, flag, hp, hflag, hstep⟩ := hat i r hr
    obtain ⟨q, hq, halone⟩ :=
      Generator.render?_of_shaped (hshaped r (List.mem_of_getElem? hr)) { indent }
    obtain rfl := Option.some.inj (hp.symm.trans hq)
    refine ⟨_, _, p.text, _, hstep, ?_, halone, rfl⟩
    rw [hflag, Bool.false_or, List.any_eq_true]
  · obtain ⟨q, -, halone⟩ := Generator.render?_of_shaped hbuilt.shaped { indent }
    refine ⟨q.text, _, halone, ?_⟩
    rw [generate?, Generator.generate?, halone, Generator.seeing]
    rfl

/-- A generator that has once seen an access keeps the library in front of programs without
one. -/
theorem shim_injection_remembered :
    ∃ p q, p.Built ∧ q.Built ∧ p.accessesStd = true ∧ q.accessesStd = false ∧
      ∃ steps script g₀, Generator.answers? {} [.generate q, .render p, .generate q] = some steps ∧
        Generator.render? {} q = some (script, g₀) ∧ generate? defaultIndent q = some script ∧
        steps[2]?.map Prod.fst = some (stdShim ++ script) := by
  obtain ⟨rawp, p, -, hp, haccess⟩ := exists_parsed_of_any "let f = () -> [std.print(1)]"
    Node.accessesStd (by decide +kernel)
  obtain ⟨rawq, q, -, hq, hnone⟩ := exists_parsed_of_any "std(1)"
    (fun q => !q.accessesStd) (by decide +kernel)
  have hp : p.Built := ⟨.node rawp, hp⟩
  have hq : q.Built := ⟨.node rawq, hq⟩
  have hnone : q.accessesStd = false := by simpa using hnone
  obtain ⟨script, g₀, hscript, hown⟩ := (shim_injection defaultIndent).2 q hq
  have hbuilt : ∀ r ∈ [Request.generate q, .render p, .generate q], r.tree.Built := by
    simp [Request.tree, hp, hq]
  obtain ⟨steps, hsteps, -, hat⟩ := (shim_injection defaultIndent).1 _ hbuilt
  obtain ⟨text, g, script', g', hstep, hflag, hscript', htext⟩ := hat 2 (.generate q) rfl
  have hknows : g.stdAccessed = true := hflag.2 ⟨.render p, by simp, haccess⟩
  obtain ⟨rfl, -⟩ : script' = script ∧ g' = g₀ := by
    rw [Request.tree, hscript] at hscript'
    simpa using hscript'.symm
  refine ⟨p, q, hp, hq, haccess, hnone, steps, script', g₀, hsteps, hscript, ?_, ?_⟩
  · rw [hown, hnone]
    rfl
  · rw [hstep, htext, hknows]
    rfl

end ExprScript
