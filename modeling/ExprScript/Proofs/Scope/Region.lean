import ExprScript.Proofs.Tree.Address
import ExprScript.Scope.Tree

set_option autoImplicit false

/-! # Regions of a program tree

What scopes mean, said on the program tree alone. The *regions* around a place are the root and
the functions on the path to it (`Node.regions`), and a region binds a name through the
declarations directly below it, its parameters, or its own name (`Node.Binds`).

On the other side, a scope number stands for the contexts of the scope and of the scopes around
it (`ScopeTree.contextsAround`), and a name is resolved there exactly when one of these contexts
binds it (`resolves_iff`).
-/

namespace ExprScript

namespace Node

/-! ## Regions -/

/-- The nodes met below `n` on the way to an address. -/
def path (n : Node) : List Nat → List Node
  | [] => []
  | j :: a =>
    match n.children[j]? with
    | some c => c :: c.path a
    | none => []

@[simp] theorem path_nil (n : Node) : n.path [] = [] := rfl

theorem path_cons {n c : Node} {j : Nat} (h : n.children[j]? = some c) (a : List Nat) :
    n.path (j :: a) = c :: c.path a := by
  rw [path, h]

/-- The root and the functions on the path to an address, from the outside in. -/
def regions (p : Node) (a : List Nat) : List Node := p :: (p.path a).filter isScopeForming

/-! ## Bindings -/

def IsDeclarationOf (d : Node) (name : String) : Prop :=
  (∃ isMutable, d.kind = .variableDeclaration name isMutable) ∨
    d.kind = .functionDeclaration name ∨
    (d.kind = .namedFunction ∧ ∃ x, d.children.head? = some x ∧ x.kind = .identifier name)

/-- The node, taken as a region, binds the name. -/
def Binds (r : Node) (name : String) : Prop :=
  (∃ d ∈ r.children, d.IsDeclarationOf name) ∨
    (∃ ps, r.children.find? (·.type = .parameters) = some ps ∧
      ∃ q ∈ ps.children, q.kind = .identifier name) ∨
    (r.kind = .namedFunction ∧ ∃ x, r.children.head? = some x ∧ x.kind = .identifier name)

theorem identifierName?_eq_some {n : Node} {name : String} :
    n.identifierName? = some name ↔ n.kind = .identifier name := by
  obtain ⟨id, kind, children, span⟩ := n
  cases kind <;> simp [identifierName?, Kind.identifierName?]

theorem declaredName?_eq_some {d : Node} {name : String} :
    d.declaredName? = some name ↔ d.IsDeclarationOf name := by
  obtain ⟨id, kind, children, span⟩ := d
  cases kind <;>
    simp [declaredName?, IsDeclarationOf, Option.bind_eq_some_iff, identifierName?_eq_some]

/-- A declaration is of one of the three types a scope looks for. -/
theorem IsDeclarationOf.type {d : Node} {name : String} (h : d.IsDeclarationOf name) :
    d.type = .variableDeclaration ∨ d.type = .functionDeclaration ∨ d.type = .namedFunction := by
  rcases h with ⟨isMutable, h⟩ | h | ⟨h, -⟩
  · exact Or.inl (by rw [Node.type, h]; rfl)
  · exact Or.inr (Or.inl (by rw [Node.type, h]; rfl))
  · exact Or.inr (Or.inr (by rw [Node.type, h]; rfl))

theorem type_eq_namedFunction {n : Node} : n.type = .namedFunction ↔ n.kind = .namedFunction := by
  obtain ⟨id, kind, children, span⟩ := n
  cases kind <;> simp [Node.type, Kind.type]

end Node

/-- A scope binds the names its context binds. -/
theorem Scope.declares_iff (s : Scope) (name : String) :
    s.declares name = true ↔ s.context.Binds name := by
  have hself : (s.context.type = .namedFunction ∧ s.context.declaredName? = some name) ↔
      s.context.kind = .namedFunction ∧
        ∃ x, s.context.children.head? = some x ∧ x.kind = .identifier name := by
    rw [Node.type_eq_namedFunction, Node.declaredName?_eq_some]
    constructor
    · rintro ⟨hk, ⟨isMutable, h⟩ | h | h⟩
      · rw [hk] at h; simp at h
      · rw [hk] at h; simp at h
      · exact h
    · rintro ⟨hk, h⟩
      exact ⟨hk, Or.inr (Or.inr ⟨hk, h⟩)⟩
  have hparams : s.parameters? = s.context.children.find? (·.type = .parameters) := by
    rw [parameters?, Node.childrenOfType, List.head?_filter]
  -- variables and functions are looked for separately; a declaration is one or the other
  have hdecl : (∃ d ∈ s.context.children, d.IsDeclarationOf name) ↔
      (∃ d ∈ s.locals, d.declaredName? = some name) ∨
        ∃ d ∈ s.functions, d.declaredName? = some name := by
    simp only [locals, functions, Node.childrenOfType, List.mem_filter, Node.declaredName?_eq_some]
    constructor
    · rintro ⟨d, hd, h⟩
      rcases h.type with ht | ht | ht
      · exact Or.inl ⟨d, ⟨hd, by simp [ht]⟩, h⟩
      · exact Or.inr ⟨d, ⟨hd, by simp [ht]⟩, h⟩
      · exact Or.inr ⟨d, ⟨hd, by simp [ht]⟩, h⟩
    · rintro (⟨d, ⟨hd, -⟩, h⟩ | ⟨d, ⟨hd, -⟩, h⟩)
      · exact ⟨d, hd, h⟩
      · exact ⟨d, hd, h⟩
  have hbool : s.declares name = true ↔
      (((∃ d ∈ s.locals, d.declaredName? = some name) ∨
          ∃ ps, s.parameters? = some ps ∧ ∃ q ∈ ps.children, q.kind = .identifier name) ∨
        s.context.type = .namedFunction ∧ s.context.declaredName? = some name) ∨
        ∃ d ∈ s.functions, d.declaredName? = some name := by
    simp only [declares, Bool.or_eq_true, Bool.and_eq_true, List.any_eq_true, decide_eq_true_eq,
      Option.any_eq_true, Node.identifierName?_eq_some]
  rw [hbool, Node.Binds, hdecl, ← hparams, hself, or_right_comm, or_assoc, or_assoc, or_assoc]
  exact or_congr_right or_left_comm

namespace ScopeTree

/-! ## The contexts a scope number stands for -/

/-- The contexts of a scope and of the scopes around it, from the inside out. -/
def contextsAround (t : ScopeTree) (i : Nat) : List Node :=
  (t.ancestors i).filterMap fun j => (t.get? j).map Scope.context

/-- A name is resolved in a scope when the context of that scope or of one around it binds the
name. -/
theorem resolves_iff (t : ScopeTree) (i : Nat) (name : String) :
    t.resolves i name = true ↔ ∃ r ∈ t.contextsAround i, r.Binds name := by
  simp only [resolves, declares, contextsAround, List.any_eq_true, Option.any_eq_true,
    List.mem_filterMap, Option.map_eq_some_iff, Scope.declares_iff]
  constructor
  · rintro ⟨j, hj, s, hs, hb⟩
    exact ⟨s.context, ⟨j, hj, s, hs, rfl⟩, hb⟩
  · rintro ⟨r, ⟨j, hj, s, hs, rfl⟩, hb⟩
    exact ⟨j, hj, s, hs, hb⟩

/-- The first of the contexts is that of the scope itself. -/
theorem head?_contextsAround (t : ScopeTree) (i : Nat) :
    (t.contextsAround i).head? = (t.get? i).map Scope.context := by
  rw [contextsAround, ancestors]
  cases hs : t.get? i with
  | none =>
      have hp : t.parentOf? i = none := by rw [parentOf?, hs]; rfl
      simp [hp, hs]
  | some s =>
      cases hp : t.parentOf? i with
      | none => simp [hs]
      | some q =>
          by_cases hlt : q < i
          · simp [hlt, hs]
          · simp [hlt, hs]

theorem contextsAround_root {t : ScopeTree} {i : Nat} {s : Scope} (h : t.get? i = some s)
    (hparent : s.parent = none) : t.contextsAround i = [s.context] := by
  have hp : t.parentOf? i = none := by rw [parentOf?, h]; exact hparent
  rw [contextsAround, ancestors, hp]
  simp [h]

theorem contextsAround_inner {t : ScopeTree} {i k : Nat} {s : Scope} (h : t.get? k = some s)
    (hparent : s.parent = some i) (hlt : i < k) :
    t.contextsAround k = s.context :: t.contextsAround i := by
  have hp : t.parentOf? k = some i := by rw [parentOf?, h]; exact hparent
  rw [contextsAround, ancestors, hp]
  simp only [if_pos hlt, List.filterMap_cons, h, Option.map_some]
  rfl

end ScopeTree

end ExprScript
