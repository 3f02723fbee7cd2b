import ExprScript.Proofs.Grammar.Tokens
import ExprScript.Proofs.Tree.Build

set_option autoImplicit false

/-! # Grammatical trees

What the grammar says about a program tree, node by node: `Kind.Fits` is the table of the
children each kind can have in a program, and of the texts its names, operators and strings can
have. It is stricter than what a build checks (`shapeFault?_eq_none_of_fits`): a build lets an
array hold a `return`, and a name be any text.
-/

namespace ExprScript

namespace NodeType

def isExpression : NodeType → Bool
  | .integer | .string | .boolean | .void | .identifier | .array | .object
  | .anonymousFunction | .call | .binaryExpression | .propertyAccess => true
  | .program | .objectProperty | .variableDeclaration | .functionDeclaration | .namedFunction
  | .parameters | .arguments | .binaryOperator | .returnExpression => false

def isStatement : NodeType → Bool
  | .variableDeclaration | .functionDeclaration | .namedFunction | .returnExpression => true
  | t => t.isExpression

/-- Expressions with operators between them. -/
def Alternate : List NodeType → Prop
  | [] => False
  | [t] => t.isExpression = true
  | t :: o :: ts => t.isExpression = true ∧ o = .binaryOperator ∧ Alternate ts

theorem alternates_of_alternate {ts : List NodeType} (h : Alternate ts) : alternates ts = true := by
  have operand {t : NodeType} (ht : t.isExpression = true) : (t != .binaryOperator) = true := by
    cases t <;> simp_all [isExpression]
  induction ts using Alternate.induct with
  | case1 => exact h.elim
  | case2 t => exact operand h
  | case3 t o ts ih =>
      obtain ⟨ht, rfl, hts⟩ := h
      simp [alternates, operand ht, ih hts]

end NodeType

/-- The types of the children that a node of the given kind can have in a program. -/
def Kind.Fits : Kind → List NodeType → Prop
  | .program, ts => ∀ t ∈ ts, t.isStatement = true
  | .integer _, ts | .boolean _, ts | .void, ts => ts = []
  | .string value, ts => ts = [] ∧ paired value.toList = true
  | .identifier name, ts => ts = [] ∧ IsIdentifier name.toList
  | .binaryOperator operator, ts => ts = [] ∧ operator ∈ operators
  | .array, ts | .arguments, ts => ∀ t ∈ ts, t.isExpression = true
  | .object, ts => ∀ t ∈ ts, t = .objectProperty
  | .objectProperty, ts => ∃ t, ts = [.identifier, t] ∧ t.isExpression = true
  | .variableDeclaration name _, ts =>
    IsIdentifier name.toList ∧ ∃ t, ts = [t] ∧ t.isExpression = true
  | .functionDeclaration name, ts =>
    IsIdentifier name.toList ∧ ∃ us, ts = .parameters :: us ∧ ∀ t ∈ us, t.isStatement = true
  | .namedFunction, ts =>
    ∃ us, ts = .identifier :: .parameters :: us ∧ us ≠ [] ∧ ∀ t ∈ us, t.isStatement = true
  | .anonymousFunction, ts =>
    ∃ us, ts = .parameters :: us ∧ us ≠ [] ∧ ∀ t ∈ us, t.isStatement = true
  | .parameters, ts => ∀ t ∈ ts, t = .identifier
  | .call, ts => ∃ t, ts = [t, .arguments] ∧ t.isExpression = true
  | .binaryExpression, ts => 3 ≤ ts.length ∧ NodeType.Alternate ts
  | .propertyAccess, ts => ∃ t, ts = [t, .identifier] ∧ t.isExpression = true
  | .returnExpression, ts => ∃ t, ts = [t] ∧ t.isExpression = true

/-- Children that the grammar allows pass the check of a build. -/
theorem Kind.shapeFault?_eq_none_of_fits {k : Kind} {ts : List NodeType} (h : k.Fits ts) :
    k.type.shapeFault? ts = none := by
  cases k with
  | program => rfl
  | integer v => obtain rfl := h; rfl
  | string v => obtain rfl := h.1; rfl
  | boolean v => obtain rfl := h; rfl
  | void => obtain rfl := h; rfl
  | identifier name => obtain rfl := h.1; rfl
  | array => rfl
  | object => simpa [type, NodeType.shapeFault?, Fits] using h
  | objectProperty => obtain ⟨t, rfl, -⟩ := h; rfl
  | variableDeclaration name isMutable => obtain ⟨-, t, rfl, -⟩ := h; rfl
  | functionDeclaration name => obtain ⟨-, us, rfl, -⟩ := h; rfl
  | namedFunction =>
      obtain ⟨us, rfl, hne, -⟩ := h
      cases us with
      | nil => exact absurd rfl hne
      | cons u us => rfl
  | anonymousFunction =>
      obtain ⟨us, rfl, hne, -⟩ := h
      cases us with
      | nil => exact absurd rfl hne
      | cons u us => rfl
  | parameters => simpa [type, NodeType.shapeFault?, Fits] using h
  | arguments => rfl
  | call => obtain ⟨t, rfl, -⟩ := h; rfl
  | binaryOperator o => obtain rfl := h.1; rfl
  | binaryExpression =>
      simp [type, NodeType.shapeFault?, h.1, NodeType.alternates_of_alternate h.2]
  | propertyAccess => obtain ⟨t, rfl, -⟩ := h; rfl
  | returnExpression => obtain ⟨t, rfl, -⟩ := h; rfl

namespace Node

/-- Trees all of whose nodes are as in a program. -/
inductive Grammatical : Node → Prop where
  | intro {n : Node} (fits : n.kind.Fits (n.children.map type))
      (children : ∀ c ∈ n.children, Grammatical c) : Grammatical n

theorem Grammatical.fits {n : Node} (h : n.Grammatical) : n.kind.Fits (n.children.map type) := by
  cases h with
  | intro fits _ => exact fits

theorem Grammatical.child {n c : Node} (h : n.Grammatical) (hc : c ∈ n.children) :
    c.Grammatical := by
  cases h with
  | intro _ children => exact children c hc

theorem Grammatical.at? {n m : Node} {a : List Nat} (h : n.Grammatical) (hm : n.at? a = some m) :
    m.Grammatical :=
  of_at? Grammatical.child h hm

theorem Grammatical.shaped {n : Node} (h : n.Grammatical) : n.Shaped := by
  induction h with
  | intro fits _ ih => exact .intro (Kind.shapeFault?_eq_none_of_fits fits) ih

theorem map_type_of_describes {raws : List RawNode} {ns ms : List Node}
    (hns : List.Forall₂ RawNode.Describes raws ns) (hms : List.Forall₂ RawNode.Describes raws ms) :
    ns.map type = ms.map type := by
  induction hns generalizing ms with
  | nil => cases hms; rfl
  | cons hn _ ih =>
      obtain _ | ⟨hm, hms⟩ := hms
      obtain ⟨hkind, -⟩ := hn
      obtain ⟨hkind', -⟩ := hm
      have htype : Node.type _ = Node.type _ :=
        congrArg Kind.type (Except.ok.inj (hkind.symm.trans hkind'))
      rw [List.map_cons, List.map_cons, ih hms, htype]

/-- Whether a tree is as in a program can be told from any raw tree that describes it. -/
theorem Grammatical.of_describes {n : Node} (h : n.Grammatical) {raw : RawNode} {m : Node}
    (hn : raw.Describes n) (hm : raw.Describes m) : m.Grammatical := by
  induction h generalizing raw m with
  | @intro n fits _ ih =>
      obtain ⟨hkind, hns⟩ := hn
      obtain ⟨hkind', hms⟩ := hm
      have hsame : n.kind = m.kind := Except.ok.inj (hkind.symm.trans hkind')
      refine .intro ?_ ?_
      · rw [← hsame, ← map_type_of_describes hns hms]
        exact fits
      · clear fits hsame hkind hkind'
        generalize raw.children = raws at hns hms
        generalize m.children = ms at hms
        generalize n.children = ns at hns ih
        induction hns generalizing ms with
        | nil => cases hms; simp
        | cons hn _ ihl =>
            obtain _ | ⟨hm, hms⟩ := hms
            exact List.forall_mem_cons.2
              ⟨ih _ (by simp) hn hm, ihl _ hms fun c hc => ih c (by simp [hc])⟩

end Node

end ExprScript
