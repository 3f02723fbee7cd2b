import ExprScript.Proofs.Grammar.Operands
import ExprScript.Proofs.Script.Render
import ExprScript.Proofs.Source.Decimal
import ExprScript.Proofs.Tree.Grammatical

set_option autoImplicit false

/-! # How a script begins

The script of a call, a property access or a binary expression begins with its first operand, and
this one perhaps again with its own. `Node.lead?` follows the first operands down to the node whose
script stands at the very front, and stops where an operand is put in parentheses.

The script of a tree is the script of its lead and something behind it that cannot be taken for a
part of it, or it begins with a parenthesis (`heads_of_render`). How scripts begin is thereby a
question about the kinds that have no operands.
-/

namespace ExprScript

namespace Node

/-- Whether the node is put in parentheses where it is an operand. -/
def isCompound (n : Node) : Bool :=
  match n.type with
  | .binaryExpression | .anonymousFunction | .namedFunction => true
  | _ => false

mutual

/-- The node whose script stands at the front of the script of the tree, unless a parenthesis
does. -/
def lead? : Node → Option Node
  | n@⟨_, kind, children, _⟩ =>
    match kind with
    | .call | .propertyAccess | .binaryExpression => operandLead? children
    | _ => some n

/-- The same for the first of some operands. -/
def operandLead? : List Node → Option Node
  | [] => none
  | c :: _ => if c.isCompound then none else lead? c

end

end Node

/-! ## What comes behind -/

/-- What can stand behind the first operand of a script: nothing, arguments, the name of a
property, or an operator behind a space. -/
def Trails (k : List Char) : Prop :=
  k = [] ∨ (∃ k', k = '(' :: k') ∨ (∃ k', k = '.' :: k') ∨
    ∃ x k', k = ' ' :: x :: k' ∧ isIdentifierStart x = false

theorem Trails.append {k l : List Char} (hk : Trails k) (hl : Trails l) : Trails (k ++ l) := by
  rcases hk with rfl | ⟨k', rfl⟩ | ⟨k', rfl⟩ | ⟨x, k', rfl, hx⟩
  · exact hl
  · exact .inr (.inl ⟨k' ++ l, rfl⟩)
  · exact .inr (.inr (.inl ⟨k' ++ l, rfl⟩))
  · exact .inr (.inr (.inr ⟨x, k' ++ l, rfl, hx⟩))

theorem Trails.endsClass {k : List Char} (h : Trails k) : EndsClass isIdentifierChar k := by
  rcases h with rfl | ⟨k', rfl⟩ | ⟨k', rfl⟩ | ⟨x, k', rfl, -⟩
  · intro x hx
    simp at hx
  · exact endsClass_cons (by decide) _
  · exact endsClass_cons (by decide) _
  · exact endsClass_cons (by decide) _

theorem trails_operator {o : String} (ho : o ∈ operators) (k : List Char) :
    Trails (' ' :: (o.toList ++ k)) := by
  have hstart : ∀ o ∈ operators, o.toList.head?.any (fun x => !isIdentifierStart x) = true := by
    decide
  obtain ⟨x, hx, hfalse⟩ := (Option.any_eq_true _ _).1 (hstart o ho)
  obtain ⟨xs, hxs⟩ := List.head?_eq_some_iff.1 hx
  rw [hxs]
  exact .inr (.inr (.inr ⟨x, xs ++ k, rfl, by simpa using hfalse⟩))

/-! ## The lead of a script -/

/-- The types of expressions whose scripts do not begin with an operand. -/
def NodeType.isPlain : NodeType → Bool
  | .call | .propertyAccess | .binaryExpression => false
  | t => t.isExpression

/-- A node that the grammar allows and that has no operand in front, with its script. -/
structure PlainScript (indent : String) (m : Node) (q : Piece) : Prop where
  render : m.render? indent = some q
  grammatical : m.Grammatical
  plain : m.type.isPlain = true

/-- The character that begins the script of such a node, unless it is a word or a number. -/
def Kind.mark? : Kind → Option Char
  | .integer value => if value.toInt < 0 then some '-' else none
  | .string _ => some '\''
  | .array => some '['
  | .object => some '\x7b'
  | .anonymousFunction => some '('
  | _ => none

theorem Kind.mark?_integer (value : Int64) :
    (Kind.integer value).mark? = if value.toInt < 0 then some '-' else none := rfl

/-- A word or a number that can stand in an expression. -/
structure IsPlainWord (w : List Char) : Prop where
  ne_nil : w ≠ []
  chars : ∀ x ∈ w, isIdentifierChar x = true
  free : ∀ u ∈ ["const", "let", "return"], w ≠ u.toList

/-- The script of a node without operands begins with a mark, or is a word or a number. -/
theorem Kind.mark_or_word {k : Kind} {indent : String} {ps : List Piece} {text : String}
    (hplain : k.type.isPlain = true) (hfits : k.Fits (ps.map (·.kind.type)))
    (h : k.assemble? indent ps = some text) :
    (∃ x, k.mark? = some x ∧ text.toList.head? = some x) ∨
      k.mark? = none ∧ IsPlainWord text.toList := by
  cases k with
  | integer v =>
      obtain rfl := Option.some.inj h
      obtain ⟨sign, ds, htext, hsign, hne, hds, -⟩ := Decimal.exists_sign_digits v.toInt
      rw [htext, hsign, mark?_integer]
      -- the sign is the mark, and without it the text is all digits
      split
      · exact .inl ⟨'-', rfl, rfl⟩
      · refine .inr ⟨rfl, hne, fun x hx => ?_, fun u hu heq => ?_⟩
        · simp [isIdentifierChar, Char.isAlphanum, hds x hx]
        · have hwords : ∀ u ∈ ["const", "let", "return"], u.toList.all Char.isDigit = false := by
            decide
          have hdigits : u.toList.all Char.isDigit = true := by
            rw [← heq]
            exact List.all_eq_true.2 hds
          rw [hwords u hu] at hdigits
          exact absurd hdigits Bool.false_ne_true
  | string v =>
      obtain rfl := Option.some.inj h
      exact .inl ⟨'\'', rfl, by simp [quote]⟩
  | boolean v =>
      obtain rfl := Option.some.inj h
      cases v with
      | true => exact .inr ⟨rfl, by decide, List.all_eq_true.1 (by decide), by decide⟩
      | false => exact .inr ⟨rfl, by decide, List.all_eq_true.1 (by decide), by decide⟩
  | void =>
      obtain rfl := Option.some.inj h
      exact .inr ⟨rfl, by decide, List.all_eq_true.1 (by decide), by decide⟩
  | identifier name =>
      obtain rfl := Option.some.inj h
      obtain ⟨-, hname⟩ := hfits
      -- the three words are kept from names by the grammar, `function` is not
      have hkeywords : ∀ u ∈ ["const", "let", "return"], u ∈ keywords := by decide
      obtain ⟨x, hx, -⟩ := hname.start
      refine .inr ⟨rfl, ?_, hname.chars, fun u hu => hname.not_keyword u (hkeywords u hu)⟩
      rintro hnil
      simp [hnil] at hx
  | array =>
      obtain rfl := Option.some.inj h
      exact .inl ⟨'[', rfl, by simp [String.toList_append]⟩
  | object =>
      refine .inl ⟨'\x7b', rfl, ?_⟩
      cases ps with
      | nil =>
          obtain rfl := Option.some.inj h
          decide
      | cons p ps =>
          obtain rfl := Option.some.inj h
          simp [String.toList_append]
  | anonymousFunction =>
      obtain ⟨us, htypes, -⟩ := hfits
      cases ps with
      | nil => simp at htypes
      | cons p ps =>
          obtain rfl := Option.some.inj h
          exact .inl ⟨'(', rfl, by simp [Piece.lambda, String.toList_append]⟩
  | _ => cases hplain

theorem PlainScript.mark_or_word {indent : String} {m : Node} {q : Piece}
    (h : PlainScript indent m q) :
    (∃ x, m.kind.mark? = some x ∧ q.text.toList.head? = some x) ∨
      m.kind.mark? = none ∧ IsPlainWord q.text.toList := by
  obtain ⟨ps, text, hps, htext, rfl⟩ := Node.render?_eq_some_iff.1 h.render
  have hfits := h.grammatical.fits
  rw [← Node.map_type_of_renders hps] at hfits
  exact Kind.mark_or_word h.plain hfits htext

/-- The text begins with the script of the lead, or with a parenthesis where there is none. -/
def Heads (indent : String) (lead : Option Node) (text : List Char) : Prop :=
  match lead with
  | none => ∃ k, text = '(' :: k
  | some m => ∃ q k, PlainScript indent m q ∧ text = q.text.toList ++ k ∧ Trails k

section

variable {indent : String}

theorem Heads.append {lead : Option Node} {text : List Char} (h : Heads indent lead text)
    {k : List Char} (hk : Trails k) : Heads indent lead (text ++ k) := by
  cases lead with
  | none =>
      obtain ⟨l, rfl⟩ := h
      exact ⟨l ++ k, rfl⟩
  | some m =>
      obtain ⟨q, l, hq, rfl, hl⟩ := h
      exact ⟨q, l ++ k, hq, List.append_assoc .., hl.append hk⟩

theorem isCompound_of_kind {c : Node} {q : Piece} (h : q.kind = c.kind) :
    q.isCompound = c.isCompound := by
  obtain ⟨kind, text, usesStd⟩ := q
  obtain rfl : kind = c.kind := h
  rfl

/-- An operand in parentheses begins with one, and any other as its own script does. -/
theorem heads_operand {c : Node} {q : Piece} (h : Heads indent c.lead? q.text.toList)
    (hq : q.kind = c.kind) (cs : List Node) :
    Heads indent (Node.operandLead? (c :: cs)) q.operand.toList := by
  rw [Node.operandLead?, Piece.operand, isCompound_of_kind hq]
  split
  · rw [String.toList_append, String.toList_append]
    exact ⟨q.text.toList ++ ")".toList, rfl⟩
  · exact h

/-- The script of an operator is the operator. -/
theorem operand_of_operator {c : Node} {q : Piece} (hc : c.Grammatical)
    (hq : c.render? indent = some q) (ht : c.type = .binaryOperator) : q.operand ∈ operators := by
  obtain ⟨i, kind, ns, span⟩ := c
  cases kind <;> simp [Node.type, Kind.type] at ht
  case binaryOperator o =>
    obtain ⟨ps, text, -, htext, rfl⟩ := Node.render?_eq_some_iff.1 hq
    obtain rfl := Option.some.inj htext
    exact hc.fits.2

/-- **How the script of an expression begins**: with the script of its lead, or with a
parenthesis. -/
theorem heads_of_render {n : Node} {p : Piece} (hg : n.Grammatical)
    (ht : n.type.isExpression = true) (h : n.render? indent = some p) :
    Heads indent n.lead? p.text.toList := by
  induction n using Node.childrenInduction generalizing p with
  | step n ih =>
      -- the first operand is an expression, and what follows it cannot be part of it
      have operand {c : Node} {q : Piece} {cs : List Node} (hcs : n.children = c :: cs)
          (hc : c.type.isExpression = true) (hq : c.render? indent = some q) {k : List Char}
          (hk : Trails k) : Heads indent (Node.operandLead? n.children) (q.operand.toList ++ k) := by
        have hmem : c ∈ n.children := by simp [hcs]
        have hheads := heads_operand (ih c hmem (hg.child hmem) hc hq) (Node.kind_of_render? hq) cs
        rw [← hcs] at hheads
        exact hheads.append hk
      obtain ⟨ps, text, hps, htext, rfl⟩ := Node.render?_eq_some_iff.1 h
      have hfits := hg.fits
      have plain (hplain : n.type.isPlain = true) : Heads indent (some n) text.toList :=
        ⟨_, [], ⟨h, hg, hplain⟩, by simp, .inl rfl⟩
      obtain ⟨i, kind, ns, span⟩ := n
      cases kind with
      | call =>
          obtain ⟨t, htypes, ht⟩ := hfits
          obtain ⟨c, c', q, q', rfl, rfl, hq, -, rfl, -⟩ := exists_pair htypes hps
          obtain rfl := Option.some.inj htext
          have hbehind : Trails ('(' :: (q'.text.toList ++ [')'])) := .inr (.inl ⟨_, rfl⟩)
          have hheads := operand rfl ht hq hbehind
          rw [Node.lead?]
          simpa [String.toList_append] using hheads
      | propertyAccess =>
          obtain ⟨t, htypes, ht⟩ := hfits
          obtain ⟨c, c', q, q', rfl, rfl, hq, -, rfl, -⟩ := exists_pair htypes hps
          obtain rfl := Option.some.inj htext
          have hbehind : Trails ('.' :: q'.text.toList) := .inr (.inr (.inl ⟨_, rfl⟩))
          have hheads := operand rfl ht hq hbehind
          rw [Node.lead?]
          simpa [String.toList_append] using hheads
      | binaryExpression =>
          obtain ⟨hlen, halt⟩ := hfits
          obtain rfl := Option.some.inj htext
          match ns, ps, hps, halt with
          | [c], _, _, _ => simp at hlen
          | [c, o], _, _, _ => simp at hlen
          | c :: o :: c' :: ns, q :: r :: q' :: ps, .cons hq (.cons hr _), halt =>
              have hoperator := operand_of_operator (hg.child (by simp)) hr halt.2.1
              have hbehind := trails_operator hoperator
                (' ' :: (" ".intercalate ((q' :: ps).map Piece.operand)).toList)
              have hheads := operand rfl halt.1 hq hbehind
              rw [Node.lead?, List.map_cons, List.map_cons,
                toList_intercalate_operand _ _ (by simp)]
              simpa using hheads
      | _ => exact plain ht

/-- The same, apart for scripts that begin with a parenthesis and those that do not. -/
theorem lead_cases {n : Node} {p : Piece} (hg : n.Grammatical)
    (ht : n.type.isExpression = true) (h : n.render? indent = some p) :
    (n.lead? = none ∧ ∃ k, p.text.toList = '(' :: k) ∨
      ∃ m q k, n.lead? = some m ∧ PlainScript indent m q ∧ p.text.toList = q.text.toList ++ k ∧
        Trails k := by
  have hheads := heads_of_render hg ht h
  cases hlead : n.lead? with
  | none =>
      rw [hlead] at hheads
      exact .inl ⟨rfl, hheads⟩
  | some m =>
      rw [hlead] at hheads
      obtain ⟨q, k, hq⟩ := hheads
      exact .inr ⟨m, q, k, rfl, hq⟩

end

end ExprScript
