import ExprScript.Proofs.Grammar.Literals
import ExprScript.Proofs.Tree.Build

set_option autoImplicit false

/-! # Texts that are read as operands

`ReadsAs r Ends text n` says that the rule `r` matches `text` where it stands in front of
anything that `Ends` allows, and that the raw tree of the match describes `n`. What may stand
behind an operand is what cannot continue it (`EndsOperand`).

`ReadsOperand text n` says more: it keeps the primary expression and its suffixes apart, so
that further suffixes can be added. The literals and names are such texts.
-/

namespace ExprScript

open Grammar Peg

/-! ## What may stand behind an expression -/

/-- Behind layout, the text does not go on with a character of the class. -/
def NextEnds (f : Char → Bool) (k : List Char) : Prop :=
  ∀ p, EndsClass f (Layout.skip ⟨p, k⟩).rest

theorem nextEnds_of_free {f : Char → Bool} {k : List Char} (hfree : Layout.Free k)
    (hk : EndsClass f k) : NextEnds f k := by
  intro p
  rw [Layout.skip_of_free (c := ⟨p, k⟩) hfree]
  exact hk

theorem nextEnds_append {f : Char → Bool} (pad : List Char)
    (hpad : ∀ x ∈ pad, Layout.isSpace x = true) {k : List Char} (hk : NextEnds f k) :
    NextEnds f (pad ++ k) := by
  intro p
  rw [Layout.skip_append pad hpad]
  exact hk _

def isSuffixStart (x : Char) : Bool := x == '(' || x == '.'

def isOperatorStart (x : Char) : Bool := operators.any fun o => o.toList.head? == some x

/-- The text cannot continue an operand. -/
structure EndsOperand (k : List Char) : Prop where
  word : EndsClass isIdentifierChar k
  suffix : NextEnds isSuffixStart k

/-- The text cannot continue an expression. -/
structure EndsExpression (k : List Char) : Prop extends EndsOperand k where
  operator : NextEnds isOperatorStart k

theorem endsExpression_nil : EndsExpression [] where
  word := by simp [EndsClass]
  suffix := nextEnds_of_free trivial (by simp [EndsClass])
  operator := nextEnds_of_free trivial (by simp [EndsClass])

/-- A comma or a closing bracket ends an expression. -/
theorem endsExpression_cons {x : Char} (hx : x ∈ [',', ')', ']', '\x7d']) (k : List Char) :
    EndsExpression (x :: k) := by
  have hall : isIdentifierChar x = false ∧ isSuffixStart x = false ∧ isOperatorStart x = false ∧
      Layout.isSpace x = false ∧ x ≠ '/' := by
    simp only [List.mem_cons, List.not_mem_nil, or_false] at hx
    rcases hx with rfl | rfl | rfl | rfl <;> decide
  obtain ⟨hword, hsuffix, hoperator, hspace, hslash⟩ := hall
  have hfree : Layout.Free (x :: k) := ⟨hspace, fun h => hslash h.1⟩
  exact ⟨⟨endsClass_cons hword k, nextEnds_of_free hfree (endsClass_cons hsuffix k)⟩,
    nextEnds_of_free hfree (endsClass_cons hoperator k)⟩

/-- So does space in front of what ends one. -/
theorem EndsExpression.append {pad k : List Char} (hpad : ∀ x ∈ pad, Layout.isSpace x = true)
    (hk : EndsExpression k) : EndsExpression (pad ++ k) := by
  refine ⟨⟨?_, nextEnds_append pad hpad hk.suffix⟩, nextEnds_append pad hpad hk.operator⟩
  cases pad with
  | nil => exact hk.word
  | cons x pad =>
      have hx := hpad x (by simp)
      simp only [Layout.isSpace, Bool.or_eq_true, beq_iff_eq] at hx
      refine endsClass_cons ?_ _
      rcases hx with ((rfl | rfl) | rfl) | rfl <;> decide

/-- How operators begin. -/
theorem operator_cases {o : String} (ho : o ∈ operators) :
    ∃ x xs, o.toList = x :: xs ∧ isSuffixStart x = false ∧ Layout.isSpace x = false ∧
      x ≠ ',' ∧ x ≠ ')' ∧ (x = '/' → xs = []) := by
  simp only [operators, List.mem_cons, List.not_mem_nil, or_false] at ho
  rcases ho with rfl | rfl | rfl | rfl | rfl | rfl | rfl | rfl | rfl | rfl | rfl | rfl | rfl <;>
    exact ⟨_, _, rfl, by decide, by decide, by decide, by decide, by decide⟩

theorem free_operator {o : String} (ho : o ∈ operators) (k : List Char) :
    Layout.Free (o.toList ++ ' ' :: k) := by
  obtain ⟨x, xs, hx, -, hspace, -, -, hslash⟩ := operator_cases ho
  rw [hx]
  refine ⟨hspace, ?_⟩
  rintro ⟨rfl, hnext⟩
  rw [hslash rfl] at hnext
  simp at hnext

/-- An operator ends an operand. -/
theorem endsOperand_operator {o : String} (ho : o ∈ operators) (k : List Char) :
    EndsOperand (' ' :: (o.toList ++ ' ' :: k)) := by
  refine ⟨endsClass_cons (by decide) _, nextEnds_append [' '] (List.forall_mem_singleton.2 rfl)
    (nextEnds_of_free (free_operator ho k) ?_)⟩
  obtain ⟨x, xs, hx, hsuffix, -⟩ := operator_cases ho
  rw [hx]
  exact endsClass_cons hsuffix _

/-! ## How the text of an expression begins -/

theorem toNat_of_isDigit {x : Char} (h : x.isDigit = true) : 48 ≤ x.toNat ∧ x.toNat ≤ 57 := by
  simp only [Char.isDigit, Bool.and_eq_true, decide_eq_true_eq, ge_iff_le,
    UInt32.le_iff_toNat_le] at h
  exact h

theorem toNat_of_isAlpha {x : Char} (h : x.isAlpha = true) :
    65 ≤ x.toNat ∧ x.toNat ≤ 90 ∨ 97 ≤ x.toNat ∧ x.toNat ≤ 122 := by
  unfold Char.isAlpha Char.isUpper Char.isLower at h
  simp only [Bool.or_eq_true, Bool.and_eq_true, decide_eq_true_eq, ge_iff_le,
    UInt32.le_iff_toNat_le] at h
  exact h

theorem toNat_of_isIdentifierStart {x : Char} (h : isIdentifierStart x = true) :
    65 ≤ x.toNat ∧ x.toNat ≤ 122 := by
  simp only [isIdentifierStart, Bool.or_eq_true, beq_iff_eq] at h
  rcases h with h | rfl
  · have := toNat_of_isAlpha h
    omega
  · decide

theorem isDigit_eq_false {x : Char} (h : x.toNat < 48 ∨ 57 < x.toNat) : x.isDigit = false := by
  cases hd : x.isDigit with
  | false => rfl
  | true =>
      have := toNat_of_isDigit hd
      omega

theorem isAlpha_eq_false {x : Char} (h : x.toNat < 65) : x.isAlpha = false := by
  cases ha : x.isAlpha with
  | false => rfl
  | true =>
      have := toNat_of_isAlpha ha
      omega

theorem isBlank_eq_false {x : Char} (h : 33 ≤ x.toNat) (h' : x.toNat ≤ 126) :
    isBlank x = false := by
  simp only [isBlank, Bool.or_eq_false_iff, Bool.and_eq_false_iff, decide_eq_false_iff_not,
    beq_eq_false_iff_ne]
  omega

/-- The text begins with a character that is neither blank nor a slash. -/
def Opens (text : List Char) : Prop := ∃ x xs, text = x :: xs ∧ isBlank x = false ∧ x ≠ '/'

theorem isBlank_of_isSpace {x : Char} (h : Layout.isSpace x = true) : isBlank x = true := by
  simp only [Layout.isSpace, Bool.or_eq_true, beq_iff_eq] at h
  rcases h with ((rfl | rfl) | rfl) | rfl <;> decide

theorem Opens.free {text : List Char} (h : Opens text) (k : List Char) :
    Layout.Free (text ++ k) := by
  obtain ⟨x, xs, rfl, hblank, hslash⟩ := h
  refine ⟨?_, fun h => hslash h.1⟩
  cases hspace : Layout.isSpace x with
  | false => rfl
  | true => rw [isBlank_of_isSpace hspace] at hblank; exact hblank

theorem Opens.append {text : List Char} (h : Opens text) (k : List Char) : Opens (text ++ k) := by
  obtain ⟨x, xs, rfl, hx⟩ := h
  exact ⟨x, xs ++ k, rfl, hx⟩

/-- Where such a text stands there is no layout to pass over. -/
theorem Opens.gap {text : List Char} (h : Opens text) (p : Position) (k : List Char) :
    programGrammar.gap .spaced ⟨p, text ++ k⟩ = ⟨p, text ++ k⟩ :=
  Layout.skip_of_free (c := ⟨p, text ++ k⟩) (h.free k)

theorem Opens.skip_append {text : List Char} (h : Opens text) (pad : List Char)
    (hpad : ∀ x ∈ pad, Layout.isSpace x = true) (p : Position) (k : List Char) :
    Layout.skip ⟨p, pad ++ (text ++ k)⟩ = ⟨p.after pad, text ++ k⟩ :=
  (Layout.skip_append pad hpad p _).trans (h.gap _ k)

def statementWords : List String := ["fn", "var", "let", "const", "return"]

/-- The text begins with a word `w` that begins no other statement, and what comes behind the
word, if anything, neither continues nor ends a list. -/
def Leads (text : List Char) : Prop :=
  ∃ w r, text = w ++ r ∧ (∀ x ∈ w, isIdentifierChar x = true) ∧
    (∀ x, r.head? = some x → isIdentifierChar x = false ∧ Layout.isSpace x = false ∧
      x ≠ '/' ∧ x ≠ ',' ∧ x ≠ ')') ∧
    ∀ u ∈ statementWords, w ≠ u.toList

/-- What is added behind the word does not change it. -/
theorem Leads.append {text : List Char} (h : Leads text) {x : Char} (hx : x ∈ ['(', '.'])
    (k : List Char) : Leads (text ++ x :: k) := by
  obtain ⟨w, r, rfl, hw, hr, hwords⟩ := h
  refine ⟨w, r ++ x :: k, by rw [List.append_assoc], hw, ?_, hwords⟩
  cases r with
  | nil =>
      intro y hy
      obtain rfl := Option.some.inj hy
      simp only [List.mem_cons, List.not_mem_nil, or_false] at hx
      rcases hx with rfl | rfl <;> decide
  | cons y r => exact hr

/-- A text that begins with a character of no word. -/
theorem leads_of_head {x : Char} (hx : isIdentifierChar x = false ∧ Layout.isSpace x = false ∧
    x ≠ '/' ∧ x ≠ ',' ∧ x ≠ ')') (xs : List Char) : Leads (x :: xs) := by
  refine ⟨[], x :: xs, rfl, by simp, ?_, by decide⟩
  intro y hy
  obtain rfl := Option.some.inj hy
  exact hx

/-- A text that is a word. -/
theorem leads_of_word {w : List Char} (hw : ∀ x ∈ w, isIdentifierChar x = true)
    (hwords : ∀ u ∈ statementWords, w ≠ u.toList) : Leads w :=
  ⟨w, [], by simp, hw, by simp, hwords⟩

theorem Leads.leadingWord_ne {text : List Char} (h : Leads text) {k : List Char}
    (hk : EndsClass isIdentifierChar k) :
    ∀ u ∈ statementWords, leadingWord (text ++ k) ≠ u.toList := by
  obtain ⟨w, r, rfl, hw, hr, hwords⟩ := h
  have hend : EndsClass isIdentifierChar (r ++ k) := by
    cases r with
    | nil => exact hk
    | cons x r => exact endsClass_cons (hr x rfl).1 _
  rw [List.append_assoc, leadingWord_append hw hend]
  exact hwords

/-! ## Operands -/

namespace Rule

def suffix : Peg Rule := .alt (.call .arguments) (.call .property)

def operatorRound : Peg Rule := .seq (.call .binaryOperator) (.call .operand)

end Rule

open Rule

/-- The text is read as a primary expression and suffixes, which are folded into `n`. -/
structure ReadsOperand (text : List Char) (n : Node) : Prop where
  opens : Opens text
  leads : Leads text
  -- what follows may begin with a suffix; folding does not look at it
  chain : ∀ (p : Position) (k : List Char), EndsClass isIdentifierChar k →
    ∃ c m raw ss, programGrammar.run .spaced (.call .primary) ⟨p, text ++ k⟩ = .ok c [m] ∧
      RawNode.ofMatch m = .ok raw ∧
      programGrammar.Steps .spaced suffix c ⟨p.after text, k⟩ ss ∧
      ∀ start, ∃ folded : RawNode, folded.Describes n ∧
        ∀ more, RawNode.ofSuffixes start raw (ss ++ more) = RawNode.ofSuffixes start folded more

/-- Where the text stands in front of what may end it, the rule `r` matches it, up to the layout
behind it, and it is read as `n`. -/
structure ReadsAs (r : Rule) (Ends : List Char → Prop) (text : List Char) (n : Node) : Prop where
  opens : Opens text
  accept : ∀ (p : Position) (k : List Char), Ends k →
    ∃ d m raw, programGrammar.run .spaced (.call r) ⟨p, text ++ k⟩ = .ok d [m] ∧
      Layout.skip d = Layout.skip ⟨p.after text, k⟩ ∧
      RawNode.ofMatch m = .ok raw ∧ raw.Describes n

theorem run_suffix_of_head {c : Cursor} (hc : EndsClass isSuffixStart c.rest) :
    programGrammar.run .spaced suffix c = .fail := by
  refine run_alt_eq_fail_iff.2 ⟨run_call_of_head rfl rfl (hc.head_ne (x := '(') rfl), ?_⟩
  exact run_call_of_head rfl rfl (hc.head_ne (x := '.') rfl)

/-- A chain of rounds among layout that cannot be continued. -/
theorem run_star_spaced {a : Peg Rule} (ha : a.takes takesChar = true) {c d : Cursor}
    {ts : List (MatchTree Rule)} (h : programGrammar.Steps .spaced a c d ts)
    (hstop : programGrammar.run .spaced a (Layout.skip d) = .fail) :
    ∃ d', programGrammar.run .spaced (.star a) (Layout.skip c) = .ok d' ts ∧
      Layout.skip d' = Layout.skip d :=
  run_star_gap (s := .spaced) (fun hr => programRanking.length_lt_of_run_gap ha hr)
    Layout.skip_skip h hstop

/-- **A primary expression with its suffixes is an operand.** -/
theorem ReadsOperand.readsAs {text : List Char} {n : Node} (h : ReadsOperand text n) :
    ReadsAs .operand EndsOperand text n := by
  refine ⟨h.opens, fun p k hk => ?_⟩
  obtain ⟨c, m, raw, ss, hprimary, hraw, hsteps, hfold⟩ := h.chain p k hk.word
  obtain ⟨d, hstar, hd⟩ := run_star_spaced rfl hsteps (run_suffix_of_head (hk.suffix _))
  have hbody : programGrammar.run .spaced (body .operand) ⟨p, text ++ k⟩ = .ok d ([m] ++ ss) :=
    run_seq_ok hprimary hstar
  obtain ⟨folded, hdescribes, hsuffixes⟩ := hfold p
  refine ⟨d, _, folded, (run_node_eq_ok_iff (by decide) (by decide)).2 ⟨_, hbody, rfl⟩, hd, ?_,
    hdescribes⟩
  show RawNode.ofMatch (.node .operand _ _ (m :: ss)) = _
  have hnil := hsuffixes []
  rw [List.append_nil, RawNode.ofSuffixes] at hnil
  rw [RawNode.ofMatch, hraw]
  exact hnil

/-! ## Primary expressions -/

/-- A word is not at the front where another character is. -/
theorem leadingWord_ne_of_head {cs : List Char} {w : String} {x : Char}
    (hw : w.toList.head? = some x) (h : cs.head? ≠ some x) : leadingWord cs ≠ w.toList := by
  intro heq
  rw [← heq, leadingWord] at hw
  cases cs with
  | nil => simp at hw
  | cons y cs =>
      rw [List.takeWhile_cons] at hw
      split at hw
      · exact h hw
      · simp at hw

section

variable {s : Setting} {c : Cursor}

/-- The alternatives of a primary expression that are left where no parenthesis stands. -/
theorem run_primary_of_head (hc : c.rest.head? ≠ some '(') :
    programGrammar.run s (.call .primary) c =
      programGrammar.run s (firstOf (.call .void) [.call .boolean, .call .integer, .call .string,
        .call .array, .call .object, .call .identifier]) c := by
  rw [run_silent rfl]
  show programGrammar.run s (Rule.body .primary) c = _
  rw [Rule.body, firstOf, run_alt_of_fail (run_anonymousFunction_of_head hc), firstOf]
  exact run_alt_of_fail (run_seq_of_fail (run_lit_of_head rfl hc))

/-- Those that are left where no keyword of a value stands either. -/
theorem run_primary_of_word (hc : c.rest.head? ≠ some '(')
    (hwords : ∀ w ∈ ["void", "true", "false"], leadingWord c.rest ≠ w.toList) :
    programGrammar.run s (.call .primary) c =
      programGrammar.run s (firstOf (.call .integer) [.call .string, .call .array, .call .object,
        .call .identifier]) c := by
  have hvoid : programGrammar.run s (.call .void) c = .fail :=
    run_call_of_word ["void"] rfl rfl (by decide) fun w hw => hwords w (by simp_all)
  have hboolean : programGrammar.run s (.call .boolean) c = .fail :=
    run_call_of_word ["true", "false"] rfl rfl (by decide)
      fun w hw => hwords w (List.mem_cons_of_mem _ hw)
  rw [run_primary_of_head hc, firstOf, run_alt_of_fail hvoid, firstOf, run_alt_of_fail hboolean]

def isLiteralStart (x : Char) : Bool := x.isDigit || ['(', '-', '\'', '"'].contains x

/-- Those that are left where none of these characters stands. -/
theorem run_primary_of_start (hc : EndsClass isLiteralStart c.rest)
    (hwords : ∀ w ∈ ["void", "true", "false"], leadingWord c.rest ≠ w.toList) :
    programGrammar.run s (.call .primary) c =
      programGrammar.run s (firstOf (.call .array) [.call .object, .call .identifier]) c := by
  have hinteger : programGrammar.run s (.call .integer) c = .fail :=
    run_integer_of_head (hc.head_ne (by decide)) (hc.mono fun x hx => by simp [isLiteralStart, hx])
  have hstring : programGrammar.run s (.call .string) c = .fail :=
    run_string_of_head (hc.head_ne (by decide)) (hc.head_ne (by decide))
  rw [run_primary_of_word (hc.head_ne (by decide)) hwords, firstOf, run_alt_of_fail hinteger,
    firstOf, run_alt_of_fail hstring]

/-- The words of values are not at the front of a text that begins with no letter. -/
theorem leadingWord_ne_of_not_alpha {cs : List Char} (h : EndsClass Char.isAlpha cs) :
    ∀ w ∈ ["void", "true", "false"], leadingWord cs ≠ w.toList := by
  intro w hw
  simp only [List.mem_cons, List.not_mem_nil, or_false] at hw
  rcases hw with rfl | rfl | rfl
  · exact leadingWord_ne_of_head (x := 'v') rfl (h.head_ne (by decide))
  · exact leadingWord_ne_of_head (x := 't') rfl (h.head_ne (by decide))
  · exact leadingWord_ne_of_head (x := 'f') rfl (h.head_ne (by decide))

end

/-- A primary expression is an operand without suffixes. -/
theorem readsOperand_of_primary {text : List Char} {n : Node} (hopens : Opens text)
    (hleads : Leads text)
    (h : ∀ (p : Position) (k : List Char), EndsClass isIdentifierChar k →
      ∃ m raw, programGrammar.run .spaced (.call .primary) ⟨p, text ++ k⟩ =
          .ok ⟨p.after text, k⟩ [m] ∧ RawNode.ofMatch m = .ok raw ∧ raw.Describes n) :
    ReadsOperand text n where
  opens := hopens
  leads := hleads
  chain p k hk := by
    obtain ⟨m, raw, hrun, hraw, hdescribes⟩ := h p k hk
    exact ⟨_, m, raw, [], hrun, hraw, .refl _, fun _ => ⟨raw, hdescribes, fun _ => rfl⟩⟩

/-- The same for a primary expression that begins with a character of no word. -/
theorem readsOperand_of_head {x : Char} {xs : List Char} {n : Node}
    (hblank : isBlank x = false) (hx : isIdentifierChar x = false ∧ Layout.isSpace x = false ∧
      x ≠ '/' ∧ x ≠ ',' ∧ x ≠ ')')
    (h : ∀ (p : Position) (k : List Char),
      ∃ m raw, programGrammar.run .spaced (.call .primary) ⟨p, x :: xs ++ k⟩ =
          .ok ⟨p.after (x :: xs), k⟩ [m] ∧ RawNode.ofMatch m = .ok raw ∧ raw.Describes n) :
    ReadsOperand (x :: xs) n :=
  readsOperand_of_primary ⟨x, xs, rfl, hblank, hx.2.2.1⟩ (leads_of_head hx xs) fun p k _ => h p k

section

variable {i : Nat} {span : Span}

theorem describes_leaf {raw : RawNode} {kind : Kind} (hkind : raw.kind = .ok kind)
    (hchildren : raw.children = []) : raw.Describes ⟨i, kind, [], span⟩ :=
  .intro hkind (by rw [hchildren]; exact .nil)

theorem readsOperand_boolean (b : Bool) :
    ReadsOperand (if b then "true" else "false").toList ⟨i, .boolean b, [], span⟩ := by
  have hword : (if b then "true" else "false") ∈ ["true", "false"] := by cases b <;> decide
  have hchars : ∀ x ∈ (if b then "true" else "false").toList, isIdentifierChar x = true :=
    isIdentifierChar_of_mem_keywords (by cases b <;> decide)
  refine readsOperand_of_primary ?_ (leads_of_word hchars (by cases b <;> decide)) ?_
  · cases b
    · exact ⟨'f', _, rfl, by decide, by decide⟩
    · exact ⟨'t', _, rfl, by decide, by decide⟩
  · intro p k hk
    have hparen : ((if b then "true" else "false").toList ++ k).head? ≠ some '(' := by
      cases b <;> simp
    have hvoid : programGrammar.run .spaced (.call .void)
        ⟨p, (if b then "true" else "false").toList ++ k⟩ = .fail := by
      refine run_call_of_word ["void"] rfl rfl (by decide) fun w hw => ?_
      rw [leadingWord_append hchars hk, List.mem_singleton.1 hw]
      cases b <;> decide
    have hrun := run_primary_of_head (s := .spaced) (c := ⟨p, _⟩) hparen
    rw [firstOf, run_alt_of_fail hvoid, firstOf,
      run_alt_of_ok (run_boolean hword (by decide) hk)] at hrun
    refine ⟨_, _, hrun, by rw [RawNode.ofMatch]; rfl, describes_leaf ?_ rfl⟩
    cases b <;> rfl

theorem readsOperand_integer (v : Int64) :
    ReadsOperand (toString v.toInt).toList ⟨i, .integer v, [], span⟩ := by
  obtain ⟨sign, ds, htext, hminus, hne, hds, hvalue⟩ := Decimal.exists_sign_digits v.toInt
  have hsign : sign = [] ∨ sign = ['-'] := by
    rw [hminus]
    split
    · exact .inr rfl
    · exact .inl rfl
  rw [htext]
  -- the first character is the sign or a digit
  obtain ⟨x, xs, hx, hfirst⟩ : ∃ x xs, sign ++ ds = x :: xs ∧ (x = '-' ∨ x.isDigit = true) := by
    obtain ⟨y, ys, rfl⟩ := List.exists_cons_of_ne_nil hne
    rcases hsign with rfl | rfl
    · exact ⟨y, ys, rfl, .inr (hds y (by simp))⟩
    · exact ⟨'-', y :: ys, rfl, .inl rfl⟩
  have hrange : 45 ≤ x.toNat ∧ x.toNat ≤ 57 ∧ x ≠ '/' ∧ x ≠ '(' := by
    rcases hfirst with rfl | hdigit
    · decide
    · have := toNat_of_isDigit hdigit
      refine ⟨by omega, by omega, ?_, ?_⟩ <;> (rintro rfl; simp at hdigit)
  refine readsOperand_of_primary ?_ ?_ ?_
  · exact ⟨x, xs, hx, isBlank_eq_false (by omega) (by omega), hrange.2.2.1⟩
  · rcases hsign with rfl | rfl
    · refine leads_of_word (fun y hy => ?_) fun u hu heq => ?_
      · simp [isIdentifierChar, Char.isAlphanum, hds y hy]
      · have hall : ∀ u ∈ statementWords, u.toList.all Char.isDigit = false := by decide
        have hdigits : u.toList.all Char.isDigit = true := by
          rw [← heq]
          exact List.all_eq_true.2 hds
        rw [hall u hu] at hdigits
        exact absurd hdigits Bool.false_ne_true
    · exact leads_of_head (by decide) ds
  · intro p k hk
    have hparen : ((sign ++ ds) ++ k).head? ≠ some '(' := by
      rw [hx]
      simpa using hrange.2.2.2
    have halpha : EndsClass Char.isAlpha ((sign ++ ds) ++ k) := by
      rw [hx]
      exact endsClass_cons (isAlpha_eq_false (by omega)) _
    have hrun := run_primary_of_word (s := .spaced) (c := ⟨p, _⟩) hparen
      (leadingWord_ne_of_not_alpha halpha)
    rw [firstOf, run_alt_of_ok (run_integer hsign hne hds (by decide) hk)] at hrun
    refine ⟨_, { RawNode.ofType .integer [] ⟨p, p.after (sign ++ ds)⟩ with
      value := some (.integer v) }, hrun, ?_, describes_leaf rfl rfl⟩
    rw [RawNode.ofMatch, hvalue, Decimal.toInt64?_toInt]
    rfl

/-- A quoted value is read as the string whose value is what stands between the quotes. -/
theorem readsOperand_string {v : String} (hv : paired v.toList = true) :
    ReadsOperand (quote v).toList
      ⟨i, .string (String.ofList (quoteChars v.toList)), [], span⟩ := by
  rw [quote, String.toList_ofList]
  refine readsOperand_of_head (by decide) (by decide) fun p k => ?_
  obtain ⟨qspan, hrun⟩ := run_string (p := p) (k := k) (.inl rfl) (quoted_quoteChars hv)
    (s := .spaced) (by decide)
  have halpha : EndsClass Char.isAlpha (('\'' :: quoteChars v.toList ++ ['\'']) ++ k) :=
    endsClass_cons (by decide) _
  have hprimary := run_primary_of_word (s := .spaced) (c := ⟨p, _⟩) (by simp)
    (leadingWord_ne_of_not_alpha halpha)
  rw [firstOf, run_alt_of_fail (run_integer_of_head (by simp) (endsClass_cons (by decide) _)),
    firstOf, run_alt_of_ok hrun] at hprimary
  exact ⟨_, _, hprimary, by rw [RawNode.ofMatch]; rfl, describes_leaf rfl rfl⟩

/-- A name begins with a letter or an underscore. -/
theorem IsIdentifier.opens {name : List Char} (h : IsIdentifier name) : Opens name := by
  obtain ⟨x, hhead, hstart⟩ := h.start
  obtain ⟨xs, hx⟩ := List.head?_eq_some_iff.1 hhead
  have hrange := toNat_of_isIdentifierStart hstart
  refine ⟨x, xs, hx, isBlank_eq_false (by omega) (by omega), ?_⟩
  rintro rfl
  simp at hrange

/-- A name is read as an identifier. -/
theorem readsOperand_identifier {name : String} (hname : IsIdentifier name.toList) :
    ReadsOperand name.toList ⟨i, .identifier name, [], span⟩ := by
  obtain ⟨x, hhead, hstart⟩ := hname.start
  obtain ⟨xs, hx⟩ := List.head?_eq_some_iff.1 hhead
  have hrange := toNat_of_isIdentifierStart hstart
  refine readsOperand_of_primary hname.opens ?_ ?_
  · refine leads_of_word hname.chars fun u hu => hname.not_keyword u ?_
    revert u
    decide
  · intro p k hk
    -- the first character begins a name and so nothing else
    have hne {y : Char} (hy : isIdentifierStart y = false) :
        (name.toList ++ k).head? ≠ some y := by
      rw [hx]
      intro h
      obtain rfl : x = y := Option.some.inj h
      rw [hstart] at hy
      simp at hy
    have hliteral : EndsClass isLiteralStart (name.toList ++ k) := by
      rw [hx]
      refine endsClass_cons ?_ _
      simp only [isLiteralStart, isDigit_eq_false (.inr (by omega : 57 < x.toNat)), Bool.false_or,
        List.contains_eq_mem, decide_eq_false_iff_not]
      intro hmem
      simp only [List.mem_cons, List.not_mem_nil, or_false] at hmem
      rcases hmem with rfl | rfl | rfl | rfl <;> simp [isIdentifierStart] at hstart
    have hwords : ∀ w ∈ ["void", "true", "false"], leadingWord (name.toList ++ k) ≠ w.toList := by
      rw [leadingWord_append hname.chars hk]
      intro w hw
      refine hname.not_keyword w ?_
      revert w
      decide
    have hrun := run_primary_of_start (s := .spaced) (c := ⟨p, _⟩) hliteral hwords
    rw [firstOf, run_alt_of_fail (run_call_of_head (r := .array) rfl rfl (hne (by decide))),
      firstOf, run_alt_of_fail (run_call_of_head (r := .object) rfl rfl (hne (by decide))),
      firstOf, run_call_identifier hname (by decide) hk] at hrun
    refine ⟨_, _, hrun, by rw [RawNode.ofMatch]; rfl, describes_leaf ?_ rfl⟩
    show Except.ok (Kind.identifier (String.ofList name.toList)) = _
    rw [String.ofList_toList]

end

end ExprScript
