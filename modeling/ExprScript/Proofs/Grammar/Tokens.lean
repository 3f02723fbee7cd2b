import ExprScript.Proofs.Grammar.Program

set_option autoImplicit false

/-! # Tokens

What the tokens of the program grammar are, said about the text alone.

* A keyword is matched where the word at the front of the text, taken as far as it goes, is one
  of the given words (`run_word_of_mem`, `run_word_of_not_mem`).
* An identifier is a word that starts with a letter or underscore and is no keyword
  (`IsIdentifier`).
* The content of a string has a character behind every backslash that does not belong to the
  character before it (`paired`).
-/

namespace ExprScript

open Grammar

/-! ## Characters of a class -/

section

variable {ρ : Type} {G : Grammar ρ} {a : Peg ρ} {p : Char → Bool}

/-- The text does not go on with a character of the class. -/
def EndsClass (p : Char → Bool) (cs : List Char) : Prop := ∀ x, cs.head? = some x → p x = false

theorem endsClass_cons {x : Char} (hx : p x = false) (cs : List Char) : EndsClass p (x :: cs) := by
  intro y hy
  obtain rfl := Option.some.inj hy
  exact hx

theorem EndsClass.head_ne {cs : List Char} (h : EndsClass p cs) {x : Char} (hx : p x = true) :
    cs.head? ≠ some x := by
  intro hhead
  have := h x hhead
  rw [hx] at this
  simp at this

theorem EndsClass.mono {f : Char → Bool} (hf : ∀ x, f x = true → p x = true) {cs : List Char}
    (h : EndsClass p cs) : EndsClass f cs := by
  intro x hx
  cases hfx : f x with
  | false => rfl
  | true => exact absurd hx (h.head_ne (hf x hfx))

theorem step?_eq_none_of_endsClass {cs : List Char} (h : EndsClass p cs) {q : Position} :
    Cursor.step? p ⟨q, cs⟩ = none := Cursor.step?_eq_none_iff.2 h

theorem reads_of_steps_class (ha : ∀ c, G.run .token a c = .ofCursor? (c.step? p))
    {c d : Cursor} {ts : List (MatchTree ρ)} (h : G.Steps .token a c d ts) :
    ∃ cs, c.Reads cs d ∧ ∀ x ∈ cs, p x = true := by
  induction h with
  | refl c => exact ⟨[], .refl c, by simp⟩
  | head hr _ ih =>
      obtain ⟨cs, hcs, hp⟩ := ih
      rw [ha] at hr
      obtain ⟨x, hx, hread⟩ := Cursor.step?_eq_some_iff.1 (Outcome.ofCursor?_eq_ok_iff.1 hr).1
      exact ⟨x :: cs, hread.trans hcs, List.forall_mem_cons.2 ⟨hx, hp⟩⟩

theorem steps_class (ha : ∀ c, G.run .token a c = .ofCursor? (c.step? p)) {cs : List Char}
    (hcs : ∀ x ∈ cs, p x = true) (q : Position) (k : List Char) :
    G.Steps .token a ⟨q, cs ++ k⟩ ⟨q.after cs, k⟩ [] := by
  induction cs generalizing q with
  | nil => exact .refl _
  | cons x cs ih =>
      obtain ⟨hx, hrest⟩ := List.forall_mem_cons.1 hcs
      have hr : G.run .token a ⟨q, x :: (cs ++ k)⟩ = .ok ⟨q.advance x, cs ++ k⟩ [] := by
        rw [ha, Cursor.step?, if_pos hx]
        rfl
      exact .head_nil hr (ih hrest _)

/-- A repetition of a class takes all characters of the class there are. -/
theorem run_star_class (ha : ∀ c, G.run .token a c = .ofCursor? (c.step? p)) {cs : List Char}
    (hcs : ∀ x ∈ cs, p x = true) {k : List Char} (hk : EndsClass p k) (q : Position) :
    G.run .token (.star a) ⟨q, cs ++ k⟩ = .ok ⟨q.after cs, k⟩ [] := by
  refine run_star_of_steps (fun {c c₁ us} hr => ?_) rfl (steps_class ha hcs q k) ?_
  · rw [ha] at hr
    obtain ⟨x, -, hread⟩ := Cursor.step?_eq_some_iff.1 (Outcome.ofCursor?_eq_ok_iff.1 hr).1
    have hlen := hread.length_eq
    simp only [List.length_singleton] at hlen
    show c₁.rest.length < (G.gap .token c).rest.length
    omega
  · show G.run .token a ⟨q.after cs, k⟩ = .fail
    rw [ha, step?_eq_none_of_endsClass hk]
    rfl

theorem reads_of_run_star_class (ha : ∀ c, G.run .token a c = .ofCursor? (c.step? p))
    {c d : Cursor} {ts : List (MatchTree ρ)} (h : G.run .token (.star a) c = .ok d ts) :
    ∃ cs, c.Reads cs d ∧ (∀ x ∈ cs, p x = true) ∧ EndsClass p d.rest := by
  have ends {c : Cursor} (hf : G.run .token a c = .fail) : EndsClass p c.rest := by
    rwa [ha, Outcome.ofCursor?_eq_fail_iff, Cursor.step?_eq_none_iff] at hf
  rcases run_star_eq_ok h with ⟨hf, rfl, -⟩ | ⟨c₁, us, vs, hr, hsteps, hf, -⟩
  · exact ⟨[], .refl _, by simp, ends hf⟩
  · obtain ⟨cs, hcs, hp⟩ := reads_of_steps_class ha (.head (c := c) hr hsteps)
    exact ⟨cs, hcs, hp, ends hf⟩

end

/-! ## Words -/

def leadingWord (cs : List Char) : List Char := cs.takeWhile isIdentifierChar

theorem leadingWord_append {w k : List Char} (hw : ∀ x ∈ w, isIdentifierChar x = true)
    (hk : EndsClass isIdentifierChar k) : leadingWord (w ++ k) = w := by
  rw [leadingWord, List.takeWhile_append_of_pos hw]
  cases k with
  | nil => simp
  | cons x k => simp [hk x rfl]

theorem isIdentifierChar_of_mem_keywords {w : String} (hw : w ∈ keywords) :
    ∀ x ∈ w.toList, isIdentifierChar x = true := by
  have hall : ∀ w ∈ keywords, w.toList.all isIdentifierChar = true := by decide
  exact List.all_eq_true.1 (hall w hw)

/-- No keyword begins another. -/
theorem eq_of_prefix_of_mem_keywords :
    ∀ u ∈ keywords, ∀ w ∈ keywords, u.toList <+: w.toList → u = w := by decide

/-- The first of some texts that matches. -/
theorem run_oneOf {ρ : Type} {G : Grammar ρ} {s : Setting} (ws : List String) (c : Cursor) :
    G.run s (.oneOf ws) c = .ofCursor? (ws.findSome? fun w => c.strip? w.toList) := by
  induction ws using Peg.oneOf.induct with
  | case1 => simp [Peg.oneOf, run_absent, run_lit, Cursor.strip?, Outcome.ofCursor?]
  | case2 w =>
      rw [Peg.oneOf, run_lit]
      cases h : c.strip? w.toList <;> simp [h]
  | case3 w u us ih =>
      rw [Peg.oneOf, run_alt, run_lit, ih]
      cases h : c.strip? w.toList <;> simp [h, Outcome.ofCursor?]

namespace Rule

theorem run_identifierChar (c : Cursor) :
    programGrammar.run .token (.call .identifierChar) c =
      .ofCursor? (c.step? isIdentifierChar) := by
  rw [run_silent rfl]
  exact run_one _

theorem run_wordEnd (c : Cursor) :
    programGrammar.run .token wordEnd c =
      match c.step? isIdentifierChar with
      | some _ => .fail
      | none => .ok c [] := by
  rw [wordEnd, run_absent, run_identifierChar]
  cases c.step? isIdentifierChar <;> rfl

variable {ws : List String} {w : String}

/-- A rule for some keywords does not match where another word stands. -/
theorem run_word_of_not_mem (hws : ∀ w ∈ ws, w ∈ keywords)
    {c : Cursor} (h : ∀ w ∈ ws, leadingWord c.rest ≠ w.toList) :
    programGrammar.run .token (.seq (.oneOf ws) wordEnd) c = .fail := by
  rw [run_seq, run_oneOf]
  cases hfind : ws.findSome? fun w => c.strip? w.toList with
  | none => rfl
  | some d =>
      obtain ⟨w, hw, hstrip⟩ := List.exists_of_findSome?_eq_some hfind
      have hreads := Cursor.strip?_eq_some_iff.1 hstrip
      show (programGrammar.run .token wordEnd d).after [] = .fail
      rw [run_wordEnd, Outcome.after_eq_fail_iff]
      cases hend : d.step? isIdentifierChar with
      | some _ => rfl
      | none =>
          -- the word that was read would be all of the word at the front
          refine absurd ?_ (h w hw)
          rw [hreads.rest]
          exact leadingWord_append (isIdentifierChar_of_mem_keywords (hws w hw))
            (Cursor.step?_eq_none_iff.1 hend)

/-- A rule for some keywords matches each of them. -/
theorem run_word_of_mem (hws : ∀ w ∈ ws, w ∈ keywords) (hw : w ∈ ws)
    {k : List Char} (hk : EndsClass isIdentifierChar k) (p : Position) :
    programGrammar.run .token (.seq (.oneOf ws) wordEnd) ⟨p, w.toList ++ k⟩ =
      .ok ⟨p.after w.toList, k⟩ [] := by
  rw [run_seq, run_oneOf]
  cases hfind : ws.findSome? fun u => Cursor.strip? u.toList ⟨p, w.toList ++ k⟩ with
  | none =>
      have hnone := List.findSome?_eq_none_iff.1 hfind w hw
      rw [Cursor.strip?_append] at hnone
      exact absurd hnone (Option.some_ne_none _)
  | some d =>
      obtain ⟨u, hu, hstrip⟩ := List.exists_of_findSome?_eq_some hfind
      have hreads := Cursor.strip?_eq_some_iff.1 hstrip
      -- both words stand at the front, and the longer one is the word that is there
      have hinitial : u.toList <+: w.toList := by
        have hrest : w.toList ++ k = u.toList ++ d.rest := hreads.rest
        rw [← leadingWord_append (isIdentifierChar_of_mem_keywords (hws w hw)) hk, leadingWord,
          hrest, List.takeWhile_append_of_pos (isIdentifierChar_of_mem_keywords (hws u hu))]
        exact List.prefix_append _ _
      obtain rfl := eq_of_prefix_of_mem_keywords u (hws u hu) w (hws w hw) hinitial
      rw [hreads.stop_eq]
      show (programGrammar.run .token wordEnd ⟨p.after u.toList, k⟩).after [] = _
      rw [run_wordEnd, step?_eq_none_of_endsClass hk]
      rfl

end Rule

/-! ## Identifiers -/

structure IsIdentifier (cs : List Char) : Prop where
  start : ∃ x, cs.head? = some x ∧ isIdentifierStart x = true
  chars : ∀ x ∈ cs, isIdentifierChar x = true
  not_keyword : ∀ w ∈ keywords, cs ≠ w.toList

theorem isIdentifierChar_of_start {x : Char} (h : isIdentifierStart x = true) :
    isIdentifierChar x = true := by
  simp only [isIdentifierStart, isIdentifierChar, Char.isAlphanum, Bool.or_eq_true] at h ⊢
  exact h.imp_left .inl

namespace Rule

theorem run_keyword_of_not_mem {c : Cursor} (h : ∀ w ∈ keywords, leadingWord c.rest ≠ w.toList) :
    programGrammar.run .token (.call .keyword) c = .fail :=
  run_call_eq_fail_iff.2 (run_word_of_not_mem (fun _ hw => hw) h)

theorem run_keyword_of_mem {w : String} (hw : w ∈ keywords) {k : List Char}
    (hk : EndsClass isIdentifierChar k) (p : Position) :
    programGrammar.run .token (.call .keyword) ⟨p, w.toList ++ k⟩ =
      .ok ⟨p.after w.toList, k⟩ [] := by
  have h := run_word_of_mem (fun _ hw => hw) hw hk p
  rw [run_call]
  change programGrammar.wrap _ _ _ (programGrammar.run .token (body .keyword) _) = _
  rw [body, h, wrap_token (by decide)]

/-- An identifier is matched as far as its word goes. -/
theorem run_identifier {name k : List Char} (h : IsIdentifier name)
    (hk : EndsClass isIdentifierChar k) (p : Position) :
    programGrammar.run .token (body .identifier) ⟨p, name ++ k⟩ = .ok ⟨p.after name, k⟩ [] := by
  have hkeyword : programGrammar.run .token (.call .keyword) ⟨p, name ++ k⟩ = .fail := by
    refine run_keyword_of_not_mem ?_
    rw [leadingWord_append h.chars hk]
    exact h.not_keyword
  obtain ⟨x, hx, hstart⟩ := h.start
  obtain ⟨xs, rfl⟩ := List.head?_eq_some_iff.1 hx
  have hfirst : programGrammar.run .token (.one isIdentifierStart) ⟨p, x :: xs ++ k⟩ =
      .ok ⟨p.advance x, xs ++ k⟩ [] := by
    rw [run_one, List.cons_append, Cursor.step?, if_pos hstart]
    rfl
  have hxs := run_star_class run_identifierChar (List.forall_mem_cons.1 h.chars).2 hk
    (p.advance x)
  rw [body, Peg.inOrder, run_seq_of_ok (run_absent_of_fail hkeyword), Outcome.after_nil]
  show programGrammar.run .token (.seq (.one isIdentifierStart) _) ⟨p, x :: xs ++ k⟩ = _
  rw [run_seq_of_ok hfirst, Outcome.after_nil]
  exact hxs

/-- What an identifier rule matches is an identifier, and the word goes no further. -/
theorem isIdentifier_of_run {c d : Cursor} {ts : List (MatchTree Rule)}
    (h : programGrammar.run .token (body .identifier) c = .ok d ts) :
    ∃ name, c.Reads name d ∧ IsIdentifier name ∧ EndsClass isIdentifierChar d.rest := by
  obtain ⟨c₁, _, _, habsent, hrest, -⟩ := run_seq_eq_ok_iff.1 h
  obtain ⟨hkeyword, rfl, -⟩ := run_absent_eq_ok_iff.1 habsent
  obtain ⟨c₂, _, _, hone, hstar, -⟩ := run_seq_eq_ok_iff.1 hrest
  rw [run_one] at hone
  obtain ⟨x, hx, hread⟩ := Cursor.step?_eq_some_iff.1 (Outcome.ofCursor?_eq_ok_iff.1 hone).1
  obtain ⟨xs, hreads, hxs, hend⟩ := reads_of_run_star_class run_identifierChar hstar
  have hall : c₁.Reads (x :: xs) d := hread.trans hreads
  refine ⟨x :: xs, hall, ⟨⟨x, rfl, hx⟩, ?_, ?_⟩, hend⟩
  · exact List.forall_mem_cons.2 ⟨isIdentifierChar_of_start hx, hxs⟩
  · intro w hw heq
    have hmatch := run_keyword_of_mem hw hend c₁.pos
    rw [← heq, ← hall.start_eq, hkeyword] at hmatch
    simp at hmatch

/-- The text of an identifier tree is an identifier. -/
theorem identifier_of_derived {span : Span} {text : List Char} {ts : List (MatchTree Rule)}
    (h : programGrammar.Derived (.node .identifier span text ts)) : IsIdentifier text := by
  obtain ⟨c, d, hrun, hreads, -⟩ := h.token rfl programRanking.skipReads
  obtain ⟨name, hname, hid, -⟩ := isIdentifier_of_run hrun
  have htext : text = name := by rw [← hreads.upTo_eq, hname.upTo_eq]
  rwa [htext]

/-- The text of an operator tree is one of the operators. -/
theorem operator_of_derived {span : Span} {text : List Char} {ts : List (MatchTree Rule)}
    (h : programGrammar.Derived (.node .binaryOperator span text ts)) :
    String.ofList text ∈ operators := by
  cases h with
  | @node _ s c d _ _ _ hbody _ =>
      change programGrammar.run s (.oneOf operators) c = .ok d ts at hbody
      rw [run_oneOf] at hbody
      obtain ⟨w, hw, hstrip⟩ :=
        List.exists_of_findSome?_eq_some (Outcome.ofCursor?_eq_ok_iff.1 hbody).1
      rw [(Cursor.strip?_eq_some_iff.1 hstrip).upTo_eq, String.ofList_toList]
      exact hw

/-- The text of the tree of a rule for some words is one of them. -/
theorem word_of_derived {r : Rule} (ws : List String) (hr : r.body = .seq (.oneOf ws) wordEnd)
    (hmode : r.mode = .token) {span : Span} {text : List Char} {ts : List (MatchTree Rule)}
    (h : programGrammar.Derived (.node r span text ts)) : ∃ w ∈ ws, text = w.toList := by
  obtain ⟨c, d, hrun, hreads, -⟩ := h.token hmode programRanking.skipReads
  change programGrammar.run .token r.body c = .ok d [] at hrun
  rw [hr] at hrun
  obtain ⟨c₁, _, _, hword, hend, -⟩ := run_seq_eq_ok_iff.1 hrun
  obtain ⟨-, rfl, -⟩ := run_absent_eq_ok_iff.1 hend
  rw [run_oneOf] at hword
  obtain ⟨w, hw, hstrip⟩ :=
    List.exists_of_findSome?_eq_some (Outcome.ofCursor?_eq_ok_iff.1 hword).1
  have hread : c.Reads w.toList d := Cursor.strip?_eq_some_iff.1 hstrip
  exact ⟨w, hw, hreads.upTo_eq.symm.trans hread.upTo_eq⟩

/-- The text of an integer tree is a sign or none, and digits. -/
theorem integer_of_derived {span : Span} {text : List Char} {ts : List (MatchTree Rule)}
    (h : programGrammar.Derived (.node .integer span text ts)) :
    ∃ sign ds, text = sign ++ ds ∧ (sign = [] ∨ sign = ['-']) ∧ ds ≠ [] ∧
      ∀ x ∈ ds, x.isDigit = true := by
  obtain ⟨c, d, hrun, hreads, -⟩ := h.token rfl programRanking.skipReads
  obtain ⟨c₁, _, _, hopt, hrest, -⟩ := run_seq_eq_ok_iff.1 hrun
  obtain ⟨c₂, _, _, hone, hrest, -⟩ := run_seq_eq_ok_iff.1 hrest
  obtain ⟨c₃, _, _, hstar, hend, -⟩ := run_seq_eq_ok_iff.1 hrest
  obtain ⟨-, rfl, -⟩ := run_absent_eq_ok_iff.1 hend
  have hsign : ∃ sign, c.Reads sign c₁ ∧ (sign = [] ∨ sign = ['-']) := by
    rw [run_opt, run_lit] at hopt
    cases hminus : c.strip? "-".toList with
    | some d =>
        simp only [hminus, Outcome.ofCursor?, Outcome.ok.injEq] at hopt
        exact ⟨['-'], hopt.1 ▸ Cursor.strip?_eq_some_iff.1 hminus, .inr rfl⟩
    | none =>
        simp only [hminus, Outcome.ofCursor?, Outcome.ok.injEq] at hopt
        exact ⟨[], hopt.1 ▸ .refl c, .inl rfl⟩
  obtain ⟨sign, hread, hsign⟩ := hsign
  rw [run_one] at hone
  obtain ⟨x, hx, hfirst⟩ := Cursor.step?_eq_some_iff.1 (Outcome.ofCursor?_eq_ok_iff.1 hone).1
  obtain ⟨xs, hdigits, hxs, -⟩ := reads_of_run_star_class (fun c => run_one _) hstar
  refine ⟨sign, x :: xs, ?_, hsign, by simp, List.forall_mem_cons.2 ⟨hx, hxs⟩⟩
  exact hreads.upTo_eq.symm.trans (hread.trans (hfirst.trans hdigits)).upTo_eq

/-- No identifier begins here. -/
theorem run_identifier_of_not_start {c : Cursor} (h : EndsClass isIdentifierStart c.rest) :
    programGrammar.run .token (body .identifier) c = .fail := by
  have hfirst : programGrammar.run .token (.one isIdentifierStart) c = .fail := by
    rw [run_one, step?_eq_none_of_endsClass h]
    rfl
  have hrest : programGrammar.run .token
      (.seq (.one isIdentifierStart) (.star (.call .identifierChar))) c = .fail :=
    run_seq_of_fail hfirst
  rw [body, Peg.inOrder, run_seq]
  cases hr : programGrammar.run .token (.absent (.call .keyword)) c with
  | ok c₁ us =>
      obtain ⟨-, rfl, rfl⟩ := run_absent_eq_ok_iff.1 hr
      exact Outcome.after_eq_fail_iff.2 hrest
  | fail => rfl
  | exhausted => exact absurd hr (programRanking.run_ne_exhausted rfl)

end Rule

/-! ## Strings -/

/-- Every backslash that does not belong to the character before it has a character behind
it. -/
def paired : List Char → Bool
  | [] => true
  | ['\\'] => false
  | '\\' :: _ :: cs => paired cs
  | _ :: cs => paired cs

theorem paired_cons {x : Char} (hx : x ≠ '\\') (cs : List Char) :
    paired (x :: cs) = paired cs := by
  rw [paired.eq_def]
  simp [hx]

/-- What can stand between two quotes `q`: pairs of a backslash and a character, and characters
that are neither a backslash nor the quote. -/
inductive Quoted (q : Char) : List Char → Prop where
  | nil : Quoted q []
  | pair (x : Char) {cs : List Char} (h : Quoted q cs) : Quoted q ('\\' :: x :: cs)
  | char {x : Char} {cs : List Char} (hq : x ≠ q) (hx : x ≠ '\\') (h : Quoted q cs) :
      Quoted q (x :: cs)

theorem paired_of_quoted {q : Char} {cs : List Char} (h : Quoted q cs) : paired cs = true := by
  induction h with
  | nil => rfl
  | pair x _ ih => exact ih
  | char _ hx _ ih => rw [paired_cons hx, ih]

namespace Rule

/-- One round of the content of a string. -/
def quotedRound (q : String) : Peg Rule :=
  .alt (.seq (.lit "\\") (.one fun _ => true)) (.seq (.absent (.lit q)) (.one fun _ => true))

variable {q : String} {y : Char}

/-- A round takes a backslash with the character behind it, or one character other than the quote;
a backslash alone only at the end of the text. -/
theorem reads_of_run_quotedRound (hq : q.toList = [y]) {c d : Cursor} {ts : List (MatchTree Rule)}
    (h : programGrammar.run .token (quotedRound q) c = .ok d ts) :
    (∃ x, c.Reads ['\\', x] d) ∨ ∃ x, c.Reads [x] d ∧ x ≠ y ∧ (x = '\\' → d.rest = []) := by
  rcases run_alt_eq_ok_iff.1 h with hpair | ⟨hnot, hsingle⟩
  · obtain ⟨c₁, _, _, hlit, hone, -⟩ := run_seq_eq_ok_iff.1 hpair
    rw [run_lit] at hlit
    rw [run_one] at hone
    have hback := Cursor.strip?_eq_some_iff.1 (Outcome.ofCursor?_eq_ok_iff.1 hlit).1
    obtain ⟨x, -, hx⟩ := Cursor.step?_eq_some_iff.1 (Outcome.ofCursor?_eq_ok_iff.1 hone).1
    exact .inl ⟨x, hback.trans hx⟩
  · obtain ⟨c₁, _, _, habsent, hone, -⟩ := run_seq_eq_ok_iff.1 hsingle
    obtain ⟨hquote, rfl, -⟩ := run_absent_eq_ok_iff.1 habsent
    rw [run_one] at hone
    obtain ⟨x, -, hx⟩ := Cursor.step?_eq_some_iff.1 (Outcome.ofCursor?_eq_ok_iff.1 hone).1
    refine .inr ⟨x, hx, ?_, ?_⟩
    · -- the quote itself is ruled out
      rintro rfl
      have hstrip : c₁.strip? [x] = some d := Cursor.strip?_eq_some_iff.2 hx
      rw [run_lit, hq, hstrip] at hquote
      cases hquote
    · -- with a character behind it, the backslash would have been taken as a pair
      rintro rfl
      have hlit : programGrammar.run .token (.lit "\\") c₁ = .ok d [] := by
        have hstrip : c₁.strip? "\\".toList = some d := Cursor.strip?_eq_some_iff.2 hx
        rw [run_lit, hstrip]
        rfl
      rw [run_seq_of_ok hlit, Outcome.after_nil, run_one, Outcome.ofCursor?_eq_fail_iff,
        Cursor.step?_eq_none_iff] at hnot
      cases hd : d.rest with
      | nil => rfl
      | cons y ys => exact absurd (hnot y (by show d.rest.head? = _; rw [hd]; rfl)) (by simp)

/-- What rounds of a string's content read can stand between quotes, if something is left behind
it. -/
theorem quoted_of_steps (hq : q.toList = [y]) {c d : Cursor} {ts : List (MatchTree Rule)}
    (h : programGrammar.Steps .token (quotedRound q) c d ts) (hd : d.rest ≠ []) :
    ∃ cs, c.Reads cs d ∧ Quoted y cs := by
  induction h with
  | refl c => exact ⟨[], .refl c, .nil⟩
  | @head c c₁ d ts us hr rest ih =>
      obtain ⟨cs, hcs, hquoted⟩ := ih hd
      rcases reads_of_run_quotedRound hq hr with ⟨x, hx⟩ | ⟨x, hx, hxy, hlast⟩
      · exact ⟨_, hx.trans hcs, .pair x hquoted⟩
      · have hne : x ≠ '\\' := by
          intro hback
          have hrest := hcs.rest
          rw [hlast hback] at hrest
          exact hd (List.append_eq_nil_iff.1 hrest.symm).2
        exact ⟨x :: cs, hx.trans hcs, .char hxy hne hquoted⟩

theorem quoted_of_run_quoted (hq : q.toList = [y]) {c d : Cursor} {ts : List (MatchTree Rule)}
    (h : programGrammar.run .token (quoted q) c = .ok d ts) (hd : d.rest ≠ []) :
    ∃ cs, c.Reads cs d ∧ Quoted y cs := by
  rcases run_star_eq_ok h with ⟨-, rfl, -⟩ | ⟨c₁, us, vs, hr, hsteps, -, -⟩
  · exact ⟨[], .refl d, .nil⟩
  · exact quoted_of_steps hq (.head (c := c) hr hsteps) hd

/-- **A string is a text between quotes**, and its tree holds the text between them. -/
theorem quoted_of_run_string {c d : Cursor} {ts : List (MatchTree Rule)}
    (h : programGrammar.run .glued (body .string) c = .ok d ts) :
    ∃ y content, (y = '\'' ∨ y = '"') ∧ Quoted y content ∧ c.Reads (y :: (content ++ [y])) d ∧
      ∃ r s us, ts = [.node r s content us] := by
  -- the alternatives differ in the quote and in the rule of the text between two of them
  have between {r : Rule} {q : String} {y : Char} (hr : r.mode = .token)
      (hbody : r.body = quoted q) (hq : q.toList = [y])
      (h : programGrammar.run .glued (.seq (.lit q) (.seq (.call r) (.lit q))) c = .ok d ts) :
      ∃ content, Quoted y content ∧ c.Reads (y :: (content ++ [y])) d ∧
        ∃ r s us, ts = [.node r s content us] := by
    obtain ⟨c₁, us, _, hopen, hrest, rfl⟩ := run_seq_eq_ok_iff.1 h
    rw [run_lit, hq] at hopen
    obtain ⟨hstart, rfl⟩ := Outcome.ofCursor?_eq_ok_iff.1 hopen
    obtain ⟨c₂, us, vs, hcall, hclose, rfl⟩ := run_seq_eq_ok_iff.1 hrest
    rw [run_lit, hq] at hclose
    obtain ⟨hstop, rfl⟩ := Outcome.ofCursor?_eq_ok_iff.1 hclose
    have hmode : programGrammar.mode r ≠ .silent := by
      show r.mode ≠ .silent
      rw [hr]
      decide
    obtain ⟨ws, hrun, rfl⟩ := (run_node_eq_ok_iff hmode (by decide)).1 hcall
    have hcontent : programGrammar.run .token (quoted q) c₁ = .ok c₂ ws := by
      rw [← hbody]
      have hmode : (programGrammar.mode r).enter .glued = .token := by
        show r.mode.enter .glued = .token
        rw [hr]
        rfl
      rw [hmode] at hrun
      exact hrun
    have hread := Cursor.strip?_eq_some_iff.1 hstart
    have hread' := Cursor.strip?_eq_some_iff.1 hstop
    have hleft : c₂.rest ≠ [] := by
      rw [show c₂.rest = [y] ++ d.rest from hread'.rest]
      simp
    obtain ⟨content, hreads, hquoted⟩ := quoted_of_run_quoted hq hcontent hleft
    have htext : c₁.upTo c₂ = content := hreads.upTo_eq
    exact ⟨content, hquoted, hread.trans (hreads.trans hread'), r, _, ws, by rw [← htext]; rfl⟩
  rcases run_alt_eq_ok_iff.1 h with hsingle | ⟨-, hdouble⟩
  · obtain ⟨content, hcontent⟩ := between (r := .singleQuoted) rfl rfl rfl hsingle
    exact ⟨'\'', content, .inl rfl, hcontent⟩
  · obtain ⟨content, hcontent⟩ := between (r := .doubleQuoted) rfl rfl rfl hdouble
    exact ⟨'"', content, .inr rfl, hcontent⟩

/-- **A string is a text between quotes**, and holds one tree, with the text between them. -/
theorem quoted_of_derived {span : Span} {text : List Char} {ts : List (MatchTree Rule)}
    (h : programGrammar.Derived (.node .string span text ts)) :
    ∃ y content, (y = '\'' ∨ y = '"') ∧ Quoted y content ∧ text = y :: (content ++ [y]) ∧
      ∃ r s us, ts = [.node r s content us] := by
  cases h with
  | @node _ s c d _ hs _ hbody _ =>
      have hglued : programGrammar.run .glued (body .string) c = .ok d ts := by
        cases s with
        | token => exact absurd rfl hs
        | spaced => exact hbody
        | glued => exact hbody
      obtain ⟨y, content, hy, hquoted, hreads, hts⟩ := quoted_of_run_string hglued
      exact ⟨y, content, hy, hquoted, hreads.upTo_eq, hts⟩

/-- A string holds one tree, whose text is paired. -/
theorem string_of_derived {span : Span} {text : List Char} {ts : List (MatchTree Rule)}
    (h : programGrammar.Derived (.node .string span text ts)) :
    ∃ r s content us, ts = [.node r s content us] ∧ paired content = true := by
  obtain ⟨y, content, -, hquoted, -, r, s, us, hts⟩ := quoted_of_derived h
  exact ⟨r, s, content, us, hts, paired_of_quoted hquoted⟩

end Rule

end ExprScript
