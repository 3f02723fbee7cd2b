import ExprScript.Proofs.Grammar.Lexing
import ExprScript.Proofs.Grammar.Operands
import ExprScript.Proofs.Peg.Lockstep

set_option autoImplicit false

/-! # Words in two texts

A word of the grammar is matched without passing over layout. Where the same characters stand in
front of two texts, and both of these go on with a space or not at all, the word at the front is
the same, and so is what it leaves of those characters: for words of letters, digits and signs
(`agree_plain`), for operators (`agree_operator`) and for strings (`agree_string`).

Runs on one and the same text, at whatever positions, agree altogether (`sameRest`).
-/

namespace ExprScript

open Grammar Peg Rule Lexing

/-- The rules whose text is read when a raw tree is made. -/
def Rule.keepsText : Rule → Bool
  | .identifier | .integer | .boolean | .singleQuoted | .doubleQuoted | .binaryOperator => true
  | _ => false

/-! ## The same text at two positions -/

/-- A text that is what comes next at both cursors, or at neither. -/
theorem agree_strip {ρ : Type} {keep : ρ → Bool} {Q : Cursor → Cursor → Prop} {t : List Char}
    {c c' : Cursor} (hiff : t <+: c.rest ↔ t <+: c'.rest)
    (hQ : ∀ d d', c.Reads t d → c'.Reads t d' → Q d d') :
    Outcome.Agree keep Q (.ofCursor? (c.strip? t)) (.ofCursor? (c'.strip? t)) := by
  cases hd : c.strip? t with
  | none =>
      have hd' : c'.strip? t = none :=
        Cursor.strip?_eq_none_iff.2 (hiff.not.1 (Cursor.strip?_eq_none_iff.1 hd))
      rw [hd']
      exact .fail
  | some d =>
      cases hd' : c'.strip? t with
      | none =>
          have hprefix := hiff.not.2 (Cursor.strip?_eq_none_iff.1 hd')
          exact absurd ⟨d.rest, (Cursor.strip?_eq_some_iff.1 hd).rest.symm⟩ hprefix
      | some d' =>
          exact .ok (hQ d d' (Cursor.strip?_eq_some_iff.1 hd) (Cursor.strip?_eq_some_iff.1 hd')) rfl

/-- A character of the class that comes next at both cursors, or at neither. -/
theorem agree_step {ρ : Type} {keep : ρ → Bool} {Q : Cursor → Cursor → Prop} {p : Char → Bool}
    {c c' : Cursor} (hiff : ∀ x, p x = true → (c.rest.head? = some x ↔ c'.rest.head? = some x))
    (hQ : ∀ x d d', p x = true → c.Reads [x] d → c'.Reads [x] d' → Q d d') :
    Outcome.Agree keep Q (.ofCursor? (c.step? p)) (.ofCursor? (c'.step? p)) := by
  cases hd : c.step? p with
  | none =>
      have hd' : c'.step? p = none := by
        rw [Cursor.step?_eq_none_iff] at hd ⊢
        intro x hx
        cases hpx : p x with
        | false => rfl
        | true => rw [← hpx, hd x ((hiff x hpx).2 hx)]
      rw [hd']
      exact .fail
  | some d =>
      obtain ⟨x, hx, hread⟩ := Cursor.step?_eq_some_iff.1 hd
      obtain ⟨cs', hcs'⟩ := List.head?_eq_some_iff.1 ((hiff x hx).1 (by rw [hread.rest]; rfl))
      have hread' : c'.Reads [x] ⟨c'.pos.advance x, cs'⟩ := ⟨hcs', rfl⟩
      rw [Cursor.step?_eq_some_iff.2 ⟨x, hx, hread'⟩]
      exact .ok (hQ x d _ hx hread hread') rfl

/-- Runs on the same text agree, whatever the positions are. -/
def sameRest (keep : Rule → Bool) : programGrammar.Lockstep keep where
  Near _ c c' := c.rest = c'.rest
  Behind _ c c' := c.rest = c'.rest
  Fits _ e i j := i = j ∧ e.bounded takesChar bodyDepth 64 = true
  behind_of_near h := h
  near_gap {s e i j m c c'} _ h := by
    cases s with
    | spaced => exact skip_rest_eq h
    | glued => exact h
    | token => exact h
  lit {s t i j c c'} _ h := by
    refine agree_strip (by rw [h]) fun d d' hd hd' => ?_
    rw [hd.rest, hd'.rest] at h
    exact List.append_cancel_left h
  one {s p i j c c'} _ h := by
    refine agree_step (fun x _ => by rw [h]) fun x d d' _ hd hd' => ?_
    rw [hd.rest, hd'.rest] at h
    exact List.append_cancel_left h
  done _ h := ⟨h, by rw [h]⟩
  seq {s a b i j} h := by
    obtain ⟨rfl, h⟩ := h
    simp only [Peg.bounded, Bool.and_eq_true] at h
    exact ⟨i, ⟨rfl, h.1.1⟩, rfl, h.1.2⟩
  alt {s a b i j} h := by
    obtain ⟨rfl, h⟩ := h
    simp only [Peg.bounded, Bool.and_eq_true] at h
    exact ⟨⟨rfl, h.1⟩, rfl, h.2⟩
  star {s a i j} h := by
    obtain ⟨rfl, h⟩ := h
    simp only [Peg.bounded, Bool.and_eq_true] at h
    exact ⟨rfl, ⟨rfl, h.1.2⟩, fun hr => programRanking.length_lt_of_run_gap h.1.1 hr⟩
  opt {s a i j} h := ⟨h.1, rfl, h.2⟩
  absent {s a i j} h := ⟨h.1, rfl, h.2⟩
  call {s r i j c c'} h hc := by
    refine .inr ⟨⟨h.1, programRanking.bounded_body r⟩, fun _ _ d d' hd => ?_⟩
    rw [Cursor.upTo, Cursor.upTo, hc, hd]

/-! ## Words of plain characters -/

def isPlain (c : Char) : Bool := isIdentifierChar c || c == '-'

/-- The rules whose matches hold plain characters only. -/
def Rule.plain : List Rule :=
  [.integer, .boolean, .void, .identifier, .identifierChar, .keyword, .functionKeyword,
    .returnKeyword, .mutableKeyword, .immutableKeyword]

/-- Whether an expression asks for plain characters only. -/
def Peg.OverPlain : Peg Rule → Prop
  | .lit t => t.toList.all isPlain = true
  | .one p => ∀ x, p x = true → isPlain x = true
  | .done => False
  | .seq a b | .alt a b => a.OverPlain ∧ b.OverPlain
  | .star a => a.takes takesChar = true ∧ a.OverPlain
  | .opt a | .absent a => a.OverPlain
  | .call r => r ∈ Rule.plain

theorem isPlain_of_isIdentifierChar {x : Char} (h : isIdentifierChar x = true) :
    isPlain x = true := by
  simp [isPlain, h]

theorem isPlain_of_isDigit {x : Char} (h : x.isDigit = true) : isPlain x = true :=
  isPlain_of_isIdentifierChar (by simp [isIdentifierChar, Char.isAlphanum, h])

theorem overPlain_oneOf {ws : List String} (h : ∀ w ∈ ws, w.toList.all isPlain = true) :
    (oneOf ws).OverPlain := by
  induction ws using Peg.oneOf.induct with
  | case1 => rfl
  | case2 w => exact h w (by simp)
  | case3 w u us ih => exact ⟨h w (by simp), ih fun v hv => h v (List.mem_cons_of_mem w hv)⟩

theorem overPlain_body {r : Rule} (hr : r ∈ Rule.plain) : r.body.OverPlain := by
  have hchar : Rule.identifierChar ∈ Rule.plain := by decide
  cases r with
  | integer => exact ⟨rfl, fun _ => isPlain_of_isDigit, ⟨rfl, fun _ => isPlain_of_isDigit⟩, hchar⟩
  | boolean => exact ⟨overPlain_oneOf (by decide), hchar⟩
  | keyword => exact ⟨overPlain_oneOf (by decide), hchar⟩
  | immutableKeyword => exact ⟨overPlain_oneOf (by decide), hchar⟩
  | void | functionKeyword | returnKeyword | mutableKeyword => exact ⟨rfl, hchar⟩
  | identifierChar => exact fun _ => isPlain_of_isIdentifierChar
  | identifier =>
      have hkeyword : Rule.keyword ∈ Rule.plain := by decide
      exact ⟨hkeyword, fun _ h => isPlain_of_isIdentifierChar (isIdentifierChar_of_start h),
        rfl, hchar⟩
  | _ => exact absurd hr (by decide)

/-- A text of characters of a class is not prolonged by a text that goes on without the class. -/
theorem prefix_of_prefix_append {p : Char → Bool} {t x k : List Char} (ht : ∀ a ∈ t, p a = true)
    (hk : EndsClass p k) (h : t <+: x ++ k) : t <+: x := by
  induction t generalizing x with
  | nil => exact List.nil_prefix
  | cons a t ih =>
      obtain ⟨ha, hrest⟩ := List.forall_mem_cons.1 ht
      obtain ⟨u, hu⟩ := h
      obtain _ | ⟨b, x⟩ := x
      · have hhead : k.head? = some a := by
          rw [← List.nil_append k, ← hu]
          rfl
        exact absurd hhead (hk.head_ne ha)
      · obtain rfl : a = b := List.head_eq_of_cons_eq hu
        exact List.cons_prefix_cons.2 ⟨rfl, ih hrest ⟨u, List.tail_eq_of_cons_eq hu⟩⟩

section

variable {ρ : Type} {keep : ρ → Bool} {Q : Cursor → Cursor → Prop} {p : Char → Bool}
  {t x k k' : List Char} {c c' : Cursor}

/-- A text of characters of a class stands at the front of both texts or of neither, and leaves the
same characters in front of the two tails. -/
theorem strip_class_cases (ht : ∀ a ∈ t, p a = true) (hk : EndsClass p k) (hk' : EndsClass p k')
    (hc : c.rest = x ++ k) (hc' : c'.rest = x ++ k') :
    c.strip? t = none ∧ c'.strip? t = none ∨
      ∃ d d' y, c.strip? t = some d ∧ c'.strip? t = some d' ∧ x = t ++ y ∧ d.rest = y ++ k ∧
        d'.rest = y ++ k' := by
  by_cases hx : t <+: x
  · obtain ⟨y, rfl⟩ := hx
    obtain ⟨q, cs⟩ := c
    obtain ⟨q', cs'⟩ := c'
    obtain rfl : cs = t ++ y ++ k := hc
    obtain rfl : cs' = t ++ y ++ k' := hc'
    rw [List.append_assoc, List.append_assoc]
    exact .inr ⟨_, _, y, Cursor.strip?_append q t _, Cursor.strip?_append q' t _, rfl, rfl, rfl⟩
  · refine .inl ⟨Cursor.strip?_eq_none_iff.2 ?_, Cursor.strip?_eq_none_iff.2 ?_⟩
    · rw [hc]
      exact fun h => hx (prefix_of_prefix_append ht hk h)
    · rw [hc']
      exact fun h => hx (prefix_of_prefix_append ht hk' h)

theorem agree_strip_class (ht : ∀ a ∈ t, p a = true) (hk : EndsClass p k) (hk' : EndsClass p k')
    (hc : c.rest = x ++ k) (hc' : c'.rest = x ++ k')
    (hQ : ∀ d d' y, x = t ++ y → d.rest = y ++ k → d'.rest = y ++ k' → Q d d') :
    Outcome.Agree keep Q (.ofCursor? (c.strip? t)) (.ofCursor? (c'.strip? t)) := by
  rcases strip_class_cases ht hk hk' hc hc' with ⟨h, h'⟩ | ⟨d, d', y, h, h', hy, hd, hd'⟩
  · rw [h, h']
    exact .fail
  · rw [h, h']
    exact .ok (hQ d d' y hy hd hd') rfl

end

/-- Expressions over plain characters, run in front of two tails: plain characters have been taken
off `x`, the same ones on both sides. -/
def plainWords (keep : Rule → Bool) {k k' : List Char} (hk : EndsClass isPlain k)
    (hk' : EndsClass isPlain k') (x : List Char) : programGrammar.Lockstep keep where
  Near _ c c' := ∃ w y, x = w ++ y ∧ (∀ a ∈ w, isPlain a = true) ∧ c.rest = y ++ k ∧
    c'.rest = y ++ k'
  Behind _ c c' := ∃ w y, x = w ++ y ∧ (∀ a ∈ w, isPlain a = true) ∧ c.rest = y ++ k ∧
    c'.rest = y ++ k'
  Fits s e i j := s = .token ∧ i = j ∧ e.OverPlain
  behind_of_near h := h
  near_gap {s e i j m c c'} hfits h := by
    obtain ⟨rfl, -⟩ := hfits
    exact h
  lit {s t i j c c'} hfits h := by
    obtain ⟨w, y, rfl, hw, hc, hc'⟩ := h
    have ht : ∀ a ∈ t.toList, isPlain a = true := List.all_eq_true.1 hfits.2.2
    refine agree_strip_class ht hk hk' hc hc' fun d d' z hy hd hd' => ?_
    refine ⟨w ++ t.toList, z, by rw [hy, List.append_assoc], ?_, hd, hd'⟩
    intro a ha
    exact (List.mem_append.1 ha).elim (hw a) (ht a)
  one {s p i j c c'} hfits h := by
    obtain ⟨w, y, rfl, hw, hc, hc'⟩ := h
    have hp : ∀ a, p a = true → isPlain a = true := hfits.2.2
    obtain ⟨q, cs⟩ := c
    obtain ⟨q', cs'⟩ := c'
    obtain rfl : cs = y ++ k := hc
    obtain rfl : cs' = y ++ k' := hc'
    -- at the end of `x` neither tail goes on with a plain character
    obtain _ | ⟨a, z⟩ := y
    · have hnone : Cursor.step? p ⟨q, k⟩ = none := step?_eq_none_of_endsClass (hk.mono hp)
      have hnone' : Cursor.step? p ⟨q', k'⟩ = none := step?_eq_none_of_endsClass (hk'.mono hp)
      rw [List.nil_append, List.nil_append, hnone, hnone']
      exact .fail
    · refine agree_step (fun b _ => Iff.rfl) fun b d d' hb hd hd' => ?_
      obtain rfl : a = b := List.head_eq_of_cons_eq hd.rest
      refine ⟨w ++ [a], z, by rw [List.append_assoc]; rfl, ?_,
        (List.tail_eq_of_cons_eq hd.rest).symm, (List.tail_eq_of_cons_eq hd'.rest).symm⟩
      intro b' hb'
      rcases List.mem_append.1 hb' with hin | hlast
      · exact hw b' hin
      · rw [List.mem_singleton.1 hlast]
        exact hp a hb
  done {s i j c c'} hfits _ := hfits.2.2.elim
  seq {s a b i j} h := ⟨i, ⟨h.1, rfl, h.2.2.1⟩, h.1, h.2.1, h.2.2.2⟩
  alt {s a b i j} h := ⟨⟨h.1, h.2.1, h.2.2.1⟩, h.1, h.2.1, h.2.2.2⟩
  star {s a i j} h :=
    ⟨h.2.1, ⟨h.1, rfl, h.2.2.2⟩, fun hr => programRanking.length_lt_of_run_gap h.2.2.1 hr⟩
  opt {s a i j} h := ⟨h.2.1, h.1, rfl, h.2.2⟩
  absent {s a i j} h := ⟨h.2.1, h.1, rfl, h.2.2⟩
  call {s r i j c c'} h _ := by
    obtain ⟨rfl, rfl, hr⟩ := h
    refine .inr ⟨⟨?_, rfl, overPlain_body hr⟩, fun hs => absurd rfl hs⟩
    show r.mode.enter .token = .token
    cases r.mode <;> rfl

/-! ## The words of the grammar -/

/-- The rules that are matched without passing over layout. -/
def Rule.isWord : Rule → Bool
  | .integer | .boolean | .void | .identifier | .functionKeyword | .returnKeyword
  | .mutableKeyword | .immutableKeyword | .string | .binaryOperator => true
  | _ => false

/-- A word has been cut off the front of `x`, the same one at both cursors, and a scan may begin
behind it. -/
def Cuts (x k k' : List Char) (d d' : Cursor) : Prop :=
  ∃ y, d.rest = y ++ k ∧ d'.rest = y ++ k' ∧
    ∀ n l, ∃ l', scan ⟨.code, n, l⟩ x = scan ⟨.code, n, l'⟩ y

theorem upTo_eq_of_rest {c d : Cursor} {w y : List Char} (hc : c.rest = w ++ y) (hd : d.rest = y) :
    c.upTo d = w := by
  have hlen : c.rest.length - d.rest.length = w.length := by
    rw [hc, hd, List.length_append]
    omega
  rw [Cursor.upTo, hlen, hc, List.take_left]

/-- Plain characters are marks, and no brackets. -/
theorem isMark_of_isPlain {c : Char} (h : isPlain c = true) : isMark c = true ∧ bracket c = 0 := by
  have hcode : 48 ≤ c.toNat ∧ c.toNat ≤ 57 ∨ 65 ≤ c.toNat ∧ c.toNat ≤ 90 ∨
      97 ≤ c.toNat ∧ c.toNat ≤ 122 ∨ c.toNat = 95 ∨ c.toNat = 45 := by
    simp only [isPlain, isIdentifierChar, Char.isAlphanum, Bool.or_eq_true, beq_iff_eq] at h
    rcases h with ((halpha | hdigit) | rfl) | rfl
    · have := toNat_of_isAlpha halpha
      omega
    · have := toNat_of_isDigit hdigit
      omega
    · decide
    · decide
  have ne {a : Char} (ha : ¬ (48 ≤ a.toNat ∧ a.toNat ≤ 57 ∨ 65 ≤ a.toNat ∧ a.toNat ≤ 90 ∨
      97 ≤ a.toNat ∧ a.toNat ≤ 122 ∨ a.toNat = 95 ∨ a.toNat = 45)) : c ≠ a := by
    rintro rfl
    exact ha hcode
  constructor
  · simp [isMark, Layout.isSpace, ne (a := ' ') (by decide), ne (a := '\t') (by decide),
      ne (a := '\r') (by decide), ne (a := '\n') (by decide), ne (a := '\'') (by decide),
      ne (a := '"') (by decide), ne (a := '/') (by decide)]
  · simp [bracket, ne (a := '(') (by decide), ne (a := '[') (by decide),
      ne (a := '\x7b') (by decide), ne (a := ')') (by decide), ne (a := ']') (by decide),
      ne (a := '\x7d') (by decide)]

theorem endsPlain_of_apart {k : List Char} (hk : Apart k) : EndsClass isPlain k := by
  refine hk.mono fun a ha => ?_
  have hmark := (isMark_of_isPlain ha).1
  simp only [isMark, Bool.and_eq_true] at hmark
  exact hmark.1.1.1

section

variable {r : Rule} {x k k' : List Char} {c c' : Cursor}

/-- Words of plain characters. -/
theorem agree_plain (hr : r ∈ Rule.plain) (hmode : r.mode = .token) (hk : EndsClass isPlain k)
    (hk' : EndsClass isPlain k') (hc : c.rest = x ++ k) (hc' : c'.rest = x ++ k') :
    Outcome.Agree keepsText (Cuts x k k') (programGrammar.run .spaced (.call r) c)
      (programGrammar.run .spaced (.call r) c') := by
  have hnear : (plainWords keepsText hk hk' x).Near 0 c c' := ⟨[], x, rfl, by simp, hc, hc'⟩
  have hagree := (plainWords keepsText hk hk' x).agree (s := .token) (e := programGrammar.body r)
    (j := 0) ⟨rfl, rfl, overPlain_body hr⟩ hnear
    (programRanking.run_ne_exhausted (programRanking.bounded_body r))
  have hmode' : programGrammar.mode r = .token := hmode
  rw [run_call, run_call, hmode', Mode.enter]
  generalize hrun : programGrammar.run .token (programGrammar.body r) c = o at hagree
  generalize hrun' : programGrammar.run .token (programGrammar.body r) c' = o' at hagree
  cases hagree with
  | fail => exact .fail
  | ok stop trees =>
      obtain rfl := trees_eq_nil_of_run hrun
      obtain rfl := trees_eq_nil_of_run hrun'
      obtain ⟨w, y, rfl, hw, hd, hd'⟩ := stop
      rw [wrap_node (by rw [hmode']; decide) (by decide),
        wrap_node (by rw [hmode']; decide) (by decide)]
      refine .ok ⟨y, hd, hd', fun n l => ?_⟩ ?_
      · -- no plain character is a bracket, so the depth stays
        obtain ⟨l', hl'⟩ := exists_scan_marks (fun a ha => (isMark_of_isPlain (hw a ha)).1) n l
        have hsum : brackets w = 0 :=
          brackets_eq_zero fun a ha => (isMark_of_isPlain (hw a ha)).2
        rw [hsum, Int.add_zero] at hl'
        exact ⟨l', hl' y⟩
      · have htext := upTo_eq_of_rest (hc.trans (List.append_assoc w y k)) hd
        have htext' := upTo_eq_of_rest (hc'.trans (List.append_assoc w y k')) hd'
        simp only [MatchTree.bares, MatchTree.bare, htext, htext']

/-- A scan may begin behind an operator. -/
theorem exists_scan_operator {w : String} (hw : w ∈ operators) {y : List Char}
    (hfree : Layout.Free (w.toList ++ y)) (n : Int) (l : Option Char) :
    ∃ l', scan ⟨.code, n, l⟩ (w.toList ++ y) = scan ⟨.code, n, l'⟩ y := by
  by_cases hslash : w = "/"
  · subst hslash
    have hscan : scan ⟨.code, n, l⟩ ('/' :: y) = scan ⟨.code, n + bracket '/', some '/'⟩ y :=
      scan_mark hfree (by decide) (by decide)
    rw [show bracket '/' = 0 from rfl, Int.add_zero] at hscan
    exact ⟨some '/', hscan⟩
  · have hmarks : ∀ w ∈ operators, w ≠ "/" →
        w.toList.all isMark = true ∧ brackets w.toList = 0 := by decide
    obtain ⟨hall, hsum⟩ := hmarks w hw hslash
    obtain ⟨l', hl'⟩ := exists_scan_marks (List.all_eq_true.1 hall) n l
    rw [hsum, Int.add_zero] at hl'
    exact ⟨l', hl' y⟩

/-- The first of some texts that stands at the front is the same at both cursors. -/
theorem findSome?_strip_cases {ws : List String} (hk : Apart k) (hk' : Apart k')
    (hws : ∀ w ∈ ws, ∀ a ∈ w.toList, (!Layout.isSpace a) = true) (hc : c.rest = x ++ k)
    (hc' : c'.rest = x ++ k') :
    (ws.findSome? fun w => c.strip? w.toList) = none ∧
        (ws.findSome? fun w => c'.strip? w.toList) = none ∨
      ∃ w ∈ ws, ∃ d d' y, (ws.findSome? fun w => c.strip? w.toList) = some d ∧
        (ws.findSome? fun w => c'.strip? w.toList) = some d' ∧ x = w.toList ++ y ∧
        d.rest = y ++ k ∧ d'.rest = y ++ k' := by
  induction ws with
  | nil => exact .inl ⟨rfl, rfl⟩
  | cons w ws ih =>
      obtain ⟨hw, hrest⟩ := List.forall_mem_cons.1 hws
      rcases strip_class_cases hw hk hk' hc hc' with ⟨h, h'⟩ | ⟨d, d', y, h, h', hy⟩
      · simp only [List.findSome?_cons, h, h']
        rcases ih hrest with hnone | ⟨u, hu, hsome⟩
        · exact .inl hnone
        · exact .inr ⟨u, List.mem_cons_of_mem w hu, hsome⟩
      · simp only [List.findSome?_cons, h, h']
        exact .inr ⟨w, List.mem_cons_self, d, d', y, rfl, rfl, hy⟩

/-- Operators. -/
theorem agree_operator (hk : Apart k) (hk' : Apart k') (hc : c.rest = x ++ k)
    (hc' : c'.rest = x ++ k') (hfree : Layout.Free c.rest) :
    Outcome.Agree keepsText (Cuts x k k') (programGrammar.run .spaced (.call .binaryOperator) c)
      (programGrammar.run .spaced (.call .binaryOperator) c') := by
  have hspaces : ∀ w ∈ operators, ∀ a ∈ w.toList, (!Layout.isSpace a) = true := by
    have hall : ∀ w ∈ operators, w.toList.all (fun a => !Layout.isSpace a) = true := by decide
    exact fun w hw => List.all_eq_true.1 (hall w hw)
  have hbody (e : Cursor) : programGrammar.run .spaced (.call .binaryOperator) e =
      programGrammar.wrap .binaryOperator .spaced e
        (.ofCursor? (operators.findSome? fun w => e.strip? w.toList)) := by
    rw [run_call]
    exact congrArg _ (run_oneOf operators e)
  rw [hbody, hbody]
  rcases findSome?_strip_cases hk hk' hspaces hc hc' with
    ⟨h, h'⟩ | ⟨w, hw, d, d', y, h, h', rfl, hd, hd'⟩
  · rw [h, h']
    exact .fail
  · have htext := upTo_eq_of_rest (hc.trans (List.append_assoc _ y k)) hd
    have htext' := upTo_eq_of_rest (hc'.trans (List.append_assoc _ y k')) hd'
    rw [h, h', Outcome.ofCursor?, Outcome.ofCursor?, wrap_node (by decide) (by decide),
      wrap_node (by decide) (by decide), htext, htext']
    refine .ok ⟨y, hd, hd', fun n l => exists_scan_operator hw ?_ n l⟩ rfl
    rw [hc] at hfree
    exact free_of_append hfree

/-- No string begins where no quote stands. -/
theorem agree_string_of_head (hhead : ∀ q, q = '\'' ∨ q = '"' → x.head? ≠ some q) (hk : Apart k)
    (hk' : Apart k') (hc : c.rest = x ++ k) (hc' : c'.rest = x ++ k') :
    Outcome.Agree keepsText (Cuts x k k') (programGrammar.run .spaced (.call .string) c)
      (programGrammar.run .spaced (.call .string) c') := by
  have fails {e : Cursor} {t : List Char} (ht : Apart t) (he : e.rest = x ++ t) :
      programGrammar.run .spaced (.call .string) e = .fail := by
    have hne {q : Char} (hq : q = '\'' ∨ q = '"') : e.rest.head? ≠ some q := by
      rw [he]
      obtain _ | ⟨a, x⟩ := x
      · refine EndsClass.head_ne ht ?_
        rcases hq with rfl | rfl <;> rfl
      · exact hhead q hq
    exact run_string_of_head (hne (.inl rfl)) (hne (.inr rfl))
  rw [fails hk hc, fails hk' hc']
  exact .fail

/-- A string that ends is the same in front of both tails. -/
theorem agree_string_of_quoted {q : Char} (hq : q = '\'' ∨ q = '"') {content y : List Char}
    (hcontent : Quoted q content) (hc : c.rest = (q :: content ++ [q]) ++ (y ++ k))
    (hc' : c'.rest = (q :: content ++ [q]) ++ (y ++ k')) :
    Outcome.Agree keepsText (Cuts (q :: (content ++ q :: y)) k k')
      (programGrammar.run .spaced (.call .string) c)
      (programGrammar.run .spaced (.call .string) c') := by
  obtain ⟨p, cs⟩ := c
  obtain ⟨p', cs'⟩ := c'
  obtain rfl : cs = _ := hc
  obtain rfl : cs' = _ := hc'
  obtain ⟨span, hrun⟩ := run_string (s := .spaced) (p := p) (k := y ++ k) hq hcontent (by decide)
  obtain ⟨span', hrun'⟩ :=
    run_string (s := .spaced) (p := p') (k := y ++ k') hq hcontent (by decide)
  have hback : q ≠ '\\' := by rcases hq with rfl | rfl <;> decide
  rw [hrun, hrun']
  refine .ok ⟨y, rfl, rfl, fun n l => ⟨some q, ?_⟩⟩ rfl
  rw [scan_quote hq, scan_quoted hcontent hback]

/-- Strings: one that ends in `x` does not reach the tails. -/
theorem agree_string {n : Int} {l : Option Char} (hk : Apart k) (hk' : Apart k')
    (hc : c.rest = x ++ k) (hc' : c'.rest = x ++ k')
    (hclosed : ∀ q, (scan ⟨.code, n, l⟩ x).mode ≠ .quoted q) :
    Outcome.Agree keepsText (Cuts x k k') (programGrammar.run .spaced (.call .string) c)
      (programGrammar.run .spaced (.call .string) c') := by
  by_cases hhead : ∀ q, q = '\'' ∨ q = '"' → x.head? ≠ some q
  · exact agree_string_of_head hhead hk hk' hc hc'
  · obtain ⟨q, hq, hx⟩ : ∃ q, (q = '\'' ∨ q = '"') ∧ x.head? = some q := by
      simpa only [not_forall, not_not, exists_prop] using hhead
    obtain ⟨z, rfl⟩ := List.head?_eq_some_iff.1 hx
    have hback : q ≠ '\\' := by rcases hq with rfl | rfl <;> decide
    have hends := hclosed q
    rw [scan_quote hq] at hends
    obtain ⟨content, y, rfl, hcontent⟩ := exists_quoted_of_scan hback hends
    refine agree_string_of_quoted hq hcontent ?_ ?_
    · rw [hc]
      simp
    · rw [hc']
      simp

/-- **A word at the front of `x` is the same in front of both tails.** -/
theorem agree_word {n : Int} {l : Option Char} (hr : r.isWord = true) (hk : Apart k)
    (hk' : Apart k') (hc : c.rest = x ++ k) (hc' : c'.rest = x ++ k') (hfree : Layout.Free c.rest)
    (hclosed : ∀ q, (scan ⟨.code, n, l⟩ x).mode ≠ .quoted q) :
    Outcome.Agree keepsText (Cuts x k k') (programGrammar.run .spaced (.call r) c)
      (programGrammar.run .spaced (.call r) c') := by
  cases r with
  | binaryOperator => exact agree_operator hk hk' hc hc' hfree
  | string => exact agree_string hk hk' hc hc' hclosed
  | integer | boolean | void | identifier | functionKeyword | returnKeyword | mutableKeyword
  | immutableKeyword =>
      exact agree_plain (by decide) rfl (endsPlain_of_apart hk) (endsPlain_of_apart hk') hc hc'
  | _ => cases hr

end

end ExprScript
