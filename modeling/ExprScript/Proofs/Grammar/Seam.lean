import ExprScript.Proofs.Grammar.Words

set_option autoImplicit false

/-! # Two texts with a common front

Two texts begin with the same characters `x` and go on with different tails. As long as words of
`x` are left, runs on the two texts go on side by side: a word of `x` never reaches into the tails,
which go on with a space or not at all. Where `x` is used up, layout is passed over, and what the
two texts have in common from there on is for a `Seam` to say.

The level of a place is the number of brackets that are open there. `Peg.level` follows it through
an expression, on its syntax: every rule of the grammar closes the brackets it opens. At the level
of the program only the rules inside a statement are followed (`isOuter`), since a semicolon
there may be what one text has and the other has not.
-/

namespace ExprScript

open Grammar Peg Rule Lexing

namespace Rule

def openers : List String := ["(", "[", "\x7b"]

def closers : List String := [")", "]", "\x7d"]

/-- The texts between the parts of rules that are no brackets, but for the semicolon. -/
def separators : List String := ["=", "->", ",", ".", ":"]

/-- The rules of the parts of statements. -/
def isOuter : Rule → Bool
  | .functionDeclaration | .namedFunction | .variableDeclaration | .returnExpression
  | .anonymousFunction | .lambdaBody | .parameters | .expression | .operand | .arguments
  | .property | .primary | .array | .object | .objectProperty => true
  | _ => false

end Rule

/-- How many brackets are open behind an expression when `n` are open before it; `inner` says
whether others are open around it. A semicolon, and a statement with one, has to stand among open
brackets. -/
def Peg.level (inner : Bool) : Peg Rule → Nat → Option Nat
  | .lit t, n =>
    if t = ";" then if inner || 0 < n then some n else none
    else if t ∈ openers then some (n + 1)
    else if t ∈ closers then if n = 0 then none else some (n - 1)
    else if t ∈ separators then some n else none
  | .seq a b, n => (a.level inner n).bind (b.level inner)
  | .alt a b, n => if a.level inner n = b.level inner n then a.level inner n else none
  | .star a, n | .opt a, n => if a.level inner n = some n then some n else none
  | .call r, n =>
    if r.isWord || r.isOuter || (r = .statement && (inner || 0 < n)) then some n else none
  | .one _, _ | .done, _ | .absent _, _ => none

/-- Every part of a statement closes the brackets it opens. -/
theorem level_body_of_isOuter {r : Rule} (hr : r.isOuter = true) :
    r.body.level false 0 = some 0 := by
  revert hr
  cases r <;> decide

/-- So does a statement among open brackets. -/
theorem level_body_statement : (body .statement).level true 0 = some 0 := rfl

/-- Layout is passed over in the parts of statements, and their texts are not kept. -/
theorem spaced_of_isOuter {r : Rule} (hr : r.isOuter = true ∨ r = .statement) :
    r.mode.enter .spaced = .spaced ∧ r.keepsText = false := by
  revert hr
  cases r <;> decide

/-- What a text does to the level is what its characters do to the brackets. -/
theorem level_lit {inner : Bool} {t : String} {n m : Nat} (h : (Peg.lit t).level inner n = some m) :
    t.toList.all isMark = true ∧ (m : Int) = n + brackets t.toList ∧
      (t = ";" → inner = true ∨ 0 < n) := by
  have hopen : ∀ t ∈ openers, t.toList.all isMark = true ∧ brackets t.toList = 1 := by
    decide
  have hclose : ∀ t ∈ closers, t.toList.all isMark = true ∧ brackets t.toList = -1 := by
    decide
  have hbetween : ∀ t ∈ ";" :: separators,
      t.toList.all isMark = true ∧ brackets t.toList = 0 := by
    decide
  -- the branches of `level`: a semicolon, an opener, a closer, a separator
  unfold Peg.level at h
  split at h
  · rename_i hsemicolon
    obtain ⟨hmark, hsum⟩ := hbetween t (by rw [hsemicolon]; exact List.mem_cons_self)
    split at h
    · rename_i hlevel
      obtain rfl := Option.some.inj h
      exact ⟨hmark, by rw [hsum]; omega, fun _ => by simpa using hlevel⟩
    · cases h
  · rename_i hsemicolon
    split at h
    · rename_i ht
      obtain rfl := Option.some.inj h
      obtain ⟨hmark, hsum⟩ := hopen t ht
      exact ⟨hmark, by rw [hsum]; omega, fun heq => absurd heq hsemicolon⟩
    · split at h
      · rename_i ht
        obtain ⟨hmark, hsum⟩ := hclose t ht
        split at h
        · cases h
        · obtain rfl := Option.some.inj h
          exact ⟨hmark, by rw [hsum]; omega, fun heq => absurd heq hsemicolon⟩
      · split at h
        · rename_i ht
          obtain rfl := Option.some.inj h
          obtain ⟨hmark, hsum⟩ := hbetween t (List.mem_cons_of_mem _ ht)
          exact ⟨hmark, by rw [hsum]; omega, fun heq => absurd heq hsemicolon⟩
        · cases h

/-- A text with a level is a bracket, a separator or the semicolon. -/
theorem mem_of_level_lit {inner : Bool} {t : String} {n m : Nat}
    (h : (Peg.lit t).level inner n = some m) : t ∈ ";" :: (openers ++ closers ++ separators) := by
  unfold Peg.level at h
  split at h
  · rename_i ht
    simp [ht]
  · split at h
    · rename_i ht
      simp [ht]
    · split at h
      · rename_i ht
        simp [ht]
      · split at h
        · rename_i ht
          simp [ht]
        · cases h

/-- An expression that leads from the level `i` to the level `j`. -/
def Peg.Leads (e : Peg Rule) (i j : Nat) : Prop :=
  ∃ inner base n m, (inner = true → 0 < base) ∧ e.level inner n = some m ∧ i = base + n ∧
    j = base + m

namespace Peg.Leads

variable {a b : Peg Rule} {i j : Nat}

theorem lit {t : String} (h : (Peg.lit t).Leads i j) :
    t.toList.all isMark = true ∧ (j : Int) = i + brackets t.toList ∧
      (t = ";" → 0 < i) := by
  obtain ⟨inner, base, n, m, hinner, hlevel, rfl, rfl⟩ := h
  obtain ⟨hmark, hsum, hsemicolon⟩ := level_lit hlevel
  refine ⟨hmark, by push_cast; omega, fun ht => ?_⟩
  rcases hsemicolon ht with hin | hn
  · have := hinner hin
    omega
  · omega

theorem seq (h : (Peg.seq a b).Leads i j) : ∃ m, a.Leads i m ∧ b.Leads m j := by
  obtain ⟨inner, base, n, m, hinner, hlevel, rfl, rfl⟩ := h
  obtain ⟨k, hk, hm⟩ := Option.bind_eq_some_iff.1 hlevel
  exact ⟨base + k, ⟨inner, base, n, k, hinner, hk, rfl, rfl⟩, inner, base, k, m, hinner, hm, rfl,
    rfl⟩

theorem alt (h : (Peg.alt a b).Leads i j) : a.Leads i j ∧ b.Leads i j := by
  obtain ⟨inner, base, n, m, hinner, hlevel, rfl, rfl⟩ := h
  unfold Peg.level at hlevel
  split at hlevel
  · rename_i heq
    exact ⟨⟨inner, base, n, m, hinner, hlevel, rfl, rfl⟩,
      inner, base, n, m, hinner, heq ▸ hlevel, rfl, rfl⟩
  · cases hlevel

theorem star (h : (Peg.star a).Leads i j) : i = j ∧ a.Leads i i := by
  obtain ⟨inner, base, n, m, hinner, hlevel, rfl, rfl⟩ := h
  unfold Peg.level at hlevel
  split at hlevel
  · rename_i ha
    obtain rfl := Option.some.inj hlevel
    exact ⟨rfl, inner, base, n, n, hinner, ha, rfl, rfl⟩
  · cases hlevel

theorem opt (h : (Peg.opt a).Leads i j) : i = j ∧ a.Leads i i := star h

/-- A rule that is no word leads from its level back to it, and so does its body. -/
theorem call {r : Rule} (h : (Peg.call r).Leads i j) :
    i = j ∧ (r.isWord = true ∨ (r.isOuter = true ∨ r = .statement) ∧ r.body.Leads i i) := by
  obtain ⟨inner, base, n, m, hinner, hlevel, rfl, rfl⟩ := h
  unfold Peg.level at hlevel
  split at hlevel
  · rename_i hrule
    obtain rfl := Option.some.inj hlevel
    refine ⟨rfl, ?_⟩
    by_cases hword : r.isWord = true
    · exact .inl hword
    · by_cases houter : r.isOuter = true
      · exact .inr ⟨.inl houter,
          false, base + n, 0, 0, by simp, level_body_of_isOuter houter, rfl, rfl⟩
      · simp only [hword, houter, Bool.false_or, Bool.and_eq_true, decide_eq_true_eq,
          Bool.or_eq_true] at hrule
        obtain ⟨rfl, hopen⟩ := hrule
        have hpos : 0 < base + n := by
          rcases hopen with hin | hn
          · have := hinner hin
            omega
          · omega
        exact .inr ⟨.inr rfl, true, base + n, 0, 0, fun _ => hpos, level_body_statement, rfl, rfl⟩
  · cases hlevel

end Peg.Leads

/-! ## The seam -/

/-- Two tails behind the same characters: how those may end, and how the texts go on. -/
structure Seam (tail tail' : List Char) where
  /-- what may be known where the tails begin -/
  Ends : Lexing → Prop
  /-- the cursors behind the beginning of the tails, at each level -/
  Past : Nat → Cursor → Cursor → Prop
  apart : Apart tail
  apart' : Apart tail'
  /-- no string reaches into the tails -/
  closed : ∀ {st}, Ends st → ∀ q, st.mode ≠ .quoted q
  past_of_ends : ∀ {m i l p p'}, (m = .code ∨ m = .comment) → Ends ⟨m, (i : Nat), l⟩ →
    Past i (pass m p tail) (pass m p' tail')
  past_skip : ∀ {i c c'}, Past i c c' → Past i (Layout.skip c) (Layout.skip c')
  past_lit : ∀ {t i j c c'}, Past i c c' → (Peg.lit t).Leads i j →
    Outcome.Agree keepsText (Past j) (.ofCursor? (c.strip? t.toList))
      (.ofCursor? (c'.strip? t.toList))
  past_word : ∀ {r i c c'}, Past i c c' → r.isWord = true →
    Outcome.Agree keepsText (Past i) (programGrammar.run .spaced (.call r) c)
      (programGrammar.run .spaced (.call r) c')

namespace Seam

variable {tail tail' : List Char} (S : Seam tail tail')

/-- The characters `x` stand in front of the two tails, and a scan of them from the level `i` ends
as it may. -/
def Split (i : Nat) (x : List Char) (c c' : Cursor) : Prop :=
  c.rest = x ++ tail ∧ c'.rest = x ++ tail' ∧ ∃ l, S.Ends (scan ⟨.code, i, l⟩ x)

/-- Where an expression has stopped: in front of the tails, or behind their beginning. -/
def Behind (i : Nat) (c c' : Cursor) : Prop := (∃ x, S.Split i x c c') ∨ S.Past i c c'

/-- Where an expression is tried: there is no layout, so words are left in front of the tails. -/
def Near (i : Nat) (c c' : Cursor) : Prop :=
  Layout.Free c.rest ∧ ((∃ x, x ≠ [] ∧ S.Split i x c c') ∨ S.Past i c c')

variable {i j : Nat} {c c' : Cursor}

/-- Layout is passed over up to the next word, or into the tails. -/
theorem near_skip (h : S.Behind i c c') : S.Near i (Layout.skip c) (Layout.skip c') := by
  refine ⟨Layout.free_skip c, ?_⟩
  rcases h with ⟨x, hc, hc', l, hends⟩ | hpast
  · have hskip : Layout.skip c = pass .code c.pos (x ++ tail) := by rw [← hc]; rfl
    have hskip' : Layout.skip c' = pass .code c'.pos (x ++ tail') := by rw [← hc']; rfl
    rw [hskip, hskip']
    cases passes (.inl rfl) x with
    | words hy hscan hpass =>
        rw [hscan] at hends
        exact .inl ⟨_, hy, hpass tail S.apart _, hpass tail' S.apart' _, l, hends⟩
    | all hm hscan hpass =>
        rw [hscan] at hends
        obtain ⟨p, hp⟩ := hpass tail c.pos
        obtain ⟨p', hp'⟩ := hpass tail' c'.pos
        rw [hp, hp']
        exact .inr (S.past_of_ends hm hends)
  · exact .inr (S.past_skip hpast)

/-- A text is taken off the front of `x`. -/
theorem agree_lit_of_split {t : String} {x : List Char} (hmark : t.toList.all isMark = true)
    (hsum : (j : Int) = i + brackets t.toList) (h : S.Split i x c c') :
    Outcome.Agree keepsText (S.Behind j) (.ofCursor? (c.strip? t.toList))
      (.ofCursor? (c'.strip? t.toList)) := by
  obtain ⟨hc, hc', l, hends⟩ := h
  have hmarks : ∀ a ∈ t.toList, isMark a = true := List.all_eq_true.1 hmark
  have hspaces : ∀ a ∈ t.toList, (!Layout.isSpace a) = true := by
    intro a ha
    have := hmarks a ha
    simp only [isMark, Bool.and_eq_true] at this
    exact this.1.1.1
  refine agree_strip_class hspaces S.apart S.apart' hc hc' fun d d' y hy hd hd' => ?_
  obtain ⟨l', hl'⟩ := exists_scan_marks hmarks i l
  rw [hy, hl' y, ← hsum] at hends
  exact .inl ⟨y, hd, hd', l', hends⟩

/-- A word is taken off the front of `x`. -/
theorem agree_word_of_split {r : Rule} {x : List Char} (hr : r.isWord = true)
    (hfree : Layout.Free c.rest) (h : S.Split i x c c') :
    Outcome.Agree keepsText (S.Behind i) (programGrammar.run .spaced (.call r) c)
      (programGrammar.run .spaced (.call r) c') := by
  obtain ⟨hc, hc', l, hends⟩ := h
  refine (agree_word hr S.apart S.apart' hc hc' hfree (S.closed hends)).mono ?_
  rintro d d' ⟨y, hd, hd', hscan⟩
  obtain ⟨l', hl'⟩ := hscan i l
  rw [hl'] at hends
  exact .inl ⟨y, hd, hd', l', hends⟩

/-- **Runs on two texts with a common front go on side by side.** -/
def lockstep : programGrammar.Lockstep keepsText where
  Near := S.Near
  Behind := S.Behind
  Fits s e i j := s = .spaced ∧ e.bounded takesChar bodyDepth 64 = true ∧ e.Leads i j
  behind_of_near h := h.2.imp_left fun ⟨x, _, hsplit⟩ => ⟨x, hsplit⟩
  near_gap {s e i j m c c'} hfits h := by
    obtain ⟨rfl, -⟩ := hfits
    exact S.near_skip h
  lit {s t i j c c'} hfits h := by
    obtain ⟨hmark, hsum, -⟩ := hfits.2.2.lit
    rcases h.2 with ⟨x, -, hsplit⟩ | hpast
    · exact S.agree_lit_of_split hmark hsum hsplit
    · exact (S.past_lit hpast hfits.2.2).mono fun _ _ => .inr
  -- classes, the end of the text and absent parts have no level: they occur in words only
  one hfits := by
    obtain ⟨-, -, inner, base, n, m, -, hlevel, -⟩ := hfits
    cases hlevel
  done hfits := by
    obtain ⟨-, -, inner, base, n, m, -, hlevel, -⟩ := hfits
    cases hlevel
  absent hfits := by
    obtain ⟨-, -, inner, base, n, m, -, hlevel, -⟩ := hfits
    cases hlevel
  seq {s a b i j} hfits := by
    obtain ⟨hs, hbounded, hleads⟩ := hfits
    simp only [Peg.bounded, Bool.and_eq_true] at hbounded
    obtain ⟨m, ha, hb⟩ := hleads.seq
    exact ⟨m, ⟨hs, hbounded.1.1, ha⟩, hs, hbounded.1.2, hb⟩
  alt {s a b i j} hfits := by
    obtain ⟨hs, hbounded, hleads⟩ := hfits
    simp only [Peg.bounded, Bool.and_eq_true] at hbounded
    exact ⟨⟨hs, hbounded.1, hleads.alt.1⟩, hs, hbounded.2, hleads.alt.2⟩
  star {s a i j} hfits := by
    obtain ⟨hs, hbounded, hleads⟩ := hfits
    simp only [Peg.bounded, Bool.and_eq_true] at hbounded
    exact ⟨hleads.star.1, ⟨hs, hbounded.1.2, hleads.star.2⟩,
      fun hr => programRanking.length_lt_of_run_gap hbounded.1.1 hr⟩
  opt {s a i j} hfits := ⟨hfits.2.2.opt.1, hfits.1, hfits.2.1, hfits.2.2.opt.2⟩
  call {s r i j c c'} hfits h := by
    obtain ⟨rfl, -, hleads⟩ := hfits
    obtain ⟨rfl, hword | ⟨hrule, hbody⟩⟩ := hleads.call
    · rcases h.2 with ⟨x, -, hsplit⟩ | hpast
      · exact .inl (S.agree_word_of_split hword h.1 hsplit)
      · exact .inl ((S.past_word hpast hword).mono fun _ _ => .inr)
    · obtain ⟨henter, hkeep⟩ := spaced_of_isOuter hrule
      refine .inr ⟨⟨henter, programRanking.bounded_body r, hbody⟩, fun _ hkept => ?_⟩
      rw [hkeep] at hkept
      cases hkept

end Seam

end ExprScript
