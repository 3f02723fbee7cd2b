import ExprScript.Proofs.Grammar.Balance
import ExprScript.Proofs.Raw.Unplaced

set_option autoImplicit false

/-! # Programs one after the other

Two programs with a line break and a semicolon between them are one program, with the statements of
the first and then those of the second (`parse_append`). The line break ends a comment that the
first may end with, and the semicolon is the one that may stand behind its last statement, so that
has to have none yet.
-/

namespace ExprScript

open Grammar Peg Rule Lexing MatchTree

/-! ## Behind the first program -/

theorem run_nil_of_takes {s : Setting} {e : Peg Rule} (he : e.takes takesChar = true)
    (hbounded : e.bounded takesChar bodyDepth 64 = true) (p : Position) :
    programGrammar.run s e ⟨p, []⟩ = .fail := by
  cases h : programGrammar.run s e ⟨p, []⟩ with
  | ok d ts => exact absurd (programRanking.length_lt_of_run he h) (Nat.not_lt_zero _)
  | fail => rfl
  | exhausted => exact absurd h (programRanking.run_ne_exhausted hbounded)

/-- No word begins with a semicolon. -/
theorem run_word_semicolon {r : Rule} (hr : r.isWord = true) (p : Position) (cs : List Char) :
    programGrammar.run .spaced (.call r) ⟨p, ';' :: cs⟩ = .fail := by
  have plain (hplain : r ∈ Rule.plain) (hmode : r.mode = .token)
      (htakes : takesChar r = true) :
      programGrammar.run .spaced (.call r) ⟨p, ';' :: cs⟩ = .fail := by
    have hagree := agree_plain hplain hmode (x := []) (k := []) (c := ⟨p, []⟩) (by simp [EndsClass])
      (by simp [EndsClass]; decide) rfl (show (Cursor.mk p (';' :: cs)).rest = [] ++ _ from rfl)
    rw [run_nil_of_takes (e := .call r) htakes rfl] at hagree
    generalize programGrammar.run .spaced (.call r) ⟨p, ';' :: cs⟩ = o at hagree
    cases hagree
    rfl
  cases r with
  | binaryOperator => exact run_operator_of_head (by simp [EndsClass]; decide)
  | string => exact run_string_of_head (by simp) (by simp)
  | integer | boolean | void | identifier | functionKeyword | returnKeyword | mutableKeyword
  | immutableKeyword => exact plain (by decide) rfl rfl
  | _ => cases hr

/-- No text of the grammar begins with a semicolon but the semicolon itself. -/
theorem strip_semicolon {t : String} {j : Nat} (ht : (Peg.lit t).Leads 0 j) (p p' : Position)
    (cs : List Char) :
    Cursor.strip? t.toList ⟨p, []⟩ = none ∧ Cursor.strip? t.toList ⟨p', ';' :: cs⟩ = none := by
  have hhead : ∀ t ∈ ";" :: (openers ++ closers ++ separators),
      t ≠ ";" → t.toList ≠ [] ∧ t.toList.head? ≠ some ';' := by decide
  have hne : t ≠ ";" := fun heq => Nat.lt_irrefl 0 (ht.lit.2.2 heq)
  obtain ⟨inner, base, n, m, -, hlevel, -⟩ := ht
  obtain ⟨hnil, hsemicolon⟩ := hhead t (mem_of_level_lit hlevel) hne
  rw [Cursor.strip?_eq_none_iff, Cursor.strip?_eq_none_iff]
  constructor
  · intro hprefix
    exact hnil (List.prefix_nil.1 hprefix)
  · rintro ⟨rest, hrest⟩
    obtain ⟨x, xs, hx⟩ := List.exists_cons_of_ne_nil hnil
    rw [hx] at hrest hsemicolon
    exact hsemicolon (congrArg some (List.cons.inj hrest).1)

/-- The end of the first program, with nothing behind it and with the second program behind a line
break and a semicolon. -/
def joint (after : List Char) : Seam [] ('\n' :: ';' :: after) where
  Ends st := (∀ q, st.mode ≠ .quoted q) ∧ st.depth = 0 ∧ st.last ≠ some ';'
  Past i c c' := i = 0 ∧ c.rest = [] ∧ c'.rest = ';' :: after
  apart := by simp [Apart, EndsClass]
  apart' := by simp [Apart, EndsClass]; decide
  closed hends := hends.1
  past_of_ends {m i l p p'} hm hends := by
    have hfree : Layout.Free (';' :: after) := ⟨rfl, by simp⟩
    refine ⟨Int.ofNat.inj hends.2.1, ?_, ?_⟩
    · rcases hm with rfl | rfl <;> rfl
    · -- the line break is layout, and in a comment it is the end of the comment
      rcases hm with rfl | rfl
      · show (Layout.skipFrom p' _).rest = _
        rw [Layout.skipFrom_space (by decide), Layout.skipFrom_of_free hfree]
      · show (Layout.skipComment p' _).rest = _
        rw [Layout.skipComment, if_pos rfl, Layout.skipFrom_of_free hfree]
  past_skip {i c c'} h := by
    obtain ⟨rfl, hc, hc'⟩ := h
    have hfree : Layout.Free c'.rest := by
      rw [hc']
      exact ⟨rfl, by simp⟩
    rw [Layout.skip_of_free (by rw [hc]; trivial), Layout.skip_of_free hfree]
    exact ⟨rfl, hc, hc'⟩
  past_lit {t i j c c'} h ht := by
    obtain ⟨p, cs⟩ := c
    obtain ⟨p', cs'⟩ := c'
    obtain ⟨rfl, rfl, rfl⟩ := h
    obtain ⟨hnone, hnone'⟩ := strip_semicolon ht p p' after
    rw [hnone, hnone']
    exact .fail
  past_word {r i c c'} h hr := by
    obtain ⟨p, cs⟩ := c
    obtain ⟨p', cs'⟩ := c'
    obtain ⟨rfl, rfl, rfl⟩ := h
    have htakes : takesChar r = true := by
      revert hr
      cases r <;> decide
    rw [run_word_semicolon hr, run_nil_of_takes (e := .call r) htakes rfl]
    exact .fail

variable {after : List Char} {c c' d : Cursor} {ts : List (MatchTree Rule)}

/-- What a statement is before the semicolon that may follow it. -/
def bareStatement : Peg Rule :=
  firstOf (.call .functionDeclaration)
    [.call .namedFunction, .call .variableDeclaration, .call .returnExpression, .call .expression]

/-- A statement ends with a semicolon, or in front of something else. -/
theorem run_statement_eq_ok_iff :
    programGrammar.run .spaced (.call .statement) c = .ok d ts ↔
      ∃ c₁, programGrammar.run .spaced bareStatement c = .ok c₁ ts ∧
        ((Layout.skip c₁).Reads [';'] d ∨
          d = Layout.skip c₁ ∧ (Layout.skip c₁).rest.head? ≠ some ';') := by
  -- an optional semicolon always matches, and is taken where it stands
  have hsemicolon (c : Cursor) (vs : List (MatchTree Rule)) :
      programGrammar.run .spaced (.opt (.lit ";")) c = .ok d vs ↔
        (c.Reads [';'] d ∨ d = c ∧ c.rest.head? ≠ some ';') ∧ vs = [] := by
    have hlit : programGrammar.run .spaced (.lit ";") c = .ofCursor? (c.strip? [';']) :=
      run_lit ";"
    cases hstrip : c.strip? [';'] with
    | none =>
        have hother : c.rest.head? ≠ some ';' := by
          intro hhead
          obtain ⟨cs, hcs⟩ := List.head?_eq_some_iff.1 hhead
          exact Cursor.strip?_eq_none_iff.1 hstrip ⟨cs, hcs.symm⟩
        rw [run_opt_of_fail (by rw [hlit, hstrip]; rfl)]
        constructor
        · intro h
          obtain ⟨rfl, rfl⟩ := Outcome.ok.inj h
          exact ⟨.inr ⟨rfl, hother⟩, rfl⟩
        · rintro ⟨hread | ⟨rfl, -⟩, rfl⟩
          · exact absurd (by rw [hread.rest]; rfl) hother
          · rfl
    | some e =>
        have hread := Cursor.strip?_eq_some_iff.1 hstrip
        rw [run_opt_of_ok (by rw [hlit, hstrip]; rfl)]
        constructor
        · intro h
          obtain ⟨rfl, rfl⟩ := Outcome.ok.inj h
          exact ⟨.inl hread, rfl⟩
        · rintro ⟨hread' | ⟨-, hother⟩, rfl⟩
          · obtain rfl := Option.some.inj (hstrip.symm.trans (Cursor.strip?_eq_some_iff.2 hread'))
            rfl
          · exact absurd (by rw [hread.rest]; rfl) hother
  rw [run_silent rfl]
  show programGrammar.run .spaced (.seq bareStatement (.opt (.lit ";"))) c = _ ↔ _
  rw [run_seq_eq_ok_iff]
  constructor
  · rintro ⟨c₁, us, vs, hbare, hopt, rfl⟩
    obtain ⟨hend, rfl⟩ := (hsemicolon _ vs).1 hopt
    exact ⟨c₁, by rwa [List.append_nil], hend⟩
  · rintro ⟨c₁, hbare, hend⟩
    exact ⟨c₁, ts, [], hbare, (hsemicolon _ []).2 ⟨hend, rfl⟩, (List.append_nil ts).symm⟩

/-- Behind a semicolon, the first program is not over. -/
theorem skip_ne_nil_of_ends {y : List Char} (hd : d.rest = y)
    (hends : (joint after).Ends (scan ⟨.code, 0, some ';'⟩ y)) : (Layout.skip d).rest ≠ [] := by
  have hskip : Layout.skip d = pass .code d.pos (y ++ []) := by
    rw [List.append_nil, ← hd]
    rfl
  rw [hskip]
  cases passes (.inl rfl) y with
  | words hy _ hpass =>
      rw [hpass [] (joint after).apart, List.append_nil]
      exact hy
  | all _ hscan _ =>
      rw [hscan] at hends
      exact absurd rfl hends.2.2

/-- **One statement of the first program**: it is read in the longer text as well, and the
statements go on in both texts or the first program is over. -/
theorem statement_of_joint (hbehind : (joint after).Behind 0 c c')
    (h : programGrammar.run .spaced (.call .statement) (Layout.skip c) = .ok d ts) :
    ∃ d' ts', programGrammar.run .spaced (.call .statement) (Layout.skip c') = .ok d' ts' ∧
      bares keepsText ts = bares keepsText ts' ∧
      ((joint after).Behind 0 d d' ∧ (Layout.skip d).rest ≠ [] ∨
        (Layout.skip d).rest = [] ∧ d'.rest = after) := by
  have hfits : (joint after).lockstep.Fits .spaced bareStatement 0 0 :=
    ⟨rfl, rfl, false, 0, 0, 0, by simp, rfl, rfl, rfl⟩
  obtain ⟨c₁, hbare, hend⟩ := run_statement_eq_ok_iff.1 h
  obtain ⟨c₁', ts', hbare', hbehind₁, hts⟩ :=
    (joint after).lockstep.exists_run_of_ok hfits ((joint after).near_skip hbehind) hbare
  obtain ⟨-, ⟨x, hx, hc₁, hc₁', l, hends⟩ | ⟨-, hc₁, hc₁'⟩⟩ := (joint after).near_skip hbehind₁
  · rcases hend with hread | ⟨rfl, hother⟩
    · -- the statement has a semicolon of its own, and both texts go on behind it
      have hy : x = ';' :: d.rest := by
        rw [← List.append_nil x, ← hc₁]
        exact hread.rest
      subst hy
      have hread' : (Layout.skip c₁').Reads [';']
          ⟨(Layout.skip c₁').pos.advance ';', d.rest ++ '\n' :: ';' :: after⟩ := ⟨hc₁', rfl⟩
      have hends' : (joint after).Ends (scan ⟨.code, (0 : Nat), some ';'⟩ d.rest) := by
        rw [scan_mark ⟨rfl, by simp⟩ (by decide) (by decide)] at hends
        exact hends
      refine ⟨_, ts', run_statement_eq_ok_iff.2 ⟨c₁', hbare', .inl hread'⟩, hts, .inl ⟨?_, ?_⟩⟩
      · exact .inl ⟨d.rest, (List.append_nil _).symm, rfl, some ';', hends'⟩
      · exact skip_ne_nil_of_ends rfl hends'
    · -- no semicolon, and more of the first program ahead
      have hother' : (Layout.skip c₁').rest.head? ≠ some ';' := by
        rw [hc₁', List.head?_append_of_ne_nil x hx]
        rwa [hc₁, List.append_nil] at hother
      refine ⟨_, ts', run_statement_eq_ok_iff.2 ⟨c₁', hbare', .inr ⟨rfl, hother'⟩⟩, hts,
        .inl ⟨?_, ?_⟩⟩
      · exact .inl ⟨x, hc₁, hc₁', l, hends⟩
      · rw [Layout.skip_skip, hc₁, List.append_nil]
        exact hx
  · -- the first program is over, and the semicolon behind it ends its last statement
    have hread' : (Layout.skip c₁').Reads [';'] ⟨(Layout.skip c₁').pos.advance ';', after⟩ :=
      ⟨hc₁', rfl⟩
    refine ⟨_, ts', run_statement_eq_ok_iff.2 ⟨c₁', hbare', .inl hread'⟩, hts, .inr ⟨?_, rfl⟩⟩
    rcases hend with hread | ⟨rfl, -⟩
    · rw [hread.rest] at hc₁
      cases hc₁
    · rw [Layout.skip_skip, hc₁]

/-- **All statements of the first program** are read in the longer text, which goes on with the
second one. -/
theorem steps_of_joint (hbehind : (joint after).Behind 0 c c') (hc : (Layout.skip c).rest ≠ [])
    (h : programGrammar.Steps .spaced (.call .statement) c d ts)
    (hd : (Layout.skip d).rest = []) :
    ∃ d' ts', programGrammar.Steps .spaced (.call .statement) c' d' ts' ∧ d'.rest = after ∧
      bares keepsText ts = bares keepsText ts' := by
  induction h generalizing c' with
  | refl => exact absurd hd hc
  | @head c c₁ d us vs hrun rest ih =>
      obtain ⟨c₁', us', hrun', hus, ⟨hbehind₁, hc₁⟩ | ⟨hover, hafter⟩⟩ :=
        statement_of_joint hbehind hrun
      · obtain ⟨d', vs', hsteps', hd', hvs⟩ := ih hbehind₁ hc₁ hd
        exact ⟨d', us' ++ vs', .head hrun' hsteps', hd',
          by rw [bares_append, bares_append, hus, hvs]⟩
      · cases rest with
        | refl => exact ⟨c₁', us', .single hrun', hafter, by rw [List.append_nil, hus]⟩
        | head hnext _ =>
            have hskip : Layout.skip c₁ = ⟨(Layout.skip c₁).pos, []⟩ := by rw [← hover]
            change programGrammar.run .spaced (.call .statement) (Layout.skip c₁) = _ at hnext
            rw [hskip, run_statement_nil] at hnext
            cases hnext

/-! ## Both programs -/

theorem skip_start_ne_nil {cs : List Char} (hne : ts ≠ [])
    (h : programGrammar.Steps .spaced (.call .statement) (.start cs) d ts) :
    (Layout.skip (.start cs)).rest ≠ [] := by
  intro hnil
  cases h with
  | refl => exact hne rfl
  | head hrun _ =>
      have hskip : Layout.skip (.start cs) = ⟨(Layout.skip (.start cs)).pos, []⟩ := by rw [← hnil]
      change programGrammar.run .spaced (.call .statement) (Layout.skip (.start cs)) = _ at hrun
      rw [hskip, run_statement_nil] at hrun
      cases hrun

theorem ReadsStatements.append {cs₁ cs₂ : List Char} {ts₁ ts₂ : List (MatchTree Rule)}
    (h₁ : ReadsStatements cs₁ ts₁) (hne : ts₁ ≠ []) (hlast : (scan {} cs₁).last ≠ some ';')
    (h₂ : ReadsStatements cs₂ ts₂) :
    ∃ ts, ReadsStatements (cs₁ ++ '\n' :: ';' :: cs₂) ts ∧
      bares keepsText (ts₁ ++ ts₂) = bares keepsText ts := by
  obtain ⟨hmode, hdepth⟩ := closed_of_readsStatements h₁
  obtain ⟨d₁, hsteps₁, hend₁⟩ := h₁
  obtain ⟨d₂, hsteps₂, hend₂⟩ := h₂
  have hbehind : (joint cs₂).Behind 0 (.start cs₁) (.start (cs₁ ++ '\n' :: ';' :: cs₂)) :=
    .inl ⟨cs₁, (List.append_nil cs₁).symm, rfl, none, hmode, hdepth, hlast⟩
  obtain ⟨d₁', us, hus, hrest, hbares₁⟩ :=
    steps_of_joint hbehind (skip_start_ne_nil hne hsteps₁) hsteps₁ hend₁
  -- the second program begins somewhere else, with the same text ahead
  have hsame : (Cursor.start cs₂).rest = d₁'.rest := hrest.symm
  obtain ⟨d₂', vs, hvs, hd₂, hbares₂⟩ :=
    (sameRest keepsText).steps (i := 0) ⟨rfl, rfl⟩ hsame hsteps₂
  refine ⟨us ++ vs, ⟨d₂', hus.trans hvs, ?_⟩, by rw [bares_append, bares_append, hbares₁, hbares₂]⟩
  rw [← hend₂]
  exact (skip_rest_eq hd₂).symm

/-- **Programs one after the other**: the statements of the first and then those of the second, if
the last character of the first one outside of layout is no semicolon. -/
theorem parse_append {s₁ s₂ : String} {raw₁ raw₂ : RawNode}
    (h₁ : parse s₁ = .ok raw₁) (hne₁ : raw₁.children ≠ [])
    (h₂ : parse s₂ = .ok raw₂) (hne₂ : raw₂.children ≠ [])
    (hlast : (scan {} s₁.toList).last ≠ some ';') :
    ∃ raw, parse (s₁ ++ "\n;" ++ s₂) = .ok raw ∧
      raw.children.map RawNode.unplaced = (raw₁.children ++ raw₂.children).map RawNode.unplaced := by
  obtain ⟨ts₁, raws₁, hts₁, hraws₁, hraws_ne, rfl⟩ := parse_statements_iff.1 ⟨h₁, hne₁⟩
  obtain ⟨ts₂, raws₂, hts₂, hraws₂, -, rfl⟩ := parse_statements_iff.1 ⟨h₂, hne₂⟩
  have hts_ne : ts₁ ≠ [] := by
    rintro rfl
    rw [RawNode.ofMatches] at hraws₁
    exact hraws_ne (Except.ok.inj hraws₁).symm
  obtain ⟨ts, hts, hbares⟩ := hts₁.append hts_ne hlast hts₂
  obtain ⟨_, hsteps₁, -⟩ := hts₁
  obtain ⟨_, hsteps₂, -⟩ := hts₂
  have hderived : ∀ m ∈ ts₁ ++ ts₂, programGrammar.Derived m :=
    List.forall_mem_append.2 ⟨derived_of_steps hsteps₁, derived_of_steps hsteps₂⟩
  have htext : (s₁ ++ "\n;" ++ s₂).toList = s₁.toList ++ '\n' :: ';' :: s₂.toList := by
    rw [String.toList_append, String.toList_append, List.append_assoc]
    rfl
  rw [← htext] at hts
  obtain ⟨raws, hparse, halike⟩ := hts.exists_parse hderived hbares
    (ofMatches_append hraws₁ hraws₂) (by simp [hraws_ne])
  refine ⟨_, hparse, ?_⟩
  rw [← RawNode.unplaceds_eq_map, ← RawNode.unplaceds_eq_map]
  exact halike.symm

/-- Without the semicolon the second text would be the arguments of a call, and without the line
break it would be part of the comment. -/
theorem parse_append_afterComment :
    ∃ raw₁ raw₂ raw, parse "f // name" = .ok raw₁ ∧ parse "(a)" = .ok raw₂ ∧
      parse ("f // name" ++ "\n;" ++ "(a)") = .ok raw ∧ raw.children.length = 2 ∧
      raw.children.map RawNode.unplaced = (raw₁.children ++ raw₂.children).map RawNode.unplaced := by
  obtain ⟨raw₁, h₁, hlength₁⟩ : ∃ raw, parse "f // name" = .ok raw ∧ raw.children.length = 1 :=
    ⟨_, rfl, rfl⟩
  obtain ⟨raw₂, h₂, hlength₂⟩ : ∃ raw, parse "(a)" = .ok raw ∧ raw.children.length = 1 :=
    ⟨_, rfl, rfl⟩
  have hne {raw : RawNode} (hlength : raw.children.length = 1) : raw.children ≠ [] := by
    rw [← List.length_pos_iff, hlength]
    decide
  obtain ⟨raw, hparse, hchildren⟩ :=
    parse_append h₁ (hne hlength₁) h₂ (hne hlength₂) (by decide)
  refine ⟨raw₁, raw₂, raw, h₁, h₂, hparse, ?_, hchildren⟩
  have hlength := congrArg List.length hchildren
  rw [List.length_map, List.length_map, List.length_append, hlength₁, hlength₂] at hlength
  exact hlength

end ExprScript
