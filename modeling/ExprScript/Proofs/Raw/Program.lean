import ExprScript.Proofs.Grammar.Expressions
import ExprScript.Proofs.Raw.OfMatch
import ExprScript.Raw.Parse

set_option autoImplicit false

/-! # A program is a row of statements

`ReadsStatements` says that a text is a row of statements, with layout around them and nothing
else. A match of the program rule is such a row (`readsStatements_of_matchProgram`,
`ReadsStatements.matchProgram`), and a text with statements in it is parsed by making raw trees of
the row (`parse_eq_ok_iff`). What is said about programs as wholes is proved on rows of statements.
-/

namespace ExprScript

open Grammar Peg Rule

/-- The text is a row of statements that leave the trees `ts`. -/
def ReadsStatements (cs : List Char) (ts : List (MatchTree Rule)) : Prop :=
  ∃ d, programGrammar.Steps .spaced (.call .statement) (.start cs) d ts ∧ (Layout.skip d).rest = []

def programSpan (cs : List Char) : Span := ⟨.first, Position.first.after cs⟩

/-! ## Where statements begin -/

theorem isBlank_of_isIdentifierChar {x : Char} (h : isIdentifierChar x = true) :
    isBlank x = false := by
  simp only [isIdentifierChar, Char.isAlphanum, Bool.or_eq_true, beq_iff_eq] at h
  rcases h with (halpha | hdigit) | rfl
  · have := toNat_of_isAlpha halpha
    exact isBlank_eq_false (by omega) (by omega)
  · have := toNat_of_isDigit hdigit
    exact isBlank_eq_false (by omega) (by omega)
  · decide

theorem isBlank_of_isExpressionStart {x : Char} (h : isExpressionStart x = true) :
    isBlank x = false := by
  simp only [isExpressionStart, isLiteralStart, Bool.or_eq_true, List.contains_iff_mem,
    List.mem_cons, List.not_mem_nil, or_false] at h
  rcases h with (hstart | hdigit | rfl | rfl | rfl | rfl) | rfl | rfl
  case inl.inl =>
    have := toNat_of_isIdentifierStart hstart
    exact isBlank_eq_false (by omega) (by omega)
  case inl.inr.inl =>
    have := toNat_of_isDigit hdigit
    exact isBlank_eq_false (by omega) (by omega)
  all_goals decide

/-- Where no word of another statement stands, only an expression can. -/
theorem run_statement_of_word {c : Cursor}
    (hwords : ∀ u ∈ statementWords, leadingWord c.rest ≠ u.toList) :
    programGrammar.run .spaced (firstOf (.call .functionDeclaration)
        [.call .namedFunction, .call .variableDeclaration, .call .returnExpression,
          .call .expression]) c =
      programGrammar.run .spaced (.call .expression) c := by
  have keyword {r : Rule} (ws : List String) (hr : r.body = .seq (.oneOf ws) wordEnd)
      (hmode : r.mode = .token) (hws : ∀ w ∈ ws, w ∈ statementWords) :
      programGrammar.run .spaced (.call r) c = .fail := by
    have hall : ∀ w ∈ statementWords, w ∈ keywords := by decide
    exact run_call_of_word ws hr hmode (fun w hw => hall w (hws w hw))
      fun w hw => hwords w (hws w hw)
  -- each of the other statements begins with one of these keywords
  have hfn : programGrammar.run .spaced (.call .functionKeyword) c = .fail :=
    keyword ["fn"] rfl rfl (by decide)
  have hreturn : programGrammar.run .spaced (.call .returnKeyword) c = .fail :=
    keyword ["return"] rfl rfl (by decide)
  have hmutable : programGrammar.run .spaced (.call .mutableKeyword) c = .fail :=
    keyword ["var"] rfl rfl (by decide)
  have himmutable : programGrammar.run .spaced (.call .immutableKeyword) c = .fail :=
    keyword ["let", "const"] rfl rfl (by decide)
  have hfunction : programGrammar.run .spaced (.call .functionDeclaration) c = .fail :=
    run_call_eq_fail_iff.2 (run_seq_of_fail hfn)
  have hnamed : programGrammar.run .spaced (.call .namedFunction) c = .fail :=
    run_call_eq_fail_iff.2 (run_seq_of_fail himmutable)
  have hvariable : programGrammar.run .spaced (.call .variableDeclaration) c = .fail :=
    run_call_eq_fail_iff.2 (run_seq_of_fail (run_alt_eq_fail_iff.2 ⟨hmutable, himmutable⟩))
  have hresult : programGrammar.run .spaced (.call .returnExpression) c = .fail :=
    run_call_eq_fail_iff.2 (run_seq_of_fail hreturn)
  rw [firstOf, run_alt_of_fail hfunction, firstOf, run_alt_of_fail hnamed, firstOf,
    run_alt_of_fail hvariable, firstOf, run_alt_of_fail hresult, firstOf]

/-- No statement begins with a blank character. -/
theorem run_statement_of_blank {c : Cursor} (hc : ∀ x ∈ c.rest, isBlank x = true) :
    programGrammar.run .spaced (.call .statement) c = .fail := by
  have ends {p : Char → Bool} (hp : ∀ {x}, p x = true → isBlank x = false) :
      EndsClass p c.rest := by
    intro x hx
    have hblank := hc x (List.mem_of_head? hx)
    cases hpx : p x with
    | false => rfl
    | true => rw [hp hpx] at hblank; cases hblank
  have hword : leadingWord c.rest = [] :=
    leadingWord_append (w := []) (by simp) (ends isBlank_of_isIdentifierChar)
  rw [run_silent rfl]
  have hwords : ∀ u ∈ statementWords, leadingWord c.rest ≠ u.toList := by
    rw [hword]
    decide
  refine run_seq_of_fail ((run_statement_of_word hwords).trans ?_)
  exact run_expression_of_head (ends isBlank_of_isExpressionStart)

/-- No statement is matched at the end of the input. -/
theorem run_statement_nil (p : Position) :
    programGrammar.run .spaced (.call .statement) ⟨p, []⟩ = .fail :=
  run_statement_of_blank (by simp)

/-- A text with a statement in it is not blank. -/
theorem ReadsStatements.not_blank {cs : List Char} {ts : List (MatchTree Rule)}
    (h : ReadsStatements cs ts) (hts : ts ≠ []) : cs.all isBlank = false := by
  obtain ⟨d, hsteps, -⟩ := h
  cases hblank : cs.all isBlank with
  | false => rfl
  | true =>
      cases hsteps with
      | refl => exact absurd rfl hts
      | head hrun _ =>
          obtain ⟨us, hus⟩ := Layout.exists_reads_skip (.start cs)
          have hcs : cs = us ++ (Layout.skip (.start cs)).rest := hus.rest
          have hrest : ∀ x ∈ (Layout.skip (.start cs)).rest, isBlank x = true := by
            intro x hx
            exact List.all_eq_true.1 hblank x (by rw [hcs]; exact List.mem_append_right us hx)
          cases hrun.symm.trans (run_statement_of_blank hrest)

/-! ## Matches of programs -/

/-- The trees of a row of statements are those of statements. -/
theorem rule_mem_statements_of_steps {c d : Cursor} {ts : List (MatchTree Rule)}
    (h : programGrammar.Steps .spaced (.call .statement) c d ts) :
    ∀ m ∈ ts, m.rule ∈ statements := by
  induction h with
  | refl => simp
  | head hrun _ ih =>
      obtain ⟨m, hm, rfl⟩ := of_yields_statement (yields_of_run (by decide) hrun)
      exact List.forall_mem_cons.2 ⟨hm, ih⟩

/-- A program is a row of statements, and the end of the input behind it. -/
theorem readsStatements_of_matchProgram {cs : List Char} {d : Cursor} {ms : List (MatchTree Rule)}
    (h : matchProgram cs = .ok d ms) :
    ∃ ts e, ReadsStatements cs ts ∧ e.rule = .endOfInput ∧
      ms = [.node .program (programSpan cs) cs (ts ++ [e])] := by
  rw [matchProgram_eq_run] at h
  obtain ⟨us, hbody, rfl⟩ := (run_node_eq_ok_iff (G := programGrammar) (by decide) (by decide)).1 h
  obtain ⟨c, vs, ws, hempty, hrow, rfl⟩ := run_seq_eq_ok_iff.1 hbody
  obtain ⟨hc, rfl⟩ := Outcome.ofCursor?_eq_ok_iff.1 ((run_lit "").symm.trans hempty)
  obtain rfl : .start cs = c := Option.some.inj hc
  obtain ⟨d₁, ts, es, hstar, hend, rfl⟩ := run_seq_eq_ok_iff.1 hrow
  obtain ⟨fs, hdone, rfl⟩ :=
    (run_node_eq_ok_iff (G := programGrammar) (r := .endOfInput) (by decide) (by decide)).1 hend
  have hdone : (if (Layout.skip d₁).rest.isEmpty then Outcome.ok (Layout.skip d₁) [] else .fail) =
      .ok d fs := run_done.symm.trans hdone
  by_cases hnil : (Layout.skip d₁).rest.isEmpty
  · rw [if_pos hnil] at hdone
    obtain ⟨rfl, rfl⟩ := Outcome.ok.inj hdone
    have hrest : (Layout.skip d₁).rest = [] := List.isEmpty_iff.1 hnil
    -- the whole text has been read when its end is reached
    obtain ⟨read, hread⟩ := exists_reads_of_run programRanking.skipReads h
    obtain rfl : cs = read := by
      have := hread.rest
      rwa [hrest, List.append_nil] at this
    have hpos : (Layout.skip d₁).pos = Position.first.after cs := hread.pos
    have htext : (Cursor.start cs).upTo (Layout.skip d₁) = cs := hread.upTo_eq
    have hprogram : MatchTree.node Rule.program ⟨.first, (Layout.skip d₁).pos⟩
        ((Cursor.start cs).upTo (Layout.skip d₁)) = .node Rule.program (programSpan cs) cs := by
      rw [hpos, htext, programSpan]
    let e : MatchTree Rule := .node .endOfInput (.point (Layout.skip d₁).pos)
      ((Layout.skip d₁).upTo (Layout.skip d₁)) []
    refine ⟨ts, e, ?_, rfl, congrArg (fun m => [m (ts ++ [e])]) hprogram⟩
    rcases run_star_eq_ok hstar with ⟨-, rfl, rfl⟩ | ⟨c₁, us, vs, hfirst, hsteps, -, rfl⟩
    · refine ⟨_, .refl _, ?_⟩
      rwa [← Layout.skip_skip]
    · exact ⟨d₁, .head hfirst hsteps, hrest⟩
  · rw [if_neg hnil] at hdone
    cases hdone

/-- A row of statements is a program. -/
theorem ReadsStatements.matchProgram {cs : List Char} {ts : List (MatchTree Rule)}
    (h : ReadsStatements cs ts) :
    ∃ d e, ExprScript.matchProgram cs = .ok d [.node .program (programSpan cs) cs (ts ++ [e])] ∧
      e.rule = .endOfInput := by
  obtain ⟨d, hsteps, hrest⟩ := h
  have hstop : programGrammar.run .spaced (.call .statement) (Layout.skip d) = .fail :=
    run_statement_of_blank (by simp [hrest])
  obtain ⟨d₁, hstar, hd₁⟩ := run_star_spaced rfl hsteps hstop
  have hempty : programGrammar.run .spaced (.lit "") (.start cs) = .ok (.start cs) [] := by
    rw [run_lit]
    rfl
  have hdone : programGrammar.run .spaced .done (Layout.skip d₁) = .ok (Layout.skip d₁) [] := by
    rw [run_done, hd₁, hrest]
    rfl
  have hend := (run_node_eq_ok_iff (G := programGrammar) (r := .endOfInput) (s := .spaced)
    (by decide) (by decide)).2 ⟨[], hdone, rfl⟩
  have hbody := run_seq_ok hempty (run_seq_ok hstar hend)
  have hmatch := (run_node_eq_ok_iff (G := programGrammar) (r := .program) (by decide)
    (by decide)).2 ⟨_, hbody, rfl⟩
  rw [← matchProgram_eq_run] at hmatch
  obtain ⟨ts', e, -, he, hms⟩ := readsStatements_of_matchProgram hmatch
  obtain ⟨-, -, -, hts⟩ := MatchTree.node.inj (List.singleton_inj.1 hms)
  obtain ⟨rfl, -⟩ := List.append_inj' (show ts ++ [_] = ts' ++ [e] from hts) rfl
  exact ⟨_, e, by rw [hmatch, hms], he⟩

/-- **Parsing a text that is not blank** is reading it as a row of statements and making raw trees
of them. -/
theorem parse_eq_ok_iff {source : String} {raw : RawNode}
    (hblank : source.toList.all isBlank = false) :
    parse source = .ok raw ↔
      ∃ ts raws, ReadsStatements source.toList ts ∧ RawNode.ofMatches ts = .ok raws ∧
        raw = .ofType .program raws (programSpan source.toList) := by
  -- the match of the end of the text stands behind the statements and gives no raw tree
  have program {ts : List (MatchTree Rule)} {e : MatchTree Rule}
      (hts : ReadsStatements source.toList ts) (he : e.rule = .endOfInput) :
      RawNode.ofMatch (.node .program (programSpan source.toList) source.toList (ts ++ [e])) =
        do return .ofType .program (← RawNode.ofMatches ts) (programSpan source.toList) := by
    obtain ⟨d, hsteps, -⟩ := hts
    have hrules : ∀ m ∈ ts, m.rule ≠ .endOfInput := fun m hm =>
      Rule.ne_endOfInput_of_mem_statements (rule_mem_statements_of_steps hsteps m hm)
    rw [RawNode.ofMatch, RawNode.ofStatements_append he hrules]
  rw [parse, hblank]
  constructor
  · intro h
    cases hm : matchProgram source.toList with
    | ok d ms =>
        obtain ⟨ts, e, hts, he, rfl⟩ := readsStatements_of_matchProgram hm
        simp only [hm, program hts he, Bool.false_eq_true, if_false] at h
        cases hraws : RawNode.ofMatches ts with
        | ok raws =>
            rw [hraws] at h
            exact ⟨ts, raws, hts, hraws, (Except.ok.inj h).symm⟩
        | error e => rw [hraws] at h; cases h
    | fail => simp [hm] at h
    | exhausted => simp [hm] at h
  · rintro ⟨ts, raws, hts, hraws, rfl⟩
    obtain ⟨d, e, hm, he⟩ := hts.matchProgram
    simp only [hm, program hts he, hraws, Bool.false_eq_true, if_false]
    rfl

/-- **Parsing a text with statements in it**: whatever is parsed with a statement is such a row,
and is not blank. -/
theorem parse_statements_iff {source : String} {raw : RawNode} :
    parse source = .ok raw ∧ raw.children ≠ [] ↔
      ∃ ts raws, ReadsStatements source.toList ts ∧ RawNode.ofMatches ts = .ok raws ∧
        raws ≠ [] ∧ raw = .ofType .program raws (programSpan source.toList) := by
  constructor
  · rintro ⟨h, hne⟩
    cases hblank : source.toList.all isBlank with
    | false =>
        obtain ⟨ts, raws, hts, hraws, rfl⟩ := (parse_eq_ok_iff hblank).1 h
        exact ⟨ts, raws, hts, hraws, hne, rfl⟩
    | true =>
        rw [parse, if_pos hblank] at h
        obtain rfl := Except.ok.inj h
        exact absurd rfl hne
  · rintro ⟨ts, raws, hts, hraws, hne, rfl⟩
    have hts' : ts ≠ [] := by
      rintro rfl
      exact hne (Except.ok.inj hraws).symm
    exact ⟨(parse_eq_ok_iff (hts.not_blank hts')).2 ⟨ts, raws, hts, hraws, rfl⟩, hne⟩

end ExprScript
