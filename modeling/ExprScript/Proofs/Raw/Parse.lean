import ExprScript.Proofs.Raw.Program

set_option autoImplicit false

/-! # Programs of one expression

A text that is read as an expression is parsed as the program whose only statement is that
expression (`parse_of_readsExpression`).
-/

namespace ExprScript

open Grammar Peg Rule

/-- An expression that is the whole text is a statement. -/
theorem ReadsExpression.statement {text : List Char} {n : Node} (h : ReadsExpression text n)
    (p : Position) :
    ∃ d m raw, programGrammar.run .spaced (.call .statement) ⟨p, text⟩ = .ok d [m] ∧
      Layout.skip d = ⟨p.after text, []⟩ ∧ RawNode.ofMatch m = .ok raw ∧ raw.Describes n := by
  obtain ⟨d, m, raw, hrun, hd, hraw, hdescribes⟩ := h.accept p [] endsExpression_nil
  have hend : Layout.skip d = ⟨p.after text, []⟩ := hd.trans (Layout.skip_of_free trivial)
  have hwords := h.word [] (by simp [EndsClass])
  rw [List.append_nil] at hrun hwords
  have hsemicolon : programGrammar.run .spaced (.opt (.lit ";")) (Layout.skip d) =
      .ok (Layout.skip d) [] := by
    rw [hend]
    exact run_opt_of_fail (run_lit_of_head (x := ';') rfl (by simp))
  refine ⟨Layout.skip d, m, raw, ?_, by rw [Layout.skip_skip, hend], hraw, hdescribes⟩
  rw [run_silent rfl]
  exact run_seq_ok ((run_statement_of_word (c := ⟨p, text⟩) hwords).trans hrun) hsemicolon

/-- **A text that is read as an expression is parsed as a program of one statement.** -/
theorem parse_of_readsExpression {text : String} {n : Node} (h : ReadsExpression text.toList n)
    (i : Nat) (span : Span) :
    ∃ raw, parse text = .ok raw ∧ raw.Describes ⟨i, .program, [n], span⟩ := by
  obtain ⟨d, m, raw, hstatement, hd, hraw, hdescribes⟩ := h.statement .first
  have hgap := h.opens.gap .first []
  rw [List.append_nil] at hgap
  have hrow : ReadsStatements text.toList [m] := by
    refine ⟨d, .single ?_, by rw [hd]⟩
    rw [Cursor.start, hgap]
    exact hstatement
  have hblank : text.toList.all isBlank = false := hrow.not_blank (List.cons_ne_nil m [])
  refine ⟨.ofType .program [raw] (programSpan text.toList), ?_,
    .intro rfl (.cons hdescribes .nil)⟩
  exact (parse_eq_ok_iff hblank).2 ⟨[m], [raw], hrow, ofMatches_cons hraw rfl, rfl⟩

end ExprScript
