import ExprScript.Proofs.Grammar.Tokens
import ExprScript.Proofs.Source.Decimal
import ExprScript.Script.Quote

set_option autoImplicit false

/-! # Matching the text of a literal

Where the text of an operator, a boolean, an integer or a quoted string stands, the rule for it
matches exactly that text (`run_operator`, `run_boolean`, `run_integer`, `run_string`). And a
rule that begins with another character does not match.
-/

namespace ExprScript

open Grammar Peg

namespace Rule

variable {s : Setting} {c : Cursor}

/-! ## Rules that do not match -/

theorem run_lit_of_head {t : String} {x : Char} (ht : t.toList.head? = some x)
    (hc : c.rest.head? ≠ some x) : programGrammar.run s (.lit t) c = .fail := by
  rw [run_lit, Outcome.ofCursor?_eq_fail_iff, Cursor.strip?_eq_none_iff]
  rintro ⟨k, hk⟩
  obtain ⟨xs, hxs⟩ := List.head?_eq_some_iff.1 ht
  rw [hxs] at hk
  exact hc (by rw [← hk]; rfl)

/-- A rule whose body begins with a text does not match where another character stands. -/
theorem run_call_of_head {r : Rule} {t : String} {b : Peg Rule} {x : Char}
    (hr : r.body = .seq (.lit t) b) (ht : t.toList.head? = some x)
    (hc : c.rest.head? ≠ some x) : programGrammar.run s (.call r) c = .fail := by
  refine run_call_eq_fail_iff.2 ?_
  show programGrammar.run _ r.body c = .fail
  rw [hr]
  exact run_seq_of_fail (run_lit_of_head ht hc)

theorem run_anonymousFunction_of_head (hc : c.rest.head? ≠ some '(') :
    programGrammar.run s (.call .anonymousFunction) c = .fail :=
  run_call_eq_fail_iff.2 (run_seq_of_fail (run_call_of_head (r := .parameters) rfl rfl hc))

/-- A rule for whole words does not match where another word stands. -/
theorem run_call_of_word {r : Rule} (ws : List String) (hr : r.body = .seq (.oneOf ws) wordEnd)
    (hmode : r.mode = .token) (hws : ∀ w ∈ ws, w ∈ keywords)
    (hc : ∀ w ∈ ws, leadingWord c.rest ≠ w.toList) :
    programGrammar.run s (.call r) c = .fail := by
  refine run_call_eq_fail_iff.2 ?_
  show programGrammar.run (r.mode.enter s) r.body c = .fail
  rw [hr, hmode]
  exact run_word_of_not_mem hws hc

theorem run_integer_of_head (hminus : c.rest.head? ≠ some '-')
    (hc : EndsClass Char.isDigit c.rest) :
    programGrammar.run s (.call .integer) c = .fail := by
  refine run_call_eq_fail_iff.2 ?_
  show programGrammar.run .token (body .integer) c = .fail
  rw [body, inOrder, run_seq_of_ok (run_opt_of_fail (run_lit_of_head rfl hminus)),
    Outcome.after_eq_fail_iff]
  refine run_seq_of_fail ?_
  rw [run_one, Outcome.ofCursor?_eq_fail_iff]
  exact step?_eq_none_of_endsClass hc

theorem run_string_of_head (hsingle : c.rest.head? ≠ some '\'')
    (hdouble : c.rest.head? ≠ some '"') : programGrammar.run s (.call .string) c = .fail := by
  refine run_call_eq_fail_iff.2 (run_alt_eq_fail_iff.2 ⟨?_, ?_⟩)
  · exact run_seq_of_fail (run_lit_of_head rfl hsingle)
  · exact run_seq_of_fail (run_lit_of_head rfl hdouble)

theorem run_call_identifier_of_not_start (hc : EndsClass isIdentifierStart c.rest) :
    programGrammar.run s (.call .identifier) c = .fail :=
  run_call_eq_fail_iff.2 (run_identifier_of_not_start hc)

/-! ## Rules that match -/

variable {p : Position} {k : List Char}

/-- A text of one character. -/
theorem run_lit_cons {t : String} {x : Char} (ht : t.toList = [x]) :
    programGrammar.run s (.lit t) ⟨p, x :: k⟩ = .ok ⟨p.advance x, k⟩ [] := by
  rw [run_lit, ht]
  exact Outcome.ofCursor?_eq_ok_iff.2 ⟨Cursor.strip?_append p [x] k, rfl⟩

/-- A rule that leaves a tree keeps the text its body has read. -/
theorem run_call_of_body {r : Rule} (hr : r.mode ≠ .silent) (hs : s ≠ .token) {text : List Char}
    {ts : List (MatchTree Rule)}
    (h : programGrammar.run (r.mode.enter s) r.body ⟨p, text ++ k⟩ = .ok ⟨p.after text, k⟩ ts) :
    programGrammar.run s (.call r) ⟨p, text ++ k⟩ =
      .ok ⟨p.after text, k⟩ [.node r ⟨p, p.after text⟩ text ts] := by
  refine (run_node_eq_ok_iff (G := programGrammar) hr hs).2 ⟨ts, h, ?_⟩
  rw [(Cursor.reads_append p text k).upTo_eq]

theorem run_operator {o : String} (ho : o ∈ operators) (hs : s ≠ .token) :
    programGrammar.run s (.call .binaryOperator) ⟨p, o.toList ++ ' ' :: k⟩ =
      .ok ⟨p.after o.toList, ' ' :: k⟩
        [.node .binaryOperator ⟨p, p.after o.toList⟩ o.toList []] := by
  refine run_call_of_body (by decide) hs ?_
  show programGrammar.run s (.oneOf operators) _ = _
  rw [run_oneOf]
  simp only [operators, List.mem_cons, List.not_mem_nil, or_false] at ho
  rcases ho with rfl | rfl | rfl | rfl | rfl | rfl | rfl | rfl | rfl | rfl | rfl | rfl | rfl <;> rfl

/-- A boolean literal, with no character of a word behind it. -/
theorem run_boolean {w : String} (hw : w ∈ ["true", "false"]) (hs : s ≠ .token)
    (hk : EndsClass isIdentifierChar k) :
    programGrammar.run s (.call .boolean) ⟨p, w.toList ++ k⟩ =
      .ok ⟨p.after w.toList, k⟩ [.node .boolean ⟨p, p.after w.toList⟩ w.toList []] :=
  run_call_of_body (by decide) hs (run_word_of_mem (by decide) hw hk p)

theorem run_call_identifier {name : List Char} (hname : IsIdentifier name) (hs : s ≠ .token)
    (hk : EndsClass isIdentifierChar k) :
    programGrammar.run s (.call .identifier) ⟨p, name ++ k⟩ =
      .ok ⟨p.after name, k⟩ [.node .identifier ⟨p, p.after name⟩ name []] :=
  run_call_of_body (by decide) hs (run_identifier hname hk p)

/-- An integer literal: an optional sign and digits, with no character of a word behind them. -/
theorem run_integer {sign ds : List Char} (hsign : sign = [] ∨ sign = ['-']) (hne : ds ≠ [])
    (hds : ∀ x ∈ ds, x.isDigit = true) (hs : s ≠ .token) (hk : EndsClass isIdentifierChar k) :
    programGrammar.run s (.call .integer) ⟨p, (sign ++ ds) ++ k⟩ =
      .ok ⟨p.after (sign ++ ds), k⟩
        [.node .integer ⟨p, p.after (sign ++ ds)⟩ (sign ++ ds) []] := by
  obtain ⟨x, xs, rfl⟩ := List.exists_cons_of_ne_nil hne
  obtain ⟨hx, hxs⟩ := List.forall_mem_cons.1 hds
  refine run_call_of_body (by decide) hs ?_
  show programGrammar.run .token (body .integer) _ = _
  have hopt : programGrammar.run .token (.opt (.lit "-")) ⟨p, sign ++ x :: xs ++ k⟩ =
      .ok ⟨p.after sign, x :: xs ++ k⟩ [] := by
    rcases hsign with rfl | rfl
    · refine run_opt_of_fail (run_lit_of_head (x := '-') rfl ?_)
      intro hminus
      obtain rfl : x = '-' := Option.some.inj hminus
      exact absurd hx (by decide)
    · exact run_opt_of_ok (run_lit_cons rfl)
  have hfirst : programGrammar.run .token (.one Char.isDigit) ⟨p.after sign, x :: xs ++ k⟩ =
      .ok ⟨(p.after sign).advance x, xs ++ k⟩ [] := by
    rw [run_one, List.cons_append, Cursor.step?, if_pos hx]
    rfl
  -- digits are characters of words, so the end of a word ends them as well
  have hdigit : EndsClass Char.isDigit k :=
    EndsClass.mono (fun x hx => by simp [isIdentifierChar, Char.isAlphanum, hx]) hk
  have hstar := run_star_class (G := programGrammar) (a := .one Char.isDigit)
    (fun c => run_one _) hxs hdigit ((p.after sign).advance x)
  have hend : programGrammar.run .token wordEnd ⟨p.after (sign ++ x :: xs), k⟩ =
      .ok ⟨p.after (sign ++ x :: xs), k⟩ [] := by
    rw [run_wordEnd, step?_eq_none_of_endsClass hk]
  have hpos : ((p.after sign).advance x).after xs = p.after (sign ++ x :: xs) := by
    rw [Position.after_append]
    rfl
  rw [hpos] at hstar
  exact run_seq_ok hopt (run_seq_ok hfirst (run_seq_ok hstar hend))

/-! ## Quoted strings -/

theorem run_quotedRound_pair {q : String} (x : Char) :
    programGrammar.run .token (quotedRound q) ⟨p, '\\' :: x :: k⟩ =
      .ok ⟨(p.advance '\\').advance x, k⟩ [] := by
  have hnext : programGrammar.run .token (.one fun _ => true) ⟨p.advance '\\', x :: k⟩ =
      .ok ⟨(p.advance '\\').advance x, k⟩ [] := by
    rw [run_one]
    rfl
  exact run_alt_of_ok (run_seq_nil (run_lit_cons rfl) hnext)

theorem run_quotedRound_char {q : String} {x y : Char} (hq : q.toList = [y]) (hback : x ≠ '\\')
    (hquote : x ≠ y) :
    programGrammar.run .token (quotedRound q) ⟨p, x :: k⟩ = .ok ⟨p.advance x, k⟩ [] := by
  have hpair : programGrammar.run .token (.seq (.lit "\\") (.one fun _ => true)) ⟨p, x :: k⟩ =
      .fail := run_seq_of_fail (run_lit_of_head (x := '\\') rfl (by simpa using hback))
  rw [quotedRound, run_alt_of_fail hpair]
  refine run_seq_nil (run_absent_of_fail (run_lit_of_head (congrArg List.head? hq) ?_)) ?_
  · simpa using hquote
  · rw [run_one]
    rfl

theorem run_quotedRound_end {q : String} {y : Char} (hq : q.toList = [y]) (hback : y ≠ '\\') :
    programGrammar.run .token (quotedRound q) ⟨p, y :: k⟩ = .fail := by
  refine run_alt_eq_fail_iff.2
    ⟨run_seq_of_fail (run_lit_of_head (x := '\\') rfl (by simpa using hback)), ?_⟩
  exact run_seq_of_fail (run_absent_of_ok (run_lit_cons hq))

/-- **The content of a string is read up to the closing quote.** -/
theorem run_quoted {q : String} {y : Char} (hq : q.toList = [y]) (hback : y ≠ '\\')
    {content : List Char} (h : Quoted y content) :
    programGrammar.run .token (quoted q) ⟨p, content ++ y :: k⟩ =
      .ok ⟨p.after content, y :: k⟩ [] := by
  have hsteps : programGrammar.Steps .token (quotedRound q) ⟨p, content ++ y :: k⟩
      ⟨p.after content, y :: k⟩ [] := by
    induction h generalizing p with
    | nil => exact .refl _
    | pair x _ ih => exact .head_nil (run_quotedRound_pair x) ih
    | char hquote hx _ ih => exact .head_nil (run_quotedRound_char hq hx hquote) ih
  exact run_star_of_steps (fun hr => programRanking.length_lt_of_run rfl hr) rfl hsteps
    (run_quotedRound_end hq hback)

/-- The rule for what stands between two quotes. -/
def contentRule (y : Char) : Rule := if y = '"' then .doubleQuoted else .singleQuoted

/-- A text between quotes that it does not end itself is matched as a string with that text for its
content. -/
theorem run_string {y : Char} (hy : y = '\'' ∨ y = '"') {content : List Char}
    (h : Quoted y content) (hs : s ≠ .token) :
    ∃ qspan, programGrammar.run s (.call .string) ⟨p, (y :: content ++ [y]) ++ k⟩ =
      .ok ⟨p.after (y :: content ++ [y]), k⟩
        [.node .string ⟨p, p.after (y :: content ++ [y])⟩ (y :: content ++ [y])
          [.node (contentRule y) qspan content []]] := by
  refine ⟨⟨p.advance y, (p.advance y).after content⟩, ?_⟩
  have htext : p.after (y :: content ++ [y]) = ((p.advance y).after content).advance y := by
    rw [List.cons_append, Position.after_cons, Position.after_append]
    rfl
  have henter : (mode .string).enter s = .glued := by
    cases s with
    | token => exact absurd rfl hs
    | spaced => rfl
    | glued => rfl
  refine run_call_of_body (by decide) hs ?_
  rw [henter, htext, List.cons_append, List.cons_append, List.append_assoc]
  rcases hy with rfl | rfl
  · have hcall := run_call_of_body (r := .singleQuoted) (s := .glued) (by decide) (by decide)
      (run_quoted (q := "'") (p := p.advance '\'') (k := k) rfl (by decide) h)
    exact run_alt_of_ok (run_seq_nil (run_lit_cons rfl) (run_seq_ok hcall (run_lit_cons rfl)))
  · have hcall := run_call_of_body (r := .doubleQuoted) (s := .glued) (by decide) (by decide)
      (run_quoted (q := "\"") (p := p.advance '"') (k := k) rfl (by decide) h)
    have hsingle : programGrammar.run .glued
        (inOrder (.lit "'") [.call .singleQuoted, .lit "'"]) ⟨p, '"' :: (content ++ '"' :: k)⟩ =
        .fail := run_seq_of_fail (run_lit_of_head (x := '\'') rfl (by simp))
    exact (run_alt_of_fail hsingle).trans
      (run_seq_nil (run_lit_cons rfl) (run_seq_ok hcall (run_lit_cons rfl)))

/-- A quoted value does not end the string it stands in. -/
theorem quoted_quoteChars {v : List Char} (hv : paired v = true) : Quoted '\'' (quoteChars v) := by
  fun_induction quoteChars v with
  | case1 => exact .nil
  | case2 x cs ih => exact .pair x (ih hv)
  | case3 => simp [paired] at hv
  | case4 cs ih => exact .pair '\'' (ih hv)
  | case5 cs ih => exact .pair 'n' (ih hv)
  | case6 x cs hpair hlone hquote _ ih =>
      have hback : x ≠ '\\' := by
        intro hx
        cases cs with
        | nil => exact hlone hx rfl
        | cons y ys => exact hpair y ys hx rfl
      rw [paired_cons hback] at hv
      exact .char hquote hback (ih hv)

end Rule

end ExprScript
