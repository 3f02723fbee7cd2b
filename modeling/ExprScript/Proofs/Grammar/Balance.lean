import ExprScript.Proofs.Grammar.Seam
import ExprScript.Proofs.Raw.Program

set_option autoImplicit false

/-! # Programs close their strings and brackets

A scan of a program ends outside of strings with every bracket closed
(`closed_of_readsStatements`). The scan goes through the text without the grammar, so this is proved
along a run: what is read between two places changes the level as the syntax of the expression says
(`Peg.Leads`), and behind it a scan may begin afresh (`scan_of_run`).
-/

namespace ExprScript

open Grammar Rule Lexing

/-- A scan of the text from the level `i` ends outside of strings, at the level `k`. -/
def ScansTo (k i : Nat) (x : List Char) : Prop :=
  ∀ l, (∀ q, (scan ⟨.code, i, l⟩ x).mode ≠ .quoted q) ∧ (scan ⟨.code, i, l⟩ x).depth = k

namespace ScansTo

variable {k i j : Nat} {x y : List Char}

/-- The text in front of `y` leads from one level to another. -/
theorem of_scan (h : ScansTo k j y)
    (hscan : ∀ l, ∃ l', scan ⟨.code, i, l⟩ x = scan ⟨.code, j, l'⟩ y) : ScansTo k i x := by
  intro l
  obtain ⟨l', hl'⟩ := hscan l
  rw [hl']
  exact h l'

theorem of_mode {m : LexMode} (hm : m = .code ∨ m = .comment)
    (hscan : ∀ l, scan ⟨.code, k, l⟩ x = ⟨m, k, l⟩) : ScansTo k k x := by
  intro l
  rw [hscan l]
  refine ⟨fun q => ?_, rfl⟩
  rcases hm with rfl | rfl <;> simp

/-- Layout leads to what is behind it. -/
theorem of_skip {c : Cursor} (h : ScansTo k i (Layout.skip c).rest) : ScansTo k i c.rest := by
  have hskip : Layout.skip c = pass .code c.pos (c.rest ++ []) := by
    rw [List.append_nil]
    rfl
  rw [hskip] at h
  cases passes (.inl rfl) c.rest with
  | words _ hscan hpass =>
      rw [hpass [] (by simp [Apart, EndsClass]), List.append_nil] at h
      exact h.of_scan fun l => ⟨l, hscan i l⟩
  | @all m hm hscan hpass =>
      obtain ⟨p, hp⟩ := hpass [] c.pos
      have hrest : (pass m p []).rest = [] := by
        rcases hm with rfl | rfl <;> rfl
      rw [hp, hrest] at h
      obtain rfl : i = k := by
        have hdepth := (h none).2
        rw [scan_nil] at hdepth
        exact Int.ofNat.inj hdepth
      exact .of_mode hm (hscan i)

end ScansTo

/-- A scan may begin behind a word. -/
theorem scan_of_run_word {r : Rule} {c d : Cursor} {ts : List (MatchTree Rule)}
    (hr : r.isWord = true) (hfree : Layout.Free c.rest)
    (h : programGrammar.run .spaced (.call r) c = .ok d ts) (n : Int) (l : Option Char) :
    ∃ l', scan ⟨.code, n, l⟩ c.rest = scan ⟨.code, n, l'⟩ d.rest := by
  -- a word that is cut off `c` beside itself, with nothing behind the text
  have cut (hagree : Outcome.Agree keepsText (Cuts c.rest [] [])
      (programGrammar.run .spaced (.call r) c) (programGrammar.run .spaced (.call r) c)) :
      ∃ l', scan ⟨.code, n, l⟩ c.rest = scan ⟨.code, n, l'⟩ d.rest := by
    rw [h] at hagree
    cases hagree with
    | ok stop _ =>
        obtain ⟨y, hd, -, hscan⟩ := stop
        rw [List.append_nil] at hd
        rw [hd]
        exact hscan n l
  have hnil {p : Char → Bool} : EndsClass p [] := by simp [EndsClass]
  have hrest : c.rest = c.rest ++ [] := (List.append_nil c.rest).symm
  cases r with
  | binaryOperator => exact cut (agree_operator hnil hnil hrest hrest hfree)
  | string =>
      obtain ⟨us, hbody, -⟩ := (run_node_eq_ok_iff (G := programGrammar) (r := .string)
        (by decide) (by decide)).1 h
      obtain ⟨q, content, hq, hquoted, hreads, -⟩ := quoted_of_run_string hbody
      have hback : q ≠ '\\' := by rcases hq with rfl | rfl <;> decide
      refine ⟨some q, ?_⟩
      rw [hreads.rest, List.cons_append, List.append_assoc, List.singleton_append,
        scan_quote hq, scan_quoted hquoted hback]
  | integer | boolean | void | identifier | functionKeyword | returnKeyword | mutableKeyword
  | immutableKeyword => exact cut (agree_plain (by decide) rfl hnil hnil hrest hrest)
  | _ => cases hr

/-- **What is read between two places leads from one level to the other.** -/
theorem ScansTo.of_run {e : Peg Rule} {k i j : Nat} {c d : Cursor} {ts : List (MatchTree Rule)}
    (h : programGrammar.run .spaced e c = .ok d ts) (he : e.Leads i j)
    (hfree : Layout.Free c.rest) (hd : ScansTo k j d.rest) : ScansTo k i c.rest := by
  -- classes of characters and look-ahead stand in words only
  have never {e : Peg Rule} (hlevel : ∀ inner n, e.level inner n = none) {i j : Nat} :
      ¬ e.Leads i j := by
    rintro ⟨inner, base, n, m, -, hm, -⟩
    rw [hlevel] at hm
    cases hm
  have key := run_induction (G := programGrammar)
    (P := fun s e c d _ => s = .spaced → ∀ i j, e.Leads i j → Layout.Free c.rest →
      ScansTo k j d.rest → ScansTo k i c.rest)
    ?lit (fun _ _ _ _ he => absurd he (never fun _ _ => rfl))
    (fun _ _ _ he => absurd he (never fun _ _ => rfl)) ?seq
    (fun ih hs i j he => ih hs i j he.alt.1) (fun ih hs i j he => ih hs i j he.alt.2) ?none ?first
    ?further ?without ?present (fun _ _ _ he => absurd he (never fun _ _ => rfl)) ?call h
  · exact key rfl i j he hfree hd
  case lit =>
    intro s t c d hstrip _ i j he _ hd
    obtain ⟨hmark, hsum, -⟩ := he.lit
    refine hd.of_scan fun l => ?_
    obtain ⟨l', hl'⟩ := exists_scan_marks (List.all_eq_true.1 hmark) i l
    exact ⟨l', by rw [(Cursor.strip?_eq_some_iff.1 hstrip).rest, hl', hsum]⟩
  case seq =>
    intro s a b c c₁ d us vs iha ihb hs i j he hfree hd
    subst hs
    obtain ⟨m, ha, hb⟩ := he.seq
    exact iha rfl i m ha hfree (ihb rfl m j hb (Layout.free_skip c₁) hd).of_skip
  case none | without =>
    intro s a c _ i j he _ hd
    obtain ⟨rfl, -⟩ := he.star
    exact hd
  case first | present =>
    intro s a c d ts ih hs i j he
    obtain ⟨rfl, ha⟩ := he.star
    exact ih hs i i ha
  case further =>
    intro s a c c₁ d us vs ihstar iha hs i j he hfree hd
    subst hs
    obtain ⟨rfl, ha⟩ := he.star
    exact ihstar rfl i i he hfree (iha rfl i i ha (Layout.free_skip c₁) hd).of_skip
  case call =>
    intro s r c d ts us hbody ih hwrap hs i j he hfree hd
    subst hs
    obtain ⟨rfl, hword | ⟨hrule, hleads⟩⟩ := he.call
    · have hrun : programGrammar.run .spaced (.call r) c = .ok d us := by
        rw [run_call, hbody, hwrap]
      exact hd.of_scan (scan_of_run_word hword hfree hrun i)
    · exact ih (spaced_of_isOuter hrule).1 i i hleads hfree hd

/-- **A program closes its strings and brackets.** -/
theorem closed_of_readsStatements {cs : List Char} {ts : List (MatchTree Rule)}
    (h : ReadsStatements cs ts) :
    (∀ q, (scan {} cs).mode ≠ .quoted q) ∧ (scan {} cs).depth = 0 := by
  obtain ⟨d, hsteps, hend⟩ := h
  -- semicolons have a level among open brackets, so the statements are taken to stand there
  have hleads : (Peg.call .statement).Leads 1 1 :=
    ⟨true, 1, 0, 0, fun _ => Nat.one_pos, rfl, rfl, rfl⟩
  have hclosed : ScansTo 1 1 cs := by
    generalize hc : Cursor.start cs = c at hsteps
    have hrest : c.rest = cs := by rw [← hc]; rfl
    rw [← hrest]
    clear hc hrest
    induction hsteps with
    | refl c =>
        refine ScansTo.of_skip ?_
        rw [hend]
        exact .of_mode (.inl rfl) fun l => scan_nil _
    | head hrun _ ih =>
        exact (ScansTo.of_run hrun hleads (Layout.free_skip _) (ih hend)).of_skip
  obtain ⟨hmode, hdepth⟩ := hclosed none
  obtain ⟨hmode', hdepth'⟩ := scan_from {} cs 1 none
  refine ⟨fun q hq => hmode q (hmode'.trans hq), ?_⟩
  have hsum : (scan {} cs).depth + 1 = 1 := hdepth'.symm.trans hdepth
  omega

end ExprScript
