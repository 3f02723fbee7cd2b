import ExprScript.Peg.Furthest
import ExprScript.Proofs.Peg.Trees
import ExprScript.Proofs.Source.Spans

set_option autoImplicit false

/-! # Where a match breaks off

The rules that `Grammar.attempts` keeps for the message have failed, and all of them at one place
that was reached by reading the text from its start (`Furthest.Stands`). Following a run keeps
this: every rule is tried at a cursor that the run has reached, and of two failures at the same
offset both are at the same cursor.
-/

namespace ExprScript

open Grammar

variable {ρ : Type} {G : Grammar ρ} {cs : List Char}

namespace Furthest

/-- The failures that are known are those of rules tried at one cursor, which is reached by reading
`cs` from its start. Where none is known, that cursor is the start. -/
def Stands (G : Grammar ρ) (cs : List Char) (f : Furthest ρ) : Prop :=
  ∃ us d, (Cursor.start cs).Reads us d ∧ f.pos = d.pos ∧ (f.rules = [] → us = []) ∧
    ∀ r ∈ f.rules, ∃ s, G.run s (.call r) d = .fail

theorem stands_initial : (initial : Furthest ρ).Stands G cs := by
  refine ⟨[], .start cs, .refl _, rfl, fun _ => rfl, ?_⟩
  intro r hr
  exact absurd hr List.not_mem_nil

/-- A failure at a cursor that has been reached is noted where it stands. -/
theorem Stands.note {before f : Furthest ρ} {us : List Char} {c : Cursor} {s : Setting} {r : ρ}
    (hf : f.Stands G cs) (hc : (Cursor.start cs).Reads us c)
    (hfail : G.run s (.call r) c = .fail) : (before.note f c.pos r).Stands G cs := by
  obtain ⟨vs, d, hd, hpos, hstart, hrules⟩ := hf
  unfold Furthest.note
  split
  · exact ⟨vs, d, hd, hpos, hstart, hrules⟩
  · split
    · rename_i hoffset
      rw [hpos] at hoffset
      obtain rfl : d = c := hd.eq_of_offset hc hoffset
      refine ⟨vs, d, hd, hpos, by simp, ?_⟩
      intro r' hr'
      rcases List.mem_append.1 hr' with hold | hnew
      · exact hrules r' (List.mem_of_mem_take hold)
      · rw [List.mem_singleton.1 hnew]
        exact ⟨s, hfail⟩
    · split
      · refine ⟨us, c, hc, rfl, by simp, ?_⟩
        intro r' hr'
        rw [List.mem_singleton.1 hr']
        exact ⟨s, hfail⟩
      · exact ⟨vs, d, hd, hpos, hstart, hrules⟩

/-- Once a failure has been noted, some failure is known. -/
theorem rules_note_ne_nil {before f : Furthest ρ} {c : Cursor} {r : ρ}
    (hc : f.rules = [] → f.pos.offset ≤ c.pos.offset) : (before.note f c.pos r).rules ≠ [] := by
  unfold Furthest.note
  split
  · rename_i hcount
    intro hnil
    rw [countAt, hnil] at hcount
    simp at hcount
  · split
    · simp
    · split
      · simp
      · intro hnil
        have := hc hnil
        omega

/-- What a round of a repetition keeps, all rounds keep. -/
theorem rounds_keeps {P : Furthest ρ → Prop} {Q : Cursor → Prop}
    {look : Cursor → Furthest ρ → Furthest ρ} {step : Cursor → Outcome ρ}
    (hlook : ∀ {c f}, Q c → P f → P (look c f))
    (hstep : ∀ {c d ts}, Q c → step c = .ok d ts → Q d) {k : Nat} {c : Cursor} {f : Furthest ρ}
    (hc : Q c) (hf : P f) : P (rounds look step k c f) := by
  induction k generalizing c f with
  | zero => exact hf
  | succ k ih =>
      rw [rounds]
      cases hround : step c with
      | ok d ts => exact ih (hstep hc hround) (hlook hc hf)
      | fail => exact hlook hc hf
      | exhausted => exact hlook hc hf

end Furthest

namespace Grammar

theorem run_eq_fail_of_eval {n : Nat} {s : Setting} {e : Peg ρ} {c : Cursor}
    (h : G.eval n s e c = .fail) : G.run s e c = .fail := by
  rw [run_eq_eval (n := n) (by simp [h]), h]

/-- An evaluation that matches leads from a cursor that has been reached to another. -/
theorem reached_of_eval (hG : G.SkipReads) {n : Nat} {s : Setting} {e : Peg ρ} {c d : Cursor}
    {ts : List (MatchTree ρ)} (h : G.eval n s e c = .ok d ts)
    (hc : ∃ us, (Cursor.start cs).Reads us c) : ∃ us, (Cursor.start cs).Reads us d := by
  obtain ⟨us, hus⟩ := hc
  have hrun : G.run s e c = .ok d ts := by rw [run_eq_eval (n := n) (by simp [h]), h]
  obtain ⟨vs, hvs⟩ := exists_reads_of_run hG hrun
  exact ⟨_, hus.trans hvs⟩

theorem reached_gap (hG : G.SkipReads) (s : Setting) {c : Cursor}
    (hc : ∃ us, (Cursor.start cs).Reads us c) : ∃ us, (Cursor.start cs).Reads us (G.gap s c) := by
  obtain ⟨us, hus⟩ := hc
  obtain ⟨vs, hvs⟩ := hG.gap s c
  exact ⟨_, hus.trans hvs⟩

/-- **Following a run keeps the failures where they stand.** -/
theorem stands_attempts (hG : G.SkipReads) (n : Nat) (s : Setting) (e : Peg ρ) {c : Cursor}
    {f : Furthest ρ} (hc : ∃ us, (Cursor.start cs).Reads us c) (hf : f.Stands G cs) :
    (G.attempts n s e c f).Stands G cs := by
  induction n generalizing s e c f with
  | zero => exact hf
  | succ n ih =>
      have hhere : ∀ s e, (G.attempts n s e c f).Stands G cs := fun s e => ih s e hc hf
      cases s with
      | token => exact hf
      | spaced | glued =>
          cases e with
          | lit t | one p | done | absent a => exact hf
          | seq a b =>
              simp only [attempts]
              split
              · rename_i ha
                exact ih _ b (reached_gap hG _ (reached_of_eval hG ha hc)) (hhere _ a)
              · exact hhere _ a
          | alt a b =>
              simp only [attempts]
              split
              · exact ih _ b hc (hhere _ a)
              · exact hhere _ a
          | star a =>
              simp only [attempts]
              split
              · rename_i ha
                have hc₁ := reached_of_eval hG ha hc
                refine Furthest.rounds_keeps (Q := fun d => ∃ us, (Cursor.start cs).Reads us d)
                  ?look ?step hc₁ (hhere _ a)
                case look => exact fun hd hf => ih _ a (reached_gap hG _ hd) hf
                case step =>
                  exact fun hd hround => reached_of_eval hG hround (reached_gap hG _ hd)
              · exact hhere _ a
          | opt a => exact hhere _ a
          | call r =>
              simp only [attempts]
              split
              · rename_i hfail
                split
                · obtain ⟨us, hus⟩ := hc
                  -- the only step that notes a rule
                  exact (hhere _ (G.body r)).note hus (run_eq_fail_of_eval hfail)
                · exact hhere _ (G.body r)
              · exact hhere _ (G.body r)

/-- A rule that fails is among the failures that are known then, or others are known in its
place. -/
theorem rules_attempts_ne_nil (hG : G.SkipReads) {n : Nat} {r : ρ} (hr : G.mode r ≠ .silent)
    (hfail : G.eval n .spaced (.call r) (.start cs) = .fail) :
    (G.attempts n .spaced (.call r) (.start cs) .initial).rules ≠ [] := by
  cases n with
  | zero => cases hfail
  | succ n =>
      have hstands : (G.attempts n ((G.mode r).enter .spaced) (G.body r) (.start cs)
          .initial).Stands G cs :=
        stands_attempts hG n _ _ ⟨[], .refl _⟩ Furthest.stands_initial
      obtain ⟨us, d, hd, hpos, hstart, -⟩ := hstands
      have hnamed : G.isNamed r = true := by simpa [isNamed] using hr
      simp only [attempts, hfail, hnamed, if_true]
      apply Furthest.rules_note_ne_nil
      intro hnil
      obtain rfl := hstart hnil
      rw [hpos, hd.pos]
      exact Nat.le_refl _

end Grammar

end ExprScript
