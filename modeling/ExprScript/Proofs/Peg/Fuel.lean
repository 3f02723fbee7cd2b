import ExprScript.Proofs.Peg.Trees

set_option autoImplicit false

/-! # How much fuel is enough

Fuel runs out only where the evaluator goes into expressions without taking characters. A
`Ranking` bounds how far it can go: it says which rules take a character in every match, and how
deep the evaluator can be in the body of a rule before a character is taken. Both are checked
rule by rule, on the syntax of the bodies (`Peg.takes`, `Peg.depth`, `Peg.bounded`).

With such a ranking, `bound` units of fuel for each character ahead are enough, together with
the depth of the expression itself (`eval_ne_exhausted`), and a run always has an outcome.
-/

namespace ExprScript

namespace Peg

variable {ρ : Type}

/-- Whether the syntax shows that every match takes a character. -/
def takes (ofRule : ρ → Bool) : Peg ρ → Bool
  | .lit t => !t.toList.isEmpty
  | .one _ => true
  | .seq a b => a.takes ofRule || b.takes ofRule
  | .alt a b => a.takes ofRule && b.takes ofRule
  | .call r => ofRule r
  | .done | .star _ | .opt _ | .absent _ => false

/-- How many expressions deep the evaluator can be before a character is taken. -/
def depth (ofRule : ρ → Bool) (rank : ρ → Nat) : Peg ρ → Nat
  | .lit _ | .one _ | .done => 1
  | .seq a b =>
    max (a.depth ofRule rank) (if a.takes ofRule then 0 else b.depth ofRule rank) + 1
  | .alt a b => max (a.depth ofRule rank) (b.depth ofRule rank) + 1
  | .star a | .opt a | .absent a => a.depth ofRule rank + 1
  | .call r => rank r + 1

/-- Whether the parts that are run behind a character are at most `bound` deep, and every
repetition takes characters. -/
def bounded (ofRule : ρ → Bool) (rank : ρ → Nat) (bound : Nat) : Peg ρ → Bool
  | .lit _ | .one _ | .done | .call _ => true
  | .seq a b =>
    a.bounded ofRule rank bound && b.bounded ofRule rank bound &&
      decide (b.depth ofRule rank ≤ bound)
  | .alt a b => a.bounded ofRule rank bound && b.bounded ofRule rank bound
  | .star a =>
    a.takes ofRule && a.bounded ofRule rank bound && decide (a.depth ofRule rank ≤ bound)
  | .opt a | .absent a => a.bounded ofRule rank bound

end Peg

namespace Grammar

variable {ρ : Type} {G : Grammar ρ}

/-- What is known of the rules of a grammar in which layout and rules are read from the text. -/
structure Ranking (G : Grammar ρ) (bound : Nat) where
  skipReads : G.SkipReads
  /-- the rules that take a character in every match -/
  takes : ρ → Bool
  /-- the depth of the body of a rule -/
  rank : ρ → Nat
  takes_body : ∀ r, takes r → (G.body r).takes takes
  depth_body_le : ∀ r, (G.body r).depth takes rank ≤ rank r
  bounded_body : ∀ r, (G.body r).bounded takes rank bound

namespace Ranking

variable {bound : Nat} (R : G.Ranking bound)

/-- **An expression that takes characters has taken one when it matches.** -/
theorem length_lt_of_run {s : Setting} {e : Peg ρ} {c d : Cursor} {ts : List (MatchTree ρ)}
    (he : e.takes R.takes) (h : G.run s e c = .ok d ts) : d.rest.length < c.rest.length := by
  -- the parts of a sequence that take nothing must at least not go back
  have key : d.rest.length ≤ c.rest.length ∧
      (e.takes R.takes → d.rest.length < c.rest.length) := by
    refine run_induction (P := fun _ e c d _ => d.rest.length ≤ c.rest.length ∧
        (e.takes R.takes → d.rest.length < c.rest.length))
      ?lit ?one (by simp [Peg.takes]) ?seq ?left ?right (by simp [Peg.takes])
      (fun h => ⟨h.1, by simp [Peg.takes]⟩) ?further (by simp [Peg.takes])
      (fun h => ⟨h.1, by simp [Peg.takes]⟩) (by simp [Peg.takes])
      (fun _ h _ => ⟨h.1, fun hr => h.2 (R.takes_body _ hr)⟩) h
    case lit =>
      intro s t c d hd
      have hlen := (Cursor.strip?_eq_some_iff.1 hd).length_eq
      refine ⟨by omega, fun ht => ?_⟩
      have hpos : 0 < t.toList.length := by
        rw [Peg.takes] at ht
        cases htl : t.toList with
        | nil => simp [htl] at ht
        | cons x xs => simp
      omega
    case one =>
      intro s p c d hd
      obtain ⟨x, -, hx⟩ := Cursor.step?_eq_some_iff.1 hd
      have hlen := hx.length_eq
      simp only [List.length_singleton] at hlen
      exact ⟨by omega, fun _ => by omega⟩
    case seq =>
      intro s a b c c₁ d us vs ha hb
      have hgap := length_gap_le R.skipReads s c₁
      refine ⟨by omega, fun hab => ?_⟩
      rcases Bool.or_eq_true_iff.1 hab with hta | htb
      · have := ha.2 hta
        omega
      · have := hb.2 htb
        omega
    case left =>
      intro s a b c d ts ha
      exact ⟨ha.1, fun hab => ha.2 (Bool.and_eq_true_iff.1 hab).1⟩
    case right =>
      intro s a b c d ts hb
      exact ⟨hb.1, fun hab => hb.2 (Bool.and_eq_true_iff.1 hab).2⟩
    case further =>
      intro s a c c₁ d us vs hstar ha
      have hgap := length_gap_le R.skipReads s c₁
      exact ⟨by omega, by simp [Peg.takes]⟩
  exact key.2 he

/-- So has a round of a repetition, with the layout before it. -/
theorem length_lt_of_run_gap {s : Setting} {a : Peg ρ} (ha : a.takes R.takes) {c d : Cursor}
    {ts : List (MatchTree ρ)} (h : G.run s a (G.gap s c) = .ok d ts) :
    d.rest.length < c.rest.length :=
  Nat.lt_of_lt_of_le (R.length_lt_of_run ha h) (length_gap_le R.skipReads s c)

/-- Rounds of a step that always has an outcome, and takes a character when it matches, have an
outcome. -/
theorem rounds_ne_exhausted {step : Cursor → Outcome ρ} {most : Nat}
    (hstep : ∀ d, d.rest.length ≤ most → step d ≠ .exhausted)
    (hless : ∀ {d d₁ us}, step d = .ok d₁ us → d₁.rest.length < d.rest.length) {k : Nat}
    {c : Cursor} (hc : c.rest.length ≤ most) (hk : c.rest.length < k) :
    Outcome.rounds step k c ≠ .exhausted := by
  induction k generalizing c with
  | zero => omega
  | succ k ih =>
      rw [Outcome.rounds]
      cases hr : step c with
      | ok c₁ us =>
          have hlt := hless hr
          simp only [ne_eq, Outcome.after_eq_exhausted_iff]
          exact ih (by omega) (by omega)
      | fail => simp
      | exhausted => exact absurd hr (hstep c hc)

/-- **Enough fuel.** `bound` units for each character ahead and the depth of the expression. -/
theorem eval_ne_exhausted {n : Nat} {s : Setting} {e : Peg ρ} {c : Cursor}
    (he : e.bounded R.takes R.rank bound)
    (hn : bound * c.rest.length + e.depth R.takes R.rank ≤ n) :
    G.eval n s e c ≠ .exhausted := by
  -- a part that is run behind a character has the fuel of that character for its own depth
  have behind {c d : Cursor} (hlt : d.rest.length < c.rest.length) :
      bound * d.rest.length + bound ≤ bound * c.rest.length := by
    rw [← Nat.mul_succ]
    exact Nat.mul_le_mul_left bound hlt
  have notBehind {c d : Cursor} (hle : d.rest.length ≤ c.rest.length) :
      bound * d.rest.length ≤ bound * c.rest.length := Nat.mul_le_mul_left bound hle
  have matched {n : Nat} {s : Setting} {e : Peg ρ} {c d : Cursor} {ts : List (MatchTree ρ)}
      (h : G.eval n s e c = .ok d ts) : G.run s e c = .ok d ts := by
    rw [run_eq_eval (n := n) (by simp [h]), h]
  induction n generalizing s e c with
  | zero => cases e <;> simp [Peg.depth] at hn
  | succ n ih =>
      cases e with
      | lit t => exact Outcome.ofCursor?_ne_exhausted _
      | one p => exact Outcome.ofCursor?_ne_exhausted _
      | done => rw [eval]; split <;> simp
      | seq a b =>
          rw [eval]
          simp only [Peg.bounded, Bool.and_eq_true, decide_eq_true_eq] at he
          simp only [Peg.depth] at hn
          cases ha : G.eval n s a c with
          | ok c₁ us =>
              simp only [ne_eq, Outcome.after_eq_exhausted_iff]
              have hgap := length_gap_le R.skipReads s c₁
              -- the depth of `b` is paid for by a character, or is part of the depth of the whole
              by_cases hta : a.takes R.takes
              · have hlt := R.length_lt_of_run hta (matched ha)
                have := behind (c := c) (d := G.gap s c₁) (by omega)
                exact ih he.1.2 (by omega)
              · have hle := length_le_of_run R.skipReads (matched ha)
                have := notBehind (c := c) (d := G.gap s c₁) (by omega)
                rw [if_neg hta] at hn
                exact ih he.1.2 (by omega)
          | fail => simp
          | exhausted => exact absurd ha (ih he.1.1 (by omega))
      | alt a b =>
          rw [eval]
          simp only [Peg.bounded, Bool.and_eq_true] at he
          simp only [Peg.depth] at hn
          cases ha : G.eval n s a c with
          | ok c₁ us => simp
          | fail => exact ih he.2 (by omega)
          | exhausted => exact absurd ha (ih he.1 (by omega))
      | star a =>
          rw [eval]
          simp only [Peg.bounded, Bool.and_eq_true, decide_eq_true_eq] at he
          simp only [Peg.depth] at hn
          cases ha : G.eval n s a c with
          | ok c₁ us =>
              simp only [ne_eq, Outcome.after_eq_exhausted_iff]
              -- every later round starts behind the character the first one has taken
              have hlt := R.length_lt_of_run he.1.1 (matched ha)
              refine rounds_ne_exhausted (fun d hd => ?_) (fun hr => ?_) (Nat.le_refl _)
                (Nat.lt_succ_self _)
              · have hgap := length_gap_le R.skipReads s d
                have := behind (c := c) (d := G.gap s d) (by omega)
                exact ih he.1.2 (by omega)
              · exact R.length_lt_of_run_gap he.1.1 (matched hr)
          | fail => simp
          | exhausted => exact absurd ha (ih he.1.2 (by omega))
      | opt a =>
          rw [eval]
          simp only [Peg.depth] at hn
          cases ha : G.eval n s a c with
          | ok c₁ us => simp
          | fail => simp
          | exhausted => exact absurd ha (ih he (by omega))
      | absent a =>
          rw [eval]
          simp only [Peg.depth] at hn
          cases ha : G.eval n s a c with
          | ok c₁ us => simp
          | fail => simp
          | exhausted => exact absurd ha (ih he (by omega))
      | call r =>
          simp only [Peg.depth] at hn
          have hdepth := R.depth_body_le r
          exact fun hx => ih (R.bounded_body r) (by omega) (wrap_eq_exhausted_iff.1 hx)

/-- Every run of a bounded expression has an outcome. -/
theorem run_ne_exhausted {s : Setting} {e : Peg ρ} {c : Cursor}
    (he : e.bounded R.takes R.rank bound) : G.run s e c ≠ .exhausted := by
  have h := R.eval_ne_exhausted (s := s) he (Nat.le_refl (bound * c.rest.length + _))
  rwa [run_eq_eval h]

end Ranking

end Grammar

end ExprScript
