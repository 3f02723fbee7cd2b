import ExprScript.Proofs.Peg.Trees

set_option autoImplicit false

/-! # Two runs in step

The same expression is run at two cursors, of two texts that differ in some way. A `Lockstep` says
for which pairs of cursors, and for which expressions, the two runs go on side by side: the outcome
is the same, the cursors behind it are related again, and the trees differ only in their places
(`Lockstep.agree`, `Lockstep.steps`).

Cursors are related in two ways. `Near` holds where an expression is tried, and `Behind` where one
has stopped; layout leads from the second to the first. Both carry a level, so that a relation can
say more about some parts of a text than about others; `Fits` says from which level to which an
expression leads.

What is to be shown of a relation concerns single characters, texts and layout. The operators are
dealt with here once, by induction on the fuel of the first run; the second takes what fuel it
needs, since a round of a repetition takes a character.
-/

namespace ExprScript

variable {ρ : Type}

/-! ## Trees without their places -/

namespace MatchTree

variable (keep : ρ → Bool)

mutual

/-- The tree without spans, and without the texts of matches but of the rules in `keep`. -/
def bare : MatchTree ρ → MatchTree ρ
  | .node r _ text ts => .node r .empty (if keep r then text else []) (bares ts)

def bares : List (MatchTree ρ) → List (MatchTree ρ)
  | [] => []
  | t :: ts => t.bare :: bares ts

end

theorem bares_eq_map (ts : List (MatchTree ρ)) : bares keep ts = ts.map (bare keep) := by
  induction ts with
  | nil => rfl
  | cons t ts ih => rw [bares, List.map_cons, ih]

theorem bares_append (ts us : List (MatchTree ρ)) :
    bares keep (ts ++ us) = bares keep ts ++ bares keep us := by
  simp only [bares_eq_map, List.map_append]

end MatchTree

open MatchTree

/-! ## Outcomes that agree -/

/-- Both outcomes are a match, with related cursors and with trees that differ in their places
only, or neither is. -/
inductive Outcome.Agree (keep : ρ → Bool) (Q : Cursor → Cursor → Prop) :
    Outcome ρ → Outcome ρ → Prop where
  | ok {d d' : Cursor} {ts ts' : List (MatchTree ρ)} (stop : Q d d')
      (trees : bares keep ts = bares keep ts') : Agree keep Q (.ok d ts) (.ok d' ts')
  | fail : Agree keep Q .fail .fail

namespace Outcome

variable {keep : ρ → Bool} {Q : Cursor → Cursor → Prop}

theorem Agree.after {o o' : Outcome ρ} (h : Agree keep Q o o') {us us' : List (MatchTree ρ)}
    (hus : bares keep us = bares keep us') : Agree keep Q (o.after us) (o'.after us') := by
  cases h with
  | ok stop trees => exact .ok stop (by rw [bares_append, bares_append, hus, trees])
  | fail => exact .fail

theorem Agree.mono {Q' : Cursor → Cursor → Prop} (hQ : ∀ d d', Q d d' → Q' d d')
    {o o' : Outcome ρ} (h : Agree keep Q o o') : Agree keep Q' o o' := by
  cases h with
  | ok stop trees => exact .ok (hQ _ _ stop) trees
  | fail => exact .fail

/-- Rounds of steps that agree agree, when the second kind of step takes a character each time. -/
theorem rounds_agree {step step' : Cursor → Outcome ρ}
    (hstep : ∀ d d', Q d d' → step d ≠ .exhausted → Agree keep Q (step d) (step' d'))
    (hless : ∀ {d d₁ us}, step' d = .ok d₁ us → d₁.rest.length < d.rest.length)
    {k k' : Nat} {c c' : Cursor} (hc : Q c c') (hne : rounds step k c ≠ .exhausted)
    (hk' : c'.rest.length < k') : Agree keep Q (rounds step k c) (rounds step' k' c') := by
  induction k generalizing k' c c' with
  | zero => exact absurd rfl hne
  | succ k ih =>
      obtain ⟨k', rfl⟩ := Nat.exists_eq_succ_of_ne_zero (by omega : k' ≠ 0)
      have hfirst : step c ≠ .exhausted := by
        intro hx
        exact hne (by simp only [rounds, hx])
      have hagree := hstep c c' hc hfirst
      rw [rounds] at hne ⊢
      rw [rounds]
      generalize hs : step c = o at hagree hne
      generalize hs' : step' c' = o' at hagree
      cases hagree with
      | ok stop trees =>
          have hlt := hless hs'
          simp only [ne_eq, after_eq_exhausted_iff] at hne ⊢
          exact (ih stop hne (by omega)).after trees
      | fail => exact .ok hc rfl

end Outcome

namespace Grammar

variable {G : Grammar ρ}

/-- What has to be known of two texts for runs on them to go on side by side. -/
structure Lockstep (G : Grammar ρ) (keep : ρ → Bool) where
  /-- where an expression is tried, at some level -/
  Near : Nat → Cursor → Cursor → Prop
  /-- where an expression has stopped, at some level -/
  Behind : Nat → Cursor → Cursor → Prop
  /-- the expressions that lead from one level to another -/
  Fits : Setting → Peg ρ → Nat → Nat → Prop
  behind_of_near : ∀ {i c c'}, Near i c c' → Behind i c c'
  near_gap : ∀ {s e i j m c c'}, Fits s e i j → Behind m c c' → Near m (G.gap s c) (G.gap s c')
  lit : ∀ {s t i j c c'}, Fits s (.lit t) i j → Near i c c' →
    Outcome.Agree keep (Behind j) (.ofCursor? (c.strip? t.toList)) (.ofCursor? (c'.strip? t.toList))
  one : ∀ {s p i j c c'}, Fits s (.one p) i j → Near i c c' →
    Outcome.Agree keep (Behind j) (.ofCursor? (c.step? p)) (.ofCursor? (c'.step? p))
  done : ∀ {s i j c c'}, Fits s .done i j → Near i c c' →
    Behind j c c' ∧ (c.rest = [] ↔ c'.rest = [])
  seq : ∀ {s a b i j}, Fits s (.seq a b) i j → ∃ m, Fits s a i m ∧ Fits s b m j
  alt : ∀ {s a b i j}, Fits s (.alt a b) i j → Fits s a i j ∧ Fits s b i j
  /-- a repetition comes back to its level, and every round takes a character -/
  star : ∀ {s a i j}, Fits s (.star a) i j → i = j ∧ Fits s a i i ∧
    ∀ {c d ts}, G.run s a (G.gap s c) = .ok d ts → d.rest.length < c.rest.length
  opt : ∀ {s a i j}, Fits s (.opt a) i j → i = j ∧ Fits s a i i
  absent : ∀ {s a i j}, Fits s (.absent a) i j → i = j ∧ Fits s a i i
  /-- the runs of a rule agree on their own, or those of its body have to -/
  call : ∀ {s r i j c c'}, Fits s (.call r) i j → Near i c c' →
    Outcome.Agree keep (Behind j) (G.run s (.call r) c) (G.run s (.call r) c') ∨
      Fits ((G.mode r).enter s) (G.body r) i j ∧
        (s ≠ .token → keep r = true → ∀ {d d'}, Behind j d d' → c.upTo d = c'.upTo d')

namespace Lockstep

variable {keep : ρ → Bool} (L : G.Lockstep keep) {s : Setting} {e a : Peg ρ} {i j : Nat}
  {c c' d : Cursor}

/-- Putting what a rule has matched into one tree keeps the agreement. -/
theorem agree_wrap {r : ρ} {o o' : Outcome ρ} (h : Outcome.Agree keep (L.Behind j) o o')
    (htext : s ≠ .token → keep r = true → ∀ {d d'}, L.Behind j d d' → c.upTo d = c'.upTo d') :
    Outcome.Agree keep (L.Behind j) (G.wrap r s c o) (G.wrap r s c' o') := by
  cases h with
  | fail => exact .fail
  | @ok d d' ts ts' stop trees =>
      by_cases hr : G.mode r = .silent
      · rw [wrap_silent hr, wrap_silent hr]
        exact .ok stop trees
      · by_cases hs : s = .token
        · subst hs
          rw [wrap_token hr, wrap_token hr]
          exact .ok stop rfl
        · rw [wrap_node hr hs, wrap_node hr hs]
          refine .ok stop ?_
          have hkept : (if keep r then c.upTo d else []) = if keep r then c'.upTo d' else [] := by
            split
            · rename_i hkeep
              exact htext hs hkeep stop
            · rfl
          simp only [bares, bare, hkept, trees]

/-- The induction: whatever fuel settles the first run, the second agrees. -/
theorem agree_eval {n : Nat} (hfits : L.Fits s e i j) (hnear : L.Near i c c')
    (hne : G.eval n s e c ≠ .exhausted) :
    Outcome.Agree keep (L.Behind j) (G.eval n s e c) (G.run s e c') := by
  induction n generalizing s e i j c c' with
  | zero => exact absurd rfl hne
  | succ n ih =>
      -- all operators but `call` run their first part where they stand themselves
      have first {a : Peg ρ} {m : Nat}
          (hx : G.eval n s a c = .exhausted → G.eval (n + 1) s e c = .exhausted)
          (hfa : L.Fits s a i m) :
          Outcome.Agree keep (L.Behind m) (G.eval n s a c) (G.run s a c') :=
        ih hfa hnear fun h => hne (hx h)
      cases e with
      | lit t =>
          rw [run_lit]
          exact L.lit hfits hnear
      | one p =>
          rw [run_one]
          exact L.one hfits hnear
      | done =>
          obtain ⟨hbehind, hrest⟩ := L.done hfits hnear
          rw [run_done, eval]
          by_cases hnil : c.rest = []
          · rw [if_pos (List.isEmpty_iff.2 hnil), if_pos (List.isEmpty_iff.2 (hrest.1 hnil))]
            exact .ok hbehind rfl
          · have hnil' : c'.rest ≠ [] := fun h => hnil (hrest.2 h)
            rw [if_neg (by rwa [List.isEmpty_iff]), if_neg (by rwa [List.isEmpty_iff])]
            exact .fail
      | seq a b =>
          obtain ⟨m, hfa, hfb⟩ := L.seq hfits
          have hagree := first (fun hx => by simp only [eval, hx]) hfa
          rw [eval] at hne ⊢
          rw [run_seq]
          generalize G.eval n s a c = o at hagree hne
          generalize G.run s a c' = o' at hagree
          cases hagree with
          | ok stop trees =>
              simp only [ne_eq, Outcome.after_eq_exhausted_iff] at hne ⊢
              exact (ih hfb (L.near_gap hfits stop) hne).after trees
          | fail => exact .fail
      | alt a b =>
          obtain ⟨hfa, hfb⟩ := L.alt hfits
          have hagree := first (fun hx => by simp only [eval, hx]) hfa
          rw [eval] at hne ⊢
          rw [run_alt]
          generalize G.eval n s a c = o at hagree hne
          generalize G.run s a c' = o' at hagree
          cases hagree with
          | ok stop trees => exact .ok stop trees
          | fail => exact ih hfb hnear hne
      | star a =>
          obtain ⟨rfl, hfa, hless⟩ := L.star hfits
          have hagree := first (fun hx => by simp only [eval, hx]) hfa
          rw [eval] at hne ⊢
          rw [run_star]
          generalize G.eval n s a c = o at hagree hne
          generalize G.run s a c' = o' at hagree
          cases hagree with
          | ok stop trees =>
              simp only [ne_eq, Outcome.after_eq_exhausted_iff] at hne ⊢
              refine Outcome.Agree.after ?_ trees
              refine Outcome.rounds_agree (fun d d' hd hx => ?_) hless stop hne (Nat.lt_succ_self _)
              exact ih hfa (L.near_gap hfits hd) hx
          | fail => exact .ok (L.behind_of_near hnear) rfl
      | opt a =>
          obtain ⟨rfl, hfa⟩ := L.opt hfits
          have hagree := first (fun hx => by simp only [eval, hx]) hfa
          rw [eval, run_opt]
          generalize G.eval n s a c = o at hagree
          generalize G.run s a c' = o' at hagree
          cases hagree with
          | ok stop trees => exact .ok stop trees
          | fail => exact .ok (L.behind_of_near hnear) rfl
      | absent a =>
          obtain ⟨rfl, hfa⟩ := L.absent hfits
          have hagree := first (fun hx => by simp only [eval, hx]) hfa
          rw [eval, run_absent]
          generalize G.eval n s a c = o at hagree
          generalize G.run s a c' = o' at hagree
          cases hagree with
          | ok stop trees => exact .fail
          | fail => exact .ok (L.behind_of_near hnear) rfl
      | call r =>
          rcases L.call hfits hnear with hagree | ⟨hbody, htext⟩
          · rwa [← run_eq_eval hne]
          · rw [eval] at hne ⊢
            rw [run_call]
            have hinner : G.eval n ((G.mode r).enter s) (G.body r) c ≠ .exhausted :=
              fun hx => hne (wrap_eq_exhausted_iff.2 hx)
            exact L.agree_wrap (ih hbody hnear hinner) htext

/-- **Runs at related cursors agree.** -/
theorem agree (hfits : L.Fits s e i j) (hnear : L.Near i c c') (hne : G.run s e c ≠ .exhausted) :
    Outcome.Agree keep (L.Behind j) (G.run s e c) (G.run s e c') := by
  obtain ⟨n, hn⟩ := exists_eval_eq_run G s e c
  have heval := hn n (Nat.le_refl n)
  rw [← heval] at hne ⊢
  exact L.agree_eval hfits hnear hne

theorem exists_run_of_ok {ts : List (MatchTree ρ)} (hfits : L.Fits s e i j) (hnear : L.Near i c c')
    (h : G.run s e c = .ok d ts) :
    ∃ d' ts', G.run s e c' = .ok d' ts' ∧ L.Behind j d d' ∧ bares keep ts = bares keep ts' := by
  have hagree := L.agree hfits hnear (by rw [h]; simp)
  rw [h] at hagree
  generalize hr : G.run s e c' = o' at hagree
  cases hagree with
  | ok stop trees => exact ⟨_, _, rfl, stop, trees⟩

/-- So do rounds of a repetition, one after the other. -/
theorem steps {ts : List (MatchTree ρ)} (hfits : L.Fits s a i i) (hbehind : L.Behind i c c')
    (h : G.Steps s a c d ts) :
    ∃ d' ts', G.Steps s a c' d' ts' ∧ L.Behind i d d' ∧ bares keep ts = bares keep ts' := by
  induction h generalizing c' with
  | refl c => exact ⟨c', [], .refl c', hbehind, rfl⟩
  | head hrun _ ih =>
      obtain ⟨c₁', us', hrun', hc₁, hus⟩ :=
        L.exists_run_of_ok hfits (L.near_gap hfits hbehind) hrun
      obtain ⟨d', vs', hsteps', hd, hvs⟩ := ih hc₁
      exact ⟨d', _, .head hrun' hsteps', hd, by rw [bares_append, bares_append, hus, hvs]⟩

end Lockstep

end Grammar

end ExprScript
