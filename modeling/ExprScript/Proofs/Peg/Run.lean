import ExprScript.Peg.Basic

set_option autoImplicit false

/-! # Running an expression without counting fuel

More fuel never changes an outcome that is not `exhausted` (`eval_succ`), so the outcomes of an
expression at a cursor settle as the fuel grows. `Grammar.run` is the outcome they settle at.
It satisfies the equations of the evaluator with the fuel left out: `run_seq`, `run_alt`,
`run_opt`, `run_absent`, `run_call` and, for repetition, `run_star`.

A repetition is also described by its rounds. `Grammar.Steps` relates a cursor to the cursors
that some number of rounds leads to, and `many_eq_ok_iff` says that a repetition ends where
such a chain of rounds cannot be continued.
-/

namespace ExprScript

/-! ## Outcomes -/

namespace Outcome

variable {ρ : Type}

@[simp] theorem after_ok (ts us : List (MatchTree ρ)) (c : Cursor) :
    (ok c us).after ts = .ok c (ts ++ us) := rfl

@[simp] theorem after_fail (ts : List (MatchTree ρ)) : (fail : Outcome ρ).after ts = .fail := rfl

@[simp] theorem after_exhausted (ts : List (MatchTree ρ)) :
    (exhausted : Outcome ρ).after ts = .exhausted := rfl

@[simp] theorem after_nil (o : Outcome ρ) : o.after [] = o := by cases o <;> rfl

@[simp] theorem after_eq_exhausted_iff {o : Outcome ρ} {ts : List (MatchTree ρ)} :
    o.after ts = .exhausted ↔ o = .exhausted := by cases o <;> simp

@[simp] theorem after_eq_fail_iff {o : Outcome ρ} {ts : List (MatchTree ρ)} :
    o.after ts = .fail ↔ o = .fail := by cases o <;> simp

theorem after_eq_ok_iff {o : Outcome ρ} {ts us : List (MatchTree ρ)} {c : Cursor} :
    o.after ts = .ok c us ↔ ∃ vs, o = .ok c vs ∧ us = ts ++ vs := by
  cases o with
  | ok d vs =>
      constructor
      · intro h
        obtain ⟨rfl, rfl⟩ := ok.inj h
        exact ⟨vs, rfl, rfl⟩
      · rintro ⟨ws, hw, rfl⟩
        obtain ⟨rfl, rfl⟩ := ok.inj hw
        rfl
  | fail => simp
  | exhausted => simp

@[simp] theorem ofCursor?_ne_exhausted (c : Option Cursor) :
    (ofCursor? c : Outcome ρ) ≠ .exhausted := by cases c <;> simp [ofCursor?]

theorem ofCursor?_eq_ok_iff {c : Option Cursor} {d : Cursor} {ts : List (MatchTree ρ)} :
    ofCursor? c = .ok d ts ↔ c = some d ∧ ts = [] := by
  cases c <;> simp [ofCursor?, eq_comm]

@[simp] theorem ofCursor?_eq_fail_iff {c : Option Cursor} :
    (ofCursor? c : Outcome ρ) = .fail ↔ c = none := by cases c <;> simp [ofCursor?]

/-- Rounds of a step that knows more outcomes end as before where they ended at all. -/
theorem rounds_eq_of_refines {step step' : Cursor → Outcome ρ}
    (hstep : ∀ d, step d ≠ .exhausted → step' d = step d) {k : Nat} {c : Cursor}
    (h : rounds step k c ≠ .exhausted) : rounds step' k c = rounds step k c := by
  induction k generalizing c with
  | zero => exact absurd rfl h
  | succ k ih =>
      simp only [rounds] at h ⊢
      have hc : step c ≠ .exhausted := by
        intro hc
        simp [hc] at h
      rw [hstep c hc]
      cases hs : step c with
      | ok c₁ ts =>
          simp only [hs, ne_eq, after_eq_exhausted_iff] at h ⊢
          rw [ih h]
      | fail => rfl
      | exhausted => exact absurd hs hc

end Outcome

namespace Grammar

variable {ρ : Type} {G : Grammar ρ} {s : Setting} {a b e : Peg ρ} {c d : Cursor}
  {ts : List (MatchTree ρ)}

theorem wrap_eq_exhausted_iff {r : ρ} {o : Outcome ρ} :
    G.wrap r s c o = .exhausted ↔ o = .exhausted := by
  cases o with
  | ok d ts => simp only [wrap]; split <;> simp
  | fail => simp [wrap]
  | exhausted => simp [wrap]

theorem wrap_silent {r : ρ} (hr : G.mode r = .silent) (o : Outcome ρ) : G.wrap r s c o = o := by
  cases o <;> simp [wrap, hr]

theorem wrap_token {r : ρ} (hr : G.mode r ≠ .silent) :
    G.wrap r .token c (.ok d ts) = .ok d [] := by
  cases hm : G.mode r <;> simp [wrap, hm] at hr ⊢

theorem wrap_node {r : ρ} (hr : G.mode r ≠ .silent) (hs : s ≠ .token) :
    G.wrap r s c (.ok d ts) = .ok d [.node r ⟨c.pos, d.pos⟩ (c.upTo d) ts] := by
  cases hm : G.mode r <;> cases s <;> simp [wrap, hm] at hr hs ⊢

/-! ## Fuel -/

/-- **More fuel gives the same outcome**, once there is one. -/
theorem eval_succ {n : Nat} (h : G.eval n s e c ≠ .exhausted) :
    G.eval (n + 1) s e c = G.eval n s e c := by
  induction n generalizing s e c with
  | zero => exact absurd rfl h
  | succ n ih =>
      -- Every operator but a literal first runs its first part, which then has an outcome too.
      have first {a : Peg ρ}
          (ha : G.eval n s a c = .exhausted → G.eval (n + 1) s e c = .exhausted) :
          G.eval (n + 1) s a c = G.eval n s a c := ih fun hx => h (ha hx)
      cases e with
      | lit t => rfl
      | one p => rfl
      | done => rfl
      | seq a b =>
          have ha := first (a := a) fun hx => by simp [eval, hx]
          rw [eval, ha]
          rw [eval] at h ⊢
          cases hr : G.eval n s a c with
          | ok c₁ ts =>
              simp only [hr, ne_eq, Outcome.after_eq_exhausted_iff] at h ⊢
              rw [ih h]
          | fail => rfl
          | exhausted => rfl
      | alt a b =>
          have ha := first (a := a) fun hx => by simp [eval, hx]
          rw [eval, ha]
          rw [eval] at h ⊢
          cases hr : G.eval n s a c with
          | ok c₁ ts => rfl
          | fail =>
              simp only [hr] at h ⊢
              rw [ih h]
          | exhausted => rfl
      | star a =>
          have ha := first (a := a) fun hx => by simp [eval, hx]
          rw [eval, ha]
          rw [eval] at h ⊢
          cases hr : G.eval n s a c with
          | ok c₁ ts =>
              simp only [hr, ne_eq, Outcome.after_eq_exhausted_iff] at h ⊢
              rw [Outcome.rounds_eq_of_refines (fun d hd => ih hd) h]
          | fail => rfl
          | exhausted => rfl
      | opt a =>
          have ha := first (a := a) fun hx => by simp [eval, hx]
          rw [eval, ha]
          rfl
      | absent a =>
          have ha := first (a := a) fun hx => by simp [eval, hx]
          rw [eval, ha]
          rfl
      | call r =>
          rw [eval] at h ⊢
          have hb : G.eval n ((G.mode r).enter s) (G.body r) c ≠ .exhausted :=
            fun hx => h (wrap_eq_exhausted_iff.2 hx)
          rw [ih hb, eval]

theorem eval_of_le {n m : Nat} (hnm : n ≤ m) (h : G.eval n s e c ≠ .exhausted) :
    G.eval m s e c = G.eval n s e c := by
  induction hnm with
  | refl => rfl
  | step _ ih => rw [eval_succ (by rw [ih]; exact h), ih]

/-! ## The settled outcome -/

open Classical in
/-- The outcome of an expression at a cursor, with as much fuel as it takes. -/
noncomputable def run (G : Grammar ρ) (s : Setting) (e : Peg ρ) (c : Cursor) : Outcome ρ :=
  if h : ∃ n, G.eval n s e c ≠ .exhausted then G.eval h.choose s e c else .exhausted

/-- An outcome reached with some fuel is the settled one. -/
theorem run_eq_eval {n : Nat} (h : G.eval n s e c ≠ .exhausted) : G.run s e c = G.eval n s e c := by
  have hex : ∃ n, G.eval n s e c ≠ .exhausted := ⟨n, h⟩
  rw [run, dif_pos hex]
  rcases Nat.le_total hex.choose n with hle | hle
  · exact (eval_of_le hle hex.choose_spec).symm
  · exact eval_of_le hle h

/-- From some amount of fuel on, every run has the settled outcome. -/
theorem exists_eval_eq_run (G : Grammar ρ) (s : Setting) (e : Peg ρ) (c : Cursor) :
    ∃ n, ∀ m, n ≤ m → G.eval m s e c = G.run s e c := by
  by_cases hex : ∃ n, G.eval n s e c ≠ .exhausted
  · obtain ⟨n, hn⟩ := hex
    exact ⟨n, fun m hm => by rw [eval_of_le hm hn, run_eq_eval hn]⟩
  · refine ⟨0, fun m _ => ?_⟩
    rw [run, dif_neg hex]
    exact Classical.byContradiction fun hm => hex ⟨m, hm⟩

theorem exists_rounds_eq_run (G : Grammar ρ) (s : Setting) (a : Peg ρ) (k : Nat) (c : Cursor) :
    ∃ n, ∀ m, n ≤ m →
      Outcome.rounds (fun d => G.eval m s a (G.gap s d)) k c =
        Outcome.rounds (fun d => G.run s a (G.gap s d)) k c := by
  induction k generalizing c with
  | zero => exact ⟨0, fun _ _ => rfl⟩
  | succ k ih =>
      obtain ⟨n, hn⟩ := exists_eval_eq_run G s a (G.gap s c)
      cases hr : G.run s a (G.gap s c) with
      | ok c₁ ts =>
          obtain ⟨l, hl⟩ := ih c₁
          refine ⟨max n l, fun m hm => ?_⟩
          simp only [Outcome.rounds, hn m (by omega), hr, hl m (by omega)]
      | fail => exact ⟨n, fun m hm => by simp only [Outcome.rounds, hn m hm, hr]⟩
      | exhausted => exact ⟨n, fun m hm => by simp only [Outcome.rounds, hn m hm, hr]⟩

/-- To know the settled outcome it is enough to know the outcome with one unit of fuel more than
any large amount. -/
theorem run_eq_of_eval {o : Outcome ρ} {n : Nat} (h : ∀ m, n ≤ m → G.eval (m + 1) s e c = o) :
    G.run s e c = o := by
  obtain ⟨l, hl⟩ := exists_eval_eq_run G s e c
  rw [← hl (max n l + 1) (by omega), h (max n l) (by omega)]

/-! ## The equations of a run -/

theorem run_lit (t : String) : G.run s (.lit t) c = .ofCursor? (c.strip? t.toList) :=
  run_eq_of_eval (n := 0) fun _ _ => rfl

theorem run_one (p : Char → Bool) : G.run s (.one p) c = .ofCursor? (c.step? p) :=
  run_eq_of_eval (n := 0) fun _ _ => rfl

theorem run_done : G.run s .done c = if c.rest.isEmpty then .ok c [] else .fail :=
  run_eq_of_eval (n := 0) fun _ _ => rfl

theorem run_seq :
    G.run s (.seq a b) c =
      match G.run s a c with
      | .ok c₁ ts => (G.run s b (G.gap s c₁)).after ts
      | .fail => .fail
      | .exhausted => .exhausted := by
  obtain ⟨n, hn⟩ := exists_eval_eq_run G s a c
  cases hr : G.run s a c with
  | ok c₁ ts =>
      obtain ⟨l, hl⟩ := exists_eval_eq_run G s b (G.gap s c₁)
      refine run_eq_of_eval (n := max n l) fun m hm => ?_
      simp only [eval, hn m (by omega), hr, hl m (by omega)]
  | fail => exact run_eq_of_eval (n := n) fun m hm => by simp only [eval, hn m hm, hr]
  | exhausted => exact run_eq_of_eval (n := n) fun m hm => by simp only [eval, hn m hm, hr]

theorem run_alt :
    G.run s (.alt a b) c =
      match G.run s a c with
      | .ok c₁ ts => .ok c₁ ts
      | .fail => G.run s b c
      | .exhausted => .exhausted := by
  obtain ⟨n, hn⟩ := exists_eval_eq_run G s a c
  obtain ⟨l, hl⟩ := exists_eval_eq_run G s b c
  refine run_eq_of_eval (n := max n l) fun m hm => ?_
  cases hr : G.run s a c <;> simp only [eval, hn m (by omega), hl m (by omega), hr]

theorem run_opt :
    G.run s (.opt a) c =
      match G.run s a c with
      | .ok c₁ ts => .ok c₁ ts
      | .fail => .ok c []
      | .exhausted => .exhausted := by
  obtain ⟨n, hn⟩ := exists_eval_eq_run G s a c
  refine run_eq_of_eval (n := n) fun m hm => ?_
  cases hr : G.run s a c <;> simp only [eval, hn m hm, hr]

theorem run_absent :
    G.run s (.absent a) c =
      match G.run s a c with
      | .ok _ _ => .fail
      | .fail => .ok c []
      | .exhausted => .exhausted := by
  obtain ⟨n, hn⟩ := exists_eval_eq_run G s a c
  refine run_eq_of_eval (n := n) fun m hm => ?_
  cases hr : G.run s a c <;> simp only [eval, hn m hm, hr]

theorem run_call (r : ρ) :
    G.run s (.call r) c = G.wrap r s c (G.run ((G.mode r).enter s) (G.body r) c) := by
  obtain ⟨n, hn⟩ := exists_eval_eq_run G ((G.mode r).enter s) (G.body r) c
  exact run_eq_of_eval (n := n) fun m hm => by simp only [eval, hn m hm]

/-! ## When a run matches, and when it does not -/

section

variable {c₁ : Cursor} {us : List (MatchTree ρ)}

theorem run_seq_of_ok (h : G.run s a c = .ok c₁ us) :
    G.run s (.seq a b) c = (G.run s b (G.gap s c₁)).after us := by rw [run_seq, h]

theorem run_seq_ok {vs : List (MatchTree ρ)} (ha : G.run s a c = .ok c₁ us)
    (hb : G.run s b (G.gap s c₁) = .ok d vs) : G.run s (.seq a b) c = .ok d (us ++ vs) := by
  rw [run_seq_of_ok ha, hb, Outcome.after_ok]

/-- In front of what leaves trees there may be something that leaves none. -/
theorem run_seq_nil {vs : List (MatchTree ρ)} (ha : G.run s a c = .ok c₁ [])
    (hb : G.run s b (G.gap s c₁) = .ok d vs) : G.run s (.seq a b) c = .ok d vs :=
  run_seq_ok ha hb

theorem run_seq_of_fail (h : G.run s a c = .fail) : G.run s (.seq a b) c = .fail := by
  rw [run_seq, h]

theorem run_alt_of_ok (h : G.run s a c = .ok c₁ us) : G.run s (.alt a b) c = .ok c₁ us := by
  rw [run_alt, h]

theorem run_alt_of_fail (h : G.run s a c = .fail) : G.run s (.alt a b) c = G.run s b c := by
  rw [run_alt, h]

theorem run_opt_of_ok (h : G.run s a c = .ok c₁ us) : G.run s (.opt a) c = .ok c₁ us := by
  rw [run_opt, h]

theorem run_opt_of_fail (h : G.run s a c = .fail) : G.run s (.opt a) c = .ok c [] := by
  rw [run_opt, h]

theorem run_absent_of_ok (h : G.run s a c = .ok c₁ us) : G.run s (.absent a) c = .fail := by
  rw [run_absent, h]

theorem run_absent_of_fail (h : G.run s a c = .fail) : G.run s (.absent a) c = .ok c [] := by
  rw [run_absent, h]

end

theorem run_seq_eq_ok_iff :
    G.run s (.seq a b) c = .ok d ts ↔
      ∃ c₁ us vs, G.run s a c = .ok c₁ us ∧ G.run s b (G.gap s c₁) = .ok d vs ∧
        ts = us ++ vs := by
  rw [run_seq]
  cases hr : G.run s a c with
  | ok c₁ us =>
      simp only [Outcome.after_eq_ok_iff, Outcome.ok.injEq]
      constructor
      · rintro ⟨vs, hv, rfl⟩
        exact ⟨c₁, us, vs, ⟨rfl, rfl⟩, hv, rfl⟩
      · rintro ⟨_, _, vs, ⟨rfl, rfl⟩, hv, rfl⟩
        exact ⟨vs, hv, rfl⟩
  | fail => simp
  | exhausted => simp

theorem run_seq_eq_fail_iff :
    G.run s (.seq a b) c = .fail ↔
      G.run s a c = .fail ∨
        ∃ c₁ us, G.run s a c = .ok c₁ us ∧ G.run s b (G.gap s c₁) = .fail := by
  rw [run_seq]
  cases hr : G.run s a c <;> simp

theorem run_alt_eq_ok_iff :
    G.run s (.alt a b) c = .ok d ts ↔
      G.run s a c = .ok d ts ∨ G.run s a c = .fail ∧ G.run s b c = .ok d ts := by
  rw [run_alt]
  cases hr : G.run s a c <;> simp

theorem run_alt_eq_fail_iff :
    G.run s (.alt a b) c = .fail ↔ G.run s a c = .fail ∧ G.run s b c = .fail := by
  rw [run_alt]
  cases hr : G.run s a c <;> simp

theorem run_absent_eq_ok_iff :
    G.run s (.absent a) c = .ok d ts ↔ G.run s a c = .fail ∧ d = c ∧ ts = [] := by
  rw [run_absent]
  cases hr : G.run s a c <;> simp [eq_comm]

theorem run_call_eq_fail_iff {r : ρ} :
    G.run s (.call r) c = .fail ↔ G.run ((G.mode r).enter s) (G.body r) c = .fail := by
  rw [run_call]
  cases hr : G.run ((G.mode r).enter s) (G.body r) c with
  | ok d ts => simp only [wrap]; split <;> simp
  | fail => simp [wrap]
  | exhausted => simp [wrap]

/-- Calling a silent rule is running its body. -/
theorem run_silent {r : ρ} (hr : G.mode r = .silent) :
    G.run s (.call r) c = G.run s (G.body r) c := by
  rw [run_call, wrap_silent hr, hr]
  rfl

/-- Calling any other rule puts what its body matched into one tree. -/
theorem run_node_eq_ok_iff {r : ρ} (hr : G.mode r ≠ .silent) (hs : s ≠ .token) :
    G.run s (.call r) c = .ok d ts ↔
      ∃ us, G.run ((G.mode r).enter s) (G.body r) c = .ok d us ∧
        ts = [.node r ⟨c.pos, d.pos⟩ (c.upTo d) us] := by
  rw [run_call]
  cases hb : G.run ((G.mode r).enter s) (G.body r) c with
  | ok d₁ us =>
      rw [wrap_node hr hs]
      constructor
      · intro h
        obtain ⟨rfl, rfl⟩ := Outcome.ok.inj h
        exact ⟨us, rfl, rfl⟩
      · rintro ⟨vs, hv, rfl⟩
        obtain ⟨rfl, rfl⟩ := Outcome.ok.inj hv
        rfl
  | fail => simp [wrap]
  | exhausted => simp [wrap]

/-! ## Repetition -/

/-- The rounds of a repetition after the first. -/
noncomputable def many (G : Grammar ρ) (s : Setting) (a : Peg ρ) (c : Cursor) : Outcome ρ :=
  Outcome.rounds (fun d => G.run s a (G.gap s d)) (c.rest.length + 1) c

theorem run_star :
    G.run s (.star a) c =
      match G.run s a c with
      | .ok c₁ ts => (G.many s a c₁).after ts
      | .fail => .ok c []
      | .exhausted => .exhausted := by
  obtain ⟨n, hn⟩ := exists_eval_eq_run G s a c
  cases hr : G.run s a c with
  | ok c₁ ts =>
      obtain ⟨l, hl⟩ := exists_rounds_eq_run G s a (c₁.rest.length + 1) c₁
      refine run_eq_of_eval (n := max n l) fun m hm => ?_
      simp only [eval, hn m (by omega), hr, hl m (by omega), many]
  | fail => exact run_eq_of_eval (n := n) fun m hm => by simp only [eval, hn m hm, hr]
  | exhausted => exact run_eq_of_eval (n := n) fun m hm => by simp only [eval, hn m hm, hr]

/-- Some rounds of a repetition, with layout before each of them. -/
inductive Steps (G : Grammar ρ) (s : Setting) (a : Peg ρ) :
    Cursor → Cursor → List (MatchTree ρ) → Prop where
  | refl (c : Cursor) : Steps G s a c c []
  | head {c c₁ d : Cursor} {ts us : List (MatchTree ρ)} (h : G.run s a (G.gap s c) = .ok c₁ ts)
      (rest : Steps G s a c₁ d us) : Steps G s a c d (ts ++ us)

theorem Steps.head_nil {c₁ : Cursor} (h : G.run s a (G.gap s c) = .ok c₁ [])
    (rest : G.Steps s a c₁ d ts) : G.Steps s a c d ts := .head h rest

theorem Steps.trans {us : List (MatchTree ρ)} {d' : Cursor} (h : G.Steps s a c d ts)
    (h' : G.Steps s a d d' us) : G.Steps s a c d' (ts ++ us) := by
  induction h with
  | refl c => exact h'
  | head hr _ ih =>
      rw [List.append_assoc]
      exact .head hr (ih h')

theorem Steps.single (h : G.run s a (G.gap s c) = .ok d ts) : G.Steps s a c d ts := by
  have hs := Steps.head h (.refl d)
  rwa [List.append_nil] at hs

/-- Layout in front of the first round may be passed over beforehand. -/
theorem Steps.of_gap (hgap : G.gap s (G.gap s c) = G.gap s c) (h : G.Steps s a c d ts) :
    d = c ∧ ts = [] ∨ G.Steps s a (G.gap s c) d ts := by
  cases h with
  | refl => exact .inl ⟨rfl, rfl⟩
  | head hr rest => exact .inr (.head (by rw [hgap]; exact hr) rest)

theorem steps_of_rounds_eq_ok {k : Nat}
    (h : Outcome.rounds (fun d => G.run s a (G.gap s d)) k c = .ok d ts) :
    G.Steps s a c d ts ∧ G.run s a (G.gap s d) = .fail := by
  induction k generalizing c ts with
  | zero => simp [Outcome.rounds] at h
  | succ k ih =>
      rw [Outcome.rounds] at h
      cases hr : G.run s a (G.gap s c) with
      | ok c₁ us =>
          simp only [hr, Outcome.after_eq_ok_iff] at h
          obtain ⟨vs, hv, rfl⟩ := h
          obtain ⟨hsteps, hstop⟩ := ih hv
          exact ⟨.head hr hsteps, hstop⟩
      | fail =>
          simp only [hr, Outcome.ok.injEq] at h
          obtain ⟨rfl, rfl⟩ := h
          exact ⟨.refl c, hr⟩
      | exhausted => simp [hr] at h

theorem rounds_eq_ok_of_steps {k : Nat}
    (hless : ∀ {c c₁ us}, G.run s a (G.gap s c) = .ok c₁ us → c₁.rest.length < c.rest.length)
    (h : G.Steps s a c d ts) (hstop : G.run s a (G.gap s d) = .fail) (hk : c.rest.length < k) :
    Outcome.rounds (fun d => G.run s a (G.gap s d)) k c = .ok d ts := by
  induction h generalizing k with
  | refl c =>
      obtain ⟨k, rfl⟩ := Nat.exists_eq_succ_of_ne_zero (by omega : k ≠ 0)
      simp only [Outcome.rounds, hstop]
  | head hr rest ih =>
      obtain ⟨k, rfl⟩ := Nat.exists_eq_succ_of_ne_zero (by omega : k ≠ 0)
      have hlt := hless hr
      have hrest := ih (k := k) hstop (by omega)
      simp only [Outcome.rounds, hr, hrest, Outcome.after_ok]

/-- A repetition that matches has no round, or a first round and then rounds that cannot be
continued. -/
theorem run_star_eq_ok (h : G.run s (.star a) c = .ok d ts) :
    G.run s a c = .fail ∧ d = c ∧ ts = [] ∨
      ∃ c₁ us vs, G.run s a c = .ok c₁ us ∧ G.Steps s a c₁ d vs ∧
        G.run s a (G.gap s d) = .fail ∧ ts = us ++ vs := by
  rw [run_star] at h
  cases hr : G.run s a c with
  | ok c₁ us =>
      simp only [hr, Outcome.after_eq_ok_iff] at h
      obtain ⟨vs, hv, rfl⟩ := h
      obtain ⟨hsteps, hstop⟩ := steps_of_rounds_eq_ok hv
      exact .inr ⟨c₁, us, vs, rfl, hsteps, hstop, rfl⟩
  | fail =>
      simp only [hr, Outcome.ok.injEq] at h
      exact .inl ⟨rfl, h.1.symm, h.2.symm⟩
  | exhausted => simp [hr] at h

/-- **Rounds that cannot be continued are the match of a repetition**, when no layout stands in
front of the first and every round takes a character. -/
theorem run_star_of_steps
    (hless : ∀ {c c₁ us}, G.run s a (G.gap s c) = .ok c₁ us → c₁.rest.length < c.rest.length)
    (hgap : G.gap s c = c) (h : G.Steps s a c d ts) (hstop : G.run s a (G.gap s d) = .fail) :
    G.run s (.star a) c = .ok d ts := by
  rw [run_star]
  cases h with
  | refl =>
      rw [hgap] at hstop
      simp only [hstop]
  | head hr rest =>
      have hmany := rounds_eq_ok_of_steps hless rest hstop (Nat.lt_succ_self _)
      rw [hgap] at hr
      simp only [hr, many, hmany, Outcome.after_ok]

/-- A repetition that is run behind the layout at `c`, where `c` is the start of a chain of
rounds: it ends where the chain does, up to layout. -/
theorem run_star_gap
    (hless : ∀ {c c₁ us}, G.run s a (G.gap s c) = .ok c₁ us → c₁.rest.length < c.rest.length)
    (hgap : ∀ c, G.gap s (G.gap s c) = G.gap s c) (h : G.Steps s a c d ts)
    (hstop : G.run s a (G.gap s d) = .fail) :
    ∃ d', G.run s (.star a) (G.gap s c) = .ok d' ts ∧ G.gap s d' = G.gap s d := by
  rcases h.of_gap (hgap c) with ⟨rfl, rfl⟩ | hsteps
  · refine ⟨G.gap s d, ?_, hgap d⟩
    exact run_star_of_steps hless (hgap d) (.refl _) (by rw [hgap]; exact hstop)
  · exact ⟨d, run_star_of_steps hless (hgap c) hsteps hstop, rfl⟩

end Grammar

end ExprScript
