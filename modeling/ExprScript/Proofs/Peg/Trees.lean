import ExprScript.Proofs.Peg.Run
import ExprScript.Proofs.Source.Cursor

set_option autoImplicit false

/-! # The trees of a match

What holds of every match is proved by induction over runs (`run_induction`): one case for each
operator, and for a repetition what a further round adds. Four facts follow.

* A match reads a stretch of the text (`exists_reads_of_run`).
* In a token no trees are made (`trees_eq_nil_of_run`).
* Elsewhere the trees come in an order that the expression allows (`yields_of_run`). `Yields`
  leaves out the text altogether and speaks about the rules at the roots only.
* Every tree of a match comes from a run of its rule (`derived_of_run`).
-/

namespace ExprScript.Grammar

variable {ρ : Type} {G : Grammar ρ}

/-! ## Induction over matches -/

/-- What the rounds of a repetition lead to, when every round keeps the relation `Q`. -/
theorem rounds_induction {Q : Cursor → List (MatchTree ρ) → Prop} {step : Cursor → Outcome ρ}
    (hstep : ∀ {c c₁ us vs}, Q c us → step c = .ok c₁ vs → Q c₁ (us ++ vs)) {k : Nat}
    {c d : Cursor} {us vs : List (MatchTree ρ)} (hc : Q c us)
    (h : Outcome.rounds step k c = .ok d vs) : Q d (us ++ vs) := by
  induction k generalizing c us vs with
  | zero => simp [Outcome.rounds] at h
  | succ k ih =>
      rw [Outcome.rounds] at h
      cases hr : step c with
      | ok c₁ ts =>
          simp only [hr, Outcome.after_eq_ok_iff] at h
          obtain ⟨ws, hw, rfl⟩ := h
          rw [← List.append_assoc]
          exact ih (hstep hc hr) hw
      | fail =>
          simp only [hr, Outcome.ok.injEq] at h
          obtain ⟨rfl, rfl⟩ := h
          rwa [List.append_nil]
      | exhausted => simp [hr] at h

theorem stop_eq_of_wrap {r : ρ} {s : Setting} {c d d₁ : Cursor} {ts us : List (MatchTree ρ)}
    (h : G.wrap r s c (.ok d₁ ts) = .ok d us) : d = d₁ := by
  simp only [wrap] at h
  split at h <;> exact (Outcome.ok.inj h).1.symm

/-- **Induction over matches.** A relation that every operator passes on from its parts holds of
every match. -/
theorem run_induction
    {P : Setting → Peg ρ → Cursor → Cursor → List (MatchTree ρ) → Prop}
    (lit : ∀ {s t c d}, c.strip? t.toList = some d → P s (.lit t) c d [])
    (one : ∀ {s p c d}, c.step? p = some d → P s (.one p) c d [])
    (done : ∀ {s c}, P s .done c c [])
    (seq : ∀ {s a b c c₁ d us vs}, P s a c c₁ us → P s b (G.gap s c₁) d vs →
      P s (.seq a b) c d (us ++ vs))
    (left : ∀ {s a b c d ts}, P s a c d ts → P s (.alt a b) c d ts)
    (right : ∀ {s a b c d ts}, P s b c d ts → P s (.alt a b) c d ts)
    (none : ∀ {s a c}, P s (.star a) c c [])
    (first : ∀ {s a c d ts}, P s a c d ts → P s (.star a) c d ts)
    (further : ∀ {s a c c₁ d us vs}, P s (.star a) c c₁ us → P s a (G.gap s c₁) d vs →
      P s (.star a) c d (us ++ vs))
    (without : ∀ {s a c}, P s (.opt a) c c [])
    (present : ∀ {s a c d ts}, P s a c d ts → P s (.opt a) c d ts)
    (absent : ∀ {s a c}, P s (.absent a) c c [])
    (call : ∀ {s r c d ts us}, G.run ((G.mode r).enter s) (G.body r) c = .ok d ts →
      P ((G.mode r).enter s) (G.body r) c d ts → G.wrap r s c (.ok d ts) = .ok d us →
      P s (.call r) c d us)
    {s : Setting} {e : Peg ρ} {c d : Cursor} {ts : List (MatchTree ρ)}
    (h : G.run s e c = .ok d ts) : P s e c d ts := by
  -- a run is the evaluation with some fuel, and the induction is on that
  have key : ∀ n {s e c d ts}, G.eval n s e c = .ok d ts → P s e c d ts := by
    intro n
    induction n with
    | zero => intro s e c d ts h; simp [eval] at h
    | succ n ih =>
        intro s e c d ts h
        cases e with
        | lit t =>
            rw [eval] at h
            obtain ⟨hd, rfl⟩ := Outcome.ofCursor?_eq_ok_iff.1 h
            exact lit hd
        | one p =>
            rw [eval] at h
            obtain ⟨hd, rfl⟩ := Outcome.ofCursor?_eq_ok_iff.1 h
            exact one hd
        | done =>
            rw [eval] at h
            split at h
            · obtain ⟨rfl, rfl⟩ := Outcome.ok.inj h
              exact done
            · simp at h
        | seq a b =>
            rw [eval] at h
            cases ha : G.eval n s a c with
            | ok c₁ us =>
                simp only [ha, Outcome.after_eq_ok_iff] at h
                obtain ⟨vs, hv, rfl⟩ := h
                exact seq (ih ha) (ih hv)
            | fail => simp [ha] at h
            | exhausted => simp [ha] at h
        | alt a b =>
            rw [eval] at h
            cases ha : G.eval n s a c with
            | ok c₁ us =>
                simp only [ha] at h
                exact left (ih (ha.trans h))
            | fail =>
                simp only [ha] at h
                exact right (ih h)
            | exhausted => simp [ha] at h
        | star a =>
            rw [eval] at h
            cases ha : G.eval n s a c with
            | ok c₁ us =>
                simp only [ha, Outcome.after_eq_ok_iff] at h
                obtain ⟨vs, hv, rfl⟩ := h
                exact rounds_induction (fun hq hr => further hq (ih hr)) (first (ih ha)) hv
            | fail =>
                simp only [ha, Outcome.ok.injEq] at h
                obtain ⟨rfl, rfl⟩ := h
                exact none
            | exhausted => simp [ha] at h
        | opt a =>
            rw [eval] at h
            cases ha : G.eval n s a c with
            | ok c₁ us =>
                simp only [ha] at h
                exact present (ih (ha.trans h))
            | fail =>
                simp only [ha, Outcome.ok.injEq] at h
                obtain ⟨rfl, rfl⟩ := h
                exact without
            | exhausted => simp [ha] at h
        | absent a =>
            rw [eval] at h
            cases ha : G.eval n s a c with
            | ok c₁ us => simp [ha] at h
            | fail =>
                simp only [ha, Outcome.ok.injEq] at h
                obtain ⟨rfl, rfl⟩ := h
                exact absent
            | exhausted => simp [ha] at h
        | call r =>
            rw [eval] at h
            cases ha : G.eval n ((G.mode r).enter s) (G.body r) c with
            | ok d₁ us =>
                rw [ha] at h
                obtain rfl := stop_eq_of_wrap h
                have hrun : G.run ((G.mode r).enter s) (G.body r) c = .ok d us := by
                  rw [run_eq_eval (n := n) (by simp [ha]), ha]
                exact call hrun (ih ha) h
            | fail => simp [ha, wrap] at h
            | exhausted => simp [ha, wrap] at h
  obtain ⟨n, hn⟩ := exists_eval_eq_run G s e c
  exact key n ((hn n (Nat.le_refl n)).trans h)

/-! ## The text of a match -/

/-- Passing over layout reads a stretch of the text. -/
def SkipReads (G : Grammar ρ) : Prop := ∀ c : Cursor, ∃ cs, c.Reads cs (G.skip c)

theorem SkipReads.gap (hG : G.SkipReads) (s : Setting) (c : Cursor) :
    ∃ cs, c.Reads cs (G.gap s c) := by
  cases s with
  | spaced => exact hG c
  | glued => exact ⟨[], .refl c⟩
  | token => exact ⟨[], .refl c⟩

/-- A match reads a stretch of the text. -/
theorem exists_reads_of_run (hG : G.SkipReads) {s : Setting} {e : Peg ρ} {c d : Cursor}
    {ts : List (MatchTree ρ)} (h : G.run s e c = .ok d ts) : ∃ cs, c.Reads cs d := by
  have here : ∀ {c : Cursor}, ∃ cs, c.Reads cs c := fun {c} => ⟨[], .refl c⟩
  have link : ∀ {s : Setting} {c c₁ d : Cursor}, (∃ cs, c.Reads cs c₁) →
      (∃ cs, (G.gap s c₁).Reads cs d) → ∃ cs, c.Reads cs d := by
    rintro s c c₁ d ⟨cs, hcs⟩ ⟨ds, hds⟩
    obtain ⟨ws, hws⟩ := hG.gap s c₁
    exact ⟨_, (hcs.trans hws).trans hds⟩
  refine run_induction (P := fun _ _ c d _ => ∃ cs, c.Reads cs d)
    ?lit ?one here link id id here id link here id here ?call h
  case lit => exact fun hd => ⟨_, Cursor.strip?_eq_some_iff.1 hd⟩
  case one =>
    intro s p c d hd
    obtain ⟨x, -, hx⟩ := Cursor.step?_eq_some_iff.1 hd
    exact ⟨[x], hx⟩
  case call => exact fun _ hd _ => hd

theorem length_le_of_run (hG : G.SkipReads) {s : Setting} {e : Peg ρ} {c d : Cursor}
    {ts : List (MatchTree ρ)} (h : G.run s e c = .ok d ts) : d.rest.length ≤ c.rest.length := by
  obtain ⟨cs, hcs⟩ := exists_reads_of_run hG h
  have := hcs.length_eq
  omega

theorem length_gap_le (hG : G.SkipReads) (s : Setting) (c : Cursor) :
    (G.gap s c).rest.length ≤ c.rest.length := by
  obtain ⟨cs, hcs⟩ := hG.gap s c
  have := hcs.length_eq
  omega

/-! ## The trees of a match -/

/-- In a token no trees are made. -/
theorem trees_eq_nil_of_run {e : Peg ρ} {c d : Cursor} {ts : List (MatchTree ρ)}
    (h : G.run .token e c = .ok d ts) : ts = [] := by
  have append : ∀ {us vs : List (MatchTree ρ)}, us = [] → vs = [] → us ++ vs = [] := by
    rintro us vs rfl rfl
    rfl
  refine run_induction (P := fun s _ _ _ ts => s = .token → ts = []) (fun _ _ => rfl)
    (fun _ _ => rfl) (fun _ => rfl) ?seq id id (fun _ => rfl) id ?further (fun _ => rfl) id
    (fun _ => rfl) ?call h rfl
  case seq => exact fun ha hb hs => append (ha hs) (hb hs)
  case further => exact fun ha hb hs => append (ha hs) (hb hs)
  case call =>
    rintro s r c d ts us - hbody hwrap rfl
    by_cases hr : G.mode r = .silent
    · rw [wrap_silent hr] at hwrap
      rw [← (Outcome.ok.inj hwrap).2]
      exact hbody (by rw [hr]; rfl)
    · rw [wrap_token hr] at hwrap
      exact (Outcome.ok.inj hwrap).2.symm

/-- The trees that a match of an expression can have, as far as their rules are concerned. -/
inductive Yields (G : Grammar ρ) : Peg ρ → List (MatchTree ρ) → Prop where
  | lit (t : String) : Yields G (.lit t) []
  | one (p : Char → Bool) : Yields G (.one p) []
  | done : Yields G .done []
  | seq {a b : Peg ρ} {us vs : List (MatchTree ρ)} (ha : Yields G a us) (hb : Yields G b vs) :
      Yields G (.seq a b) (us ++ vs)
  | left {a b : Peg ρ} {ts : List (MatchTree ρ)} (ha : Yields G a ts) : Yields G (.alt a b) ts
  | right {a b : Peg ρ} {ts : List (MatchTree ρ)} (hb : Yields G b ts) : Yields G (.alt a b) ts
  | star {a : Peg ρ} {rounds : List (List (MatchTree ρ))} (h : ∀ ts ∈ rounds, Yields G a ts) :
      Yields G (.star a) rounds.flatten
  | without (a : Peg ρ) : Yields G (.opt a) []
  | present {a : Peg ρ} {ts : List (MatchTree ρ)} (ha : Yields G a ts) : Yields G (.opt a) ts
  | absent (a : Peg ρ) : Yields G (.absent a) []
  | silent {r : ρ} {ts : List (MatchTree ρ)} (hr : G.mode r = .silent)
      (h : Yields G (G.body r) ts) : Yields G (.call r) ts
  | node {r : ρ} (hr : G.mode r ≠ .silent) (span : Span) (text : List Char)
      (ts : List (MatchTree ρ)) : Yields G (.call r) [.node r span text ts]

section

variable {a b : Peg ρ} {ts : List (MatchTree ρ)}

@[simp] theorem yields_lit_iff {t : String} : G.Yields (.lit t) ts ↔ ts = [] :=
  ⟨fun h => by cases h; rfl, fun h => h ▸ .lit t⟩

@[simp] theorem yields_one_iff {p : Char → Bool} : G.Yields (.one p) ts ↔ ts = [] :=
  ⟨fun h => by cases h; rfl, fun h => h ▸ .one p⟩

@[simp] theorem yields_done_iff : G.Yields .done ts ↔ ts = [] :=
  ⟨fun h => by cases h; rfl, fun h => h ▸ .done⟩

@[simp] theorem yields_absent_iff : G.Yields (.absent a) ts ↔ ts = [] :=
  ⟨fun h => by cases h; rfl, fun h => h ▸ .absent a⟩

@[simp] theorem yields_seq_iff :
    G.Yields (.seq a b) ts ↔ ∃ us vs, G.Yields a us ∧ G.Yields b vs ∧ ts = us ++ vs := by
  constructor
  · intro h
    cases h with
    | seq ha hb => exact ⟨_, _, ha, hb, rfl⟩
  · rintro ⟨us, vs, ha, hb, rfl⟩
    exact .seq ha hb

@[simp] theorem yields_alt_iff :
    G.Yields (.alt a b) ts ↔ G.Yields a ts ∨ G.Yields b ts := by
  constructor
  · intro h
    cases h with
    | left ha => exact .inl ha
    | right hb => exact .inr hb
  · rintro (ha | hb)
    · exact .left ha
    · exact .right hb

@[simp] theorem yields_star_iff :
    G.Yields (.star a) ts ↔
      ∃ rounds : List (List (MatchTree ρ)), (∀ us ∈ rounds, G.Yields a us) ∧
        ts = rounds.flatten := by
  constructor
  · intro h
    cases h with
    | star hrounds => exact ⟨_, hrounds, rfl⟩
  · rintro ⟨rounds, hrounds, rfl⟩
    exact .star hrounds

@[simp] theorem yields_opt_iff : G.Yields (.opt a) ts ↔ ts = [] ∨ G.Yields a ts := by
  constructor
  · intro h
    cases h with
    | without => exact .inl rfl
    | present ha => exact .inr ha
  · rintro (rfl | ha)
    · exact .without a
    · exact .present ha

/-- A silent rule leaves the trees of its body. -/
theorem yields_silent_iff {r : ρ} (hr : G.mode r = .silent) :
    G.Yields (.call r) ts ↔ G.Yields (G.body r) ts := by
  constructor
  · intro h
    cases h with
    | silent _ hb => exact hb
    | node hn => exact absurd hr hn
  · exact .silent hr

/-- Any other rule leaves one tree. -/
theorem yields_node_iff {r : ρ} (hr : G.mode r ≠ .silent) :
    G.Yields (.call r) ts ↔ ∃ span text us, ts = [.node r span text us] := by
  constructor
  · intro h
    cases h with
    | silent hs => exact absurd hs hr
    | node _ span text us => exact ⟨span, text, us, rfl⟩
  · rintro ⟨span, text, us, rfl⟩
    exact .node hr span text us

end

/-- The trees of a match come in an order that the expression allows. -/
theorem yields_of_run {s : Setting} {e : Peg ρ} {c d : Cursor} {ts : List (MatchTree ρ)}
    (hs : s ≠ .token) (h : G.run s e c = .ok d ts) : G.Yields e ts := by
  refine run_induction (P := fun s e _ _ ts => s ≠ .token → G.Yields e ts)
    (fun _ _ => .lit _) (fun _ _ => .one _) (fun _ => .done)
    (fun ha hb hs => .seq (ha hs) (hb hs)) (fun ha hs => .left (ha hs))
    (fun hb hs => .right (hb hs)) ?none ?first ?further (fun _ => .without _)
    (fun ha hs => .present (ha hs)) (fun _ => .absent _) ?call h hs
  case none => exact fun _ => yields_star_iff.2 ⟨[], by simp, rfl⟩
  case first =>
    intro s a c d ts ha hs
    exact yields_star_iff.2 ⟨[ts], by simpa using ha hs, by simp⟩
  case further =>
    intro s a c c₁ d us vs hstar ha hs
    obtain ⟨rounds, hrounds, rfl⟩ := yields_star_iff.1 (hstar hs)
    -- rounds are added at the end, where `run_induction` adds them
    refine yields_star_iff.2 ⟨rounds ++ [vs], ?_, by simp⟩
    intro ts hts
    rcases List.mem_append.1 hts with hin | hlast
    · exact hrounds ts hin
    · rw [List.mem_singleton.1 hlast]
      exact ha hs
  case call =>
    intro s r c d ts us _ hbody hwrap hs
    by_cases hr : G.mode r = .silent
    · rw [wrap_silent hr] at hwrap
      rw [← (Outcome.ok.inj hwrap).2]
      exact .silent hr (hbody (by rw [hr]; exact hs))
    · rw [wrap_node hr hs] at hwrap
      rw [← (Outcome.ok.inj hwrap).2]
      exact .node hr _ _ _

/-- Trees that runs of their rules have made, throughout. -/
inductive Derived (G : Grammar ρ) : MatchTree ρ → Prop where
  | node {r : ρ} {s : Setting} {c d : Cursor} {ts : List (MatchTree ρ)} (hs : s ≠ .token)
      (hr : G.mode r ≠ .silent) (hbody : G.run ((G.mode r).enter s) (G.body r) c = .ok d ts)
      (hts : ∀ t ∈ ts, Derived G t) : Derived G (.node r ⟨c.pos, d.pos⟩ (c.upTo d) ts)

/-- Every tree of a match comes from a run of its rule. -/
theorem derived_of_run {s : Setting} {e : Peg ρ} {c d : Cursor} {ts : List (MatchTree ρ)}
    (h : G.run s e c = .ok d ts) : ∀ t ∈ ts, G.Derived t := by
  have append : ∀ {us vs : List (MatchTree ρ)}, (∀ t ∈ us, G.Derived t) →
      (∀ t ∈ vs, G.Derived t) → ∀ t ∈ us ++ vs, G.Derived t := by
    intro us vs hus hvs t ht
    exact (List.mem_append.1 ht).elim (hus t) (hvs t)
  refine run_induction (P := fun _ _ _ _ ts => ∀ t ∈ ts, G.Derived t)
    (by simp) (by simp) (by simp) append id id (by simp) id append (by simp) id (by simp) ?call h
  case call =>
    intro s r c d ts us hrun hbody hwrap
    by_cases hr : G.mode r = .silent
    · rw [wrap_silent hr] at hwrap
      rw [← (Outcome.ok.inj hwrap).2]
      exact hbody
    · by_cases hs : s = .token
      · subst hs
        rw [wrap_token hr] at hwrap
        rw [← (Outcome.ok.inj hwrap).2]
        simp
      · rw [wrap_node hr hs] at hwrap
        rw [← (Outcome.ok.inj hwrap).2]
        intro t ht
        rw [List.mem_singleton.1 ht]
        exact .node hs hr hrun hbody

namespace Derived

variable {r : ρ} {span : Span} {text : List Char} {ts : List (MatchTree ρ)}

theorem children (h : G.Derived (.node r span text ts)) : ∀ t ∈ ts, G.Derived t := by
  cases h with
  | node _ _ _ hts => exact hts

/-- The children of a tree, unless its rule is a token, come in an order that the body of its
rule allows. -/
theorem yields (h : G.Derived (.node r span text ts)) (hr : G.mode r ≠ .token) :
    G.Yields (G.body r) ts := by
  cases h with
  | node hs _ hbody _ =>
      refine yields_of_run (fun hs' => ?_) hbody
      cases hm : G.mode r with
      | normal => rw [hm] at hs'; exact hs hs'
      | silent => rw [hm] at hs'; exact hs hs'
      | token => exact hr hm
      | compound =>
          rw [hm] at hs'
          rename_i s _ _ _
          cases s
          simp [Mode.enter] at hs hs'

/-- The text of a token is what its body reads. -/
theorem token (h : G.Derived (.node r span text ts)) (hr : G.mode r = .token)
    (hG : G.SkipReads) :
    ∃ c d, G.run .token (G.body r) c = .ok d [] ∧ c.Reads text d ∧ span = ⟨c.pos, d.pos⟩ := by
  cases h with
  | @node _ s c d ts hs _ hbody _ =>
      rw [hr] at hbody
      change G.run .token (G.body r) c = .ok d ts at hbody
      obtain rfl := trees_eq_nil_of_run hbody
      obtain ⟨cs, hcs⟩ := exists_reads_of_run hG hbody
      refine ⟨c, d, hbody, ?_, rfl⟩
      rwa [hcs.upTo_eq]

end Derived

end ExprScript.Grammar
