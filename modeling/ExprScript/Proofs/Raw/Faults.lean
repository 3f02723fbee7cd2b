import ExprScript.Proofs.Peg.Furthest
import ExprScript.Proofs.Raw.Spans

set_option autoImplicit false

/-! # Where syntax errors stand

A text that is no program is refused for one of two reasons, and both name a place in it. Either
the grammar does not match: then the place is a point that was reached from the start, and the
rules named in the message fail there (`Proofs.Peg.Furthest`). Or an integer is out of range: then
the place is where the literal stands, for every match spells the text at its span
(`spelled_of_run`), and reading a match fails with the span of a match inside it (`blames`).
-/

namespace ExprScript

open Grammar

/-! ## Matches and their text -/

namespace MatchTree

variable {ρ : Type} {G : Grammar ρ}

/-- The match and the matches inside it spell the text at their spans, ahead of `c`. -/
inductive Spelled (c : Cursor) : MatchTree ρ → Prop where
  | node {r : ρ} {us text : List Char} {c₁ d₁ : Cursor} {ts : List (MatchTree ρ)}
      (hbefore : c.Reads us c₁) (htext : c₁.Reads text d₁) (hts : ∀ t ∈ ts, Spelled c t) :
      Spelled c (.node r ⟨c₁.pos, d₁.pos⟩ text ts)

/-- What is ahead of a cursor is ahead of those before it. -/
theorem Spelled.of_reads {c c₁ : Cursor} {us : List Char} {t : MatchTree ρ} (h : t.Spelled c₁)
    (hc : c.Reads us c₁) : t.Spelled c := by
  induction h with
  | node hbefore htext _ ih => exact .node (hc.trans hbefore) htext ih

theorem Spelled.children {c : Cursor} {t : MatchTree ρ} (h : t.Spelled c) :
    ∀ k ∈ t.children, k.Spelled c := by
  cases h with
  | node _ _ hts => exact hts

/-- **The trees of a match spell what it has read.** -/
theorem spelled_of_run (hG : G.SkipReads) {s : Setting} {e : Peg ρ} {c d : Cursor}
    {ts : List (MatchTree ρ)} (h : G.run s e c = .ok d ts) : ∀ t ∈ ts, t.Spelled c := by
  have here {c : Cursor} : (∃ cs, c.Reads cs c) ∧ ∀ t ∈ ([] : List (MatchTree ρ)), t.Spelled c :=
    ⟨⟨[], .refl c⟩, by simp⟩
  have link {s : Setting} {c c₁ d : Cursor} {us vs : List (MatchTree ρ)}
      (hus : (∃ cs, c.Reads cs c₁) ∧ ∀ t ∈ us, t.Spelled c)
      (hvs : (∃ cs, (G.gap s c₁).Reads cs d) ∧ ∀ t ∈ vs, t.Spelled (G.gap s c₁)) :
      (∃ cs, c.Reads cs d) ∧ ∀ t ∈ us ++ vs, t.Spelled c := by
    obtain ⟨⟨cs, hcs⟩, hus⟩ := hus
    obtain ⟨⟨ds, hds⟩, hvs⟩ := hvs
    obtain ⟨ws, hws⟩ := hG.gap s c₁
    refine ⟨⟨_, (hcs.trans hws).trans hds⟩, ?_⟩
    intro t ht
    rcases List.mem_append.1 ht with hl | hr
    · exact hus t hl
    · exact (hvs t hr).of_reads (hcs.trans hws)
  -- a later part is spelled from the start of the whole, so what was read before it is kept
  refine (run_induction
    (P := fun _ _ c d ts => (∃ cs, c.Reads cs d) ∧ ∀ t ∈ ts, t.Spelled c)
    ?lit ?one here link id id here id link here id here ?call h).2
  case lit => exact fun hd => ⟨⟨_, Cursor.strip?_eq_some_iff.1 hd⟩, by simp⟩
  case one =>
    intro s p c d hd
    obtain ⟨x, -, hx⟩ := Cursor.step?_eq_some_iff.1 hd
    exact ⟨⟨[x], hx⟩, by simp⟩
  case call =>
    intro s r c d ts us _ hbody hwrap
    obtain ⟨⟨cs, hcs⟩, hts⟩ := hbody
    refine ⟨⟨cs, hcs⟩, ?_⟩
    by_cases hr : G.mode r = .silent
    · rw [wrap_silent hr] at hwrap
      rwa [← (Outcome.ok.inj hwrap).2]
    · by_cases hs : s = .token
      · subst hs
        rw [wrap_token hr] at hwrap
        rw [← (Outcome.ok.inj hwrap).2]
        simp
      · rw [wrap_node hr hs] at hwrap
        rw [← (Outcome.ok.inj hwrap).2, hcs.upTo_eq]
        intro t ht
        rw [List.mem_singleton.1 ht]
        exact .node (.refl c) hcs hts

end MatchTree

/-! ## Integers out of range -/

theorem of_bind_eq_error {ε α β : Type} {x : Except ε α} {f : α → Except ε β} {e : ε}
    (h : x >>= f = .error e) : x = .error e ∨ ∃ a, x = .ok a ∧ f a = .error e := by
  cases x with
  | ok a => exact .inr ⟨a, rfl, h⟩
  | error e' =>
      cases h
      exact .inl rfl

namespace RawNode

/-- How reading a match fails. -/
inductive FailsFrom (m : MatchTree Rule) (e : SyntaxError) : Prop where
  | malformed {r : Rule} {span : Span} (he : e = ⟨.malformed r, span⟩)
  /-- the match is a literal out of range -/
  | literal {span : Span} {text : List Char} {ks : List (MatchTree Rule)}
      (hm : m = .node .integer span text ks) (he : e = ⟨.integerRange (String.ofList text), span⟩)
  /-- the matches inside it fail, but for `k` of them in front -/
  | parts (k : Nat) (h : ofMatches (m.children.drop k) = .error e)
  | statements (h : ofStatements m.children = .error e)
  | target {target : MatchTree Rule} (hm : target ∈ m.children) (h : ofMatch target = .error e)
  | suffixes {target : MatchTree Rule} {suffixes : List (MatchTree Rule)} {first : RawNode}
      (hm : m.children = target :: suffixes)
      (h : ofSuffixes m.span.start first suffixes = .error e)

theorem ofMatches_cons_error {m : MatchTree Rule} {ms : List (MatchTree Rule)} {e : SyntaxError}
    (h : ofMatch m = .error e ∨ ∃ raw, ofMatch m = .ok raw ∧ ofMatches ms = .error e) :
    ofMatches (m :: ms) = .error e := by
  rw [ofMatches]
  obtain h | ⟨raw, hraw, h⟩ := h
  · rw [h]
    rfl
  · rw [hraw, h]
    rfl

/-- Reading a match fails in one of these ways only. -/
theorem failsFrom_of_ofMatch {m : MatchTree Rule} {e : SyntaxError} (h : ofMatch m = .error e) :
    FailsFrom m e := by
  obtain ⟨r, span, text, ms⟩ := m
  -- a match with fewer parts than its rule calls for is malformed
  cases r with
  | program =>
      rw [ofMatch] at h
      obtain h | ⟨raws, -, h⟩ := of_bind_eq_error h
      · exact .statements h
      · cases h
  | functionDeclaration =>
      obtain _ | ⟨word, _ | ⟨⟨_, _, name, _⟩, _ | ⟨params, body⟩⟩⟩ := ms
      · exact .malformed (Except.error.inj h).symm
      · exact .malformed (Except.error.inj h).symm
      · exact .malformed (Except.error.inj h).symm
      · rw [ofMatch] at h
        refine .parts 2 (ofMatches_cons_error ?_)
        obtain h | ⟨raw, hraw, h⟩ := of_bind_eq_error h
        · exact .inl h
        · obtain h | ⟨raws, -, h⟩ := of_bind_eq_error h
          · exact .inr ⟨raw, hraw, h⟩
          · cases h
  | variableDeclaration =>
      obtain _ | ⟨⟨_, _, _, _⟩, _ | ⟨⟨_, _, name, _⟩, value⟩⟩ := ms
      · exact .malformed (Except.error.inj h).symm
      · exact .malformed (Except.error.inj h).symm
      · rw [ofMatch] at h
        obtain h | ⟨raws, -, h⟩ := of_bind_eq_error h
        · exact .parts 2 h
        · cases h
  | namedFunction | returnExpression =>
      obtain _ | ⟨word, parts⟩ := ms
      · exact .malformed (Except.error.inj h).symm
      · rw [ofMatch] at h
        obtain h | ⟨raws, -, h⟩ := of_bind_eq_error h
        · exact .parts 1 h
        · cases h
  | anonymousFunction | parameters | arguments | array | object | objectProperty =>
      rw [ofMatch] at h
      obtain h | ⟨raws, -, h⟩ := of_bind_eq_error h
      · exact .parts 0 h
      · cases h
  | expression =>
      rw [ofMatch] at h
      obtain h | ⟨raws, -, h⟩ := of_bind_eq_error h
      · exact .parts 0 h
      · obtain _ | ⟨first, _ | ⟨second, raws⟩⟩ := raws <;> cases h
  | operand =>
      obtain _ | ⟨target, suffixes⟩ := ms
      · exact .malformed (Except.error.inj h).symm
      · rw [ofMatch] at h
        obtain h | ⟨first, -, h⟩ := of_bind_eq_error h
        · exact .target List.mem_cons_self h
        · exact .suffixes rfl h
  | integer =>
      rw [ofMatch] at h
      split at h
      · cases h
      · exact .literal rfl (Except.error.inj h).symm
  | string =>
      obtain _ | ⟨⟨_, _, content, _⟩, others⟩ := ms
      · exact .malformed (Except.error.inj h).symm
      · cases h
  | binaryOperator | boolean | void | identifier => cases h
  | _ => exact .malformed (Except.error.inj h).symm

end RawNode

/-- The error is that of an integer literal that stands ahead of `c`. -/
def SyntaxError.LiteralAhead (c : Cursor) (e : SyntaxError) : Prop :=
  ∃ us text c₁ d₁, c.Reads us c₁ ∧ c₁.Reads text d₁ ∧
    e = ⟨.integerRange (String.ofList text), ⟨c₁.pos, d₁.pos⟩⟩

namespace RawNode

variable {c : Cursor} {e : SyntaxError} {ms : List (MatchTree Rule)}

/-- A range error of the match is that of a literal in it. -/
def Blames (m : MatchTree Rule) : Prop :=
  ∀ e c, ofMatch m = .error e → e.IsRange → m.Spelled c → e.LiteralAhead c

theorem not_isRange_malformed {r : Rule} {span : Span} :
    ¬ SyntaxError.IsRange ⟨.malformed r, span⟩ := by
  rintro ⟨text, hcause, -⟩
  cases hcause

theorem blames_of_ofMatches (hms : ∀ m ∈ ms, Blames m) (hspelled : ∀ m ∈ ms, m.Spelled c)
    (hrange : e.IsRange) (h : ofMatches ms = .error e) : e.LiteralAhead c := by
  induction ms with
  | nil => cases h
  | cons m ms ih =>
      obtain ⟨hm, hrest⟩ := List.forall_mem_cons.1 hms
      obtain ⟨hc, hcs⟩ := List.forall_mem_cons.1 hspelled
      rw [ofMatches] at h
      obtain h | ⟨raw, -, h⟩ := of_bind_eq_error h
      · exact hm e c h hrange hc
      · obtain h | ⟨raws, -, h⟩ := of_bind_eq_error h
        · exact ih hrest hcs h
        · cases h

theorem blames_of_ofStatements (hms : ∀ m ∈ ms, Blames m) (hspelled : ∀ m ∈ ms, m.Spelled c)
    (hrange : e.IsRange) (h : ofStatements ms = .error e) : e.LiteralAhead c := by
  rw [ofStatements_eq] at h
  exact blames_of_ofMatches (fun m hm => hms m (List.mem_of_mem_filter hm))
    (fun m hm => hspelled m (List.mem_of_mem_filter hm)) hrange h

theorem blames_of_ofSuffixes {start : Position} {target : RawNode}
    (hms : ∀ m ∈ ms, ∀ k ∈ m.children, Blames k) (hspelled : ∀ m ∈ ms, m.Spelled c)
    (hrange : e.IsRange) (h : ofSuffixes start target ms = .error e) : e.LiteralAhead c := by
  induction ms generalizing target with
  | nil => cases h
  | cons m ms ih =>
      obtain ⟨hinner, hrest⟩ := List.forall_mem_cons.1 hms
      obtain ⟨hc, hcs⟩ := List.forall_mem_cons.1 hspelled
      have hvalues := hc.children
      obtain ⟨r, span, text, ks⟩ := m
      cases r with
      | arguments =>
          rw [ofSuffixes] at h
          obtain h | ⟨raws, -, h⟩ := of_bind_eq_error h
          · exact blames_of_ofMatches hinner hvalues hrange h
          · exact ih hrest hcs h
      | property =>
          obtain _ | ⟨name, others⟩ := ks
          · cases h
            exact absurd hrange not_isRange_malformed
          · rw [ofSuffixes] at h
            obtain h | ⟨raw, -, h⟩ := of_bind_eq_error h
            · exact hinner name List.mem_cons_self e c h hrange (hvalues name List.mem_cons_self)
            · exact ih hrest hcs h
      | _ =>
          cases h
          exact absurd hrange not_isRange_malformed

/-- One match: its range errors are those of literals in it if that is so of the matches inside
it, and inside those. -/
theorem blames_of_children {m : MatchTree Rule} (hms : ∀ k ∈ m.children, Blames k)
    (hinner : ∀ k ∈ m.children, ∀ l ∈ k.children, Blames l) : Blames m := by
  intro e c h hrange hspelled
  have hparts := hspelled.children
  cases failsFrom_of_ofMatch h with
  | malformed he =>
      rw [he] at hrange
      exact absurd hrange not_isRange_malformed
  | literal hm he =>
      rw [hm] at hspelled
      cases hspelled with
      | node hbefore htext _ => exact ⟨_, _, _, _, hbefore, htext, he⟩
  | parts k h =>
      exact blames_of_ofMatches (fun l hl => hms l (List.mem_of_mem_drop hl))
        (fun l hl => hparts l (List.mem_of_mem_drop hl)) hrange h
  | statements h => exact blames_of_ofStatements hms hparts hrange h
  | target hm h => exact hms _ hm e c h hrange (hparts _ hm)
  | suffixes hm h =>
      rw [hm] at hinner hparts
      exact blames_of_ofSuffixes (List.forall_mem_cons.1 hinner).2
        (List.forall_mem_cons.1 hparts).2 hrange h

/-- **A range error of a match is that of a literal in it.** -/
theorem blames (m : MatchTree Rule) : Blames m := by
  have key : Blames m ∧ ∀ k ∈ m.children, Blames k := by
    induction m using MatchTree.childrenInduction with
    | step m ih =>
        have hms : ∀ k ∈ m.children, Blames k := fun k hk => (ih k hk).1
        exact ⟨blames_of_children hms fun k hk => (ih k hk).2, hms⟩
  exact key.1

end RawNode

/-! ## Syntax errors -/

/-- The error concerns a place of the text: a point at which the rules it names fail, or a literal
that is no 64-bit integer. -/
inductive SyntaxError.StandsIn (source : String) : SyntaxError → Prop where
  | mismatch {rules : List Rule} {us : List Char} {d : Cursor} (hne : rules ≠ [])
      (hd : (Cursor.start source.toList).Reads us d)
      (hrules : ∀ r ∈ rules, ∃ s, programGrammar.run s (.call r) d = .fail) :
      StandsIn source ⟨.expected rules, .point d.pos⟩
  | range {text : List Char} {span : Span} (hspan : span.Spells source.toList text)
      (hrange : Decimal.toInt64? (Decimal.ofSigned text) = none) :
      StandsIn source ⟨.integerRange (String.ofList text), span⟩

theorem SyntaxError.StandsIn.liesIn {source : String} {e : SyntaxError} (h : e.StandsIn source) :
    e.span.LiesIn source.toList := by
  cases h with
  | mismatch hne hd hrules => exact ⟨hd.pos_in, hd.pos_in, Nat.le_refl _⟩
  | range hspan hrange => exact hspan.liesIn

/-- A mismatch stands where the rules it names fail. -/
theorem standsIn_mismatch {source : String} (h : matchProgram source.toList = .fail) :
    (mismatch source.toList).StandsIn source := by
  have hskip := programRanking.skipReads
  have hstands : (furthestFailure source.toList).Stands programGrammar source.toList :=
    stands_attempts hskip _ _ _ ⟨[], .refl _⟩ Furthest.stands_initial
  have hne : (furthestFailure source.toList).rules ≠ [] :=
    rules_attempts_ne_nil hskip (by decide) h
  obtain ⟨us, d, hd, hpos, -, hrules⟩ := hstands
  rw [mismatch, hpos]
  exact .mismatch hne hd hrules

/-- A range error of a match stands where the literal does. -/
theorem standsIn_of_ofMatch {source : String} {m : MatchTree Rule} {e : SyntaxError}
    (hm : m.Spelled (.start source.toList)) (h : RawNode.ofMatch m = .error e)
    (hrange : e.IsRange) : e.StandsIn source := by
  obtain ⟨us, text, c, d, hc, hd, rfl⟩ := RawNode.blames m e _ h hrange hm
  obtain ⟨text', hcause, hnone⟩ := hrange
  have htext : text = text' := by
    have hsame := congrArg String.toList (SyntaxCause.integerRange.inj hcause)
    rwa [String.toList_ofList, String.toList_ofList] at hsame
  rw [← htext] at hnone
  exact .range (Span.spells_of_reads hc hd) hnone

/-- **Every syntax error stands in the text.** -/
theorem standsIn_of_parse {source : String} {e : SyntaxError} (h : parse source = .error e) :
    e.StandsIn source := by
  rcases parse_cases source with ⟨raw, hraw, -⟩ | ⟨hfail, hmismatch⟩ | ⟨e', he', hrange⟩
  · cases h.symm.trans hraw
  · obtain rfl := Except.error.inj (h.symm.trans hmismatch)
    exact standsIn_mismatch hfail
  · obtain rfl := Except.error.inj (h.symm.trans he')
    rw [parse] at h
    split at h
    · cases h
    · cases hmatch : matchProgram source.toList with
      | ok d ts =>
          obtain ⟨m, rfl, -, -⟩ := exists_derived_of_matchProgram hmatch
          rw [hmatch] at h
          rw [matchProgram_eq_run] at hmatch
          have hspelled := MatchTree.spelled_of_run programRanking.skipReads hmatch
          exact standsIn_of_ofMatch (hspelled m List.mem_cons_self) h hrange
      | fail =>
          rw [hmatch] at h
          obtain rfl := Except.error.inj h
          exact standsIn_mismatch hmatch
      | exhausted => exact absurd hmatch (matchProgram_ne_exhausted _)

end ExprScript
