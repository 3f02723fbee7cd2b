import ExprScript.Proofs.Grammar.Layout
import ExprScript.Proofs.Peg.Fuel
import ExprScript.Raw.Parse

set_option autoImplicit false

/-! # Matches of the program grammar

The fuel that `matchProgram` is given never runs out (`matchProgram_eq_run`), so a text either
matches the grammar or does not.

Each rule leaves its trees in a fixed order. `Rule.Parts` writes these orders down, and
`parts_of_derived` says that every tree of a match keeps to them.
-/

namespace ExprScript

open Grammar

/-! ## Fuel -/

namespace Rule

/-- Whether every match of a rule takes a character. -/
def takesChar : Rule → Bool
  | .endOfInput | .program | .singleQuoted | .doubleQuoted => false
  | _ => true

/-- The depth of the body of each rule. -/
def bodyDepth : Rule → Nat
  | .endOfInput | .identifierChar => 1
  | .parameters | .arguments | .property | .array | .object | .void | .functionKeyword
  | .returnKeyword | .mutableKeyword => 2
  | .integer | .boolean | .string | .immutableKeyword => 3
  | .functionDeclaration | .returnExpression | .anonymousFunction => 4
  | .namedFunction | .singleQuoted | .doubleQuoted => 5
  | .variableDeclaration => 6
  | .keyword => 9
  | .identifier => 12
  | .binaryOperator => 13
  | .objectProperty => 14
  | .primary => 21
  | .operand => 23
  | .expression => 25
  | .lambdaBody => 27
  | .statement => 31
  | .program => 35

end Rule

/-- Fewer than 64 steps into expressions lie between two characters taken. -/
def programRanking : programGrammar.Ranking 64 where
  skipReads := Layout.exists_reads_skip
  takes := Rule.takesChar
  rank := Rule.bodyDepth
  takes_body r := by cases r <;> decide
  depth_body_le r := by cases r <;> decide
  bounded_body r := by cases r <;> decide

/-- **The fuel of a program is enough.** -/
theorem matchProgram_eq_run (cs : List Char) :
    matchProgram cs = programGrammar.run .spaced (.call .program) (.start cs) := by
  refine (run_eq_eval (programRanking.eval_ne_exhausted rfl ?_)).symm
  show 64 * cs.length + 36 ≤ 64 * (cs.length + 1)
  omega

theorem matchProgram_ne_exhausted (cs : List Char) : matchProgram cs ≠ .exhausted := by
  rw [matchProgram_eq_run]
  exact programRanking.run_ne_exhausted rfl

/-! ## The parts of a match -/

def MatchTree.rule {ρ : Type} : MatchTree ρ → ρ
  | .node r _ _ _ => r

namespace Rule

def statements : List Rule :=
  [.functionDeclaration, .namedFunction, .variableDeclaration, .returnExpression, .expression]

def primaries : List Rule :=
  [.anonymousFunction, .expression, .void, .boolean, .integer, .string, .array, .object,
    .identifier]

/-- Operands with operators between them. -/
def Operands : List (MatchTree Rule) → Prop
  | [] => False
  | [m] => m.rule = .operand
  | m :: o :: ts => m.rule = .operand ∧ o.rule = .binaryOperator ∧ Operands ts

/-- The trees in a match of each rule that has any. -/
def Parts : Rule → List (MatchTree Rule) → Prop
  | .program, ts =>
    ∃ ss e, ts = ss ++ [e] ∧ (∀ m ∈ ss, m.rule ∈ statements) ∧ e.rule = .endOfInput
  | .functionDeclaration, ts =>
    ∃ k n p ss, ts = k :: n :: p :: ss ∧ n.rule = .identifier ∧ p.rule = .parameters ∧
      ∀ m ∈ ss, m.rule ∈ statements
  | .namedFunction, ts =>
    ∃ k n p ss, ts = k :: n :: p :: ss ∧ n.rule = .identifier ∧ p.rule = .parameters ∧
      ss ≠ [] ∧ ∀ m ∈ ss, m.rule ∈ statements
  | .variableDeclaration, ts =>
    ∃ k n v, ts = [k, n, v] ∧ n.rule = .identifier ∧ v.rule = .expression
  | .returnExpression, ts => ∃ k v, ts = [k, v] ∧ v.rule = .expression
  | .anonymousFunction, ts =>
    ∃ p ss, ts = p :: ss ∧ p.rule = .parameters ∧ ss ≠ [] ∧ ∀ m ∈ ss, m.rule ∈ statements
  | .parameters, ts => ∀ m ∈ ts, m.rule = .identifier
  | .expression, ts => Operands ts
  | .operand, ts =>
    ∃ p ss, ts = p :: ss ∧ p.rule ∈ primaries ∧
      ∀ m ∈ ss, m.rule = .arguments ∨ m.rule = .property
  | .arguments, ts => ∀ m ∈ ts, m.rule = .expression
  | .property, ts => ∃ n, ts = [n] ∧ n.rule = .identifier
  | .array, ts => ∀ m ∈ ts, m.rule = .expression
  | .object, ts => ∀ m ∈ ts, m.rule = .objectProperty
  | .objectProperty, ts => ∃ n v, ts = [n, v] ∧ n.rule = .identifier ∧ v.rule = .expression
  | .string, ts => ∃ q, ts = [q] ∧ (q.rule = .singleQuoted ∨ q.rule = .doubleQuoted)
  | .endOfInput, _ | .statement, _ | .lambdaBody, _ | .binaryOperator, _ | .primary, _
  | .integer, _ | .boolean, _ | .void, _ | .singleQuoted, _ | .doubleQuoted, _
  | .identifier, _ | .identifierChar, _ | .keyword, _ | .functionKeyword, _
  | .returnKeyword, _ | .mutableKeyword, _ | .immutableKeyword, _ => True

open Peg

variable {ts : List (MatchTree Rule)}

/-- A rule that is not silent leaves one tree. -/
theorem yields_call_iff {r : Rule} (hr : r.mode ≠ .silent) :
    programGrammar.Yields (.call r) ts ↔ ∃ m, m.rule = r ∧ ts = [m] := by
  rw [yields_node_iff (G := programGrammar) hr]
  constructor
  · rintro ⟨span, text, us, rfl⟩
    exact ⟨_, rfl, rfl⟩
  · rintro ⟨⟨_, span, text, us⟩, rfl, rfl⟩
    exact ⟨span, text, us, rfl⟩

/-- A statement is one tree. -/
theorem of_yields_statement (h : programGrammar.Yields (.call .statement) ts) :
    ∃ m, m.rule ∈ statements ∧ ts = [m] := by
  rw [yields_silent_iff (G := programGrammar) rfl] at h
  change programGrammar.Yields (body .statement) ts at h
  simp (disch := decide) only [body, firstOf, yields_seq_iff, yields_alt_iff, yields_opt_iff,
    yields_lit_iff, yields_call_iff, or_self] at h
  obtain ⟨us, vs, hu, rfl, rfl⟩ := h
  rcases hu with ⟨m, hm, rfl⟩ | ⟨m, hm, rfl⟩ | ⟨m, hm, rfl⟩ | ⟨m, hm, rfl⟩ | ⟨m, hm, rfl⟩ <;>
    exact ⟨m, by simp [hm, statements], rfl⟩

/-- So is a primary expression, whether or not it has parentheses around it. -/
theorem of_yields_primary (h : programGrammar.Yields (.call .primary) ts) :
    ∃ m, m.rule ∈ primaries ∧ ts = [m] := by
  rw [yields_silent_iff (G := programGrammar) rfl] at h
  change programGrammar.Yields (body .primary) ts at h
  simp (disch := decide) only [body, firstOf, inOrder, yields_seq_iff, yields_alt_iff,
    yields_lit_iff, yields_call_iff] at h
  rcases h with ⟨m, hm, rfl⟩ | ⟨_, _, rfl, ⟨_, _, ⟨m, hm, rfl⟩, rfl, rfl⟩, rfl⟩ | ⟨m, hm, rfl⟩ |
    ⟨m, hm, rfl⟩ | ⟨m, hm, rfl⟩ | ⟨m, hm, rfl⟩ | ⟨m, hm, rfl⟩ | ⟨m, hm, rfl⟩ | ⟨m, hm, rfl⟩ <;>
    exact ⟨m, by simp [hm, primaries], rfl⟩

/-- A run of statements. -/
theorem of_yields_statements (h : programGrammar.Yields (.star (.call .statement)) ts) :
    ∀ m ∈ ts, m.rule ∈ statements := by
  obtain ⟨rounds, hrounds, rfl⟩ := yields_star_iff.1 h
  intro m hm
  obtain ⟨us, hus, hmus⟩ := List.mem_flatten.1 hm
  obtain ⟨m', hm', rfl⟩ := of_yields_statement (hrounds us hus)
  rwa [List.mem_singleton.1 hmus]

/-- The body of a lambda is at least one statement. -/
theorem of_yields_lambdaBody (h : programGrammar.Yields (.call .lambdaBody) ts) :
    ts ≠ [] ∧ ∀ m ∈ ts, m.rule ∈ statements := by
  rw [yields_silent_iff (G := programGrammar) rfl] at h
  change programGrammar.Yields (body .lambdaBody) ts at h
  rcases yields_alt_iff.1 h with hblock | hexpr
  · simp only [inOrder, yields_seq_iff, yields_lit_iff] at hblock
    obtain ⟨_, _, rfl, ⟨us, _, hfirst, ⟨vs, _, hrest, rfl, rfl⟩, rfl⟩, rfl⟩ := hblock
    obtain ⟨m, hm, rfl⟩ := of_yields_statement hfirst
    have hvs := of_yields_statements hrest
    refine ⟨by simp, fun m' hm' => ?_⟩
    rcases List.mem_cons.1 (by simpa using hm') with rfl | hin
    · exact hm
    · exact hvs m' hin
  · obtain ⟨m, hm, rfl⟩ := (yields_call_iff (by decide)).1 hexpr
    exact ⟨by simp, by simp [hm, statements]⟩

/-- The trees of a list with commas are those of its items. -/
theorem of_yields_commaList {r : Rule} (hr : r.mode ≠ .silent) {tail : List (Peg Rule)}
    (htail : tail = [] ∨ tail = [.opt (.lit ",")])
    (h : programGrammar.Yields (commaList (.call r) tail) ts) : ∀ m ∈ ts, m.rule = r := by
  have items : ∀ {us vs}, programGrammar.Yields (.call r) us →
      programGrammar.Yields (.star (.seq (.lit ",") (.call r))) vs →
        ∀ m ∈ us ++ vs, m.rule = r := by
    intro us vs hus hvs m hm
    obtain ⟨m', hm', rfl⟩ := (yields_call_iff hr).1 hus
    obtain ⟨rounds, hrounds, rfl⟩ := yields_star_iff.1 hvs
    rcases List.mem_append.1 hm with hin | hin
    · rwa [List.mem_singleton.1 hin]
    · obtain ⟨ws, hws, hmws⟩ := List.mem_flatten.1 hin
      obtain ⟨_, xs, hcomma, hxs, rfl⟩ := yields_seq_iff.1 (hrounds ws hws)
      obtain rfl := yields_lit_iff.1 hcomma
      obtain ⟨m'', hm'', rfl⟩ := (yields_call_iff hr).1 hxs
      obtain rfl : m = m'' := by simpa using hmws
      exact hm''
  rcases yields_opt_iff.1 h with rfl | h
  · simp
  · rcases htail with rfl | rfl
    · obtain ⟨us, vs, hus, hvs, rfl⟩ := yields_seq_iff.1 h
      exact items hus hvs
    · obtain ⟨us, _, hus, hrest, rfl⟩ := yields_seq_iff.1 h
      obtain ⟨vs, ws, hvs, hcomma, rfl⟩ := yields_seq_iff.1 hrest
      obtain rfl : ws = [] := by simpa [inOrder] using hcomma
      simpa using items hus hvs

/-- Operands and operators take turns. -/
theorem of_yields_expression (h : programGrammar.Yields (body .expression) ts) : Operands ts := by
  obtain ⟨us, vs, hus, hvs, rfl⟩ := yields_seq_iff.1 h
  obtain ⟨m, hm, rfl⟩ := (yields_call_iff (by decide)).1 hus
  obtain ⟨rounds, hrounds, rfl⟩ := yields_star_iff.1 hvs
  clear h hus hvs
  induction rounds generalizing m with
  | nil => exact hm
  | cons ws rounds ih =>
      obtain ⟨xs, ys, hxs, hys, rfl⟩ := yields_seq_iff.1 (hrounds ws (by simp))
      obtain ⟨o, ho, rfl⟩ := (yields_call_iff (by decide)).1 hxs
      obtain ⟨m', hm', rfl⟩ := (yields_call_iff (by decide)).1 hys
      exact ⟨hm, ho, ih m' hm' fun us hus => hrounds us (by simp [hus])⟩

/-- **The trees of a match come in the order its rule gives.** -/
theorem parts_of_derived {r : Rule} {span : Span} {text : List Char}
    (h : programGrammar.Derived (.node r span text ts)) : r.Parts ts := by
  have hy : r.mode ≠ .token → programGrammar.Yields r.body ts := h.yields
  -- texts leave no tree, so of a list between brackets only the items are left
  have list {opening closing : String} {item : Rule} {tail : List (Peg Rule)}
      (hitem : item.mode ≠ .silent) (htail : tail = [] ∨ tail = [.opt (.lit ",")])
      (h : programGrammar.Yields
        (inOrder (.lit opening) [commaList (.call item) tail, .lit closing]) ts) :
      ∀ m ∈ ts, m.rule = item := by
    simp only [inOrder, yields_seq_iff, yields_lit_iff] at h
    obtain ⟨_, _, rfl, ⟨us, _, hus, rfl, rfl⟩, rfl⟩ := h
    simpa using of_yields_commaList hitem htail hus
  cases r with
  | program =>
      have h := hy (by decide)
      simp (disch := decide) only [body, inOrder, yields_seq_iff, yields_lit_iff,
        yields_call_iff] at h
      obtain ⟨_, _, rfl, ⟨ss, _, hss, ⟨e, he, rfl⟩, rfl⟩, rfl⟩ := h
      exact ⟨ss, e, rfl, of_yields_statements hss, he⟩
  | functionDeclaration =>
      have h := hy (by decide)
      simp (disch := decide) only [body, inOrder, yields_seq_iff, yields_lit_iff,
        yields_call_iff] at h
      obtain ⟨_, _, ⟨k, -, rfl⟩, ⟨_, _, ⟨n, hn, rfl⟩, ⟨_, _, ⟨p, hp, rfl⟩,
        ⟨_, _, rfl, ⟨ss, _, hss, rfl, rfl⟩, rfl⟩, rfl⟩, rfl⟩, rfl⟩ := h
      exact ⟨k, n, p, ss, by simp, hn, hp, of_yields_statements hss⟩
  | namedFunction =>
      have h := hy (by decide)
      simp (disch := decide) only [body, inOrder, yields_seq_iff, yields_lit_iff,
        yields_call_iff] at h
      obtain ⟨_, _, ⟨k, -, rfl⟩, ⟨_, _, ⟨n, hn, rfl⟩, ⟨_, _, rfl, ⟨_, _, ⟨p, hp, rfl⟩,
        ⟨_, _, rfl, hss, rfl⟩, rfl⟩, rfl⟩, rfl⟩, rfl⟩ := h
      exact ⟨k, n, p, _, rfl, hn, hp, of_yields_lambdaBody hss⟩
  | variableDeclaration =>
      have h := hy (by decide)
      simp (disch := decide) only [body, inOrder, yields_seq_iff, yields_alt_iff,
        yields_lit_iff, yields_call_iff] at h
      obtain ⟨_, _, hk, ⟨_, _, ⟨n, hn, rfl⟩, ⟨_, _, rfl, ⟨v, hv, rfl⟩, rfl⟩, rfl⟩, rfl⟩ := h
      rcases hk with ⟨k, -, rfl⟩ | ⟨k, -, rfl⟩ <;> exact ⟨k, n, v, by simp, hn, hv⟩
  | returnExpression =>
      have h := hy (by decide)
      simp (disch := decide) only [body, yields_seq_iff, yields_call_iff] at h
      obtain ⟨_, _, ⟨k, -, rfl⟩, ⟨v, hv, rfl⟩, rfl⟩ := h
      exact ⟨k, v, rfl, hv⟩
  | anonymousFunction =>
      have h := hy (by decide)
      simp (disch := decide) only [body, inOrder, yields_seq_iff, yields_lit_iff,
        yields_call_iff] at h
      obtain ⟨_, _, ⟨p, hp, rfl⟩, ⟨_, _, rfl, hss, rfl⟩, rfl⟩ := h
      exact ⟨p, _, rfl, hp, of_yields_lambdaBody hss⟩
  | parameters => exact list (by decide) (.inl rfl) (hy (by decide))
  | expression => exact of_yields_expression (hy (by decide))
  | operand =>
      obtain ⟨_, ss, hprimary, hss, rfl⟩ := yields_seq_iff.1 (hy (by decide))
      obtain ⟨p, hp, rfl⟩ := of_yields_primary hprimary
      obtain ⟨rounds, hrounds, rfl⟩ := yields_star_iff.1 hss
      refine ⟨p, _, rfl, hp, fun m hm => ?_⟩
      obtain ⟨us, hus, hmus⟩ := List.mem_flatten.1 hm
      rcases yields_alt_iff.1 (hrounds us hus) with hu | hu <;>
        obtain ⟨m', hm', rfl⟩ := (yields_call_iff (by decide)).1 hu <;>
        simp [List.mem_singleton.1 hmus, hm']
  | arguments => exact list (by decide) (.inl rfl) (hy (by decide))
  | property =>
      have h := hy (by decide)
      simp (disch := decide) only [body, yields_seq_iff, yields_lit_iff, yields_call_iff] at h
      obtain ⟨_, _, rfl, ⟨n, hn, rfl⟩, rfl⟩ := h
      exact ⟨n, rfl, hn⟩
  | array => exact list (by decide) (.inr rfl) (hy (by decide))
  | object => exact list (by decide) (.inr rfl) (hy (by decide))
  | objectProperty =>
      have h := hy (by decide)
      simp (disch := decide) only [body, inOrder, yields_seq_iff, yields_lit_iff,
        yields_call_iff] at h
      obtain ⟨_, _, ⟨n, hn, rfl⟩, ⟨_, _, rfl, ⟨v, hv, rfl⟩, rfl⟩, rfl⟩ := h
      exact ⟨n, v, by simp, hn, hv⟩
  | string =>
      have h := hy (by decide)
      simp (disch := decide) only [body, inOrder, yields_seq_iff, yields_alt_iff,
        yields_lit_iff, yields_call_iff] at h
      rcases h with ⟨_, _, rfl, ⟨_, _, ⟨q, hq, rfl⟩, rfl, rfl⟩, rfl⟩ |
        ⟨_, _, rfl, ⟨_, _, ⟨q, hq, rfl⟩, rfl, rfl⟩, rfl⟩
      · exact ⟨q, rfl, .inl hq⟩
      · exact ⟨q, rfl, .inr hq⟩
  | _ => trivial

end Rule

end ExprScript
