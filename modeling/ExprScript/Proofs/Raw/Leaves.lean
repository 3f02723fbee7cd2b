import ExprScript.Proofs.Raw.Faults
import ExprScript.Proofs.Source.Decimal

set_option autoImplicit false

/-! # What the leaves of a raw tree say

A leaf of the raw tree of a program says what stands at its span, and declarations are named by
words that stand within theirs. `NodeType.Copies` is the table of what nodes of each type have from
the text.

It is known of the matches first, since each of them holds its text, and read off the rule of each
(`says_of_ofMatch`). From matches it is taken to raw trees by `throughout_of_ofMatch`: whatever
the matches of single rules give, and calls, accesses and the like that are put together from
several matches, holds throughout.
-/

namespace ExprScript

open Grammar

/-! ## What nodes have from the text -/

/-- The word `name` is an identifier that stands in the text `cs`, somewhere within the span. -/
def Span.Names (cs : List Char) (s : Span) (name : String) : Prop :=
  IsIdentifier name.toList ∧ ∃ inner : Span, inner.Spells cs name.toList ∧
    s.start.offset ≤ inner.start.offset ∧ inner.stop.offset ≤ s.stop.offset

/-- What a node of each type has from the text `cs`: a leaf says what stands at its span, and a
declaration has a name from within. -/
def NodeType.Copies (cs : List Char) (raw : RawNode) : NodeType → Prop
  | .identifier =>
    ∃ t, raw.location.Spells cs t ∧ IsIdentifier t ∧
      raw.value = some (.string (String.ofList t))
  | .integer =>
    ∃ sign digits v, raw.location.Spells cs (sign ++ digits) ∧ (sign = [] ∨ sign = ['-']) ∧
      digits ≠ [] ∧ (∀ x ∈ digits, x.isDigit = true) ∧ raw.value = some (.integer v) ∧
      v.toInt = (if sign = [] then 1 else -1) *
        (Nat.ofDigits 10 (digits.reverse.map Decimal.digitValue) : Nat)
  | .string =>
    ∃ q content, (q = '\'' ∨ q = '"') ∧ raw.location.Spells cs (q :: (content ++ [q])) ∧
      Quoted q content ∧ raw.value = some (.string (String.ofList content))
  | .boolean =>
    ∃ b, raw.location.Spells cs (if b then "true" else "false").toList ∧
      raw.value = some (.boolean b)
  | .void => raw.location.Spells cs "void".toList
  | .binaryOperator =>
    ∃ o ∈ operators, raw.location.Spells cs o.toList ∧ raw.operator = some o
  | .functionDeclaration => ∃ name, raw.name = some name ∧ raw.location.Names cs name
  | .variableDeclaration => ∃ name, raw.variableName = some name ∧ raw.location.Names cs name
  | _ => True

/-- The node has a type, and what nodes of that type have from the text. -/
def RawNode.Says (cs : List Char) (raw : RawNode) : Prop :=
  ∃ t : NodeType, raw.tag = t.tag ∧ t.Copies cs raw

theorem RawNode.says_ofType {cs : List Char} {t : NodeType} (ht : ∀ raw, t.Copies cs raw)
    (children : List RawNode) (span : Span) : (ofType t children span).Says cs :=
  ⟨t, rfl, ht _⟩

/-! ## Nodes and matches -/

namespace RawNode

/-- Each raw tree of a list comes from one of the matches. -/
theorem exists_of_mem_ofMatches {ms : List (MatchTree Rule)} {raws : List RawNode} {raw : RawNode}
    (h : ofMatches ms = .ok raws) (hraw : raw ∈ raws) : ∃ m ∈ ms, ofMatch m = .ok raw := by
  induction ms generalizing raws with
  | nil =>
      cases h
      cases hraw
  | cons m ms ih =>
      rw [ofMatches] at h
      obtain ⟨first, hfirst, h⟩ := exists_of_bind_eq_ok h
      obtain ⟨rest, hrest, h⟩ := exists_of_bind_eq_ok h
      cases h
      rcases List.mem_cons.1 hraw with rfl | hin
      · exact ⟨m, List.mem_cons_self, hfirst⟩
      · obtain ⟨k, hk, hkraw⟩ := ih hrest hin
        exact ⟨k, List.mem_cons_of_mem m hk, hkraw⟩

theorem exists_of_mem_ofStatements {ms : List (MatchTree Rule)} {raws : List RawNode}
    {raw : RawNode} (h : ofStatements ms = .ok raws) (hraw : raw ∈ raws) :
    ∃ m ∈ ms, ofMatch m = .ok raw := by
  rw [ofStatements_eq] at h
  obtain ⟨m, hm, hmraw⟩ := exists_of_mem_ofMatches h hraw
  exact ⟨m, List.mem_of_mem_filter hm, hmraw⟩

/-- The types of nodes that no single match stands for. -/
def assembled : List NodeType := [.binaryExpression, .call, .arguments, .propertyAccess]

section

variable {P : RawNode → Prop} {m : MatchTree Rule} {raw : RawNode}

/-- Folding suffixes onto an operand keeps what holds throughout. -/
theorem throughout_of_ofSuffixes
    (plain : ∀ t ∈ assembled, ∀ children span, P (ofType t children span))
    {ms : List (MatchTree Rule)} {start : Position} {target : RawNode}
    (hms : ∀ m ∈ ms, ∀ k ∈ m.children, ∀ raw, ofMatch k = .ok raw → raw.Throughout P)
    (htarget : target.Throughout P) (h : ofSuffixes start target ms = .ok raw) :
    raw.Throughout P := by
  induction ms generalizing target with
  | nil =>
      cases h
      exact htarget
  | cons m ms ih =>
      obtain ⟨hinner, hrest⟩ := List.forall_mem_cons.1 hms
      -- the new node has the operand so far and one more node below it
      have fold {t : NodeType} (ht : t ∈ assembled) {second : RawNode} {span : Span}
          (hsecond : second.Throughout P) : (ofType t [target, second] span).Throughout P :=
        .intro (plain t ht _ _) (List.forall_mem_cons.2
          ⟨htarget, List.forall_mem_singleton.2 hsecond⟩)
      obtain ⟨r, span, text, ks⟩ := m
      cases r with
      | arguments =>
          rw [ofSuffixes] at h
          obtain ⟨raws, hraws, h⟩ := exists_of_bind_eq_ok h
          refine ih hrest (fold (by decide) (.intro (plain _ (by decide) raws span) ?_)) h
          intro c hc
          obtain ⟨k, hk, hkraw⟩ := exists_of_mem_ofMatches hraws hc
          exact hinner k hk c hkraw
      | property =>
          obtain _ | ⟨name, others⟩ := ks
          · cases h
          · rw [ofSuffixes] at h
            obtain ⟨raw', hraw', h⟩ := exists_of_bind_eq_ok h
            exact ih hrest (fold (by decide) (hinner name List.mem_cons_self raw' hraw')) h
      | _ => cases h

/-- An expression of several operands is a node of its own. -/
theorem of_ofMatch_expression (hr : m.rule = .expression) (h : ofMatch m = .ok raw) :
    ofMatches m.children = .ok [raw] ∨
      ofMatches m.children = .ok raw.children ∧ raw = ofType .binaryExpression raw.children m.span
      := by
  obtain ⟨r, span, text, ms⟩ := m
  obtain rfl : r = .expression := hr
  rw [ofMatch] at h
  obtain ⟨raws, hraws, hraw⟩ := exists_of_bind_eq_ok h
  obtain _ | ⟨first, _ | ⟨second, raws⟩⟩ := raws
  · cases hraw
    exact .inr ⟨hraws, rfl⟩
  · cases hraw
    exact .inl hraws
  · cases hraw
    exact .inr ⟨hraws, rfl⟩

theorem of_ofMatch_operand (hr : m.rule = .operand) (h : ofMatch m = .ok raw) :
    ∃ target suffixes first, m.children = target :: suffixes ∧ ofMatch target = .ok first ∧
      ofSuffixes m.span.start first suffixes = .ok raw := by
  obtain ⟨r, span, text, ms⟩ := m
  obtain rfl : r = .operand := hr
  obtain _ | ⟨target, suffixes⟩ := ms
  · cases h
  · rw [ofMatch] at h
    obtain ⟨first, hfirst, hraw⟩ := exists_of_bind_eq_ok h
    exact ⟨target, suffixes, first, rfl, hfirst, hraw⟩

/-- **What holds throughout the raw tree of a match**: that which each match with the property `Q`
passes on to the node it stands for, if also the nodes have it that no single match stands for. -/
theorem throughout_of_ofMatch {Q : MatchTree Rule → Prop}
    (inner : ∀ {m k : MatchTree Rule}, Q m → k ∈ m.children → Q k)
    (own : ∀ {m : MatchTree Rule} {raw : RawNode}, Q m → m.rule ≠ .expression →
      m.rule ≠ .operand → ofMatch m = .ok raw → P raw)
    (plain : ∀ t ∈ assembled, ∀ children span, P (ofType t children span))
    (hm : Q m) (h : ofMatch m = .ok raw) : raw.Throughout P := by
  -- suffixes are read without nodes of their own, so the matches inside them are needed as well
  have key : (Q m → ∀ raw, ofMatch m = .ok raw → raw.Throughout P) ∧
      ∀ k ∈ m.children, Q k → ∀ raw, ofMatch k = .ok raw → raw.Throughout P := by
    clear hm h
    induction m using MatchTree.childrenInduction with
    | step m ih =>
        refine ⟨fun hm raw h => ?_, fun k hk => (ih k hk).1⟩
        have hms : ∀ k ∈ m.children, ∀ raw, ofMatch k = .ok raw → raw.Throughout P :=
          fun k hk => (ih k hk).1 (inner hm hk)
        have parts {ks : List (MatchTree Rule)} (hks : ks ⊆ m.children) {raws : List RawNode}
            (hraws : ofMatches ks = .ok raws) : ∀ c ∈ raws, c.Throughout P := by
          intro c hc
          obtain ⟨k, hk, hkraw⟩ := exists_of_mem_ofMatches hraws hc
          exact hms k (hks hk) c hkraw
        have folded {target : MatchTree Rule} {suffixes : List (MatchTree Rule)} {first : RawNode}
            (hparts : m.children = target :: suffixes) (hfirst : ofMatch target = .ok first)
            (hraw : ofSuffixes m.span.start first suffixes = .ok raw) : raw.Throughout P := by
          have htarget : target ∈ m.children := by simp [hparts]
          have hsuffix : ∀ k ∈ suffixes, k ∈ m.children := fun k hk => by simp [hparts, hk]
          refine throughout_of_ofSuffixes plain (fun k hk l hl => ?_)
            (hms target htarget first hfirst) hraw
          exact (ih k (hsuffix k hk)).2 l hl (inner (inner hm (hsuffix k hk)) hl)
        by_cases hexpression : m.rule = .expression
        · rcases of_ofMatch_expression hexpression h with hsingle | ⟨hraws, hraw⟩
          · exact parts (List.Subset.refl _) hsingle raw List.mem_cons_self
          · refine .intro ?_ (parts (List.Subset.refl _) hraws)
            rw [hraw]
            exact plain _ (by decide) _ _
        · by_cases hoperand : m.rule = .operand
          · obtain ⟨target, suffixes, first, hparts, hfirst, hraw⟩ := of_ofMatch_operand hoperand h
            exact folded hparts hfirst hraw
          · have hown := own hm hexpression hoperand h
            cases takenFrom_of_ofMatch h with
            | parts k hraws => exact .intro hown (parts (List.drop_subset k _) hraws)
            | statements hraws =>
                refine .intro hown fun c hc => ?_
                obtain ⟨k, hk, hkraw⟩ := exists_of_mem_ofStatements hraws hc
                exact hms k hk c hkraw
            | single hsingle => exact parts (List.Subset.refl _) hsingle raw List.mem_cons_self
            | operand hparts hfirst hraw => exact folded hparts hfirst hraw
  exact key.1 hm raw h

end

end RawNode

/-! ## What the match of each rule gives -/

/-- The trees inside a tree of a match lie within its span. -/
theorem Grammar.Derived.offsets {r : Rule} {span : Span} {text : List Char}
    {ts : List (MatchTree Rule)} (h : programGrammar.Derived (.node r span text ts)) :
    ∀ t ∈ ts, span.start.offset ≤ t.span.start.offset ∧ t.span.stop.offset ≤ span.stop.offset := by
  cases h with
  | node _ _ hbody _ =>
      intro t ht
      have hoffsets := (nested_of_run programRanking.skipReads hbody).offsets_of_mem ht
      exact ⟨hoffsets.1, hoffsets.2.2⟩

/-- The match comes from a run of its rule on the text `cs`, and so do those inside it. -/
structure MatchTree.Stems (cs : List Char) (m : MatchTree Rule) : Prop where
  derived : programGrammar.Derived m
  spelled : m.Spelled (.start cs)

namespace MatchTree.Stems

variable {cs : List Char} {r : Rule} {span : Span} {text : List Char} {ts : List (MatchTree Rule)}

theorem inner {m k : MatchTree Rule} (h : m.Stems cs) (hk : k ∈ m.children) : k.Stems cs := by
  obtain ⟨r, span, text, ts⟩ := m
  exact ⟨h.derived.children k hk, h.spelled.children k hk⟩

theorem spells (h : MatchTree.Stems cs (.node r span text ts)) : span.Spells cs text := by
  cases h.spelled with
  | node hbefore htext _ => exact Span.spells_of_reads hbefore htext

/-- The text of an identifier in a match is a name that stands within its span. -/
theorem names (h : MatchTree.Stems cs (.node r span text ts)) {nspan : Span} {name : List Char}
    {ks : List (MatchTree Rule)} (hk : .node .identifier nspan name ks ∈ ts) :
    span.Names cs (String.ofList name) := by
  have hname := h.inner hk
  refine ⟨?_, nspan, ?_, h.derived.offsets _ hk⟩
  · rw [String.toList_ofList]
    exact Rule.identifier_of_derived hname.derived
  · rw [String.toList_ofList]
    exact hname.spells

end MatchTree.Stems

/-- **The node that a match stands for says what the text says.** -/
theorem says_of_ofMatch {cs : List Char} {m : MatchTree Rule} {raw : RawNode} (hm : m.Stems cs)
    (hexpression : m.rule ≠ .expression) (hoperand : m.rule ≠ .operand)
    (h : RawNode.ofMatch m = .ok raw) : raw.Says cs := by
  obtain ⟨r, span, text, ts⟩ := m
  have hspells := hm.spells
  have hparts := Rule.parts_of_derived hm.derived
  -- declarations say the text of a match inside them, leaves their own, all others nothing
  cases r with
  | functionDeclaration =>
      obtain ⟨k, ⟨_, nspan, name, nts⟩, p, ss, rfl, rfl, -, -⟩ := hparts
      rw [RawNode.ofMatch] at h
      obtain ⟨params, -, h⟩ := exists_of_bind_eq_ok h
      obtain ⟨raws, -, h⟩ := exists_of_bind_eq_ok h
      cases h
      have hname := hm.names (List.mem_cons_of_mem k List.mem_cons_self)
      exact ⟨.functionDeclaration, rfl, _, rfl, hname⟩
  | variableDeclaration =>
      obtain ⟨⟨k, kspan, ktext, kts⟩, ⟨_, nspan, name, nts⟩, v, rfl, rfl, -⟩ := hparts
      rw [RawNode.ofMatch] at h
      obtain ⟨raws, -, h⟩ := exists_of_bind_eq_ok h
      cases h
      have hname := hm.names (List.mem_cons_of_mem _ List.mem_cons_self)
      exact ⟨.variableDeclaration, rfl, _, rfl, hname⟩
  | program | anonymousFunction | parameters | arguments | array | object | objectProperty =>
      rw [RawNode.ofMatch] at h
      obtain ⟨raws, -, h⟩ := exists_of_bind_eq_ok h
      cases h
      exact RawNode.says_ofType (fun _ => by trivial) raws span
  | namedFunction =>
      obtain ⟨k, n, p, ss, rfl, -⟩ := hparts
      rw [RawNode.ofMatch] at h
      obtain ⟨raws, -, h⟩ := exists_of_bind_eq_ok h
      cases h
      exact RawNode.says_ofType (fun _ => by trivial) raws span
  | returnExpression =>
      obtain ⟨k, v, rfl, -⟩ := hparts
      rw [RawNode.ofMatch] at h
      obtain ⟨raws, -, h⟩ := exists_of_bind_eq_ok h
      cases h
      exact RawNode.says_ofType (fun _ => by trivial) raws span
  | binaryOperator =>
      cases h
      have htext : (String.ofList text).toList = text := String.toList_ofList
      exact ⟨.binaryOperator, rfl, String.ofList text, Rule.operator_of_derived hm.derived,
        by rwa [htext], rfl⟩
  | integer =>
      rw [RawNode.ofMatch] at h
      split at h
      · rename_i v hv
        cases h
        obtain ⟨sign, ds, rfl, hsign, hne, hds⟩ := Rule.integer_of_derived hm.derived
        refine ⟨.integer, rfl, sign, ds, v, hspells, hsign, hne, hds, rfl, ?_⟩
        rw [Decimal.toInt_of_toInt64? hv, Decimal.ofSigned_eq hsign hds]
      · cases h
  | boolean =>
      cases h
      obtain ⟨w, hw, rfl⟩ := Rule.word_of_derived ["true", "false"] rfl rfl hm.derived
      rcases List.mem_pair.1 hw with rfl | rfl
      · exact ⟨.boolean, rfl, true, hspells, rfl⟩
      · exact ⟨.boolean, rfl, false, hspells, rfl⟩
  | void =>
      cases h
      obtain ⟨w, hw, rfl⟩ := Rule.word_of_derived ["void"] rfl rfl hm.derived
      rw [List.mem_singleton.1 hw] at hspells
      exact ⟨.void, rfl, hspells⟩
  | string =>
      obtain ⟨q, content, hq, hquoted, rfl, r, s, us, rfl⟩ := Rule.quoted_of_derived hm.derived
      cases h
      exact ⟨.string, rfl, q, content, hq, hspells, hquoted, rfl⟩
  | identifier =>
      cases h
      exact ⟨.identifier, rfl, text, hspells, Rule.identifier_of_derived hm.derived, rfl⟩
  | expression => exact absurd rfl hexpression
  | operand => exact absurd rfl hoperand
  | _ => cases h

/-! ## Programs -/

/-- A program is the raw tree of a match of its text, unless the text is blank. -/
theorem exists_stems_of_parse {source : String} {raw : RawNode} (h : parse source = .ok raw) :
    raw = .emptyProgram ∨ ∃ m : MatchTree Rule, m.Stems source.toList ∧
      RawNode.ofMatch m = .ok raw := by
  rw [parse] at h
  split at h
  · exact .inl (Except.ok.inj h).symm
  · cases hmatch : matchProgram source.toList with
    | ok d ts =>
        obtain ⟨m, rfl, hderived, -⟩ := exists_derived_of_matchProgram hmatch
        rw [hmatch] at h
        rw [matchProgram_eq_run] at hmatch
        have hspelled := MatchTree.spelled_of_run programRanking.skipReads hmatch
        exact .inr ⟨m, ⟨hderived, hspelled m List.mem_cons_self⟩, h⟩
    | fail =>
        rw [hmatch] at h
        cases h
    | exhausted => exact absurd hmatch (matchProgram_ne_exhausted _)

/-- All nodes of a program say what its text says. -/
theorem says_of_parse {source : String} {raw : RawNode} (h : parse source = .ok raw) :
    raw.Throughout (·.Says source.toList) := by
  rcases exists_stems_of_parse h with rfl | ⟨m, hm, hraw⟩
  · refine .intro (RawNode.says_ofType (fun _ => by trivial) [] .empty) fun c hc => ?_
    exact absurd hc List.not_mem_nil
  · refine RawNode.throughout_of_ofMatch MatchTree.Stems.inner says_of_ofMatch ?_ hm hraw
    intro t ht children span
    refine RawNode.says_ofType (fun raw => ?_) children span
    simp only [RawNode.assembled, List.mem_cons, List.not_mem_nil, or_false] at ht
    rcases ht with rfl | rfl | rfl | rfl <;> trivial

/-- **The leaves of a program say what stands in its text.** A node of a parsed program has from
the text what nodes of its type have: an identifier, an integer, a string, a boolean, `void` or an
operator is what the text at its span spells, and the name of a declaration is an identifier that
stands within the span of the declaration. -/
theorem leaves_copy_source {source : String} {raw m : RawNode} {a : List Nat} {t : NodeType}
    (h : parse source = .ok raw) (hm : raw.at? a = some m) (ht : m.tag = t.tag) :
    t.Copies source.toList m := by
  obtain ⟨u, hu, hcopies⟩ := (says_of_parse h).at? hm
  rwa [NodeType.tag_inj.1 (ht.symm.trans hu)]

/-- A name that begins like a keyword, and a string that holds the other quote and an escape at its
end. -/
theorem leaves_copy_source_letter :
    ∃ raw d m, parse "var letter = \"it's\\\\\"  // x" = .ok raw ∧ raw.at? [0] = some d ∧
      raw.at? [0, 0] = some m ∧ d.tag = NodeType.variableDeclaration.tag ∧
      m.tag = NodeType.string.tag ∧
      NodeType.variableDeclaration.Copies "var letter = \"it's\\\\\"  // x".toList d ∧
      NodeType.string.Copies "var letter = \"it's\\\\\"  // x".toList m := by
  obtain ⟨raw, hparse, htest⟩ := exists_raw_of_any "var letter = \"it's\\\\\"  // x"
    (fun raw => (raw.at? [0]).any (·.tag == NodeType.variableDeclaration.tag) &&
      (raw.at? [0, 0]).any (·.tag == NodeType.string.tag)) (by decide +kernel)
  rw [Bool.and_eq_true] at htest
  obtain ⟨d, hd, hdtag⟩ := (Option.any_eq_true _ _).1 htest.1
  obtain ⟨m, hm, hmtag⟩ := (Option.any_eq_true _ _).1 htest.2
  have hdtag : d.tag = NodeType.variableDeclaration.tag := beq_iff_eq.1 hdtag
  have hmtag : m.tag = NodeType.string.tag := beq_iff_eq.1 hmtag
  exact ⟨raw, d, m, hparse, hd, hm, hdtag, hmtag, leaves_copy_source hparse hd hdtag,
    leaves_copy_source hparse hm hmtag⟩

end ExprScript
