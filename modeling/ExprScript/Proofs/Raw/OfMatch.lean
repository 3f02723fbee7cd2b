import ExprScript.Proofs.Tree.Grammatical

set_option autoImplicit false

/-! # Raw trees of matches are grammatical

A match of the grammar has a raw tree, unless it holds an integer literal outside the 64-bit
range; and that raw tree describes a grammatical program tree (`read_of_derived`).

Both parts are carried through the match together: `OrRange P x` says that `x` is a value with
the property `P`, or the error of an integer literal. It passes through `bind`, so each rule of
the grammar is one step.
-/

namespace ExprScript

open Grammar

/-! ## Values, or an integer out of range -/

def SyntaxError.IsRange (e : SyntaxError) : Prop :=
  ∃ text, e.cause = .integerRange (String.ofList text) ∧
    Decimal.toInt64? (Decimal.ofSigned text) = none

/-- A value with the property `P`, or the error of an integer literal. -/
def OrRange {α : Type} (P : α → Prop) : Except SyntaxError α → Prop
  | .ok a => P a
  | .error e => e.IsRange

namespace OrRange

variable {α β : Type} {P : α → Prop} {Q : β → Prop}

theorem bind {x : Except SyntaxError α} {f : α → Except SyntaxError β} (hx : OrRange P x)
    (hf : ∀ a, P a → OrRange Q (f a)) : OrRange Q (x >>= f) := by
  cases x with
  | ok a => exact hf a hx
  | error e => exact hx

theorem pure {a : α} (h : P a) : OrRange P (Pure.pure a : Except SyntaxError α) := h

end OrRange

/-! ## What each rule is read as -/

namespace Rule

/-- The rules whose matches are read as raw trees. -/
def isRead : Rule → Bool
  | .program | .functionDeclaration | .namedFunction | .variableDeclaration | .returnExpression
  | .anonymousFunction | .parameters | .arguments | .expression | .operand | .binaryOperator
  | .array | .object | .objectProperty | .integer | .boolean | .void | .string
  | .identifier => true
  | _ => false

/-- The types of the trees that matches of a rule are read as. -/
def Gives : Rule → NodeType → Prop
  | .program, t => t = .program
  | .functionDeclaration, t => t = .functionDeclaration
  | .namedFunction, t => t = .namedFunction
  | .variableDeclaration, t => t = .variableDeclaration
  | .returnExpression, t => t = .returnExpression
  | .anonymousFunction, t => t = .anonymousFunction
  | .parameters, t => t = .parameters
  | .arguments, t => t = .arguments
  | .expression, t | .operand, t => t.isExpression = true
  | .binaryOperator, t => t = .binaryOperator
  | .array, t => t = .array
  | .object, t => t = .object
  | .objectProperty, t => t = .objectProperty
  | .integer, t => t = .integer
  | .boolean, t => t = .boolean
  | .void, t => t = .void
  | .string, t => t = .string
  | .identifier, t => t = .identifier
  | _, _ => False

theorem isStatement_of_gives {r : Rule} {t : NodeType} (hr : r ∈ statements) (h : r.Gives t) :
    t.isStatement = true := by
  simp only [statements, List.mem_cons, List.not_mem_nil, or_false] at hr
  rcases hr with rfl | rfl | rfl | rfl | rfl
  case inr.inr.inr.inr => cases t <;> simp_all [Gives, NodeType.isExpression, NodeType.isStatement]
  all_goals obtain rfl := h; rfl

theorem isExpression_of_gives {r : Rule} {t : NodeType} (hr : r ∈ primaries) (h : r.Gives t) :
    t.isExpression = true := by
  simp only [primaries, List.mem_cons, List.not_mem_nil, or_false] at hr
  rcases hr with rfl | rfl | rfl | rfl | rfl | rfl | rfl | rfl | rfl
  case inr.inl => exact h
  all_goals obtain rfl := h; rfl

theorem isRead_of_mem_statements {r : Rule} (hr : r ∈ statements) : r.isRead = true := by
  revert r
  decide

theorem ne_endOfInput_of_mem_statements {r : Rule} (hr : r ∈ statements) : r ≠ .endOfInput := by
  rintro rfl
  exact absurd hr (by decide)

theorem isRead_of_mem_primaries {r : Rule} (hr : r ∈ primaries) : r.isRead = true := by
  revert r
  decide

end Rule

/-! ## Raw trees with a meaning -/

namespace RawNode

/-- The raw tree describes a grammatical tree whose type has the property `P`. -/
def Means (P : NodeType → Prop) (raw : RawNode) : Prop :=
  ∃ n, raw.Describes n ∧ n.Grammatical ∧ P n.type

theorem Means.mono {P Q : NodeType → Prop} (h : ∀ t, P t → Q t) {raw : RawNode}
    (hraw : raw.Means P) : raw.Means Q := by
  obtain ⟨n, hd, hg, ht⟩ := hraw
  exact ⟨n, hd, hg, h _ ht⟩

variable {Ps : List (NodeType → Prop)}

/-- Raw trees with a meaning describe trees side by side. -/
theorem exists_nodes_of_means {raws : List RawNode} (h : List.Forall₂ Means Ps raws) :
    ∃ ns : List Node, List.Forall₂ Describes raws ns ∧ (∀ n ∈ ns, n.Grammatical) ∧
      List.Forall₂ (fun P t => P t) Ps (ns.map Node.type) := by
  induction h with
  | nil => exact ⟨[], .nil, by simp, .nil⟩
  | cons hraw _ ih =>
      obtain ⟨n, hd, hg, ht⟩ := hraw
      obtain ⟨ns, hds, hgs, hts⟩ := ih
      exact ⟨n :: ns, .cons hd hds, List.forall_mem_cons.2 ⟨hg, hgs⟩, .cons ht hts⟩

/-- **A node whose children have a meaning has one** if their types fit its kind. -/
theorem means_intro {raw : RawNode} (kind : Kind) {P : NodeType → Prop}
    (hkind : raw.kind = .ok kind) (hchildren : List.Forall₂ Means Ps raw.children)
    (hfits : ∀ ts, List.Forall₂ (fun P t => P t) Ps ts → kind.Fits ts) (hP : P kind.type) :
    raw.Means P := by
  obtain ⟨ns, hds, hgs, hts⟩ := exists_nodes_of_means hchildren
  exact ⟨⟨0, kind, ns, .empty⟩, .intro hkind hds, .intro (hfits _ hts) hgs, hP⟩

theorem means_leaf {raw : RawNode} (kind : Kind) {P : NodeType → Prop}
    (hkind : raw.kind = .ok kind) (hchildren : raw.children = []) (hfits : kind.Fits [])
    (hP : P kind.type) : raw.Means P := by
  have hnil : List.Forall₂ Means [] raw.children := by
    rw [hchildren]
    exact .nil
  refine means_intro kind hkind hnil ?_ hP
  rintro _ (_ | _)
  exact hfits

end RawNode

namespace MatchTree

def children {ρ : Type} : MatchTree ρ → List (MatchTree ρ)
  | .node _ _ _ ts => ts

/-- The match is read as a raw tree with a meaning, or holds an integer out of range. -/
def Read (m : MatchTree Rule) : Prop := OrRange (RawNode.Means m.rule.Gives) (RawNode.ofMatch m)

/-- What the matches in a list are to be read as. -/
def meanings (ms : List (MatchTree Rule)) : List (NodeType → Prop) :=
  ms.map fun m => m.rule.Gives

theorem forall_of_meanings {Q : NodeType → Prop} {ms : List (MatchTree Rule)}
    (hms : ∀ m ∈ ms, ∀ t, m.rule.Gives t → Q t) {ts : List NodeType}
    (h : List.Forall₂ (fun P t => P t) (meanings ms) ts) : ∀ t ∈ ts, Q t := by
  induction ms generalizing ts with
  | nil =>
      cases h
      simp
  | cons m ms ih =>
      cases h with
      | cons hm hrest =>
          exact List.forall_mem_cons.2
            ⟨hms m (by simp) _ hm, ih (fun m' hm' => hms m' (by simp [hm'])) hrest⟩

theorem gives_of_meanings {item : Rule} {ms : List (MatchTree Rule)}
    (hrule : ∀ m ∈ ms, m.rule = item) {ts : List NodeType}
    (h : List.Forall₂ (fun P t => P t) (meanings ms) ts) : ∀ t ∈ ts, item.Gives t :=
  forall_of_meanings (fun m hm _ ht => hrule m hm ▸ ht) h

theorem ne_nil_of_meanings {ms : List (MatchTree Rule)} (hne : ms ≠ []) {ts : List NodeType}
    (h : List.Forall₂ (fun P t => P t) (meanings ms) ts) : ts ≠ [] := by
  rintro rfl
  exact hne (List.map_eq_nil_iff.1 (List.forall₂_nil_right_iff.1 h))

theorem isStatement_of_meanings {ms : List (MatchTree Rule)}
    (hrule : ∀ m ∈ ms, m.rule ∈ Rule.statements) {ts : List NodeType}
    (h : List.Forall₂ (fun P t => P t) (meanings ms) ts) : ∀ t ∈ ts, t.isStatement = true :=
  forall_of_meanings (fun m hm _ => Rule.isStatement_of_gives (hrule m hm)) h

end MatchTree

open MatchTree

namespace RawNode

variable {ms : List (MatchTree Rule)}

theorem read_ofMatches (h : ∀ m ∈ ms, m.Read) :
    OrRange (List.Forall₂ Means (meanings ms)) (ofMatches ms) := by
  induction ms with
  | nil =>
      rw [ofMatches]
      exact .pure .nil
  | cons m ms ih =>
      rw [ofMatches]
      refine (h m (by simp)).bind fun raw hraw => ?_
      refine (ih fun m' hm' => h m' (by simp [hm'])).bind fun raws hraws => ?_
      exact .pure (.cons hraw hraws)

/-- Most rules put the trees of some matches under one node. -/
theorem read_under {T : NodeType} (kind : Kind) {span : Span} {P : NodeType → Prop}
    (hkind : ∀ raws, (ofType T raws span).kind = .ok kind) (h : ∀ m ∈ ms, m.Read)
    (hfits : ∀ ts, List.Forall₂ (fun P t => P t) (meanings ms) ts → kind.Fits ts)
    (hP : P kind.type) :
    OrRange (Means P) (do return ofType T (← ofMatches ms) span) :=
  (read_ofMatches h).bind fun raws hraws => .pure (means_intro kind (hkind raws) hraws hfits hP)

/-- Lists of items put the trees of matches of one rule under a node. -/
theorem read_items {T : NodeType} (kind : Kind) {span : Span} {P : NodeType → Prop} {item : Rule}
    (hkind : ∀ raws, (ofType T raws span).kind = .ok kind) (hrule : ∀ m ∈ ms, m.rule = item)
    (hitem : item.isRead = true) (h : ∀ m ∈ ms, m.rule.isRead = true → m.Read)
    (hfits : ∀ ts : List NodeType, (∀ t ∈ ts, item.Gives t) → kind.Fits ts) (hP : P kind.type) :
    OrRange (Means P) (do return ofType T (← ofMatches ms) span) :=
  read_under kind hkind (fun m hm => h m hm (by rw [hrule m hm]; exact hitem))
    (fun _ hts => hfits _ (gives_of_meanings hrule hts)) hP

/-- Statements are read as matches that follow each other; the end of the input is none. -/
theorem ofStatements_eq (ms : List (MatchTree Rule)) :
    ofStatements ms = ofMatches (ms.filter (·.rule ≠ .endOfInput)) := by
  induction ms with
  | nil => rfl
  | cons m ms ih =>
      by_cases hend : m.rule = .endOfInput
      · rw [List.filter_cons_of_neg (by simpa using hend), ← ih]
        obtain ⟨r, span, text, ts⟩ := m
        obtain rfl : r = .endOfInput := hend
        rfl
      · have hstatement : ∀ span text ts, m = .node .endOfInput span text ts → False := by
          rintro span text ts rfl
          exact hend rfl
        rw [List.filter_cons_of_pos (by simpa using hend), ofMatches, ← ih, ofStatements]
        exact hstatement

theorem ofStatements_append {e : MatchTree Rule} (he : e.rule = .endOfInput)
    (h : ∀ m ∈ ms, m.rule ≠ .endOfInput) : ofStatements (ms ++ [e]) = ofMatches ms := by
  have hms : ms.filter (·.rule ≠ .endOfInput) = ms :=
    List.filter_eq_self.2 fun m hm => by simpa using h m hm
  have hend : [e].filter (·.rule ≠ .endOfInput) = [] := by simp [he]
  rw [ofStatements_eq, List.filter_append, hms, hend, List.append_nil]

/-- The suffixes of an operand are folded onto expressions and give expressions. -/
theorem read_ofSuffixes
    (h : ∀ m ∈ ms, programGrammar.Derived m ∧ (m.rule = .arguments ∨ m.rule = .property) ∧
      ∀ c ∈ m.children, c.rule.isRead = true → c.Read)
    {start : Position} {target : RawNode} (htarget : target.Means (·.isExpression = true)) :
    OrRange (Means (·.isExpression = true)) (ofSuffixes start target ms) := by
  induction ms generalizing target with
  | nil =>
      rw [ofSuffixes]
      exact .pure htarget
  | cons m ms ih =>
      obtain ⟨hderived, hrule, hinner⟩ := h m (by simp)
      have rest {raw : RawNode} (hraw : raw.Means (·.isExpression = true)) :
          OrRange (Means (·.isExpression = true)) (ofSuffixes start raw ms) :=
        ih (fun m' hm' => h m' (by simp [hm'])) hraw
      obtain ⟨r, span, text, ts⟩ := m
      have hparts := Rule.parts_of_derived hderived
      rcases hrule with hr | hr
      · obtain rfl : r = .arguments := hr
        have hread : ∀ c ∈ ts, c.Read := by
          intro c hc
          exact hinner c hc (by rw [hparts c hc]; rfl)
        rw [ofSuffixes]
        refine (read_ofMatches hread).bind fun raws hraws => rest ?_
        have hargs : (ofType .arguments raws span).Means (· = .arguments) :=
          means_intro .arguments rfl hraws (fun _ => gives_of_meanings hparts) rfl
        refine means_intro .call rfl (.cons htarget (.cons hargs .nil)) ?_ rfl
        rintro _ (_ | ⟨ht, _ | ⟨rfl, _ | _⟩⟩)
        exact ⟨_, rfl, ht⟩
      · obtain rfl : r = .property := hr
        obtain ⟨n, rfl, hn⟩ := hparts
        have hname : n.Read := hinner n (by simp [MatchTree.children]) (by rw [hn]; rfl)
        rw [ofSuffixes]
        refine hname.bind fun raw hraw => rest ?_
        rw [hn] at hraw
        refine means_intro .propertyAccess rfl (.cons htarget (.cons hraw .nil)) ?_ rfl
        rintro _ (_ | ⟨ht, _ | ⟨rfl, _ | _⟩⟩)
        exact ⟨_, rfl, ht⟩

theorem alternate_of_operands (h : Rule.Operands ms) {ts : List NodeType}
    (hts : List.Forall₂ (fun P t => P t) (meanings ms) ts) : NodeType.Alternate ts := by
  induction ms using Rule.Operands.induct generalizing ts with
  | case1 => exact h.elim
  | case2 m =>
      obtain _ | ⟨ht, _ | _⟩ := hts
      rw [show m.rule = .operand from h] at ht
      exact ht
  | case3 m o ms ih =>
      obtain ⟨hm, ho, hms⟩ := h
      obtain _ | ⟨ht, _ | ⟨hu, hrest⟩⟩ := hts
      rw [hm] at ht
      rw [ho] at hu
      exact ⟨ht, hu, ih hms hrest⟩

/-- An expression is its only operand, or a binary expression. -/
theorem read_expression (hparts : Rule.Operands ms) (h : ∀ m ∈ ms, m.Read) {span : Span}
    {text : List Char} : MatchTree.Read (.node .expression span text ms) := by
  rw [MatchTree.Read, ofMatch]
  refine (read_ofMatches h).bind fun raws hraws => ?_
  match ms, raws, hraws, hparts with
  | [m], [single], .cons hm .nil, hparts =>
      change single.Means m.rule.Gives at hm
      rw [show m.rule = .operand from hparts] at hm
      exact .pure hm
  | m :: o :: m' :: ms, x :: y :: z :: zs, hraws, hparts =>
      refine .pure (means_intro .binaryExpression rfl hraws (fun ts hts => ?_) rfl)
      have hlen := hts.length_eq
      simp only [meanings, List.map_cons, List.length_cons] at hlen
      exact ⟨by omega, alternate_of_operands hparts hts⟩

theorem isRead_of_operands (h : Rule.Operands ms) : ∀ m ∈ ms, m.rule.isRead = true := by
  induction ms using Rule.Operands.induct with
  | case1 => exact h.elim
  | case2 m => exact List.forall_mem_singleton.2 (congrArg Rule.isRead h)
  | case3 m o ms ih =>
      obtain ⟨hm, ho, hms⟩ := h
      exact List.forall_mem_cons.2
        ⟨congrArg Rule.isRead hm, List.forall_mem_cons.2 ⟨congrArg Rule.isRead ho, ih hms⟩⟩

/-- The parameters and the statements of a function are read. -/
theorem isRead_of_function {p : MatchTree Rule} (hp : p.rule = .parameters)
    (hms : ∀ m ∈ ms, m.rule ∈ Rule.statements) : ∀ m ∈ p :: ms, m.rule.isRead = true := by
  intro m hm
  rcases List.mem_cons.1 hm with rfl | hm
  · rw [hp]; rfl
  · exact Rule.isRead_of_mem_statements (hms m hm)

/-- One rule: a match is read if the matches inside it, and inside those, are. -/
theorem read_node {r : Rule} {span : Span} {text : List Char}
    (hd : programGrammar.Derived (.node r span text ms)) (hr : r.isRead = true)
    (h : ∀ m ∈ ms, m.rule.isRead = true → m.Read)
    (hinner : ∀ m ∈ ms, ∀ c ∈ m.children, c.rule.isRead = true → c.Read) :
    MatchTree.Read (.node r span text ms) := by
  have hparts := Rule.parts_of_derived hd
  -- `hparts` says what the rule has matched, so only the patterns of `ofMatch` are left
  cases r with
  | program =>
      obtain ⟨ss, e, rfl, hss, he⟩ := hparts
      have hne : ∀ m ∈ ss, m.rule ≠ .endOfInput :=
        fun m hm => Rule.ne_endOfInput_of_mem_statements (hss m hm)
      rw [MatchTree.Read, ofMatch, ofStatements_append he hne]
      exact read_under .program (fun _ => rfl)
        (fun m hm => h m (by simp [hm]) (Rule.isRead_of_mem_statements (hss m hm)))
        (fun ts hts => isStatement_of_meanings hss hts) rfl
  | functionDeclaration =>
      obtain ⟨k, ⟨_, nspan, name, nts⟩, p, ss, rfl, rfl, hp, hss⟩ := hparts
      have hname : IsIdentifier name :=
        Rule.identifier_of_derived (hd.children (.node .identifier nspan name nts) (by simp))
      have hparams : p.Read := h p (by simp) (by rw [hp]; rfl)
      have hbody : ∀ m ∈ ss, m.Read :=
        fun m hm => h m (by simp [hm]) (Rule.isRead_of_mem_statements (hss m hm))
      rw [MatchTree.Read, ofMatch]
      refine hparams.bind fun raw hraw => (read_ofMatches hbody).bind fun raws hraws => ?_
      rw [hp] at hraw
      refine .pure (means_intro (.functionDeclaration (String.ofList name)) rfl
        (.cons hraw hraws) ?_ rfl)
      rintro _ (_ | ⟨rfl, hts⟩)
      exact ⟨by rwa [String.toList_ofList], _, rfl, isStatement_of_meanings hss hts⟩
  | namedFunction =>
      obtain ⟨k, n, p, ss, rfl, hn, hp, hne, hss⟩ := hparts
      rw [MatchTree.Read, ofMatch]
      refine read_under .namedFunction (fun _ => rfl) (fun m hm => h m (by simp [hm]) ?_)
        ?_ rfl
      · rcases List.mem_cons.1 hm with rfl | hm
        · rw [hn]; rfl
        · exact isRead_of_function hp hss m hm
      · rintro _ (_ | ⟨ht, _ | ⟨hu, hts⟩⟩)
        rw [hn] at ht
        rw [hp] at hu
        obtain rfl := ht
        obtain rfl := hu
        exact ⟨_, rfl, ne_nil_of_meanings hne hts, isStatement_of_meanings hss hts⟩
  | variableDeclaration =>
      obtain ⟨⟨k, kspan, ktext, kts⟩, ⟨_, nspan, name, nts⟩, v, rfl, rfl, hv⟩ := hparts
      have hname : IsIdentifier name :=
        Rule.identifier_of_derived (hd.children (.node .identifier nspan name nts) (by simp))
      have hvalue : ∀ m ∈ [v], m.Read := by
        simpa using h v (by simp) (by rw [hv]; rfl)
      rw [MatchTree.Read, ofMatch]
      refine (read_ofMatches hvalue).bind fun raws hraws => ?_
      refine .pure (means_intro
        (.variableDeclaration (String.ofList name) (k = .mutableKeyword)) rfl hraws ?_ rfl)
      rintro _ (_ | ⟨ht, _ | _⟩)
      rw [hv] at ht
      exact ⟨by rwa [String.toList_ofList], _, rfl, ht⟩
  | returnExpression =>
      obtain ⟨k, v, rfl, hv⟩ := hparts
      rw [MatchTree.Read, ofMatch]
      refine read_under .returnExpression (fun _ => rfl)
        (by simpa using h v (by simp) (by rw [hv]; rfl)) ?_ rfl
      rintro _ (_ | ⟨ht, _ | _⟩)
      rw [hv] at ht
      exact ⟨_, rfl, ht⟩
  | anonymousFunction =>
      obtain ⟨p, ss, rfl, hp, hne, hss⟩ := hparts
      rw [MatchTree.Read, ofMatch]
      refine read_under .anonymousFunction (fun _ => rfl)
        (fun m hm => h m hm (isRead_of_function hp hss m hm)) ?_ rfl
      rintro _ (_ | ⟨ht, hts⟩)
      rw [hp] at ht
      obtain rfl := ht
      exact ⟨_, rfl, ne_nil_of_meanings hne hts, isStatement_of_meanings hss hts⟩
  | parameters =>
      rw [MatchTree.Read, ofMatch]
      exact read_items .parameters (fun _ => rfl) hparts rfl h (fun _ hts => hts) rfl
  | arguments =>
      rw [MatchTree.Read, ofMatch]
      exact read_items .arguments (fun _ => rfl) hparts rfl h (fun _ hts => hts) rfl
  | expression =>
      exact read_expression hparts fun m hm => h m hm (isRead_of_operands hparts m hm)
  | operand =>
      obtain ⟨p, ss, rfl, hp, hss⟩ := hparts
      rw [MatchTree.Read, ofMatch]
      refine (h p (by simp) (Rule.isRead_of_mem_primaries hp)).bind fun raw hraw => ?_
      -- the arguments and names in suffixes are one level further in, where `h` does not reach
      refine read_ofSuffixes (fun m hm => ?_)
        (hraw.mono fun t => Rule.isExpression_of_gives hp)
      exact ⟨hd.children m (by simp [hm]), hss m hm, hinner m (by simp [hm])⟩
  | binaryOperator =>
      rw [MatchTree.Read, ofMatch]
      exact .pure (means_leaf (.binaryOperator (String.ofList text)) rfl rfl
        ⟨rfl, Rule.operator_of_derived hd⟩ rfl)
  | array =>
      rw [MatchTree.Read, ofMatch]
      exact read_items .array (fun _ => rfl) hparts rfl h (fun _ hts => hts) rfl
  | object =>
      rw [MatchTree.Read, ofMatch]
      exact read_items .object (fun _ => rfl) hparts rfl h (fun _ hts => hts) rfl
  | objectProperty =>
      obtain ⟨n, v, rfl, hn, hv⟩ := hparts
      rw [MatchTree.Read, ofMatch]
      refine read_under .objectProperty (fun _ => rfl) (fun m hm => ?_) ?_ rfl
      · rcases List.mem_pair.1 hm with rfl | rfl
        · exact h _ hm (by rw [hn]; rfl)
        · exact h _ hm (by rw [hv]; rfl)
      · rintro _ (_ | ⟨ht, _ | ⟨hu, _ | _⟩⟩)
        rw [hn] at ht
        rw [hv] at hu
        obtain rfl := ht
        exact ⟨_, rfl, hu⟩
  | integer =>
      rw [MatchTree.Read, ofMatch]
      split
      · rename_i value _
        exact .pure (means_leaf (.integer value) rfl rfl rfl rfl)
      · rename_i hnone
        exact ⟨text, rfl, hnone⟩
  | boolean =>
      rw [MatchTree.Read, ofMatch]
      exact .pure (means_leaf (.boolean (text = "true".toList)) rfl rfl rfl rfl)
  | void =>
      rw [MatchTree.Read, ofMatch]
      exact .pure (means_leaf .void rfl rfl rfl rfl)
  | string =>
      obtain ⟨q, qspan, content, us, rfl, hpaired⟩ := Rule.string_of_derived hd
      rw [MatchTree.Read, ofMatch]
      exact .pure (means_leaf (.string (String.ofList content)) rfl rfl
        ⟨rfl, by rwa [String.toList_ofList]⟩ rfl)
  | identifier =>
      have hname : IsIdentifier text := Rule.identifier_of_derived hd
      rw [MatchTree.Read, ofMatch]
      exact .pure (means_leaf (.identifier (String.ofList text)) rfl rfl
        ⟨rfl, by rwa [String.toList_ofList]⟩ rfl)
  | _ => simp [Rule.isRead] at hr

/-- **A match is read as a grammatical tree**, unless it holds an integer out of range. -/
theorem read_of_derived {m : MatchTree Rule} (h : programGrammar.Derived m)
    (hr : m.rule.isRead = true) : m.Read := by
  have key : (m.rule.isRead = true → m.Read) ∧
      ∀ c ∈ m.children, c.rule.isRead = true → c.Read := by
    clear hr
    -- suffixes of an operand are read without the nodes of their own, so the induction keeps
    -- what holds of the children as well
    induction h with
    | node hs hr hbody hts ih =>
        refine ⟨fun hread => ?_, fun c hc => (ih c hc).1⟩
        exact read_node (.node hs hr hbody hts) hread (fun m hm => (ih m hm).1)
          (fun m hm => (ih m hm).2)
  exact key.1 hr

end RawNode

end ExprScript
