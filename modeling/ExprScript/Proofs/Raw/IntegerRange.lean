import ExprScript.Proofs.Raw.Leaves
import ExprScript.Proofs.Raw.Program

set_option autoImplicit false

/-! # Integers out of range

The only fault that a match of the grammar can have is an integer literal that is no 64-bit
integer. A match is read by functions that call each other, each with an order of its own, and the
reading stops at the first fault it meets.

That order is the one of the text. `MatchTree.faults` lists the faults of a match with the matches
taken from the outside to the inside and from the left to the right, and what is read of a match is
an error exactly when the list is not empty, and then the first error of it (`reports_of_derived`).
What follows in the list starts further on in the text (`pairwise_precedes`). So a text that the
grammar matches is parsed unless it holds a literal out of range, and the leftmost of these is the
one that is reported: `parse_of_match`.
-/

namespace ExprScript

open Grammar

/-! ## Matches in the order of the text -/

namespace MatchTree

variable {ρ : Type}

def text : MatchTree ρ → List Char
  | .node _ _ cs _ => cs

mutual

/-- The match and the matches inside it, each before those inside it. -/
def preorder : MatchTree ρ → List (MatchTree ρ)
  | .node r span cs ts => .node r span cs ts :: preorderAll ts

def preorderAll : List (MatchTree ρ) → List (MatchTree ρ)
  | [] => []
  | t :: ts => preorder t ++ preorderAll ts

end

theorem preorder_eq (m : MatchTree ρ) : m.preorder = m :: m.children.flatMap preorder := by
  have hall (ts : List (MatchTree ρ)) : preorderAll ts = ts.flatMap preorder := by
    induction ts with
    | nil => rfl
    | cons t ts ih => rw [preorderAll, ih, List.flatMap_cons]
  obtain ⟨r, span, cs, ts⟩ := m
  rw [preorder, hall]
  rfl

/-- What each match passes on to those right inside it holds of all of them. -/
theorem of_mem_preorder {P : MatchTree ρ → Prop}
    (inner : ∀ {m k : MatchTree ρ}, P m → k ∈ m.children → P k) {m k : MatchTree ρ} (hm : P m)
    (hk : k ∈ m.preorder) : P k := by
  induction m using childrenInduction with
  | step m ih =>
      rw [preorder_eq] at hk
      rcases List.mem_cons.1 hk with rfl | hk
      · exact hm
      · obtain ⟨t, ht, hk⟩ := List.mem_flatMap.1 hk
        exact ih t ht (inner hm ht) hk

/-- The match starts no later than the other, and ends before it if there is none inside. -/
structure Precedes (m k : MatchTree ρ) : Prop where
  start : m.span.start.offset ≤ k.span.start.offset
  stop : m.children = [] → m.span.stop.offset ≤ k.span.start.offset

variable {c d : Cursor} {ms : List (MatchTree ρ)}

theorem offsets_of_mem_preorder (h : Nested span children c d ms) {k : MatchTree ρ}
    (hk : k ∈ ms.flatMap preorder) : c.pos.offset ≤ k.span.start.offset ∧
      k.span.start.offset ≤ k.span.stop.offset ∧ k.span.stop.offset ≤ d.pos.offset := by
  induction h with
  | nil => simp at hk
  | @cons c c₁ d₁ d cs m ms hbefore hspan hchildren hrest ihchildren ihrest =>
      obtain ⟨us, hus⟩ := hchildren.exists_reads
      obtain ⟨vs, hvs⟩ := hrest.exists_reads
      have hc := hbefore.offset_le
      have hm := hus.offset_le
      have hd := hvs.offset_le
      rw [List.flatMap_cons, preorder_eq, List.cons_append, List.mem_cons, List.mem_append] at hk
      rcases hk with rfl | hk | hk
      · rw [hspan]
        exact ⟨hc, hm, hd⟩
      · have hinside := ihchildren hk
        omega
      · have hbehind := ihrest hk
        omega

/-- **The matches are listed in the order of the text.** -/
theorem pairwise_precedes (h : Nested span children c d ms) :
    (ms.flatMap preorder).Pairwise Precedes := by
  induction h with
  | nil => exact .nil
  | @cons c c₁ d₁ d cs m ms hbefore hspan hchildren hrest ihchildren ihrest =>
      have hstart : m.span.start = c₁.pos := by rw [hspan]
      have hstop : m.span.stop = d₁.pos := by rw [hspan]
      obtain ⟨us, hus⟩ := hchildren.exists_reads
      have hm := hus.offset_le
      rw [List.flatMap_cons, preorder_eq, List.cons_append]
      refine List.pairwise_cons.2 ⟨fun k hk => ?_, List.pairwise_append.2
        ⟨ihchildren, ihrest, fun x hx y hy => ?_⟩⟩
      · rcases List.mem_append.1 hk with hk | hk
        · have hinside := offsets_of_mem_preorder hchildren hk
          refine ⟨by rw [hstart]; omega, fun hnil => ?_⟩
          simp [hnil] at hk
        · have hbehind := offsets_of_mem_preorder hrest hk
          exact ⟨by rw [hstart]; omega, fun _ => by rw [hstop]; omega⟩
      · -- the end of the first match lies between the two
        have hinside := offsets_of_mem_preorder hchildren hx
        have hbehind := offsets_of_mem_preorder hrest hy
        exact ⟨by omega, fun _ => by omega⟩

end MatchTree

/-! ## The faults of a match -/

namespace MatchTree

/-- The fault of an integer literal that is no 64-bit integer. -/
def fault? : MatchTree Rule → Option SyntaxError
  | .node .integer span cs _ =>
    if (Decimal.toInt64? (Decimal.ofSigned cs)).isSome then none
    else some ⟨.integerRange (String.ofList cs), span⟩
  | _ => none

def faults (m : MatchTree Rule) : List SyntaxError := m.preorder.filterMap fault?

theorem faults_eq (m : MatchTree Rule) :
    m.faults = m.fault?.toList ++ m.children.flatMap faults := by
  have hbelow : (m.children.flatMap preorder).filterMap fault? = m.children.flatMap faults :=
    List.filterMap_flatMap
  rw [faults, preorder_eq, List.filterMap_cons, hbelow]
  cases m.fault? <;> rfl

theorem fault?_of_ne {m : MatchTree Rule} (hr : m.rule ≠ .integer) : m.fault? = none := by
  unfold fault?
  split
  · exact absurd rfl hr
  · rfl

section

variable {r : Rule} {span : Span} {cs : List Char} {ts : List (MatchTree Rule)}

theorem faults_of_ne (hr : r ≠ .integer) : faults (.node r span cs ts) = ts.flatMap faults := by
  have hown : fault? (.node r span cs ts) = none := fault?_of_ne hr
  rw [faults_eq, hown]
  rfl

/-- No match stands inside a token. -/
theorem children_of_token (h : programGrammar.Derived (.node r span cs ts))
    (hmode : r.mode = .token) : ts = [] := by
  cases h with
  | @node _ s c d _ _ _ hbody _ =>
      have henter : (programGrammar.mode r).enter s = .token := congrArg (Mode.enter · s) hmode
      rw [henter] at hbody
      exact trees_eq_nil_of_run hbody

theorem faults_of_token (h : programGrammar.Derived (.node r span cs ts))
    (hmode : r.mode = .token) (hr : r ≠ .integer) : faults (.node r span cs ts) = [] := by
  rw [faults_of_ne hr, children_of_token h hmode]
  rfl

end

end MatchTree

open MatchTree

/-! ## Readings that report the first fault -/

/-- The reading succeeds if there is no fault, and fails with the first one otherwise. -/
def Reports {α : Type} (fs : List SyntaxError) : Except SyntaxError α → Prop
  | .ok _ => fs = []
  | .error e => fs.head? = some e

namespace Reports

variable {α β : Type} {fs gs : List SyntaxError} {x : Except SyntaxError α}

theorem bind {f : α → Except SyntaxError β} (hx : Reports fs x) (hf : ∀ a, Reports gs (f a)) :
    Reports (fs ++ gs) (x >>= f) := by
  cases x with
  | ok a =>
      obtain rfl : fs = [] := hx
      exact hf a
  | error e =>
      have hfirst : fs.head? = some e := hx
      show (fs ++ gs).head? = some e
      rw [List.head?_append, hfirst]
      rfl

theorem pure {a : α} : Reports [] (Pure.pure a : Except SyntaxError α) := rfl

theorem map {f : α → Except SyntaxError β} (hx : Reports fs x) (hf : ∀ a, Reports [] (f a)) :
    Reports fs (x >>= f) := by
  have hbind := hx.bind hf
  rwa [List.append_nil] at hbind

end Reports

namespace RawNode

variable {ms : List (MatchTree Rule)}

theorem reports_ofMatches (h : ∀ m ∈ ms, Reports m.faults (ofMatch m)) :
    Reports (ms.flatMap faults) (ofMatches ms) := by
  induction ms with
  | nil =>
      rw [ofMatches]
      exact .pure
  | cons m ms ih =>
      rw [ofMatches, List.flatMap_cons]
      exact (h m List.mem_cons_self).bind fun raw =>
        (ih fun k hk => h k (List.mem_cons_of_mem m hk)).map fun raws => .pure

theorem reports_ofSuffixes
    (h : ∀ m ∈ ms, programGrammar.Derived m ∧ (m.rule = .arguments ∨ m.rule = .property) ∧
      ∀ k ∈ m.children, k.rule.isRead = true → Reports k.faults (ofMatch k))
    {start : Position} {target : RawNode} :
    Reports (ms.flatMap faults) (ofSuffixes start target ms) := by
  induction ms generalizing target with
  | nil =>
      rw [ofSuffixes]
      exact .pure
  | cons m ms ih =>
      obtain ⟨⟨hderived, hrule, hinner⟩, hrest⟩ := List.forall_mem_cons.1 h
      rw [List.flatMap_cons]
      obtain ⟨r, span, text, ts⟩ := m
      have hparts := Rule.parts_of_derived hderived
      rcases hrule with hr | hr
      · obtain rfl : r = .arguments := hr
        rw [faults_of_ne (by decide), ofSuffixes]
        refine (reports_ofMatches fun k hk => ?_).bind fun raws => ih hrest
        exact hinner k hk (by rw [hparts k hk]; rfl)
      · obtain rfl : r = .property := hr
        obtain ⟨n, rfl, hn⟩ := hparts
        have hname := hinner n List.mem_cons_self (by rw [hn]; rfl)
        rw [faults_of_ne (by decide), ofSuffixes, List.flatMap_singleton]
        exact hname.bind fun raw => ih hrest

/-- The word that some rules begin with is not read, and has no fault. -/
theorem faults_of_opening {r : Rule} {span : Span} {text : List Char} {k : MatchTree Rule}
    (h : programGrammar.Derived (.node r span text (k :: ms)))
    (hr : r = .functionDeclaration ∨ r = .namedFunction ∨ r = .variableDeclaration ∨
      r = .returnExpression) : k.faults = [] := by
  have hk := h.children k List.mem_cons_self
  have plain {word : Rule} {us vs : List (MatchTree Rule)} (hmode : word.mode = .token)
      (hne : word ≠ .integer) (hus : programGrammar.Yields (.call word) us)
      (hsplit : k :: ms = us ++ vs) : k.faults = [] := by
    obtain ⟨⟨_, _, _, _⟩, rfl, rfl⟩ := (Rule.yields_call_iff (by rw [hmode]; decide)).1 hus
    obtain rfl := (List.cons.inj hsplit).1
    exact faults_of_token hk hmode hne
  rcases hr with rfl | rfl | rfl | rfl
  · obtain ⟨us, vs, hus, -, hsplit⟩ := yields_seq_iff.1 (h.yields (by decide))
    exact plain rfl (by decide) hus hsplit
  · obtain ⟨us, vs, hus, -, hsplit⟩ := yields_seq_iff.1 (h.yields (by decide))
    exact plain rfl (by decide) hus hsplit
  · obtain ⟨us, vs, hus, -, hsplit⟩ := yields_seq_iff.1 (h.yields (by decide))
    rcases yields_alt_iff.1 hus with hus | hus
    · exact plain rfl (by decide) hus hsplit
    · exact plain rfl (by decide) hus hsplit
  · obtain ⟨us, vs, hus, -, hsplit⟩ := yields_seq_iff.1 (h.yields (by decide))
    exact plain rfl (by decide) hus hsplit

/-- Nor does an operator or the end of the input. -/
theorem faults_of_sign {m : MatchTree Rule} (h : programGrammar.Derived m)
    (hr : m.rule = .binaryOperator ∨ m.rule = .endOfInput) : m.faults = [] := by
  obtain ⟨r, span, text, ts⟩ := m
  rcases hr with hr | hr
  · obtain rfl : r = .binaryOperator := hr
    have hyields : programGrammar.Yields (Peg.oneOf operators) ts := h.yields (by decide)
    obtain rfl : ts = [] := by simpa [Peg.oneOf, operators] using hyields
    exact faults_of_ne (by decide)
  · obtain rfl : r = .endOfInput := hr
    obtain rfl : ts = [] := yields_done_iff.1 (h.yields (by decide))
    exact faults_of_ne (by decide)

/-- One rule: a match reports its first fault if the matches inside it, and inside those, do. -/
theorem reports_node {r : Rule} {span : Span} {text : List Char}
    (hd : programGrammar.Derived (.node r span text ms)) (hr : r.isRead = true)
    (h : ∀ m ∈ ms, m.rule.isRead = true → Reports m.faults (ofMatch m))
    (hinner : ∀ m ∈ ms, ∀ k ∈ m.children, k.rule.isRead = true → Reports k.faults (ofMatch k)) :
    Reports (faults (.node r span text ms)) (ofMatch (.node r span text ms)) := by
  have hparts := Rule.parts_of_derived hd
  -- only an integer literal has a fault of its own
  have hbelow (hne : r ≠ .integer) : faults (.node r span text ms) = ms.flatMap faults :=
    faults_of_ne hne
  have hstatements {ss : List (MatchTree Rule)} (hss : ∀ m ∈ ss, m.rule ∈ Rule.statements)
      (hsub : ss ⊆ ms) : Reports (ss.flatMap faults) (ofMatches ss) :=
    reports_ofMatches fun m hm => h m (hsub hm) (Rule.isRead_of_mem_statements (hss m hm))
  have hitems {item : Rule} (hitem : item.isRead = true) (hrule : ∀ m ∈ ms, m.rule = item) :
      Reports (ms.flatMap faults) (ofMatches ms) :=
    reports_ofMatches fun m hm => h m hm (by rw [hrule m hm]; exact hitem)
  cases r with
  | program =>
      obtain ⟨ss, e, rfl, hss, he⟩ := hparts
      have hne : ∀ m ∈ ss, m.rule ≠ .endOfInput :=
        fun m hm => Rule.ne_endOfInput_of_mem_statements (hss m hm)
      have hend : e.faults = [] := faults_of_sign (hd.children e (by simp)) (.inr he)
      rw [hbelow (by decide), ofMatch, ofStatements_append he hne, List.flatMap_append,
        List.flatMap_singleton, hend, List.append_nil]
      exact (hstatements hss (by simp)).map fun _ => .pure
  | functionDeclaration =>
      obtain ⟨k, ⟨_, nspan, name, nts⟩, p, ss, rfl, rfl, hp, hss⟩ := hparts
      have hopening : k.faults = [] := faults_of_opening hd (.inl rfl)
      have hname : faults (.node .identifier nspan name nts) = [] :=
        faults_of_token (hd.children _ (by simp)) rfl (by decide)
      have hparams := h p (by simp) (by rw [hp]; rfl)
      rw [hbelow (by decide), ofMatch]
      simp only [List.flatMap_cons, hopening, hname, List.nil_append]
      exact hparams.bind fun _ =>
        (hstatements hss fun m hm => by simp [hm]).map fun _ => .pure
  | namedFunction =>
      obtain ⟨k, n, p, ss, rfl, hn, hp, -, hss⟩ := hparts
      have hopening : k.faults = [] := faults_of_opening hd (.inr (.inl rfl))
      rw [hbelow (by decide), ofMatch, List.flatMap_cons, hopening, List.nil_append]
      refine (reports_ofMatches fun m hm => h m (List.mem_cons_of_mem k hm) ?_).map fun _ => .pure
      rcases List.mem_cons.1 hm with rfl | hm
      · rw [hn]; rfl
      · exact isRead_of_function hp hss m hm
  | variableDeclaration =>
      obtain ⟨⟨k, kspan, ktext, kts⟩, ⟨_, nspan, name, nts⟩, v, rfl, rfl, hv⟩ := hparts
      have hopening : faults (.node k kspan ktext kts) = [] :=
        faults_of_opening hd (.inr (.inr (.inl rfl)))
      have hname : faults (.node .identifier nspan name nts) = [] :=
        faults_of_token (hd.children _ (by simp)) rfl (by decide)
      have hvalue : ∀ m ∈ [v], Reports m.faults (ofMatch m) := by
        simpa using h v (by simp) (by rw [hv]; rfl)
      rw [hbelow (by decide), ofMatch, List.flatMap_cons, List.flatMap_cons, hopening, hname,
        List.nil_append, List.nil_append]
      exact (reports_ofMatches hvalue).map fun _ => .pure
  | returnExpression =>
      obtain ⟨k, v, rfl, hv⟩ := hparts
      have hopening : k.faults = [] := faults_of_opening hd (.inr (.inr (.inr rfl)))
      have hvalue : ∀ m ∈ [v], Reports m.faults (ofMatch m) := by
        simpa using h v (by simp) (by rw [hv]; rfl)
      rw [hbelow (by decide), ofMatch, List.flatMap_cons, hopening, List.nil_append]
      exact (reports_ofMatches hvalue).map fun _ => .pure
  | anonymousFunction =>
      obtain ⟨p, ss, rfl, hp, -, hss⟩ := hparts
      rw [hbelow (by decide), ofMatch]
      exact (reports_ofMatches fun m hm => h m hm (isRead_of_function hp hss m hm)).map
        fun _ => .pure
  | parameters =>
      rw [hbelow (by decide), ofMatch]
      exact (hitems rfl hparts).map fun _ => .pure
  | arguments =>
      rw [hbelow (by decide), ofMatch]
      exact (hitems rfl hparts).map fun _ => .pure
  | expression =>
      have hoperands : ∀ m ∈ ms, m.rule.isRead = true := isRead_of_operands hparts
      rw [hbelow (by decide), ofMatch]
      refine (reports_ofMatches fun m hm => h m hm (hoperands m hm)).map fun raws => ?_
      obtain _ | ⟨first, _ | ⟨second, raws⟩⟩ := raws
      · exact .pure
      · exact .pure
      · exact .pure
  | operand =>
      obtain ⟨p, ss, rfl, hp, hss⟩ := hparts
      rw [hbelow (by decide), ofMatch, List.flatMap_cons]
      refine (h p (by simp) (Rule.isRead_of_mem_primaries hp)).bind fun raw => ?_
      exact reports_ofSuffixes fun m hm =>
        ⟨hd.children m (by simp [hm]), hss m hm, hinner m (by simp [hm])⟩
  | binaryOperator =>
      rw [faults_of_sign hd (.inl rfl), ofMatch]
      exact .pure
  | array =>
      rw [hbelow (by decide), ofMatch]
      exact (hitems rfl hparts).map fun _ => .pure
  | object =>
      rw [hbelow (by decide), ofMatch]
      exact (hitems rfl hparts).map fun _ => .pure
  | objectProperty =>
      obtain ⟨n, v, rfl, hn, hv⟩ := hparts
      rw [hbelow (by decide), ofMatch]
      refine (reports_ofMatches fun m hm => h m hm ?_).map fun _ => .pure
      rcases List.mem_pair.1 hm with rfl | rfl
      · rw [hn]; rfl
      · rw [hv]; rfl
  | integer =>
      obtain rfl : ms = [] := children_of_token hd rfl
      rw [faults_eq, ofMatch, fault?]
      cases Decimal.toInt64? (Decimal.ofSigned text) with
      | some value => exact .pure
      | none => rfl
  | string =>
      obtain ⟨⟨q, qspan, content, us⟩, rfl, hq⟩ := hparts
      have hcontent : faults (.node q qspan content us) = [] := by
        have hinner := hd.children (.node q qspan content us) List.mem_cons_self
        rcases hq with rfl | rfl
        · exact faults_of_token hinner rfl (by decide)
        · exact faults_of_token hinner rfl (by decide)
      rw [hbelow (by decide), ofMatch, List.flatMap_singleton, hcontent]
      exact .pure
  | boolean | void | identifier =>
      rw [faults_of_token hd rfl (by decide), ofMatch]
      exact .pure
  | _ => simp [Rule.isRead] at hr

/-- **A match reports its first fault**, and has a raw tree if there is none. -/
theorem reports_of_derived {m : MatchTree Rule} (h : programGrammar.Derived m)
    (hr : m.rule.isRead = true) : Reports m.faults (ofMatch m) := by
  have key : (m.rule.isRead = true → Reports m.faults (ofMatch m)) ∧
      ∀ k ∈ m.children, k.rule.isRead = true → Reports k.faults (ofMatch k) := by
    clear hr
    -- as for `read_of_derived`, the matches inside suffixes are needed as well
    induction h with
    | node hs hmode hbody hts ih =>
        refine ⟨fun hread => ?_, fun k hk => (ih k hk).1⟩
        exact reports_node (.node hs hmode hbody hts) hread (fun k hk => (ih k hk).1)
          (fun k hk => (ih k hk).2)
  exact key.1 hr

end RawNode

/-! ## Literals -/

namespace MatchTree

/-- The integer literals of a match, in the order of the text. -/
def integers (m : MatchTree Rule) : List (MatchTree Rule) :=
  m.preorder.filter (·.rule = .integer)

/-- The number that the text of a literal denotes: a minus sign or none, and digits to the base
ten, of which any number may be zeros in front. -/
def Denotes (k : MatchTree Rule) (i : Int) : Prop :=
  ∃ sign digits, k.text = sign ++ digits ∧ (sign = [] ∨ sign = ['-']) ∧ digits ≠ [] ∧
    (∀ x ∈ digits, x.isDigit = true) ∧
    i = (if sign = [] then 1 else -1) *
      (Nat.ofDigits 10 (digits.reverse.map Decimal.digitValue) : Nat)

/-- The number that the literal denotes has 64 bits. -/
def InRange (k : MatchTree Rule) : Prop :=
  ∃ i, k.Denotes i ∧ -9223372036854775808 ≤ i ∧ i ≤ 9223372036854775807

theorem mem_integers_iff {m k : MatchTree Rule} :
    k ∈ m.integers ↔ k ∈ m.preorder ∧ k.rule = .integer := by
  rw [integers, List.mem_filter, decide_eq_true_iff]

theorem Denotes.eq {k : MatchTree Rule} {i : Int} (h : k.Denotes i) :
    i = Decimal.ofSigned k.text := by
  obtain ⟨sign, digits, htext, hsign, -, hdigits, rfl⟩ := h
  rw [htext, Decimal.ofSigned_eq hsign hdigits]

variable {cs : List Char} {k : MatchTree Rule}

theorem exists_denotes (h : k.Stems cs) (hr : k.rule = .integer) : ∃ i, k.Denotes i := by
  obtain ⟨r, span, text, ts⟩ := k
  obtain rfl : r = .integer := hr
  obtain ⟨sign, digits, htext, hsign, hne, hdigits⟩ := Rule.integer_of_derived h.derived
  exact ⟨_, sign, digits, htext, hsign, hne, hdigits, rfl⟩

/-- A literal has a fault exactly when its number does not have 64 bits. -/
theorem fault?_of_stems (h : k.Stems cs) (hr : k.rule = .integer) :
    (k.InRange ∧ k.fault? = none) ∨
      (¬ k.InRange ∧ k.fault? = some ⟨.integerRange (String.ofList k.text), k.span⟩) := by
  obtain ⟨i, hi⟩ := exists_denotes h hr
  have hrange : k.InRange ↔ (Decimal.toInt64? (Decimal.ofSigned k.text)).isSome = true := by
    rw [Decimal.toInt64?]
    constructor
    · rintro ⟨j, hj, hlow, hhigh⟩
      rw [hj.eq] at hlow hhigh
      rw [if_pos ⟨hlow, hhigh⟩]
      rfl
    · intro hsome
      split at hsome
      · rename_i hbounds
        rw [← hi.eq] at hbounds
        exact ⟨i, hi, hbounds⟩
      · cases hsome
  obtain ⟨r, span, text, ts⟩ := k
  obtain rfl : r = .integer := hr
  rw [hrange, fault?]
  by_cases hsome : (Decimal.toInt64? (Decimal.ofSigned text)).isSome = true
  · exact .inl ⟨hsome, if_pos hsome⟩
  · exact .inr ⟨hsome, if_neg hsome⟩

theorem start_lt_stop (h : k.Stems cs) (hr : k.rule = .integer) :
    k.span.start.offset < k.span.stop.offset := by
  obtain ⟨i, sign, digits, htext, -, hne, -⟩ := exists_denotes h hr
  have htext : k.text ≠ [] := by
    rw [htext]
    exact List.append_ne_nil_of_right_ne_nil _ hne
  cases h.spelled with
  | @node r us text c d ts hbefore hreads _ =>
      show c.pos.offset < d.pos.offset
      rw [hreads.pos]
      exact (Position.before_after c.pos htext).offset

/-- There is no literal in a blank text. -/
theorem not_blank_of_integer (h : k.Stems cs) (hr : k.rule = .integer) :
    cs.all isBlank = false := by
  obtain ⟨i, sign, digits, htext, -, hne, hdigits, -⟩ := exists_denotes h hr
  obtain ⟨x, xs, rfl⟩ := List.exists_cons_of_ne_nil hne
  obtain ⟨r, span, text, ts⟩ := k
  obtain ⟨before, behind, hcs, -, -⟩ := h.spells
  have hx : x ∈ cs := by
    have htext : text = sign ++ x :: xs := htext
    rw [hcs, htext]
    simp
  have hdigit : isIdentifierChar x = true := by
    unfold isIdentifierChar Char.isAlphanum
    rw [hdigits x List.mem_cons_self, Bool.or_true, Bool.true_or]
  rw [List.all_eq_false]
  exact ⟨x, hx, by rw [isBlank_of_isIdentifierChar hdigit]; exact Bool.false_ne_true⟩

/-- The first fault of a match is that of the leftmost literal out of range. -/
theorem exists_leftmost {m : MatchTree Rule} {e : SyntaxError}
    (hstems : m.Stems cs) (hsorted : m.preorder.Pairwise Precedes)
    (h : m.faults.head? = some e) :
    ∃ k ∈ m.integers, ¬ k.InRange ∧
      (∀ l ∈ m.integers, ¬ l.InRange → l = k ∨ k.span.start.offset < l.span.start.offset) ∧
      e = ⟨.integerRange (String.ofList k.text), k.span⟩ := by
  have hall {k : MatchTree Rule} (hk : k ∈ m.preorder) : k.Stems cs :=
    of_mem_preorder MatchTree.Stems.inner hstems hk
  -- the matches in front of the one with the first fault have none
  obtain ⟨fs, hfs⟩ := List.head?_eq_some_iff.1 h
  obtain ⟨front, k, back, hsplit, hfront, hk, -⟩ := List.filterMap_eq_cons_iff.1 hfs
  have hmem : k ∈ m.preorder := by simp [hsplit]
  have hstem := hall hmem
  have hrule : k.rule = .integer := by
    by_contra hne
    cases (fault?_of_ne hne).symm.trans hk
  rcases fault?_of_stems hstem hrule with ⟨-, hnone⟩ | ⟨hout, hsome⟩
  · cases hnone.symm.trans hk
  refine ⟨k, mem_integers_iff.2 ⟨hmem, hrule⟩, hout, fun l hl hlout => ?_,
    Option.some.inj (hk.symm.trans hsome)⟩
  obtain ⟨hl, hlrule⟩ := mem_integers_iff.1 hl
  have hlstem := hall hl
  rw [hsplit] at hl hsorted
  rcases List.mem_append.1 hl with hl | hl
  · rcases fault?_of_stems hlstem hlrule with ⟨hin, -⟩ | ⟨-, hlsome⟩
    · exact absurd hin hlout
    · cases (hfront l hl).symm.trans hlsome
  · rcases List.mem_cons.1 hl with rfl | hl
    · exact .inl rfl
    · -- a literal has no match inside, so what comes behind it starts behind its end
      have hprecedes : k.Precedes l :=
        (List.pairwise_cons.1 (List.pairwise_append.1 hsorted).2.1).1 l hl
      have hleaf : k.children = [] := by
        obtain ⟨r, span, text, ts⟩ := k
        obtain rfl : r = .integer := hrule
        exact children_of_token hstem.derived rfl
      exact .inr ((start_lt_stop hstem hrule).trans_le (hprecedes.stop hleaf))

end MatchTree

/-! ## Parsing -/

/-- A text that the grammar matches is parsed as the match is read. -/
theorem reports_parse {source : String} {d : Cursor} {m : MatchTree Rule}
    (hmatch : matchProgram source.toList = .ok d [m]) (hstems : m.Stems source.toList)
    (hr : m.rule = .program) : Reports m.faults (parse source) := by
  rw [parse]
  split
  · -- a blank text is not read at all
    rename_i hblank
    show m.faults = []
    refine List.filterMap_eq_nil_iff.2 fun k hk => ?_
    refine fault?_of_ne fun hrule => ?_
    have hstem := of_mem_preorder MatchTree.Stems.inner hstems hk
    rw [not_blank_of_integer hstem hrule] at hblank
    cases hblank
  · rw [hmatch]
    exact RawNode.reports_of_derived hstems.derived (by rw [hr]; rfl)

/-- **Integers out of range.** A text that the grammar matches is parsed if and only if the number
that each integer literal of the match denotes has 64 bits, whatever its sign and however many
zeros it has in front. Otherwise parsing fails with the text and the span of the one that starts
first among the literals that are out of range. -/
theorem parse_of_match {source : String} {d : Cursor} {ms : List (MatchTree Rule)}
    (hmatch : matchProgram source.toList = .ok d ms) :
    ∃ m, ms = [m] ∧
      (∀ k ∈ m.integers, k.span.Spells source.toList k.text ∧ ∃ i, k.Denotes i) ∧
      ((∃ raw, parse source = .ok raw) ↔ ∀ k ∈ m.integers, k.InRange) ∧
      ((∃ k ∈ m.integers, ¬ k.InRange) → ∃ k ∈ m.integers, ¬ k.InRange ∧
        (∀ l ∈ m.integers, ¬ l.InRange → l = k ∨ k.span.start.offset < l.span.start.offset) ∧
        ∃ e, parse source = .error e ∧ e.span = k.span ∧
          e.message = "invalid integer literal '" ++ String.ofList k.text ++ "'") := by
  obtain ⟨m, rfl, hderived, hrule⟩ := exists_derived_of_matchProgram hmatch
  have hrun := hmatch
  rw [matchProgram_eq_run] at hrun
  have hstems : m.Stems source.toList :=
    ⟨hderived, MatchTree.spelled_of_run programRanking.skipReads hrun m List.mem_cons_self⟩
  -- a tree lists its matches in the order of the text, so the first fault is the leftmost
  have hsorted : m.preorder.Pairwise Precedes := by
    have hnested := pairwise_precedes (nested_of_run programRanking.skipReads hrun)
    rwa [List.flatMap_singleton] at hnested
  have hreports := reports_parse hmatch hstems hrule
  have hall {k : MatchTree Rule} (hk : k ∈ m.integers) :
      k.Stems source.toList ∧ k.rule = .integer := by
    obtain ⟨hk, hkrule⟩ := mem_integers_iff.1 hk
    exact ⟨of_mem_preorder MatchTree.Stems.inner hstems hk, hkrule⟩
  refine ⟨m, rfl, fun k hk => ?_, ?_⟩
  · obtain ⟨hstem, hkrule⟩ := hall hk
    obtain ⟨r, span, text, ts⟩ := k
    exact ⟨hstem.spells, exists_denotes hstem hkrule⟩
  · cases hparse : parse source with
    | ok raw =>
        rw [hparse] at hreports
        have hin : ∀ k ∈ m.integers, k.InRange := by
          intro k hk
          obtain ⟨hstem, hkrule⟩ := hall hk
          have hnone := List.filterMap_eq_nil_iff.1 hreports k (mem_integers_iff.1 hk).1
          rcases fault?_of_stems hstem hkrule with ⟨hin, -⟩ | ⟨-, hsome⟩
          · exact hin
          · cases hnone.symm.trans hsome
        refine ⟨iff_of_true ⟨raw, rfl⟩ hin, ?_⟩
        rintro ⟨k, hk, hout⟩
        exact absurd (hin k hk) hout
    | error e =>
        rw [hparse] at hreports
        obtain ⟨k, hk, hout, hfirst, rfl⟩ := exists_leftmost hstems hsorted hreports
        refine ⟨iff_of_false (by simp) fun hin => hout (hin k hk), fun _ => ?_⟩
        exact ⟨k, hk, hout, hfirst, _, rfl, rfl, rfl⟩

/-- The trees of a match; a mismatch has none. -/
def Outcome.trees {ρ : Type} : Outcome ρ → List (MatchTree ρ)
  | .ok _ ts => ts
  | .fail => []
  | .exhausted => []

theorem exists_match_of_any (source : String) (f : MatchTree Rule → Bool)
    (h : (matchProgram source.toList).trees.any f = true) :
    ∃ d m, matchProgram source.toList = .ok d [m] ∧ f m = true := by
  cases hmatch : matchProgram source.toList with
  | ok d ts =>
      obtain ⟨m, rfl, -⟩ := exists_derived_of_matchProgram hmatch
      rw [hmatch] at h
      exact ⟨d, m, rfl, by simpa [Outcome.trees] using h⟩
  | fail => simp [hmatch, Outcome.trees] at h
  | exhausted => simp [hmatch, Outcome.trees] at h

/-- The least integer behind zeros, and two literals out of range in a call on a call. -/
theorem parse_of_match_callOnCall :
    ∃ d m k e, matchProgram
        "[-009223372036854775808, f(9223372036854775808)(-9223372036854775809)]".toList =
        .ok d [m] ∧
      m.integers.map (fun k => String.ofList k.text) =
        ["-009223372036854775808", "9223372036854775808", "-9223372036854775809"] ∧
      k ∈ m.integers ∧ ¬ k.InRange ∧
      (∀ l ∈ m.integers, ¬ l.InRange → l = k ∨ k.span.start.offset < l.span.start.offset) ∧
      parse "[-009223372036854775808, f(9223372036854775808)(-9223372036854775809)]" = .error e ∧
      e.span = k.span ∧
      e.message = "invalid integer literal '" ++ String.ofList k.text ++ "'" := by
  obtain ⟨d, m, hmatch, hm⟩ := exists_match_of_any
    "[-009223372036854775808, f(9223372036854775808)(-9223372036854775809)]"
    (fun m => m.integers.map (fun k => String.ofList k.text) ==
      ["-009223372036854775808", "9223372036854775808", "-9223372036854775809"])
    (by decide +kernel)
  have hnone : (parse
      "[-009223372036854775808, f(9223372036854775808)(-9223372036854775809)]").isOk = false := by
    decide +kernel
  obtain ⟨m', hm', -, hiff, hfirst⟩ := parse_of_match hmatch
  obtain rfl : m = m' := (List.cons.inj hm').1
  have hout : ∃ k ∈ m.integers, ¬ k.InRange := by
    by_contra hall
    push Not at hall
    obtain ⟨raw, hraw⟩ := hiff.2 hall
    rw [hraw] at hnone
    cases hnone
  obtain ⟨k, hk, hkout, hleft, e, he, hspan, hmessage⟩ := hfirst hout
  exact ⟨d, m, k, e, hmatch, beq_iff_eq.1 hm, hk, hkout, hleft, he, hspan, hmessage⟩

end ExprScript
