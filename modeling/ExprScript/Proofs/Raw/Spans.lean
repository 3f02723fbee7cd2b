import ExprScript.Proofs.Compile
import ExprScript.Proofs.Raw.Program
import ExprScript.Proofs.Source.Spans
import ExprScript.Proofs.Tree.WellFormed

set_option autoImplicit false

/-! # The spans of a tree

The trees of a match lie over the text as they are nested (`nested_of_run`), and making raw trees
of them keeps that (`nested_of_ofMatch`): a node takes the span of its match and the trees of the
matches inside it, but for an expression of one operand, which is that operand, and for suffixes,
where the span of each fold runs from the start of the operand to the end of the suffix.

So in the raw tree of a program every span lies within that of the parent and siblings do not
overlap (`spans_nest`).
-/

namespace ExprScript

open Grammar

namespace MatchTree

variable {ρ : Type}

def span : MatchTree ρ → Span
  | .node _ span _ _ => span

/-- Induction over matches, with the matches inside one as the smaller ones. -/
theorem childrenInduction {P : MatchTree ρ → Prop} (step : ∀ m, (∀ k ∈ m.children, P k) → P m)
    (m : MatchTree ρ) : P m := by
  refine step m fun k hk => ?_
  have : sizeOf k < sizeOf m := by
    obtain ⟨r, s, text, ks⟩ := m
    have := List.sizeOf_lt_of_mem (show k ∈ ks from hk)
    simp only [node.sizeOf_spec]
    omega
  exact childrenInduction step k
termination_by sizeOf m

end MatchTree

/-! ## Matches -/

/-- **The trees of a match lie over the text it has read.** -/
theorem nested_of_run {ρ : Type} {G : Grammar ρ} (hG : G.SkipReads) {s : Setting} {e : Peg ρ}
    {c d : Cursor} {ts : List (MatchTree ρ)} (h : G.run s e c = .ok d ts) :
    Nested MatchTree.span MatchTree.children c d ts := by
  have here {c : Cursor} : Nested (α := MatchTree ρ) MatchTree.span MatchTree.children c c [] :=
    .nil (.refl c)
  have link {s : Setting} {c c₁ d : Cursor} {us vs : List (MatchTree ρ)}
      (hus : Nested MatchTree.span MatchTree.children c c₁ us)
      (hvs : Nested MatchTree.span MatchTree.children (G.gap s c₁) d vs) :
      Nested MatchTree.span MatchTree.children c d (us ++ vs) := by
    obtain ⟨ws, hws⟩ := hG.gap s c₁
    exact hus.append (hvs.of_reads hws)
  refine run_induction
    (P := fun _ _ c d ts => Nested MatchTree.span MatchTree.children c d ts)
    ?lit ?one here link id id here id link here id here ?call h
  case lit => exact fun hd => .nil (Cursor.strip?_eq_some_iff.1 hd)
  case one =>
    intro s p c d hd
    obtain ⟨x, -, hx⟩ := Cursor.step?_eq_some_iff.1 hd
    exact .nil hx
  case call =>
    intro s r c d ts us _ hbody hwrap
    by_cases hr : G.mode r = .silent
    · rw [wrap_silent hr] at hwrap
      rwa [← (Outcome.ok.inj hwrap).2]
    · by_cases hs : s = .token
      · subst hs
        rw [wrap_token hr] at hwrap
        obtain ⟨cs, hcs⟩ := hbody.exists_reads
        rw [← (Outcome.ok.inj hwrap).2]
        exact .nil hcs
      · rw [wrap_node hr hs] at hwrap
        rw [← (Outcome.ok.inj hwrap).2]
        exact .singleton (.refl c) rfl hbody (.refl d)

/-! ## Raw trees -/

theorem exists_of_bind_eq_ok {ε α β : Type} {x : Except ε α} {f : α → Except ε β} {b : β}
    (h : x >>= f = .ok b) : ∃ a, x = .ok a ∧ f a = .ok b := by
  cases x with
  | ok a => exact ⟨a, rfl, h⟩
  | error e => cases h

namespace RawNode

/-- How the raw tree of a match comes about. -/
inductive TakenFrom (m : MatchTree Rule) (raw : RawNode) : Prop where
  /-- the node has the span of the match, and the trees of the matches inside it, but for `k` of
  them in front -/
  | parts (k : Nat) (hchildren : ofMatches (m.children.drop k) = .ok raw.children)
      (hspan : raw.location = m.span)
  | statements (hchildren : ofStatements m.children = .ok raw.children)
      (hspan : raw.location = m.span)
  /-- the only match inside it gives the node -/
  | single (hsingle : ofMatches m.children = .ok [raw])
  | operand {target : MatchTree Rule} {suffixes : List (MatchTree Rule)} {first : RawNode}
      (hchildren : m.children = target :: suffixes) (hfirst : ofMatch target = .ok first)
      (hraw : ofSuffixes m.span.start first suffixes = .ok raw)

theorem TakenFrom.leaf {m : MatchTree Rule} {raw : RawNode} (hchildren : raw.children = [])
    (hspan : raw.location = m.span) : TakenFrom m raw := by
  refine .parts m.children.length ?_ hspan
  rw [List.drop_length, hchildren]
  rfl

/-- Every raw tree of a match comes about in one of these ways. -/
theorem takenFrom_of_ofMatch {m : MatchTree Rule} {raw : RawNode} (h : ofMatch m = .ok raw) :
    TakenFrom m raw := by
  obtain ⟨r, span, text, ms⟩ := m
  -- a match with fewer parts than its rule calls for has no raw tree
  cases r with
  | program =>
      rw [ofMatch] at h
      obtain ⟨raws, hraws, hraw⟩ := exists_of_bind_eq_ok h
      cases hraw
      exact .statements hraws rfl
  | functionDeclaration =>
      obtain _ | ⟨word, _ | ⟨⟨_, _, name, _⟩, _ | ⟨params, body⟩⟩⟩ := ms
      · cases h
      · cases h
      · cases h
      · rw [ofMatch] at h
        obtain ⟨first, hfirst, h⟩ := exists_of_bind_eq_ok h
        obtain ⟨raws, hraws, hraw⟩ := exists_of_bind_eq_ok h
        cases hraw
        exact .parts 2 (ofMatches_cons hfirst hraws) rfl
  | variableDeclaration =>
      obtain _ | ⟨⟨_, _, _, _⟩, _ | ⟨⟨_, _, name, _⟩, value⟩⟩ := ms
      · cases h
      · cases h
      · rw [ofMatch] at h
        obtain ⟨raws, hraws, hraw⟩ := exists_of_bind_eq_ok h
        cases hraw
        exact .parts 2 hraws rfl
  | namedFunction | returnExpression =>
      obtain _ | ⟨word, parts⟩ := ms
      · cases h
      · rw [ofMatch] at h
        obtain ⟨raws, hraws, hraw⟩ := exists_of_bind_eq_ok h
        cases hraw
        exact .parts 1 hraws rfl
  | anonymousFunction | parameters | arguments | array | object | objectProperty =>
      rw [ofMatch] at h
      obtain ⟨raws, hraws, hraw⟩ := exists_of_bind_eq_ok h
      cases hraw
      exact .parts 0 hraws rfl
  | expression =>
      rw [ofMatch] at h
      obtain ⟨raws, hraws, hraw⟩ := exists_of_bind_eq_ok h
      obtain _ | ⟨first, _ | ⟨second, raws⟩⟩ := raws
      · cases hraw
        exact .parts 0 hraws rfl
      · cases hraw
        exact .single hraws
      · cases hraw
        exact .parts 0 hraws rfl
  | operand =>
      obtain _ | ⟨target, suffixes⟩ := ms
      · cases h
      · rw [ofMatch] at h
        obtain ⟨first, hfirst, hraw⟩ := exists_of_bind_eq_ok h
        exact .operand rfl hfirst hraw
  | integer =>
      rw [ofMatch] at h
      split at h
      · cases h
        exact .leaf rfl rfl
      · cases h
  | string =>
      obtain _ | ⟨⟨_, _, content, _⟩, others⟩ := ms
      · cases h
      · cases h
        exact .leaf rfl rfl
  | binaryOperator | boolean | void | identifier =>
      cases h
      exact .leaf rfl rfl
  | _ => cases h

/-- Raw trees lie over a text as matches do. -/
abbrev Lies (c d : Cursor) (raws : List RawNode) : Prop :=
  Nested RawNode.location RawNode.children c d raws

variable {c d : Cursor} {ms : List (MatchTree Rule)} {raws : List RawNode}

/-- The raw tree of the match lies where the match lies. -/
def Keeps (m : MatchTree Rule) : Prop :=
  ∀ raw c d, ofMatch m = .ok raw → Nested MatchTree.span MatchTree.children c d [m] →
    Lies c d [raw]

theorem lies_of_ofMatches (hms : ∀ m ∈ ms, Keeps m) (h : ofMatches ms = .ok raws)
    (hn : Nested MatchTree.span MatchTree.children c d ms) : Lies c d raws := by
  induction ms generalizing c raws with
  | nil =>
      cases h
      obtain ⟨cs, hcs⟩ := hn.exists_reads
      exact .nil hcs
  | cons m ms ih =>
      rw [ofMatches] at h
      obtain ⟨raw, hraw, h⟩ := exists_of_bind_eq_ok h
      obtain ⟨raws, hraws, h⟩ := exists_of_bind_eq_ok h
      cases h
      obtain ⟨e, hm, hrest⟩ := Nested.cons_iff.1 hn
      obtain ⟨hkeeps, hkeepss⟩ := List.forall_mem_cons.1 hms
      exact (hkeeps raw c e hraw hm).append (ih hkeepss hraws hrest)

theorem lies_of_ofStatements (hms : ∀ m ∈ ms, Keeps m) (h : ofStatements ms = .ok raws)
    (hn : Nested MatchTree.span MatchTree.children c d ms) : Lies c d raws := by
  rw [ofStatements_eq] at h
  exact lies_of_ofMatches (fun m hm => hms m (List.mem_of_mem_filter hm)) h
    (hn.sublist List.filter_sublist)

/-- Each fold of a suffix onto an operand that starts at `c` spans all from `c` to the end of the
suffix. -/
theorem lies_of_ofSuffixes {e : Cursor} {target raw : RawNode}
    (hms : ∀ m ∈ ms, ∀ k ∈ m.children, Keeps k) (h : ofSuffixes c.pos target ms = .ok raw)
    (htarget : Lies c e [target]) (hn : Nested MatchTree.span MatchTree.children e d ms) :
    Lies c d [raw] := by
  induction ms generalizing e target with
  | nil =>
      cases h
      obtain ⟨cs, hcs⟩ := hn.exists_reads
      exact htarget.to_reads hcs
  | cons m ms ih =>
      obtain ⟨hinner, hinners⟩ := List.forall_mem_cons.1 hms
      cases hn with
      | @cons _ c₁ d₁ _ _ _ _ hbefore hspan hchildren hrest =>
          obtain ⟨r, span, text, ks⟩ := m
          obtain rfl : span = ⟨c₁.pos, d₁.pos⟩ := hspan
          cases r with
          | arguments =>
              rw [ofSuffixes] at h
              obtain ⟨raws, hraws, h⟩ := exists_of_bind_eq_ok h
              have hvalues : Lies c₁ d₁ raws := lies_of_ofMatches hinner hraws hchildren
              have harguments : Lies e d₁ [ofType .arguments raws ⟨c₁.pos, d₁.pos⟩] :=
                .singleton hbefore rfl hvalues (.refl d₁)
              -- the fold starts where the operand does, whatever has been folded onto it before
              refine ih hinners h (.singleton (.refl c) rfl ?_ (.refl d₁)) hrest
              exact htarget.append harguments
          | property =>
              obtain _ | ⟨name, others⟩ := ks
              · cases h
              · rw [ofSuffixes] at h
                obtain ⟨raw', hraw', h⟩ := exists_of_bind_eq_ok h
                obtain ⟨e', hname, hothers⟩ := Nested.cons_iff.1 hchildren
                obtain ⟨cs, hcs⟩ := hothers.exists_reads
                have hlies : Lies c₁ e' [raw'] :=
                  hinner name List.mem_cons_self raw' c₁ e' hraw' hname
                have hproperty : Lies e d₁ [raw'] := (hlies.to_reads hcs).of_reads hbefore
                refine ih hinners h (.singleton (.refl c) rfl ?_ (.refl d₁)) hrest
                exact htarget.append hproperty
          | _ => cases h

/-- One match: its raw tree lies where it does if those of the matches inside it, and inside
those, do. -/
theorem keeps_of_children {m : MatchTree Rule} (hms : ∀ k ∈ m.children, Keeps k)
    (hinner : ∀ k ∈ m.children, ∀ l ∈ k.children, Keeps l) : Keeps m := by
  intro raw c d h hn
  cases hn with
  | @cons _ c₁ d₁ _ _ _ _ hbefore hspan hchildren hrest =>
      obtain ⟨ds, hds⟩ := hrest.exists_reads
      cases takenFrom_of_ofMatch h with
      | parts k hraws hlocation =>
          refine .singleton hbefore (hlocation.trans hspan) ?_ hds
          exact lies_of_ofMatches (fun l hl => hms l (List.mem_of_mem_drop hl)) hraws
            (hchildren.sublist (List.drop_sublist k _))
      | statements hraws hlocation =>
          refine .singleton hbefore (hlocation.trans hspan) ?_ hds
          exact lies_of_ofStatements hms hraws hchildren
      | single hsingle =>
          have hraw := lies_of_ofMatches hms hsingle hchildren
          exact (hraw.to_reads hds).of_reads hbefore
      | @operand target suffixes first hparts hfirst hraw =>
          rw [hspan] at hraw
          rw [hparts] at hms hinner hchildren
          obtain ⟨htarget, -⟩ := List.forall_mem_cons.1 hms
          obtain ⟨-, hsuffixes⟩ := List.forall_mem_cons.1 hinner
          obtain ⟨e, hlies, hrest'⟩ := Nested.cons_iff.1 hchildren
          have hfolded := lies_of_ofSuffixes hsuffixes hraw (htarget first c₁ e hfirst hlies) hrest'
          exact (hfolded.to_reads hds).of_reads hbefore

/-- **The raw tree of a match lies where the match lies.** -/
theorem keeps (m : MatchTree Rule) : Keeps m := by
  -- suffixes are read without nodes of their own, so the matches inside them are needed as well
  have key : Keeps m ∧ ∀ k ∈ m.children, Keeps k := by
    induction m using MatchTree.childrenInduction with
    | step m ih =>
        have hms : ∀ k ∈ m.children, Keeps k := fun k hk => (ih k hk).1
        exact ⟨keeps_of_children hms fun k hk => (ih k hk).2, hms⟩
  exact key.1

theorem lies_of_steps {c d : Cursor} {ts : List (MatchTree Rule)} {raws : List RawNode}
    (h : programGrammar.Steps .spaced (.call .statement) c d ts)
    (hraws : ofMatches ts = .ok raws) : Lies c d raws := by
  refine lies_of_ofMatches (fun m _ => keeps m) hraws ?_
  clear hraws
  induction h with
  | refl c => exact .nil (.refl c)
  | @head c c₁ d us vs hrun _ ih =>
      obtain ⟨ws, hws⟩ := Layout.exists_reads_skip c
      exact ((nested_of_run programRanking.skipReads hrun).of_reads hws).append ih

/-- The statements of a program lie between the ends of its text, since behind the last of them
only layout is left. -/
theorem lies_of_readsStatements {cs : List Char} {ts : List (MatchTree Rule)}
    {raws : List RawNode} (h : ReadsStatements cs ts) (hraws : ofMatches ts = .ok raws) :
    ∃ d : Cursor, d.pos = Position.first.after cs ∧ Lies (.start cs) d raws := by
  obtain ⟨d, hsteps, hend⟩ := h
  have hlies := lies_of_steps hsteps hraws
  obtain ⟨us, hus⟩ := hlies.exists_reads
  obtain ⟨vs, hvs⟩ := Layout.exists_reads_skip d
  have hall : cs = us ++ vs := by
    have hrest := (hus.trans hvs).rest
    rwa [hend, List.append_nil] at hrest
  refine ⟨Layout.skip d, ?_, hlies.to_reads hvs⟩
  rw [hall]
  exact (hus.trans hvs).pos

/-! ## Nodes in their places -/

/-- The node has its place in the text: the ends of its span are positions of the text, in order,
the spans of its children lie within its own, and each of them ends before the next begins. -/
structure PlacedIn (source : String) (raw : RawNode) : Prop where
  start : raw.location.start.In source.toList
  stop : raw.location.stop.In source.toList
  ordered : raw.location.start.offset ≤ raw.location.stop.offset
  bounded : raw.location.stop.offset ≤ source.utf8ByteSize
  children : ∀ child ∈ raw.children, raw.location.start.offset ≤ child.location.start.offset ∧
    child.location.stop.offset ≤ raw.location.stop.offset
  siblings : raw.children.Pairwise fun child next =>
    child.location.stop.offset ≤ next.location.start.offset

/-- A node that lies over a stretch of the text has its place there. -/
theorem placedIn_of_lies {source : String} {cs : List Char} {c d : Cursor} {raw : RawNode}
    (hc : (Cursor.start source.toList).Reads cs c) (hspan : raw.location = ⟨c.pos, d.pos⟩)
    (h : Lies c d raw.children) : raw.PlacedIn source := by
  obtain ⟨ds, hds⟩ := h.exists_reads
  have hstop : d.pos.In source.toList := (hc.trans hds).pos_in
  refine ⟨?_, ?_, ?_, ?_, ?_, h.pairwise⟩ <;> rw [hspan]
  · exact hc.pos_in
  · exact hstop
  · exact hds.offset_le
  · have hle := hstop.offset_le
    rwa [String.ofList_toList] at hle
  · intro child hchild
    have hoffsets := h.offsets_of_mem hchild
    exact ⟨hoffsets.1, hoffsets.2.2⟩

/-- What stands at an address of a tree that lies over a text has its place there. -/
theorem placedIn_of_at? {source : String} {cs : List Char} {c d : Cursor} {raw m : RawNode}
    {a : List Nat} (hc : (Cursor.start source.toList).Reads cs c)
    (hspan : raw.location = ⟨c.pos, d.pos⟩) (h : Lies c d raw.children)
    (hm : raw.at? a = some m) : m.PlacedIn source := by
  induction a generalizing raw cs c d with
  | nil =>
      obtain rfl := Option.some.inj hm
      exact placedIn_of_lies hc hspan h
  | cons j a ih =>
      unfold RawNode.at? at hm
      cases hchild : raw.children[j]? with
      | none => simp [hchild] at hm
      | some child =>
          simp only [hchild] at hm
          obtain ⟨c₁, d₁, us, vs, hus, hspan₁, hchildren, -⟩ :=
            h.exists_of_mem (List.mem_of_getElem? hchild)
          exact ih (hc.trans hus) hspan₁ hchildren hm

end RawNode

/-- **Spans nest and are ordered.** In the raw tree of a program with statements every node has
its place in the text, the program spans all of it, the positions of the text are in the same order
by offset as by line and column, and building the program tree leaves every span as it is. -/
theorem spans_nest {source : String} {raw : RawNode} (h : parse source = .ok raw)
    (hne : raw.children ≠ []) :
    (∀ a m, raw.at? a = some m → m.PlacedIn source) ∧
      raw.location.start.offset = 0 ∧ raw.location.stop.offset = source.utf8ByteSize ∧
      (∀ p q : Position, p.In source.toList → q.In source.toList →
        (p.offset < q.offset ↔ toLex (p.line, p.column) < toLex (q.line, q.column))) ∧
      ∃ n, Node.build raw = .ok n ∧
        ∀ a, Option.Rel (fun m built => built.span = m.location) (raw.at? a) (n.at? a) := by
  obtain ⟨ts, raws, hts, hraws, -, rfl⟩ := parse_statements_iff.1 ⟨h, hne⟩
  obtain ⟨d, hstop, hlies⟩ := RawNode.lies_of_readsStatements hts hraws
  have hsize : (Position.first.after source.toList).offset = source.utf8ByteSize := by
    rw [(Position.marks_after source.toList).offset, String.ofList_toList]
  refine ⟨fun a m hm => ?_, rfl, hsize, fun p q hp hq => hp.offset_lt_iff hq, ?_⟩
  · refine RawNode.placedIn_of_at? (.refl _) ?_ hlies hm
    exact congrArg (Span.mk .first) hstop.symm
  · obtain ⟨n, hn⟩ := exists_build_of_parse h
    refine ⟨n, hn, fun a => ?_⟩
    have hat := (RawNode.builds_of_build hn).at? a
    generalize RawNode.at? _ a = r at hat
    generalize n.at? a = b at hat
    cases hat with
    | some hbuilds => exact .some hbuilds.copiedTo.span
    | none => exact .none

/-- A program on two lines, with a character of two bytes in it. -/
theorem spans_nest_accessOnSecondLine :
    ∃ raw m n, parse "a;\n'é'.b" = .ok raw ∧ raw.children ≠ [] ∧ raw.at? [1] = some m ∧
      m.location = ⟨⟨3, 2, 1⟩, ⟨9, 2, 6⟩⟩ ∧ m.PlacedIn "a;\n'é'.b" ∧
      raw.location.stop.offset = "a;\n'é'.b".utf8ByteSize ∧ Node.build raw = .ok n ∧
      ∀ a, Option.Rel (fun m built => built.span = m.location) (raw.at? a) (n.at? a) := by
  obtain ⟨raw, m, hparse, hne, hm, hspan⟩ : ∃ raw m, parse "a;\n'é'.b" = .ok raw ∧
      raw.children ≠ [] ∧ raw.at? [1] = some m ∧ m.location = ⟨⟨3, 2, 1⟩, ⟨9, 2, 6⟩⟩ :=
    ⟨_, _, rfl, List.cons_ne_nil _ _, rfl, rfl⟩
  obtain ⟨hplaced, -, hstop, -, n, hn, hspans⟩ := spans_nest hparse hne
  exact ⟨raw, m, n, hparse, hne, hm, hspan, hplaced [1] m hm, hstop, hn, hspans⟩

end ExprScript
