import ExprScript.Proofs.Grammar.Words
import ExprScript.Proofs.Raw.Program

set_option autoImplicit false

/-! # Raw trees without their places

`RawNode.unplaced` leaves everything of a raw tree but the locations. Matches that differ in their
places only give raw trees that differ in their places only (`unplaceds_of_bares`): of the texts of
matches, only those of words are looked at.
-/

namespace ExprScript

open Grammar MatchTree Rule

namespace RawNode

mutual

def unplaced : RawNode → RawNode
  | ⟨tag, children, _, value, name, variableName, mutable, operator⟩ =>
    ⟨tag, unplaceds children, .empty, value, name, variableName, mutable, operator⟩

def unplaceds : List RawNode → List RawNode
  | [] => []
  | raw :: raws => raw.unplaced :: unplaceds raws

end

theorem unplaceds_eq_map (raws : List RawNode) : unplaceds raws = raws.map unplaced := by
  induction raws with
  | nil => rfl
  | cons raw raws ih => rw [unplaceds, List.map_cons, ih]

theorem unplaced_ofType {T : NodeType} {raws raws' : List RawNode} {span span' : Span}
    (h : unplaceds raws = unplaceds raws') :
    (ofType T raws span).unplaced = (ofType T raws' span').unplaced := by
  simp only [ofType, unplaced, h]

theorem unplaceds_cons {raw raw' : RawNode} {raws raws' : List RawNode}
    (h : raw.unplaced = raw'.unplaced) (hs : unplaceds raws = unplaceds raws') :
    unplaceds (raw :: raws) = unplaceds (raw' :: raws') := by
  rw [unplaceds, unplaceds, h, hs]

/-- Lists that agree but for locations are both empty, or agree part by part. -/
theorem unplaceds_cons_eq {raw : RawNode} {raws others : List RawNode}
    (h : unplaceds (raw :: raws) = unplaceds others) :
    ∃ raw' raws', others = raw' :: raws' ∧ raw.unplaced = raw'.unplaced ∧
      unplaceds raws = unplaceds raws' := by
  obtain _ | ⟨raw', raws'⟩ := others
  · cases h
  · exact ⟨raw', raws', rfl, List.cons.inj h⟩

end RawNode

/-! ## Results that mirror each other -/

/-- Where the first computation has a value, so has the second, and the two are related. -/
def Mirrors {ε α β : Type} (R : α → β → Prop) (x : Except ε α) (y : Except ε β) : Prop :=
  ∀ a, x = .ok a → ∃ b, y = .ok b ∧ R a b

namespace Mirrors

variable {ε α β γ δ : Type} {R : α → β → Prop} {S : γ → δ → Prop}

theorem pure {a : α} {b : β} (h : R a b) :
    Mirrors R (Pure.pure a : Except ε α) (Pure.pure b : Except ε β) := by
  intro a' ha
  obtain rfl := Except.ok.inj ha
  exact ⟨b, rfl, h⟩

theorem error {e : ε} {y : Except ε β} : Mirrors R (.error e : Except ε α) y := by
  intro a ha
  cases ha

theorem bind {x : Except ε α} {y : Except ε β} {f : α → Except ε γ} {g : β → Except ε δ}
    (h : Mirrors R x y) (hfg : ∀ a b, R a b → Mirrors S (f a) (g b)) :
    Mirrors S (x >>= f) (y >>= g) := by
  intro c hc
  cases x with
  | error e => cases hc
  | ok a =>
      obtain ⟨b, rfl, hab⟩ := h a rfl
      exact hfg a b hab c hc

end Mirrors

/-! ## Matches that differ in their places -/

namespace MatchTree

variable {keep : Rule → Bool}

theorem bare_node_eq {r : Rule} {span : Span} {text : List Char} {ms : List (MatchTree Rule)}
    {m : MatchTree Rule} (h : (MatchTree.node r span text ms).bare keep = m.bare keep) :
    ∃ span' text' ms', m = .node r span' text' ms' ∧ (keep r = true → text = text') ∧
      bares keep ms = bares keep ms' := by
  obtain ⟨r', span', text', ms'⟩ := m
  obtain ⟨rfl, -, htext, hms⟩ := MatchTree.node.inj h
  refine ⟨span', text', ms', rfl, fun hkeep => ?_, hms⟩
  simpa only [hkeep, if_true] using htext

theorem bares_cons_eq {m : MatchTree Rule} {ms others : List (MatchTree Rule)}
    (h : bares keep (m :: ms) = bares keep others) :
    ∃ m' ms', others = m' :: ms' ∧ m.bare keep = m'.bare keep ∧ bares keep ms = bares keep ms' := by
  obtain _ | ⟨m', ms'⟩ := others
  · cases h
  · exact ⟨m', ms', rfl, List.cons.inj h⟩

/-- A match keeps its rule without its places. -/
theorem bares_filter (keep p : Rule → Bool) (ms : List (MatchTree Rule)) :
    bares keep (ms.filter (p ·.rule)) = (bares keep ms).filter (p ·.rule) := by
  have hrule : (fun m : MatchTree Rule => p (m.bare keep).rule) = fun m => p m.rule := by
    funext m
    obtain ⟨r, span, text, ts⟩ := m
    rfl
  rw [bares_eq_map, bares_eq_map, List.filter_map, Function.comp_def, hrule]

end MatchTree

namespace RawNode

/-- The raw trees are the same but for locations. -/
abbrev Alike (raw raw' : RawNode) : Prop := raw.unplaced = raw'.unplaced

abbrev AlikeAll (raws raws' : List RawNode) : Prop := unplaceds raws = unplaceds raws'

/-- A match that differs from `m` in its places gives a raw tree that does. -/
def Follows (m : MatchTree Rule) : Prop :=
  ∀ m', m.bare keepsText = m'.bare keepsText → Mirrors Alike (ofMatch m) (ofMatch m')

variable {ms ms' : List (MatchTree Rule)}

theorem mirrors_ofMatches (h : ∀ m ∈ ms, Follows m)
    (hms : bares keepsText ms = bares keepsText ms') :
    Mirrors AlikeAll (ofMatches ms) (ofMatches ms') := by
  induction ms generalizing ms' with
  | nil =>
      obtain _ | ⟨m', ms'⟩ := ms'
      · rw [ofMatches]
        exact .pure rfl
      · cases hms
  | cons m ms ih =>
      obtain ⟨m', ms', rfl, hm, hrest⟩ := bares_cons_eq hms
      obtain ⟨hfollows, hfollowss⟩ := List.forall_mem_cons.1 h
      rw [ofMatches, ofMatches]
      refine (hfollows m' hm).bind fun raw raw' hraw => ?_
      exact (ih hfollowss hrest).bind fun raws raws' hraws => .pure (unplaceds_cons hraw hraws)

/-- Most rules put the trees of some matches under one node. -/
theorem mirrors_under {T : NodeType} {span span' : Span} (h : ∀ m ∈ ms, Follows m)
    (hms : bares keepsText ms = bares keepsText ms') :
    Mirrors Alike (do return ofType T (← ofMatches ms) span)
      (do return ofType T (← ofMatches ms') span') :=
  (mirrors_ofMatches h hms).bind fun _ _ hraws => .pure (unplaced_ofType hraws)

theorem mirrors_ofStatements (h : ∀ m ∈ ms, Follows m)
    (hms : bares keepsText ms = bares keepsText ms') :
    Mirrors AlikeAll (ofStatements ms) (ofStatements ms') := by
  have hfilter := bares_filter keepsText (· ≠ .endOfInput)
  rw [ofStatements_eq, ofStatements_eq]
  refine mirrors_ofMatches (fun m hm => h m (List.mem_of_mem_filter hm)) ?_
  exact (hfilter ms).trans ((congrArg _ hms).trans (hfilter ms').symm)

/-- Suffixes are folded in the same way onto targets that are alike. -/
theorem mirrors_ofSuffixes {start start' : Position} {target target' : RawNode}
    (h : ∀ m ∈ ms, ∀ k ∈ m.children, Follows k)
    (hms : bares keepsText ms = bares keepsText ms') (htarget : Alike target target') :
    Mirrors Alike (ofSuffixes start target ms) (ofSuffixes start' target' ms') := by
  induction ms generalizing ms' target target' with
  | nil =>
      obtain _ | ⟨m', ms'⟩ := ms'
      · rw [ofSuffixes, ofSuffixes]
        exact .pure htarget
      · cases hms
  | cons m ms ih =>
      obtain ⟨m', ms', rfl, hm, hrest⟩ := bares_cons_eq hms
      obtain ⟨hinner, hinners⟩ := List.forall_mem_cons.1 h
      obtain ⟨r, span, text, ks⟩ := m
      obtain ⟨span', text', ks', rfl, -, hks⟩ := bare_node_eq hm
      cases r with
      | arguments =>
          rw [ofSuffixes, ofSuffixes]
          refine (mirrors_ofMatches hinner hks).bind fun raws raws' hraws => ?_
          exact ih hinners hrest (unplaced_ofType
            (unplaceds_cons htarget (unplaceds_cons (unplaced_ofType hraws) rfl)))
      | property =>
          obtain _ | ⟨name, others⟩ := ks
          · exact .error
          · obtain ⟨name', others', rfl, hname, -⟩ := bares_cons_eq hks
            rw [ofSuffixes, ofSuffixes]
            refine (hinner name List.mem_cons_self name' hname).bind fun raw raw' hraw => ?_
            exact ih hinners hrest
              (unplaced_ofType (unplaceds_cons htarget (unplaceds_cons hraw rfl)))
      | _ => exact .error

/-- An expression is its only operand, or a binary expression. -/
theorem follows_expression {span : Span} {text : List Char} (h : ∀ m ∈ ms, Follows m) :
    Follows (.node .expression span text ms) := by
  intro m' hm'
  obtain ⟨span', text', ms', rfl, -, hms⟩ := bare_node_eq hm'
  rw [ofMatch, ofMatch]
  refine (mirrors_ofMatches h hms).bind fun raws raws' hraws => ?_
  obtain _ | ⟨raw, raws⟩ := raws
  · obtain _ | ⟨raw', raws'⟩ := raws'
    · exact .pure rfl
    · cases hraws
  · obtain ⟨raw', raws', rfl, hraw, hrest⟩ := unplaceds_cons_eq hraws
    obtain _ | ⟨other, raws⟩ := raws
    · obtain _ | ⟨other', raws'⟩ := raws'
      · exact .pure hraw
      · cases hrest
    · obtain ⟨other', raws', rfl, -, -⟩ := unplaceds_cons_eq hrest
      exact .pure (unplaced_ofType hraws)

/-- One rule: a match is followed if the matches inside it, and inside those, are. -/
theorem follows_node {r : Rule} {span : Span} {text : List Char}
    (hd : programGrammar.Derived (.node r span text ms)) (h : ∀ m ∈ ms, Follows m)
    (hinner : ∀ m ∈ ms, ∀ k ∈ m.children, Follows k) : Follows (.node r span text ms) := by
  intro m' hm'
  have hparts := parts_of_derived hd
  obtain ⟨span', text', ms', rfl, htext, hms⟩ := bare_node_eq hm'
  cases r with
  | expression => exact follows_expression h _ hm'
  | program =>
      rw [ofMatch, ofMatch]
      exact (mirrors_ofStatements h hms).bind fun _ _ hraws => .pure (unplaced_ofType hraws)
  | functionDeclaration =>
      -- of the first two matches only the text of the name is looked at, which is an identifier
      obtain ⟨k, ⟨_, _, name, _⟩, params, body, rfl, rfl, -, -⟩ := hparts
      obtain ⟨k', _, rfl, -, hms⟩ := bares_cons_eq hms
      obtain ⟨_, _, rfl, hname, hms⟩ := bares_cons_eq hms
      obtain ⟨params', body', rfl, hparams, hbody⟩ := bares_cons_eq hms
      obtain ⟨_, _, _, rfl, hname, -⟩ := bare_node_eq hname
      obtain rfl := hname rfl
      rw [ofMatch, ofMatch]
      refine (h params (by simp) params' hparams).bind fun raw raw' hraw => ?_
      refine (mirrors_ofMatches (fun m hm => h m (by simp [hm])) hbody).bind
        fun raws raws' hraws => .pure ?_
      simp only [Alike, ofType, unplaced, unplaceds_cons hraw hraws]
  | variableDeclaration =>
      obtain ⟨⟨_, _, _, _⟩, ⟨_, _, name, _⟩, value, rfl, rfl, -⟩ := hparts
      obtain ⟨_, _, rfl, hword, hms⟩ := bares_cons_eq hms
      obtain ⟨_, values, rfl, hname, hvalue⟩ := bares_cons_eq hms
      obtain ⟨_, _, _, rfl, -, -⟩ := bare_node_eq hword
      obtain ⟨_, _, _, rfl, hname, -⟩ := bare_node_eq hname
      obtain rfl := hname rfl
      rw [ofMatch, ofMatch]
      refine (mirrors_ofMatches (fun m hm => h m (by simp [List.mem_singleton.1 hm])) hvalue).bind
        fun raws raws' hraws => .pure ?_
      simp only [Alike, ofType, unplaced, show unplaceds raws = unplaceds raws' from hraws]
  | namedFunction | returnExpression =>
      obtain _ | ⟨word, parts⟩ := ms
      · exact .error
      · obtain ⟨word', parts', rfl, -, hms⟩ := bares_cons_eq hms
        rw [ofMatch, ofMatch]
        exact mirrors_under (fun m hm => h m (by simp [hm])) hms
  | anonymousFunction | parameters | arguments | array | object | objectProperty =>
      rw [ofMatch, ofMatch]
      exact mirrors_under h hms
  | operand =>
      obtain ⟨target, suffixes, rfl, -, -⟩ := hparts
      obtain ⟨target', suffixes', rfl, htarget, hms⟩ := bares_cons_eq hms
      rw [ofMatch, ofMatch]
      refine (h target (by simp) target' htarget).bind fun raw raw' hraw => ?_
      exact mirrors_ofSuffixes (fun m hm => hinner m (by simp [hm])) hms hraw
  | binaryOperator | boolean | identifier =>
      obtain rfl := htext rfl
      rw [ofMatch, ofMatch]
      exact .pure rfl
  | void =>
      rw [ofMatch, ofMatch]
      exact .pure rfl
  | integer =>
      obtain rfl := htext rfl
      rw [ofMatch, ofMatch]
      split
      · exact .pure rfl
      · exact .error
  | string =>
      obtain ⟨⟨q, _, content, _⟩, rfl, hq⟩ := hparts
      obtain ⟨_, _, rfl, hcontent, -⟩ := bares_cons_eq hms
      obtain ⟨_, _, _, rfl, hcontent, -⟩ := bare_node_eq hcontent
      have hkeep : keepsText q = true := by
        rcases hq with hq | hq <;> (obtain rfl := hq; rfl)
      obtain rfl := hcontent hkeep
      rw [ofMatch, ofMatch]
      exact .pure rfl
  | _ => exact .error

theorem follows_of_derived {m : MatchTree Rule} (h : programGrammar.Derived m) : Follows m := by
  have key : Follows m ∧ ∀ k ∈ m.children, Follows k := by
    -- suffixes of an operand have no raw trees of their own, so the induction keeps what holds of
    -- the children as well
    induction h with
    | node hs hr hbody hts ih =>
        exact ⟨follows_node (.node hs hr hbody hts) (fun m hm => (ih m hm).1)
          (fun m hm => (ih m hm).2), fun k hk => (ih k hk).1⟩
  exact key.1

/-- **Matches that differ in their places give raw trees that differ in theirs.** -/
theorem unplaceds_of_bares {raws : List RawNode} (hd : ∀ m ∈ ms, programGrammar.Derived m)
    (hms : bares keepsText ms = bares keepsText ms') (h : ofMatches ms = .ok raws) :
    ∃ raws', ofMatches ms' = .ok raws' ∧ unplaceds raws = unplaceds raws' :=
  mirrors_ofMatches (fun m hm => follows_of_derived (hd m hm)) hms raws h

end RawNode

/-! ## Programs -/

theorem derived_of_steps {s : Setting} {a : Peg Rule} {c d : Cursor} {ts : List (MatchTree Rule)}
    (h : programGrammar.Steps s a c d ts) : ∀ m ∈ ts, programGrammar.Derived m := by
  induction h with
  | refl => simp
  | head hrun _ ih => exact List.forall_mem_append.2 ⟨derived_of_run hrun, ih⟩

/-- A text whose statements differ from those of a program in their places is a program as well,
and its raw tree differs in the locations. -/
theorem ReadsStatements.exists_parse {source : String} {ts ts' : List (MatchTree Rule)}
    {raws : List RawNode} (h : ReadsStatements source.toList ts)
    (hd : ∀ m ∈ ts', programGrammar.Derived m) (hts : bares keepsText ts' = bares keepsText ts)
    (hraws : RawNode.ofMatches ts' = .ok raws) (hne : raws ≠ []) :
    ∃ raws', parse source = .ok (.ofType .program raws' (programSpan source.toList)) ∧
      RawNode.unplaceds raws = RawNode.unplaceds raws' := by
  obtain ⟨raws', hraws', halike⟩ := RawNode.unplaceds_of_bares hd hts hraws
  have hne' : raws' ≠ [] := by
    rintro rfl
    obtain _ | ⟨raw, raws⟩ := raws
    · exact hne rfl
    · cases halike
  obtain ⟨hparse, -⟩ := parse_statements_iff.2 ⟨ts, raws', h, hraws', hne', rfl⟩
  exact ⟨raws', hparse, halike⟩

end ExprScript
