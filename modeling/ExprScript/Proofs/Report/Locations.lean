import ExprScript.Proofs.Check.Undefined
import ExprScript.Proofs.Raw.Exchange
import ExprScript.Proofs.Raw.Faults
import ExprScript.Proofs.Tree.Counter

set_option autoImplicit false

/-! # The places that reports point to

The region of a span ends at the larger of the two offsets (`Region.offset_add_len`), so whether it
fits into a text, and whether its end has 64 bits, is seen from the span. A report takes a region
that does not fit back to the start and shows no label for it, so what it shows always fits.

For a text that is compiled none of this is ever needed: its syntax errors stand in the text
(`standsIn_of_parse`), and so do the identifiers that a check reports (`span_liesIn`).
-/

namespace ExprScript

/-! ## Regions -/

namespace Region

theorem offset_add_len (s : Span) :
    (ofSpan s).offset + (ofSpan s).len = max s.start.offset s.stop.offset := by
  show s.start.offset + (s.stop.offset - s.start.offset) = _
  omega

theorem fits_ofSpan_iff {s : Span} {n : Nat} :
    (ofSpan s).fits n = true ↔ max s.start.offset s.stop.offset ≤ n := by
  rw [fits, offset_add_len, decide_eq_true_iff]

/-- The end of the region of a span has 64 bits if the ends of the span do, whichever of them
comes first. -/
theorem offset_add_len_lt {s : Span} (h : s.Fits) :
    (ofSpan s).offset + (ofSpan s).len < UInt64.size := by
  rw [offset_add_len]
  exact max_lt h.start.offset h.stop.offset

end Region

theorem Span.LiesIn.fits {source : SourceText} {s : Span} (h : s.LiesIn source.content.toList) :
    (Region.ofSpan s).fits source.size = true := by
  rw [Region.fits_ofSpan_iff]
  have hstop := h.stop.offset_le
  rw [String.ofList_toList] at hstop
  have hordered := h.ordered
  exact max_le (hordered.trans hstop) hstop

/-! ## Reports -/

namespace Report

variable {source : SourceText} {phase : String} {fault : Fault} {region : Region}

theorem create_primary (h : region.fits source.size = true) :
    (create source phase fault region).primary = region := by
  rw [create, if_pos h]

/-- Whatever region a fault is reported at, the primary region fits into the text. -/
theorem fits_create : (create source phase fault region).primary.fits source.size = true := by
  rw [create]
  by_cases h : region.fits source.size = true
  · rw [if_pos h]
    exact h
  · rw [if_neg h]
    exact decide_eq_true (Nat.zero_le _)

/-- If the primary region fits, all that is shown does. -/
theorem fits_of_mem_labels {r : Report} (h : r.primary.fits r.source.size = true)
    {l : Region × String} (hl : l ∈ r.labels) : l.1.fits r.source.size = true := by
  unfold labels at hl
  split at hl
  · exact (List.mem_filter.1 hl).2
  · rw [List.mem_singleton.1 hl]
    exact h

/-- A diagnostic has a label unless its span ends outside the text. -/
theorem labels_ofDiagnostics (ds : List Diagnostic) :
    (ofDiagnostics source phase ds).labels =
      (ds.filter fun d => max d.span.start.offset d.span.stop.offset ≤ source.size).map
        fun d => (.ofSpan d.span, d.message) := by
  show (ds.map fun d => (Region.ofSpan d.span, d.message)).filter
    (fun l => l.1.fits source.size) = _
  rw [List.filter_map]
  congr 1
  refine List.filter_congr fun d _ => ?_
  rw [Bool.eq_iff_iff, decide_eq_true_iff]
  exact Region.fits_ofSpan_iff

end Report

/-! ## The spans of built trees -/

theorem Span.fits_empty : Span.empty.Fits :=
  ⟨⟨by decide, by decide, by decide⟩, ⟨by decide, by decide, by decide⟩⟩

namespace Node

/-- What stands at an address of a built tree has the span of what stands there in the raw
tree. -/
theorem exists_raw_of_at? {raw : RawNode} {p n : Node} {a : List Nat} (h : raw.Builds p)
    (hn : p.at? a = some n) : ∃ m, raw.at? a = some m ∧ n.span = m.location := by
  have hat := h.at? a
  rw [hn] at hat
  generalize raw.at? a = r at hat
  cases hat with
  | some hbuilds => exact ⟨_, rfl, hbuilds.copiedTo.span⟩

theorem span_fits {tree : RawTree} {p n : Node} {a : List Nat} (hfits : tree.Fits)
    (h : buildTree tree = .ok p) (hn : p.at? a = some n) : n.span.Fits := by
  cases hfits with
  | @node root hroot =>
      obtain ⟨m, hm, hspan⟩ := exists_raw_of_at? (RawNode.builds_of_build h) hn
      rw [hspan]
      exact hroot.at? hm
  | @nodes roots hroots =>
      rw [buildTree, buildProgram] at h
      split at h
      · cases h
      · rename_i nodes next hnodes
        obtain rfl := Except.ok.inj h
        obtain _ | ⟨j, b⟩ := a
        · -- the root has no text behind it
          obtain rfl := Option.some.inj hn
          exact Span.fits_empty
        · obtain ⟨child, hchild, hn⟩ := at?_cons_eq_some.1 hn
          obtain ⟨root, hroot, hbuilds⟩ :=
            getElem?_of_forall₂ (RawNode.forall₂_builds hnodes).flip hchild
          obtain ⟨m, hm, hspan⟩ := exists_raw_of_at? hbuilds hn
          rw [hspan]
          exact (hroots root (List.mem_of_getElem? hroot)).at? hm

/-- The nodes below the root of a program that was parsed lie in its text. -/
theorem span_liesIn {source : String} {raw : RawNode} {p n : Node} {a : List Nat}
    (hparse : parse source = .ok raw) (h : build raw = .ok p) (hn : p.at? a = some n)
    (ha : a ≠ []) : n.span.LiesIn source.toList := by
  obtain ⟨m, hm, hspan⟩ := exists_raw_of_at? (RawNode.builds_of_build h) hn
  have hne : raw.children ≠ [] := by
    intro hnil
    obtain ⟨j, b, rfl⟩ := List.exists_cons_of_ne_nil ha
    rw [RawNode.at?, hnil] at hm
    cases hm
  obtain ⟨ts, raws, hts, hraws, -, rfl⟩ := parse_statements_iff.1 ⟨hparse, hne⟩
  obtain ⟨d, hstop, hlies⟩ := RawNode.lies_of_readsStatements hts hraws
  have hlocation : programSpan source.toList = ⟨.first, d.pos⟩ :=
    congrArg (Span.mk .first) hstop.symm
  have hplaced := RawNode.placedIn_of_at? (.refl _) hlocation hlies hm
  rw [hspan]
  exact ⟨hplaced.start, hplaced.stop, hplaced.ordered⟩

/-- The error of a build has the location of a node of the raw trees. -/
theorem exists_location_of_ofRaws {raws : List RawNode} {next last : Nat} {e : BuildError}
    (h : ofRaws next raws = (.error e, last)) :
    ∃ raw ∈ raws, ∃ a x, raw.at? a = some x ∧ e.span = x.location := by
  have hfollows : RawCheck.Follows (RawNode.checksFrom 0 raws) next (ofRaws next raws) :=
    follows_ofRaws (fun raw _ next => follows_ofRaw raw next) 0 next
  rw [h] at hfollows
  cases hfollows with
  | @stopped _ before after c split pass fails ahead =>
      have hc : c ∈ RawNode.checksFrom 0 raws := by simp [split]
      obtain ⟨l, raw, d, hl, hd, rfl⟩ := RawNode.of_mem_checksFrom hc
      obtain ⟨fault, rfl⟩ := RawNode.FailsAt.exists_fault fails
      exact ⟨raw, List.mem_of_getElem? hl, d.place, d.node, RawNode.at?_of_mem_checks hd, rfl⟩

theorem error_span_fits {tree : RawTree} {e : BuildError} (hfits : tree.Fits)
    (h : buildTree tree = .error e) : e.span.Fits := by
  cases hfits with
  | @node root hroot =>
      obtain ⟨c, hstops⟩ := RawNode.exists_stopsAt (show ofRaw 0 root = (.error e, _) from
        Prod.ext h rfl)
      rw [hstops.span]
      exact hroot.at? hstops.stands
  | @nodes roots hroots =>
      rw [buildTree, buildProgram] at h
      split at h
      · rename_i e' next hnodes
        obtain rfl := Except.error.inj h
        obtain ⟨root, hroot, a, x, hx, hspan⟩ := exists_location_of_ofRaws hnodes
        rw [hspan]
        exact (hroots root hroot).at? hx
      · cases h

end Node

/-! ## What a compilation reports -/

namespace Settings

variable {settings : Settings} {source : SourceText} {r : Report}

/-- A raw tree that does not compile cannot be built, or is reported by the check. -/
theorem compileRaw_error_cases {tree : RawTree} (h : settings.compileRaw source tree = .error r) :
    (∃ e, Node.buildTree tree = .error e ∧ r = .ofBuildError source "build" e) ∨
      ∃ p d ds, Node.buildTree tree = .ok p ∧
        (defaultRules settings.globals).analyze p = d :: ds ∧
        r = .ofDiagnostics source "analyze" (d :: ds) := by
  unfold compileRaw buildProgramTree analyze at h
  cases hbuild : Node.buildTree tree with
  | error e =>
      simp only [hbuild] at h
      exact .inl ⟨e, rfl, (Except.error.inj h).symm⟩
  | ok p =>
      simp only [hbuild] at h
      cases hfound : (defaultRules settings.globals).analyze p with
      | cons d ds =>
          simp only [hfound] at h
          exact .inr ⟨p, d, ds, rfl, hfound, (Except.error.inj h).symm⟩
      | nil =>
          obtain ⟨text, htext⟩ :=
            exists_generate_of_shaped (Node.shaped_of_buildTree hbuild) settings.indent
          simp only [hfound, Settings.script, htext] at h
          cases h

/-- A text that does not compile cannot be parsed, or is reported by the check. -/
theorem compile_error_cases (h : settings.compile source = .error r) :
    (∃ e, parse source.content = .error e ∧ r = .ofSyntaxError source "parse" e) ∨
      ∃ raw p d ds, parse source.content = .ok raw ∧ Node.build raw = .ok p ∧
        (defaultRules settings.globals).analyze p = d :: ds ∧
        r = .ofDiagnostics source "analyze" (d :: ds) := by
  cases hparse : parse source.content with
  | error e =>
      unfold compile check programOf parseSource at h
      simp only [hparse] at h
      exact .inl ⟨e, rfl, (Except.error.inj h).symm⟩
  | ok raw =>
      rw [settings.compile_of_parse source hparse] at h
      obtain ⟨p, hp⟩ := exists_build_of_parse hparse
      obtain ⟨e, he, -⟩ | ⟨q, d, ds, hq, hfound, hr⟩ := compileRaw_error_cases h
      · cases he.symm.trans hp
      · exact .inr ⟨raw, q, d, ds, rfl, hq, hfound, hr⟩

end Settings

namespace Report

/-- The report of a text that does not compile points to what it is about: to the place of the
syntax error, or to the undefined identifiers, each with a label of its own. -/
inductive Locates (settings : Settings) (source : SourceText) (r : Report) : Prop where
  | syntaxError {e : SyntaxError} (parsed : parse source.content = .error e)
      (stands : e.StandsIn source.content) (fault : r.fault = .syntaxError e.message)
      (primary : r.primary = .ofSpan e.span)
      (labels : r.labels = [(.ofSpan e.span, "unexpected input")])
  | semantic {p : Node} {d : Diagnostic} {ds : List Diagnostic} (built : programOf source = .ok p)
      (found : (defaultRules settings.globals).analyze p = d :: ds)
      (stand : ∀ d' ∈ d :: ds, d'.span.LiesIn source.content.toList ∧
        ∃ a n name, p.UndefinedAt settings.globals a n name ∧ d' = undefinedName name n.span)
      (fault : r.fault = .semantic (d :: ds)) (primary : r.primary = .ofSpan d.span)
      (labels : r.labels = (d :: ds).map fun d => (.ofSpan d.span, d.message))

/-- What the report of a raw tree shows fits into the text, whatever locations the tree has, and
no number on the way there has more than 64 bits. -/
inductive Shows (settings : Settings) (source : SourceText) (tree : RawTree) (r : Report) :
    Prop where
  | build {e : BuildError} (built : Node.buildTree tree = .error e)
      (report : r = .ofBuildError source "build" e)
      (sum : (Region.ofSpan e.span).offset + (Region.ofSpan e.span).len < UInt64.size)
  | semantic {p : Node} {d : Diagnostic} {ds : List Diagnostic}
      (built : Node.buildTree tree = .ok p)
      (found : (defaultRules settings.globals).analyze p = d :: ds)
      (report : r = .ofDiagnostics source "analyze" (d :: ds))
      (sums : ∀ d' ∈ d :: ds,
        (Region.ofSpan d'.span).offset + (Region.ofSpan d'.span).len < UInt64.size)
      (labels : r.labels =
        ((d :: ds).filter fun d =>
          max d.span.start.offset d.span.stop.offset ≤ source.size).map
            fun d => (.ofSpan d.span, d.message))

theorem locates_ofSyntaxError {settings : Settings} {source : SourceText} {e : SyntaxError}
    (h : parse source.content = .error e) :
    (ofSyntaxError source "parse" e).Locates settings source := by
  have hstands := standsIn_of_parse h
  have hprimary : (ofSyntaxError source "parse" e).primary = .ofSpan e.span :=
    create_primary (Span.LiesIn.fits hstands.liesIn)
  refine .syntaxError h hstands rfl hprimary ?_
  show [((ofSyntaxError source "parse" e).primary, "unexpected input")] = _
  rw [hprimary]

theorem locates_ofDiagnostics {settings : Settings} {source : SourceText} {raw : RawNode} {p : Node}
    {d : Diagnostic} {ds : List Diagnostic} (hparse : parse source.content = .ok raw)
    (hbuild : Node.build raw = .ok p)
    (hfound : (defaultRules settings.globals).analyze p = d :: ds) :
    (ofDiagnostics source "analyze" (d :: ds)).Locates settings source := by
  have hbuilt : Node.buildTree (.node raw) = .ok p := hbuild
  have hkind : p.kind = .program := (grammatical_of_parse hparse hbuild).2.2
  have hstand : ∀ d' ∈ d :: ds, d'.span.LiesIn source.content.toList ∧
      ∃ a n name, p.UndefinedAt settings.globals a n name ∧ d' = undefinedName name n.span := by
    intro d' hd'
    rw [← hfound] at hd'
    obtain ⟨a, n, name, hn, rfl⟩ :=
      exists_undefinedAt_of_mem_analyze (Node.buildTree_distinctIds hbuilt) hd'
    exact ⟨Node.span_liesIn hparse hbuild hn.here (hn.place_ne_nil hkind), a, n, name, hn, rfl⟩
  have hfits : ∀ d' ∈ d :: ds, (Region.ofSpan d'.span).fits source.size = true :=
    fun d' hd' => Span.LiesIn.fits (hstand d' hd').1
  refine .semantic ?_ hfound hstand rfl (create_primary (hfits d List.mem_cons_self)) ?_
  · unfold programOf parseSource buildProgramTree
    simp only [hparse, hbuilt]
  · rw [labels_ofDiagnostics, List.filter_eq_self.2]
    intro d' hd'
    exact decide_eq_true (Region.fits_ofSpan_iff.1 (hfits d' hd'))

end Report

/-- **Reports point to places that can be used.** For a text that does not compile, the primary
region is the place of the syntax error or of the first undefined identifier, and every undefined
identifier has its label. For a raw tree, whose locations can be anything of 64 bits, all that is
shown fits into the text and a label is left out exactly where it would not. -/
theorem reports_locate :
    (∀ (settings : Settings) (source : SourceText) (r : Report),
      settings.compile source = .error r →
        r.Locates settings source ∧ r.primary.offset + r.primary.len ≤ source.size) ∧
    ∀ (settings : Settings) (source : SourceText) (tree : RawTree) (r : Report), tree.Fits →
      settings.compileRaw source tree = .error r →
        r.Shows settings source tree ∧ r.primary.offset + r.primary.len ≤ source.size ∧
          ∀ l ∈ r.labels, l.1.offset + l.1.len ≤ source.size := by
  refine ⟨fun settings source r h => ?_, fun settings source tree r hfits h => ?_⟩
  · obtain ⟨e, he, rfl⟩ | ⟨raw, p, d, ds, hparse, hbuild, hfound, rfl⟩ :=
      Settings.compile_error_cases h
    · exact ⟨Report.locates_ofSyntaxError he, of_decide_eq_true Report.fits_create⟩
    · exact ⟨Report.locates_ofDiagnostics hparse hbuild hfound,
        of_decide_eq_true Report.fits_create⟩
  · -- `create` has checked the primary region, and `labels` checks every label
    have hshown : ∀ (phase : String) (fault : Fault) (region : Region),
        r = .create source phase fault region →
          r.primary.offset + r.primary.len ≤ source.size ∧
            ∀ l ∈ r.labels, l.1.offset + l.1.len ≤ source.size := by
      rintro phase fault region rfl
      exact ⟨of_decide_eq_true Report.fits_create, fun l hl =>
        of_decide_eq_true (Report.fits_of_mem_labels Report.fits_create hl)⟩
    obtain ⟨e, he, hr⟩ | ⟨p, d, ds, hbuild, hfound, hr⟩ := Settings.compileRaw_error_cases h
    · refine ⟨.build he hr ?_, hshown _ _ _ hr⟩
      exact Region.offset_add_len_lt (Node.error_span_fits hfits he)
    · refine ⟨.semantic hbuild hfound hr ?_ ?_, hshown _ _ _ hr⟩
      · intro d' hd'
        rw [← hfound] at hd'
        obtain ⟨a, n, name, hn, rfl⟩ :=
          exists_undefinedAt_of_mem_analyze (Node.buildTree_distinctIds hbuild) hd'
        exact Region.offset_add_len_lt (Node.span_fits hfits hbuild hn.here)
      · rw [hr]
        exact Report.labels_ofDiagnostics _

/-- A name whose span begins at the last offset of 64 bits and ends at zero. -/
def reversedName : RawNode :=
  { RawNode.ofType .identifier [] ⟨⟨UInt64.size - 1, 0, 0⟩, .zero⟩ with
    value := some (.string "a") }

theorem reports_locate_reversedName :
    (∃ r, Settings.compile {} ⟨"text", "1;a"⟩ = .error r ∧ r.Locates {} ⟨"text", "1;a"⟩ ∧
      r.primary = ⟨2, 1⟩) ∧
    (RawTree.node reversedName).Fits ∧
    ∃ r, Settings.compileRaw {} ⟨"text", "1;a"⟩ (.node reversedName) = .error r ∧
      r.Shows {} ⟨"text", "1;a"⟩ (.node reversedName) ∧ r.primary = .start ∧ r.labels = [] := by
  have hfits : (RawTree.node reversedName).Fits := by
    have hlocation : reversedName.location.Fits :=
      ⟨⟨by decide, by decide, by decide⟩, Span.fits_empty.stop⟩
    exact .node (.intro hlocation (by simp [reversedName, RawNode.ofType]))
  have htext : Settings.compile {} ⟨"text", "1;a"⟩ =
      .error (.ofDiagnostics ⟨"text", "1;a"⟩ "analyze"
        [undefinedName "a" ⟨⟨2, 1, 3⟩, ⟨3, 1, 4⟩⟩]) := by decide +kernel
  have htree : Settings.compileRaw {} ⟨"text", "1;a"⟩ (.node reversedName) =
      .error (.ofDiagnostics ⟨"text", "1;a"⟩ "analyze"
        [undefinedName "a" reversedName.location]) := by decide +kernel
  exact ⟨⟨_, htext, (reports_locate.1 _ _ _ htext).1, by decide⟩, hfits,
    ⟨_, htree, (reports_locate.2 _ _ _ _ hfits htree).1, by decide, by decide⟩⟩

end ExprScript
