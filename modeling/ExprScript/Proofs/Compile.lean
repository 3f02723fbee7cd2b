import ExprScript.Compile
import ExprScript.Proofs.Raw.OfMatch
import ExprScript.Proofs.Script.Render

set_option autoImplicit false

/-! # Where a compilation can fail

What the grammar matches can be read, what is read can be built, and what is built has a
script. So a text is refused in two places only: where it is parsed, because the grammar does
not match it or an integer is out of range, and where it is analyzed.
-/

namespace ExprScript

open Grammar

/-- A match of a whole text is one tree of the program rule. -/
theorem exists_derived_of_matchProgram {cs : List Char} {d : Cursor} {ts : List (MatchTree Rule)}
    (h : matchProgram cs = .ok d ts) :
    ∃ m, ts = [m] ∧ programGrammar.Derived m ∧ m.rule = .program := by
  rw [matchProgram_eq_run] at h
  have hderived := derived_of_run h
  obtain ⟨us, -, rfl⟩ := (run_node_eq_ok_iff (G := programGrammar) (by decide) (by decide)).1 h
  exact ⟨_, rfl, hderived _ (by simp), rfl⟩

/-- **What parsing a text comes to:** a raw tree that describes a grammatical program, the
mismatch of a text that the grammar does not match, or an integer out of range. -/
theorem parse_cases (source : String) :
    (∃ raw, parse source = .ok raw ∧ raw.Means (· = .program)) ∨
      (matchProgram source.toList = .fail ∧ parse source = .error (mismatch source.toList)) ∨
      ∃ e, parse source = .error e ∧ e.IsRange := by
  rw [parse]
  split
  · exact .inl ⟨_, rfl, RawNode.means_leaf .program rfl rfl (by simp [Kind.Fits]) rfl⟩
  · cases hm : matchProgram source.toList with
    | ok d ts =>
        obtain ⟨m, rfl, hderived, hrule⟩ := exists_derived_of_matchProgram hm
        have hread : OrRange (RawNode.Means m.rule.Gives) (RawNode.ofMatch m) :=
          RawNode.read_of_derived hderived (by rw [hrule]; rfl)
        rw [hrule] at hread
        dsimp only
        cases hof : RawNode.ofMatch m with
        | ok raw =>
            rw [hof] at hread
            exact .inl ⟨raw, rfl, hread⟩
        | error e =>
            rw [hof] at hread
            exact .inr (.inr ⟨e, rfl, hread⟩)
    | fail => exact .inr (.inl ⟨rfl, rfl⟩)
    | exhausted => exact absurd hm (matchProgram_ne_exhausted _)

/-- Every text that is parsed is built. -/
theorem exists_build_of_parse {source : String} {raw : RawNode} (h : parse source = .ok raw) :
    ∃ n, Node.build raw = .ok n := by
  rcases parse_cases source with ⟨raw', hraw, n, hd, hg, -⟩ | ⟨-, hmis⟩ | ⟨e, he, -⟩
  · obtain rfl := Except.ok.inj (h.symm.trans hraw)
    obtain ⟨n', hn', -⟩ := Node.build_of_describes hd hg.shaped
    exact ⟨n', hn'⟩
  · rw [h] at hmis
    simp at hmis
  · rw [h] at he
    simp at he

/-- What is parsed and built is a grammatical program, and nodes have the children they call
for. -/
theorem grammatical_of_parse {source : String} {raw : RawNode} {p : Node}
    (hparse : parse source = .ok raw) (hbuild : Node.build raw = .ok p) :
    p.Grammatical ∧ p.Shaped ∧ p.kind = .program := by
  have hraw : Node.ofRaw 0 raw = (.ok p, (Node.ofRaw 0 raw).2) := Prod.ext hbuild rfl
  obtain ⟨hp, hshaped⟩ := Node.describes_of_ofRaw hraw
  rcases parse_cases source with ⟨raw', hraw', n, hd, hg, ht⟩ | ⟨-, hmis⟩ | ⟨e, he, -⟩
  · obtain rfl := Except.ok.inj (hparse.symm.trans hraw')
    refine ⟨hg.of_describes hd hp, hshaped, ?_⟩
    obtain ⟨hkind, -⟩ := hd
    obtain ⟨hkind', -⟩ := hp
    have hsame : n.kind = p.kind := Except.ok.inj (hkind.symm.trans hkind')
    rw [Node.type, hsame] at ht
    cases hk : p.kind <;> simp [hk, Kind.type] at ht
    rfl
  · rw [hparse] at hmis
    simp at hmis
  · rw [hparse] at he
    simp at he

/-- A text can be parsed if a test passes on the raw tree it gives. -/
theorem exists_raw_of_any (source : String) (f : RawNode → Bool)
    (h : (parse source).toOption.any f = true) : ∃ raw, parse source = .ok raw ∧ f raw = true := by
  cases hparse : parse source with
  | error e => simp [hparse, Except.toOption] at h
  | ok raw => exact ⟨raw, rfl, by simpa [hparse, Except.toOption] using h⟩

/-- A text can be parsed and built if a test passes on the tree it gives. -/
theorem exists_parsed_of_any (source : String) (f : Node → Bool)
    (h : ((parse source).toOption.bind fun raw => (Node.build raw).toOption).any f = true) :
    ∃ raw p, parse source = .ok raw ∧ Node.build raw = .ok p ∧ f p = true := by
  cases hparse : parse source with
  | error e => simp [hparse, Except.toOption] at h
  | ok raw =>
      cases hbuild : Node.build raw with
      | error e => simp [hparse, hbuild, Except.toOption] at h
      | ok p => exact ⟨raw, p, rfl, hbuild, by simpa [hparse, hbuild, Except.toOption] using h⟩

/-- A build returns trees that have a script. -/
theorem exists_generate_of_build {raw : RawNode} {n : Node} (h : Node.build raw = .ok n)
    (indent : String) : ∃ text, generate? indent n = some text := by
  have hraw : Node.ofRaw 0 raw = (.ok n, (Node.ofRaw 0 raw).2) := Prod.ext h rfl
  exact exists_generate_of_shaped (Node.describes_of_ofRaw hraw).2 indent

/-- **The grammar, the build and the generator agree.** Parsing a text gives a raw tree that is
built, or fails because the grammar does not match or because of an integer out of range. So a
compilation gives a script, or fails with the syntax error of the phase `parse`, or with the
diagnostics of the phase `analyze`. -/
theorem grammar_and_build_agree :
    (∀ source : String,
      (∃ raw n, parse source = .ok raw ∧ Node.build raw = .ok n) ∨
      (matchProgram source.toList = .fail ∧ parse source = .error (mismatch source.toList)) ∨
      ∃ text span, parse source = .error ⟨.integerRange (String.ofList text), span⟩ ∧
        Decimal.toInt64? (Decimal.ofSigned text) = none) ∧
    ∀ (settings : Settings) (source : SourceText),
      (∃ program text, programOf source = .ok program ∧
        settings.compile source = .ok text) ∨
      (∃ e r, parse source.content = .error e ∧ settings.compile source = .error r ∧
        r.phase = "parse" ∧ r.fault = .syntaxError e.message) ∨
      ∃ program d ds r, programOf source = .ok program ∧
        (defaultRules settings.globals).analyze program = d :: ds ∧
        settings.compile source = .error r ∧
        r.phase = "analyze" ∧ r.fault = .semantic (d :: ds) := by
  refine ⟨fun source => ?_, fun settings source => ?_⟩
  · rcases parse_cases source with ⟨raw, hraw, -⟩ | hmis | ⟨⟨cause, span⟩, he, text, rfl, hnone⟩
    · obtain ⟨n, hn⟩ := exists_build_of_parse hraw
      exact .inl ⟨raw, n, hraw, hn⟩
    · exact .inr (.inl hmis)
    · exact .inr (.inr ⟨text, span, he, hnone⟩)
  · cases hparse : parse source.content with
    | error e =>
        refine .inr (.inl ⟨e, .ofSyntaxError source "parse" e, rfl, ?_, rfl, rfl⟩)
        simp only [Settings.compile, Settings.check, programOf, parseSource, hparse]
    | ok raw =>
        -- what the parser gives is always built, so only the checks are left to fail
        obtain ⟨n, hn⟩ := exists_build_of_parse hparse
        have hprogram : programOf source = .ok n := by
          simp only [programOf, parseSource, hparse, buildProgramTree, Node.buildTree, hn]
        cases hds : (defaultRules settings.globals).analyze n with
        | nil =>
            obtain ⟨text, htext⟩ := exists_generate_of_build hn settings.indent
            refine .inl ⟨n, text, hprogram, ?_⟩
            simp only [Settings.compile, Settings.check, hprogram, Settings.analyze, hds,
              Settings.script, htext]
        | cons d ds =>
            refine .inr (.inr ⟨n, d, ds, .ofDiagnostics source "analyze" (d :: ds), hprogram, hds,
              ?_, rfl, rfl⟩)
            simp only [Settings.compile, Settings.check, hprogram, Settings.analyze, hds]

end ExprScript
