import ExprScript.Command.Run
import ExprScript.Proofs.Raw.Json
import ExprScript.Proofs.Raw.Spans

set_option autoImplicit false

/-! # Handing raw trees over

A raw tree that is written as JSON is read as the same tree, as long as it is not deeper than the
reader allows, and the script that is built from what one command prints is the script of the
source text (`rawTrees_survive_json`).
-/

namespace ExprScript

/-! ## Positions of a text -/

theorem length_le_utf8ByteSize (cs : List Char) :
    cs.length ≤ (String.ofList cs).utf8ByteSize := by
  induction cs with
  | nil => exact Nat.zero_le _
  | cons c cs ih =>
      have hsplit : String.ofList (c :: cs) = String.singleton c ++ String.ofList cs := by
        rw [String.singleton_eq_ofList, ← String.ofList_append]
        rfl
      have hpos := c.utf8Size_pos
      rw [hsplit, String.utf8ByteSize_append, String.utf8ByteSize_singleton, List.length_cons]
      omega

/-- The positions of a text have 64 bits if one more than its bytes can be counted so. -/
theorem Position.In.fits {cs : List Char} {p : Position} (h : In cs p)
    (hsize : (String.ofList cs).utf8ByteSize + 1 < UInt64.size) : p.Fits := by
  obtain ⟨before, ⟨behind, rfl⟩, hmarks⟩ := h
  rw [String.ofList_append, String.utf8ByteSize_append] at hsize
  have hlength := length_le_utf8ByteSize before
  have hlines := before.count_le_length (a := '\n')
  have hcolumn := (List.takeWhile_sublist (l := before.reverse) (· != '\n')).length_le
  rw [List.length_reverse] at hcolumn
  refine ⟨?_, ?_, ?_⟩
  · rw [hmarks.offset]
    omega
  · rw [hmarks.line]
    omega
  · rw [hmarks.column]
    omega

/-- What lies over a text of such a size has positions of 64 bits. -/
theorem RawNode.fits_of_lies {text cs : List Char} {c d : Cursor} {raw : RawNode}
    (hsize : (String.ofList text).utf8ByteSize + 1 < UInt64.size)
    (hc : (Cursor.start text).Reads cs c) (hspan : raw.location = ⟨c.pos, d.pos⟩)
    (h : Lies c d raw.children) : raw.Fits := by
  induction raw using childrenInduction generalizing cs c d with
  | step raw ih =>
      obtain ⟨ds, hds⟩ := h.exists_reads
      refine .intro ?_ fun child hchild => ?_
      · rw [hspan]
        exact ⟨hc.pos_in.fits hsize, (hc.trans hds).pos_in.fits hsize⟩
      · obtain ⟨c₁, d₁, us, vs, hus, hspan₁, hchildren, -⟩ := h.exists_of_mem hchild
        exact ih child hchild (hc.trans hus) hspan₁ hchildren

theorem fits_of_parse {source : String} {raw : RawNode}
    (hsize : source.utf8ByteSize + 1 < UInt64.size) (h : parse source = .ok raw) : raw.Fits := by
  cases hblank : source.toList.all isBlank with
  | true =>
      rw [parse, if_pos hblank] at h
      obtain rfl := Except.ok.inj h
      have hzero : Position.zero.Fits := ⟨by decide, by decide, by decide⟩
      exact .intro ⟨hzero, hzero⟩ (by simp [RawNode.emptyProgram, RawNode.ofType])
  | false =>
      obtain ⟨ts, raws, hts, hraws, rfl⟩ := (parse_eq_ok_iff hblank).1 h
      obtain ⟨d, hstop, hlies⟩ := RawNode.lies_of_readsStatements hts hraws
      refine RawNode.fits_of_lies ?_ (.refl _) (congrArg (Span.mk .first) hstop.symm) hlies
      rwa [String.ofList_toList]

/-! ## Reading what was written -/

/-- The phase `parse` ends with a syntax error. -/
def FailsToParse {α : Type} (x : Except Report α) : Prop :=
  ∃ report message, x = .error report ∧ report.phase = "parse" ∧
    report.fault = .syntaxError message

namespace RawTree

def text (sp : Json.Spacing) (tree : RawTree) : String :=
  String.ofList (Json.spell sp 0 tree.toJson)

/-- The text is that of the raw tree in some spacing, with space behind it. -/
inductive HasText (tree : RawTree) (text : String) : Prop where
  | intro (sp : Json.Spacing) (after : List Char) (space : ∀ c ∈ after, Json.isSpace c = true)
    (eq : text.toList = Json.spell sp 0 tree.toJson ++ after)

theorem hasText_text (tree : RawTree) (sp : Json.Spacing) : tree.HasText (tree.text sp) :=
  .intro sp [] (by simp) (by rw [text, String.toList_ofList, List.append_nil])

theorem hasText_pretty (tree : RawTree) : tree.HasText (tree.toJson.pretty ++ "\n") :=
  .intro .indented ['\n'] (List.forall_mem_singleton.2 rfl)
    (by rw [String.toList_append, Json.toList_pretty]; rfl)

section HasText

variable {tree : RawTree} {text : String}

theorem HasText.read? (h : tree.HasText text) (hfits : tree.Fits) :
    Json.read? text =
      if tree.toJson.nesting ≤ Json.maxDepth then some tree.toJson else none := by
  obtain ⟨sp, after, hspace, heq⟩ := h
  have hread := Json.read?_spell sp (plain_toJson hfits) hspace
  rwa [← heq, String.ofList_toList] at hread

theorem HasText.readRawTree (h : tree.HasText text) (hfits : tree.Fits)
    (hdeep : tree.toJson.nesting ≤ Json.maxDepth) (name : String) :
    ExprScript.readRawTree ⟨name, text⟩ = .ok tree := by
  unfold ExprScript.readRawTree
  simp only [h.read? hfits, if_pos hdeep, ofJson?_toJson hfits]

theorem HasText.failsToParse (h : tree.HasText text) (hfits : tree.Fits)
    (hdeep : ¬tree.toJson.nesting ≤ Json.maxDepth) (name : String) :
    FailsToParse (ExprScript.readRawTree ⟨name, text⟩) := by
  unfold ExprScript.readRawTree
  simp only [h.read? hfits, if_neg hdeep]
  exact ⟨_, _, rfl, rfl, rfl⟩

end HasText

theorem nesting_node_le_iff {raw : RawNode} :
    (RawTree.node raw).toJson.nesting ≤ Json.maxDepth ↔ raw.depth ≤ 63 := by
  rw [toJson, RawNode.nesting_toJson_le_iff, Json.maxDepth]
  omega

theorem nesting_nodes_le_iff {raws : List RawNode} :
    (RawTree.nodes raws).toJson.nesting ≤ Json.maxDepth ↔ ∀ raw ∈ raws, raw.depth ≤ 62 := by
  rw [toJson, Json.maxDepth, RawNode.nesting_toJsons_le_iff]
  exact forall₂_congr fun raw _ => by omega

/-- The two forms may be tried in either order. -/
theorem ofJson?_eq_or (v : Json) :
    ofJson? v = ((RawNode.ofList? v).map .nodes).or ((RawNode.ofJson? v).map .node) := by
  rcases RawNode.ofJson?_eq_none_or_ofList?_eq_none v with hnone | hnone
  · rw [ofJson?, hnone, Option.map_none, Option.none_or, Option.or_none]
  · rw [ofJson?, hnone, Option.map_none, Option.none_or, Option.or_none]

end RawTree

/-! ## Building what was printed -/

/-- A script is made of a raw tree in three steps, none of which looks at the text behind the
tree. -/
theorem Settings.compileRaw_eq_ok_iff {settings : Settings} {source : SourceText} {raw : RawTree}
    {script : String} :
    settings.compileRaw source raw = .ok script ↔
      ∃ program, Node.buildTree raw = .ok program ∧
        (defaultRules settings.globals).analyze program = [] ∧
        generate? settings.indent program = some script := by
  unfold compileRaw buildProgramTree analyze Settings.script
  cases hbuild : Node.buildTree raw with
  | error e => simp
  | ok program =>
      cases hfound : (defaultRules settings.globals).analyze program with
      | cons d ds => simp [hfound]
      | nil => cases hscript : generate? settings.indent program <;> simp [hfound, hscript]

/-- Compiling a text is compiling its raw tree. -/
theorem Settings.compile_of_parse (settings : Settings) (source : SourceText) {raw : RawNode}
    (h : parse source.content = .ok raw) :
    settings.compile source = settings.compileRaw source (.node raw) := by
  unfold compile check programOf parseSource compileRaw
  simp only [h]
  cases buildProgramTree source (.node raw) <;> rfl

namespace Command

/-- How a step ends in a workspace, and the workspace it leaves. -/
def Step.resultIn {α : Type} (w : Workspace) (step : Step (StateM Workspace) α) :
    Except Report α × Workspace :=
  StateT.run (ExceptT.run step) w

section Steps

variable {α β : Type} {w w' : Workspace}

theorem resultIn_bind {x : Step (StateM Workspace) α} {a : α} (h : x.resultIn w = (.ok a, w'))
    (f : α → Step (StateM Workspace) β) : (x >>= f).resultIn w = (f a).resultIn w' := by
  have hrun : StateT.run (ExceptT.run x) w = pure (.ok a, w') := h
  unfold Step.resultIn
  rw [ExceptT.run_bind, StateT.run_bind, hrun, pure_bind]

theorem resultIn_readFile {path content : String} (h : w.read path = .ok content) :
    (readFile path).resultIn w = (.ok content, w) := by
  unfold Step.resultIn readFile
  simp only [FileSystem.read, bind_pure_comp, ExceptT.run_bind, ExceptT.run_lift, Functor.map_map,
    bind_map_left, StateT.run_bind, StateT.run_get, pure_bind, h, ExceptT.run_pure, StateT.run_pure]
  rfl

theorem resultIn_ofPhase (a : α) : (ofPhase (.ok a)).resultIn w = (.ok a, w) := rfl

/-- The raw tree of a text is printed. -/
theorem resultIn_raw {file source : String} {raw : RawNode} (hfile : w.read file = .ok source)
    (hparse : ExprScript.parse source = .ok raw) (settings : Settings) :
    (perform settings (.raw file)).resultIn w = (.ok { out := raw.toJson.pretty ++ "\n" }, w) := by
  have hphase : parseSource ⟨file, source⟩ = .ok raw := by
    rw [parseSource, hparse]
  unfold perform
  rw [resultIn_bind (resultIn_readFile hfile), hphase, resultIn_bind (resultIn_ofPhase raw)]
  rfl

/-- The script of a raw tree that is read from a file is emitted. -/
theorem resultIn_build {json text : String} {tree : RawTree} (hfile : w.read json = .ok text)
    (hread : readRawTree ⟨json, text⟩ = .ok tree) (settings : Settings)
    (output : Option String) :
    (perform settings (.build json output)).resultIn w =
      (ofPhase (settings.compileRaw (.fallback json) tree) >>=
        fun script => emit script output).resultIn w := by
  unfold perform
  rw [resultIn_bind (resultIn_readFile hfile), hread, resultIn_bind (resultIn_ofPhase tree)]

end Steps

end Command

section

open Command

/-- **Raw trees survive the JSON format up to its depth limit, and the format is unambiguous.** The
text of a node is read as that node if the node has at most 63 levels, in every spacing, and the
text of a list of nodes is read as that list if each of them has at most 62; otherwise the text is
refused. No value stands for a node and for a list, so it does not matter which is tried first. What
is printed of the raw tree of a text, whose positions 64 bits can count, is built to the script of
the text. -/
theorem rawTrees_survive_json :
    (∀ (sp : Json.Spacing) (name : String) (raw : RawNode), raw.Fits →
      (raw.depth ≤ 63 → readRawTree ⟨name, (RawTree.node raw).text sp⟩ = .ok (.node raw)) ∧
      (63 < raw.depth → FailsToParse (readRawTree ⟨name, (RawTree.node raw).text sp⟩))) ∧
    (∀ (sp : Json.Spacing) (name : String) (raws : List RawNode), (∀ raw ∈ raws, raw.Fits) →
      ((∀ raw ∈ raws, raw.depth ≤ 62) →
        readRawTree ⟨name, (RawTree.nodes raws).text sp⟩ = .ok (.nodes raws)) ∧
      ((∃ raw ∈ raws, 62 < raw.depth) →
        FailsToParse (readRawTree ⟨name, (RawTree.nodes raws).text sp⟩))) ∧
    (∀ v : Json, (RawNode.ofJson? v = none ∨ RawNode.ofList? v = none) ∧
      RawTree.ofJson? v = ((RawNode.ofList? v).map .nodes).or ((RawNode.ofJson? v).map .node)) ∧
    ∀ (settings : Settings) (w : Workspace) (file source : String) (raw : RawNode),
      w.read file = .ok source → source.utf8ByteSize + 1 < UInt64.size →
      ExprScript.parse source = .ok raw → raw.depth ≤ 63 →
      ∃ text, (perform settings (.raw file)).resultIn w = (.ok { out := text }, w) ∧
        ∀ (w' : Workspace) (json : String) (output : Option String), w'.read json = .ok text →
          (∀ script, settings.compile ⟨file, source⟩ = .ok script →
            (perform settings (.build json output)).resultIn w' =
              (emit script output).resultIn w') ∧
          ∀ report, settings.compile ⟨file, source⟩ = .error report →
            ∃ report',
              (perform settings (.build json output)).resultIn w' = (.error report', w') := by
  refine ⟨fun sp name raw hfits => ⟨fun hdepth => ?_, fun hdepth => ?_⟩,
    fun sp name raws hfits => ⟨fun hdepth => ?_, fun hdepth => ?_⟩,
    fun v => ⟨RawNode.ofJson?_eq_none_or_ofList?_eq_none v, RawTree.ofJson?_eq_or v⟩,
    fun settings w file source raw hfile hsize hparse hdepth => ?_⟩
  · exact ((RawTree.node raw).hasText_text sp).readRawTree (.node hfits)
      (RawTree.nesting_node_le_iff.2 hdepth) name
  · refine ((RawTree.node raw).hasText_text sp).failsToParse (.node hfits) ?_ name
    rw [RawTree.nesting_node_le_iff]
    omega
  · exact ((RawTree.nodes raws).hasText_text sp).readRawTree (.nodes hfits)
      (RawTree.nesting_nodes_le_iff.2 hdepth) name
  · refine ((RawTree.nodes raws).hasText_text sp).failsToParse (.nodes hfits) ?_ name
    obtain ⟨raw, hraw, hdeep⟩ := hdepth
    rw [RawTree.nesting_nodes_le_iff]
    intro hall
    have hle := hall raw hraw
    omega
  · refine ⟨_, resultIn_raw hfile hparse settings, fun w' json output hjson => ?_⟩
    have hread : readRawTree ⟨json, raw.toJson.pretty ++ "\n"⟩ = .ok (.node raw) :=
      (RawTree.node raw).hasText_pretty.readRawTree (.node (fits_of_parse hsize hparse))
        (RawTree.nesting_node_le_iff.2 hdepth) json
    -- both commands compile one raw tree; only the text that reports point into differs
    rw [resultIn_build hjson hread, settings.compile_of_parse ⟨file, source⟩ hparse]
    refine ⟨fun script hscript => ?_, fun report hreport => ?_⟩
    · rw [Settings.compileRaw_eq_ok_iff.2 (Settings.compileRaw_eq_ok_iff.1 hscript)]
      exact resultIn_bind (resultIn_ofPhase script) _
    · cases hbuilt : settings.compileRaw (.fallback json) (.node raw) with
      | error report' => exact ⟨report', rfl⟩
      | ok script =>
          rw [Settings.compileRaw_eq_ok_iff.2 (Settings.compileRaw_eq_ok_iff.1 hbuilt)] at hreport
          cases hreport

/-- An integer in `k` arrays, all at the last position that 64 bits can count. -/
def nestedArrays : Nat → RawNode
  | 0 => { RawNode.ofType .integer [] ⟨⟨UInt64.size - 1, 1, 1⟩, ⟨UInt64.size - 1, 1, 1⟩⟩ with
      value := some (.integer Int64.minValue) }
  | k + 1 => .ofType .array [nestedArrays k] ⟨⟨UInt64.size - 1, 1, 1⟩, ⟨UInt64.size - 1, 1, 1⟩⟩

theorem fits_nestedArrays (k : Nat) : (nestedArrays k).Fits := by
  have hlast : Position.Fits ⟨UInt64.size - 1, 1, 1⟩ := ⟨by decide, by decide, by decide⟩
  induction k with
  | zero => exact .intro ⟨hlast, hlast⟩ (by simp [nestedArrays, RawNode.ofType])
  | succ k ih => exact .intro ⟨hlast, hlast⟩ (List.forall_mem_singleton.2 ih)

theorem depth_nestedArrays (k : Nat) : (nestedArrays k).depth = k + 1 := by
  induction k with
  | zero => rfl
  | succ k ih => simp [nestedArrays, RawNode.ofType, RawNode.depth, RawNode.depths, ih]

/-- A tree and a list of trees that are as deep as they can be, the same with one level more, and a
text whose raw tree is printed and built. -/
theorem rawTrees_survive_json_atLimits :
    (readRawTree ⟨"a.json", (RawTree.node (nestedArrays 62)).text .indented⟩ =
        .ok (.node (nestedArrays 62)) ∧
      FailsToParse (readRawTree ⟨"a.json", (RawTree.node (nestedArrays 63)).text .indented⟩)) ∧
    (readRawTree ⟨"a.json", (RawTree.nodes [nestedArrays 0, nestedArrays 61]).text .compact⟩ =
        .ok (.nodes [nestedArrays 0, nestedArrays 61]) ∧
      FailsToParse
        (readRawTree ⟨"a.json", (RawTree.nodes [nestedArrays 0, nestedArrays 62]).text .compact⟩)) ∧
    ∃ (w : Workspace) (raw : RawNode) (text : String),
      w.read "a.kb" = .ok "let f = (x) -> [x, \x7b y: 1 \x7d]; f" ∧
      ExprScript.parse "let f = (x) -> [x, \x7b y: 1 \x7d]; f" = .ok raw ∧ raw.depth ≤ 63 ∧
      Settings.compile {} ⟨"a.kb", "let f = (x) -> [x, \x7b y: 1 \x7d]; f"⟩ =
        .ok "const f = (x) => [x,\x7b y: 1 \x7d]\nf" ∧
      (perform {} (.raw "a.kb")).resultIn w = (.ok { out := text }, w) ∧
      ∀ w' : Workspace, w'.read "a.json" = .ok text →
        (perform {} (.build "a.json" none)).resultIn w' =
          (.ok { out := "const f = (x) => [x,\x7b y: 1 \x7d]\nf\n" }, w') := by
  obtain ⟨hnode, hnodes, -, hbuild⟩ := rawTrees_survive_json
  have hpair (j k : Nat) : ∀ raw ∈ [nestedArrays j, nestedArrays k], raw.Fits := by
    simp [fits_nestedArrays]
  refine ⟨⟨(hnode .indented "a.json" _ (fits_nestedArrays 62)).1 ?_,
    (hnode .indented "a.json" _ (fits_nestedArrays 63)).2 ?_⟩,
    ⟨(hnodes .compact "a.json" _ (hpair 0 61)).1 ?_,
      (hnodes .compact "a.json" _ (hpair 0 62)).2 ?_⟩, ?_⟩
  · rw [depth_nestedArrays]
  · rw [depth_nestedArrays]
    omega
  · simp [depth_nestedArrays]
  · refine ⟨nestedArrays 62, by simp, ?_⟩
    rw [depth_nestedArrays]
    omega
  · obtain ⟨raw, hparse, hdepth⟩ := exists_raw_of_any "let f = (x) -> [x, \x7b y: 1 \x7d]; f"
      (fun raw => raw.depth ≤ 63) (by decide +kernel)
    have hdepth := of_decide_eq_true hdepth
    have hscript : Settings.compile {} ⟨"a.kb", "let f = (x) -> [x, \x7b y: 1 \x7d]; f"⟩ =
        .ok "const f = (x) => [x,\x7b y: 1 \x7d]\nf" := by decide +kernel
    have hfile : Workspace.read ⟨[(["a.kb"], "let f = (x) -> [x, \x7b y: 1 \x7d]; f")]⟩ "a.kb" =
        .ok "let f = (x) -> [x, \x7b y: 1 \x7d]; f" := by
      have hroot : "a.kb".startsWith "/" = false := by simp
      unfold Workspace.read Workspace.fileAt? Workspace.resolve?
      rw [hroot]
      rfl
    obtain ⟨text, hraw, hsame⟩ := hbuild {} _ "a.kb" _ raw hfile (by decide) hparse hdepth
    exact ⟨_, raw, text, hfile, hparse, hdepth, hscript, hraw,
      fun w' hjson => (hsame w' "a.json" none hjson).1 _ hscript⟩

end

end ExprScript
