import ExprScript.Proofs.Compile
import ExprScript.Proofs.Grammar.Seam
import ExprScript.Proofs.Tree.Shape

set_option autoImplicit false

/-! # Layout means nothing

A run of layout that begins with a space can be replaced by any other such run
(`parse_relayout`): the program is still a program, its raw tree differs in the locations only, and
so the tree built from it has the same shape, the same script and the same undefined names. The run
has to stand outside of strings and comments, which is said of the text in front of it alone
(`Lexing.scan`).
-/

namespace ExprScript

open Grammar Rule Lexing

namespace Layout

/-- The text consists of spaces and of comments that end with their line. -/
inductive IsRun : List Char → Prop where
  | nil : IsRun []
  | space {c : Char} {cs : List Char} (hc : isSpace c = true) (h : IsRun cs) : IsRun (c :: cs)
  | comment {text cs : List Char} (htext : '\n' ∉ text) (h : IsRun cs) :
      IsRun ('/' :: '/' :: (text ++ '\n' :: cs))

/-- The text is a run of layout that begins with a space. -/
def Separates (w : List Char) : Prop :=
  ∃ c cs, w = c :: cs ∧ isSpace c = true ∧ IsRun cs

theorem skipComment_line {text : List Char} (htext : '\n' ∉ text) (cs : List Char)
    (p : Position) : ∃ p', skipComment p (text ++ '\n' :: cs) = skipFrom p' cs := by
  induction text generalizing p with
  | nil => exact ⟨_, by rw [List.nil_append, skipComment, if_pos rfl]⟩
  | cons x text ih =>
      rw [List.mem_cons, not_or] at htext
      obtain ⟨hx, hrest⟩ := htext
      obtain ⟨p', hp'⟩ := ih hrest (p.advance x)
      exact ⟨p', by rw [List.cons_append, skipComment, if_neg (Ne.symm hx), hp']⟩

/-- A run of layout is passed over. -/
theorem IsRun.skipFrom_append {w : List Char} (h : IsRun w) (v : List Char) (p : Position) :
    ∃ p', skipFrom p (w ++ v) = skipFrom p' v := by
  induction h generalizing p with
  | nil => exact ⟨p, rfl⟩
  | @space c cs hc _ ih =>
      obtain ⟨p', hp'⟩ := ih (p.advance c)
      exact ⟨p', by rw [List.cons_append, skipFrom_space hc, hp']⟩
  | @comment text cs htext _ ih =>
      obtain ⟨p₁, hp₁⟩ := skipComment_line htext (cs ++ v) ((p.advance '/').advance '/')
      obtain ⟨p', hp'⟩ := ih p₁
      refine ⟨p', ?_⟩
      rw [← hp', ← hp₁, ← skipFrom_comment]
      simp

theorem Separates.isRun {w : List Char} (h : Separates w) : IsRun w := by
  obtain ⟨c, cs, rfl, hc, hcs⟩ := h
  exact .space hc hcs

theorem Separates.apart {w : List Char} (h : Separates w) (v : List Char) : Apart (w ++ v) := by
  obtain ⟨c, cs, rfl, hc, -⟩ := h
  intro x hx
  obtain rfl : c = x := by simpa using hx
  simp [hc]

end Layout

open Layout

variable {w w' : List Char}

/-- Two runs of layout before the same text: behind them, the same characters are left. -/
def layoutSeam (hw : Separates w) (hw' : Separates w') (v : List Char) :
    Seam (w ++ v) (w' ++ v) where
  Ends st := st.mode = .code
  Past _ c c' := c.rest = c'.rest
  apart := hw.apart v
  apart' := hw'.apart v
  closed {st} hcode q := by
    rw [hcode]
    simp
  past_of_ends {m i l p p'} _ hcode := by
    obtain rfl : m = .code := hcode
    obtain ⟨q, hq⟩ := hw.isRun.skipFrom_append v p
    obtain ⟨q', hq'⟩ := hw'.isRun.skipFrom_append v p'
    show (skipFrom p (w ++ v)).rest = (skipFrom p' (w' ++ v)).rest
    rw [hq, hq']
    exact skip_rest_eq (show (Cursor.mk q v).rest = (Cursor.mk q' v).rest from rfl)
  past_skip h := skip_rest_eq h
  past_lit {t i j c c'} h _ :=
    (sameRest keepsText).lit (s := .spaced) (i := 0) (j := 0) ⟨rfl, rfl⟩ h
  past_word {r i c c'} h _ :=
    (sameRest keepsText).agree (i := 0) (j := 0) ⟨rfl, rfl⟩ h
      (programRanking.run_ne_exhausted rfl)

/-- The statements of a text with other layout in it differ in their places only. -/
theorem ReadsStatements.relayout {u v : List Char} (hu : (scan {} u).mode = .code)
    (hw : Separates w) (hw' : Separates w') {ts : List (MatchTree Rule)}
    (h : ReadsStatements (u ++ w ++ v) ts) :
    ∃ ts', ReadsStatements (u ++ w' ++ v) ts' ∧
      MatchTree.bares keepsText ts = MatchTree.bares keepsText ts' := by
  obtain ⟨d, hsteps, hend⟩ := h
  let S := layoutSeam hw hw' v
  -- strings and comments do not depend on brackets, so the program may stand among open ones,
  -- where semicolons are words like others
  have hfits : S.lockstep.Fits .spaced (.call .statement) 1 1 :=
    ⟨rfl, rfl, true, 1, 0, 0, fun _ => Nat.one_pos, rfl, rfl, rfl⟩
  have hbehind : S.Behind 1 (.start (u ++ w ++ v)) (.start (u ++ w' ++ v)) := by
    refine .inl ⟨u, List.append_assoc u w v, List.append_assoc u w' v, none, ?_⟩
    exact (scan_from {} u 1 none).1.trans hu
  obtain ⟨d', ts', hsteps', hd, hts⟩ := S.lockstep.steps hfits hbehind hsteps
  refine ⟨ts', ⟨d', hsteps', ?_⟩, hts⟩
  obtain ⟨-, ⟨x, hx, hsplit, -⟩ | hpast⟩ := S.near_skip hd
  · rw [hend] at hsplit
    exact absurd (List.append_eq_nil_iff.1 hsplit.symm).1 hx
  · rw [← hend]
    exact hpast.symm

/-- **Layout means nothing**: where a run of layout is replaced by another one, the program
differs in the locations of its nodes only. -/
theorem parse_relayout {u w w' v : String} {raw : RawNode}
    (hu : (scan {} u.toList).mode = .code)
    (hw : Separates w.toList) (hw' : Separates w'.toList)
    (hparse : parse (u ++ w ++ v) = .ok raw) (hraw : raw.children ≠ []) :
    ∃ raw', parse (u ++ w' ++ v) = .ok raw' ∧ raw'.unplaced = raw.unplaced ∧
      ∃ n n', Node.build raw = .ok n ∧ Node.build raw' = .ok n' ∧
        Node.sameShape n' n = true ∧
        (∀ indent, ∃ text, generate? indent n = some text ∧ generate? indent n' = some text) ∧
        ∀ globals, ∃ names, ReportsNames names ((defaultRules globals).analyze n) ∧
          ReportsNames names ((defaultRules globals).analyze n') := by
  obtain ⟨ts, raws, hts, hraws, hne, rfl⟩ := parse_statements_iff.1 ⟨hparse, hraw⟩
  rw [String.toList_append, String.toList_append] at hts
  obtain ⟨ts', hts', hbares⟩ := hts.relayout hu hw hw'
  rw [← String.toList_append, ← String.toList_append] at hts'
  obtain ⟨d, hsteps, -⟩ := hts
  obtain ⟨raws', hparse', halike⟩ :=
    hts'.exists_parse (derived_of_steps hsteps) hbares hraws hne
  have hunplaced : (RawNode.ofType .program raws (programSpan (u ++ w ++ v).toList)).unplaced =
      (RawNode.ofType .program raws' (programSpan (u ++ w' ++ v).toList)).unplaced :=
    RawNode.unplaced_ofType halike
  refine ⟨_, hparse', hunplaced.symm, ?_⟩
  obtain ⟨n, hn⟩ := exists_build_of_parse hparse
  -- locations play no part in a build
  obtain ⟨n', hn', hshape⟩ := Node.build_of_unplaced hn hunplaced
  refine ⟨n, n', hn, hn', Node.sameShape_iff_shape.2 hshape, fun indent => ?_, fun globals => ?_⟩
  · obtain ⟨text, htext⟩ := exists_generate_of_build hn indent
    refine ⟨text, htext, ?_⟩
    rw [← Node.generate?_shape, hshape, Node.generate?_shape, htext]
  · have hids {raw : RawNode} {n : Node} (h : Node.build raw = .ok n) : n.DistinctIds :=
      Node.buildTree_distinctIds (show Node.buildTree (.node raw) = .ok n from h)
    exact exists_names_of_shape (hids hn) (hids hn') hshape.symm globals

/-- A line break between two statements becomes a comment; the first of them ends with a string
that looks like one. -/
theorem parse_relayout_commentForBreak :
    ∃ raw raw' n n', parse ("let a = '//'" ++ "\n" ++ "a(b)") = .ok raw ∧
      raw.children.length = 2 ∧
      parse ("let a = '//'" ++ " // then\n\t" ++ "a(b)") = .ok raw' ∧
      raw'.unplaced = raw.unplaced ∧ Node.build raw = .ok n ∧ Node.build raw' = .ok n' ∧
      Node.sameShape n' n = true ∧
      ∃ names, ReportsNames names ((defaultRules []).analyze n) ∧
        ReportsNames names ((defaultRules []).analyze n') := by
  obtain ⟨raw, hparse, hlength⟩ : ∃ raw, parse ("let a = '//'" ++ "\n" ++ "a(b)") = .ok raw ∧
      raw.children.length = 2 := ⟨_, rfl, rfl⟩
  have hcomment : IsRun ("// then\n\t".toList) :=
    .comment (show '\n' ∉ " then".toList by decide) (.space rfl .nil)
  have hbreak : Separates ("\n".toList) := ⟨_, _, rfl, rfl, .nil⟩
  have hcommented : Separates (" // then\n\t".toList) := ⟨_, _, rfl, rfl, hcomment⟩
  have hne : raw.children ≠ [] := by
    rw [← List.length_pos_iff, hlength]
    decide
  obtain ⟨raw', hparse', hunplaced, n, n', hn, hn', hshape, -, hnames⟩ :=
    parse_relayout (by decide) hbreak hcommented hparse hne
  exact ⟨raw, raw', n, n', hparse, hlength, hparse', hunplaced, hn, hn', hshape, hnames []⟩

end ExprScript
