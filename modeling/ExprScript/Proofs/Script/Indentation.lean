import ExprScript.Proofs.Script.StandardLibrary
import ExprScript.Proofs.Script.Statements

set_option autoImplicit false

/-! # Indentation

A block is indented by cutting the finished texts of its statements into lines again, at every
level anew. What comes out is nevertheless only a matter of layout: a script is a list of lines,
each with a depth, and the indent is written as often in front of a line as its depth says
(`indentation_is_layout`).

The texts that are put together are taken as functions of the indent, and those with such a list of
lines are `Laid`. A list that begins and ends at depth 0 is `Flush`. This is what every step keeps:
two texts in a row share the last line of the one and the first line of the other, and the last
line of a statement, which is left out of a block if it is empty, is empty for every indent or for
none.
-/

namespace ExprScript

/-! ## Lines with a depth -/

structure ScriptLine where
  depth : Nat
  text : String
deriving Repr, DecidableEq

namespace ScriptLine

def written (indent : String) (l : ScriptLine) : String :=
  String.join (List.replicate l.depth indent) ++ l.text

def deeper (l : ScriptLine) : ScriptLine := { l with depth := l.depth + 1 }

theorem written_deeper (indent : String) (l : ScriptLine) :
    l.deeper.written indent = indent ++ l.written indent := by
  simp [written, deeper, List.replicate_succ, String.append_assoc]

theorem written_zero (indent text : String) : written indent ⟨0, text⟩ = text := by
  simp [written]

end ScriptLine

open ScriptLine

def laidOut (indent : String) (ls : List ScriptLine) : String :=
  "\n".intercalate (ls.map (written indent))

theorem laidOut_cons_cons (indent : String) (l m : ScriptLine) (ls : List ScriptLine) :
    laidOut indent (l :: m :: ls) = l.written indent ++ "\n" ++ laidOut indent (m :: ls) := by
  simp [laidOut]

/-- The lines begin and end without an indent, and none of them holds a line feed. -/
structure Flush (ls : List ScriptLine) : Prop where
  first : ls.head?.map depth = some 0
  last : ls.getLast?.map depth = some 0
  unbroken : ∀ l ∈ ls, '\n' ∉ l.text.toList

def Breakless (indent : String) : Prop := '\n' ∉ indent.toList ∧ '\r' ∉ indent.toList

/-- The text is one list of lines under every indent that does not break a line. -/
def Laid (f : String → String) : Prop :=
  ∃ ls, Flush ls ∧ ∀ indent, Breakless indent → f indent = laidOut indent ls

theorem Flush.singleton {text : String} (h : '\n' ∉ text.toList) : Flush [⟨0, text⟩] :=
  ⟨rfl, rfl, by simpa using h⟩

/-- A first line at depth 0. -/
theorem Flush.exists_cons {ls : List ScriptLine} (h : Flush ls) :
    ∃ text rest, ls = ⟨0, text⟩ :: rest := by
  obtain ⟨⟨d, text⟩, hl, hd⟩ := Option.map_eq_some_iff.1 h.first
  obtain ⟨rest, rfl⟩ := List.head?_eq_some_iff.1 hl
  obtain rfl : d = 0 := hd
  exact ⟨text, rest, rfl⟩

/-- A last line at depth 0. -/
theorem Flush.exists_concat {ls : List ScriptLine} (h : Flush ls) :
    ∃ front text, ls = front ++ [⟨0, text⟩] := by
  obtain ⟨⟨d, text⟩, hl, hd⟩ := Option.map_eq_some_iff.1 h.last
  obtain ⟨front, rfl⟩ := List.getLast?_eq_some_iff.1 hl
  obtain rfl : d = 0 := hd
  exact ⟨front, text, rfl⟩

/-! ## Texts in a row -/

/-- Where two texts meet, the last part of the one and the first of the other are one. -/
theorem intercalate_glue (sep : String) (as : List String) (a b : String) (bs : List String) :
    sep.intercalate (as ++ (a ++ b) :: bs) =
      sep.intercalate (as ++ [a]) ++ sep.intercalate (b :: bs) := by
  induction as with
  | nil => simp
  | cons x as ih =>
      rw [List.cons_append, List.cons_append, String.intercalate_cons_of_ne_nil (by simp),
        String.intercalate_cons_of_ne_nil (by simp), ih]
      simp only [String.append_assoc]

theorem Flush.glue {front back : List ScriptLine} {a b : String}
    (h : Flush (front ++ [⟨0, a⟩])) (h' : Flush (⟨0, b⟩ :: back)) :
    Flush (front ++ ⟨0, a ++ b⟩ :: back) := by
  refine ⟨?_, ?_, ?_⟩
  · cases front with
    | nil => rfl
    | cons l front => exact h.first
  · cases back with
    | nil => simp
    | cons l back => simpa [List.getLast?_cons] using h'.last
  · intro l hl
    rcases List.mem_append.1 hl with hl | hl
    · exact h.unbroken l (by simp [hl])
    · rcases List.mem_cons.1 hl with rfl | hl
      · have ha := h.unbroken ⟨0, a⟩ (by simp)
        have hb := h'.unbroken ⟨0, b⟩ (by simp)
        simpa using ⟨ha, hb⟩
      · exact h'.unbroken l (by simp [hl])

namespace Laid

theorem append {f g : String → String} (hf : Laid f) (hg : Laid g) :
    Laid fun indent => f indent ++ g indent := by
  obtain ⟨ls, hls, hf⟩ := hf
  obtain ⟨ms, hms, hg⟩ := hg
  obtain ⟨front, a, rfl⟩ := hls.exists_concat
  obtain ⟨b, back, rfl⟩ := hms.exists_cons
  refine ⟨_, hls.glue hms, fun indent hindent => ?_⟩
  show f indent ++ g indent = _
  rw [hf indent hindent, hg indent hindent]
  simp only [laidOut, List.map_append, List.map_cons, List.map_nil, written_zero]
  exact (intercalate_glue "\n" _ a b _).symm

theorem of_unbroken {text : String} (h : '\n' ∉ text.toList) : Laid fun _ => text :=
  ⟨[⟨0, text⟩], .singleton h, fun indent _ => by simp [laidOut, written_zero]⟩

/-- A text that does not depend on the indent, whatever line feeds it holds. -/
theorem const (text : String) : Laid fun _ => text := by
  have hchars : ∀ cs : List Char, Laid fun _ => String.ofList cs := by
    intro cs
    induction cs with
    | nil => exact of_unbroken (by simp)
    | cons c cs ih =>
        have hfirst : Laid fun _ => String.ofList [c] := by
          by_cases hfeed : c = '\n'
          · subst hfeed
            exact ⟨[⟨0, ""⟩, ⟨0, ""⟩], ⟨rfl, rfl, by simp⟩, fun indent _ => by
              simp [laidOut, written_zero]⟩
          · exact of_unbroken (by simpa using Ne.symm hfeed)
        simpa [← String.ofList_append] using hfirst.append ih
  simpa using hchars text.toList

theorem intercalate (sep : String) {fs : List (String → String)} (h : ∀ f ∈ fs, Laid f) :
    Laid fun indent => sep.intercalate (fs.map (· indent)) := by
  induction fs with
  | nil => exact const ""
  | cons f fs ih =>
      have hf := h f List.mem_cons_self
      have hfs := ih fun g hg => h g (List.mem_cons_of_mem f hg)
      cases fs with
      | nil => simpa using hf
      | cons g fs =>
          have hall := (hf.append (const sep)).append hfs
          simpa using hall

end Laid

/-! ## Cutting a text into its lines -/

def chopped (text : String) : String := String.ofList (chopReturn text.toList.reverse).reverse

/-- What is left of lines when their text is cut into lines again. -/
def cut : List ScriptLine → List ScriptLine
  | [] => []
  | [l] => if l.text = "" then [] else [l]
  | l :: m :: ls => { l with text := chopped l.text } :: cut (m :: ls)

theorem chopReturn_append {as bs : List Char} (h : '\r' ∉ bs) :
    chopReturn (as ++ bs) = chopReturn as ++ bs := by
  cases as with
  | nil =>
      cases bs with
      | nil => rfl
      | cons b bs =>
          have hb : b ≠ '\r' := fun hb => h (by simp [hb])
          simp [chopReturn, hb]
  | cons a as =>
      by_cases ha : a = '\r'
      · subst ha
        rfl
      · simp [chopReturn, ha]

theorem chopReturn_subset (cs : List Char) : chopReturn cs ⊆ cs := by
  unfold chopReturn
  split
  · exact List.subset_cons_self _ _
  · exact List.Subset.refl _

theorem chopped_append {a b : String} (h : '\r' ∉ a.toList) :
    chopped (a ++ b) = a ++ chopped b := by
  have hrev : '\r' ∉ a.toList.reverse := by simpa using h
  simp [chopped, chopReturn_append hrev, String.ofList_append]

/-- A character of a margin is one of the indent. -/
theorem mem_margin {c : Char} {d : Nat} {indent : String}
    (h : c ∈ (String.join (List.replicate d indent)).toList) : c ∈ indent.toList := by
  induction d with
  | zero => simp at h
  | succ d ih =>
      rw [List.replicate_succ, String.join_cons, String.toList_append, List.mem_append] at h
      exact h.elim id ih

theorem feed_notMem_written {indent : String} {l : ScriptLine} (hindent : Breakless indent)
    (hl : '\n' ∉ l.text.toList) : '\n' ∉ (l.written indent).toList := by
  rw [written, String.toList_append, List.mem_append]
  rintro (h | h)
  · exact hindent.1 (mem_margin h)
  · exact hl h

theorem chopped_written {indent : String} (hindent : Breakless indent) (l : ScriptLine) :
    chopped (l.written indent) = written indent { l with text := chopped l.text } :=
  chopped_append fun h => hindent.2 (mem_margin h)

/-- Up to the next line feed, characters are only taken down. -/
theorem linesFrom_append {t : List Char} (h : '\n' ∉ t) (back rest : List Char) :
    linesFrom back (t ++ rest) = linesFrom (t.reverse ++ back) rest := by
  induction t generalizing back with
  | nil => rfl
  | cons c t ih =>
      obtain ⟨hc, ht⟩ : '\n' ≠ c ∧ '\n' ∉ t := by simpa using h
      rw [List.cons_append, linesFrom, if_neg hc.symm, ih ht]
      simp

theorem linesOf_append_feed {text : String} (h : '\n' ∉ text.toList) (rest : String) :
    linesOf (text ++ "\n" ++ rest) = chopped text :: linesOf rest := by
  rw [linesOf, String.append_assoc, String.toList_append, linesFrom_append h, String.toList_append]
  show linesFrom _ ('\n' :: rest.toList) = _
  rw [linesFrom, if_pos rfl, List.append_nil]
  rfl

theorem linesOf_of_unbroken {text : String} (h : '\n' ∉ text.toList) :
    linesOf text = if text = "" then [] else [text] := by
  have hlines := linesFrom_append h [] []
  rw [List.append_nil, List.append_nil] at hlines
  rw [linesOf, hlines, linesFrom]
  simp

/-- **A laid out text is cut into the lines it was made of**, up to the ends of lines. -/
theorem linesOf_laidOut {indent : String} (hindent : Breakless indent) {ls : List ScriptLine}
    (hlast : ∀ l ∈ ls.getLast?, l.depth = 0) (hls : ∀ l ∈ ls, '\n' ∉ l.text.toList) :
    linesOf (laidOut indent ls) = (cut ls).map (written indent) := by
  induction ls with
  | nil => rfl
  | cons l ls ih =>
      have hl := feed_notMem_written hindent (hls l List.mem_cons_self)
      cases ls with
      | nil =>
          -- a last line has no margin, so that it is empty as soon as its text is
          have hdepth : l.depth = 0 := hlast l rfl
          have htext : l.written indent = l.text := by simp [written, hdepth]
          rw [laidOut, List.map_singleton, String.intercalate_singleton, linesOf_of_unbroken hl,
            htext, cut]
          split
          · rfl
          · rw [List.map_singleton, htext]
      | cons m ls =>
          have hrest := ih (fun k hk => hlast k (by simpa [List.getLast?_cons] using hk))
            fun k hk => hls k (List.mem_cons_of_mem l hk)
          rw [laidOut_cons_cons, linesOf_append_feed hl, hrest, chopped_written hindent]
          rfl

theorem feed_notMem_of_mem_cut {ls : List ScriptLine} (hls : ∀ l ∈ ls, '\n' ∉ l.text.toList) :
    ∀ l ∈ cut ls, '\n' ∉ l.text.toList := by
  fun_induction cut ls with
  | case1 => simp
  | case2 => simp
  | case3 l _ => exact hls
  | case4 l m ls ih =>
      intro k hk
      rcases List.mem_cons.1 hk with rfl | hk
      · intro hfeed
        have hback : '\n' ∈ chopReturn l.text.toList.reverse := by simpa [chopped] using hfeed
        exact hls l List.mem_cons_self (List.mem_reverse.1 (chopReturn_subset _ hback))
      · exact ih (fun j hj => hls j (List.mem_cons_of_mem l hj)) k hk

/-! ## The pieces of a script -/

/-- A piece of a script for every indent. -/
structure Sketch where
  kind : Kind
  lines : List ScriptLine
  usesStd : Bool

def Sketch.piece (indent : String) (s : Sketch) : Piece :=
  ⟨s.kind, laidOut indent s.lines, s.usesStd⟩

namespace Laid

theorem text {s : Sketch} (h : Flush s.lines) : Laid fun indent => (s.piece indent).text :=
  ⟨s.lines, h, fun _ _ => rfl⟩

theorem operand {s : Sketch} (h : Flush s.lines) :
    Laid fun indent => (s.piece indent).operand := by
  have hcompound (indent : String) :
      (s.piece indent).isCompound = (s.piece "").isCompound := rfl
  unfold Piece.operand
  simp only [hcompound]
  split
  · exact ((const "(").append (text h)).append (const ")")
  · exact text h

theorem joined (separator : String) {ss : List Sketch} (h : ∀ s ∈ ss, Flush s.lines) :
    Laid fun indent => Piece.joined separator (ss.map (·.piece indent)) := by
  have hall : ∀ f ∈ ss.map fun s indent => (s.piece indent).text, Laid f := by
    intro f hf
    obtain ⟨s, hs, rfl⟩ := List.mem_map.1 hf
    exact text (h s hs)
  simpa [Piece.joined, List.map_map, Function.comp_def] using intercalate separator hall

/-- **A block is laid out as its statements are, one level further in.** -/
theorem braced {ss : List Sketch} (h : ∀ s ∈ ss, Flush s.lines) :
    Laid fun indent => Piece.braced indent (ss.map (·.piece indent)) := by
  obtain ⟨body, hbody⟩ : ∃ body, body = ss.flatMap fun s => (cut s.lines).map deeper := ⟨_, rfl⟩
  have hblock {indent : String} (hindent : Breakless indent) :
      Piece.block indent (ss.map (·.piece indent)) = laidOut indent body := by
    have hlines : ∀ s ∈ ss, (linesOf (s.piece indent).text).map (indent ++ ·) =
        ((cut s.lines).map deeper).map (written indent) := by
      intro s hs
      have hflush := h s hs
      have hlast : ∀ l ∈ s.lines.getLast?, l.depth = 0 := by
        intro l hl
        simpa [Option.mem_def.1 hl] using hflush.last
      rw [Sketch.piece, linesOf_laidOut hindent hlast hflush.unbroken, List.map_map, List.map_map]
      exact List.map_congr_left fun l _ => (written_deeper indent l).symm
    rw [Piece.block, laidOut, hbody, List.flatMap_map, List.map_flatMap]
    exact congrArg _ (List.flatMap_congr hlines)
  -- a block without lines still has one between its braces
  obtain ⟨inner, hne, hunbroken, hinner⟩ : ∃ inner : List ScriptLine, inner ≠ [] ∧
      (∀ l ∈ inner, '\n' ∉ l.text.toList) ∧
      ∀ indent, laidOut indent inner = laidOut indent body := by
    by_cases hnil : body = []
    · exact ⟨[⟨0, ""⟩], by simp, by simp, fun indent => by simp [laidOut, hnil, written_zero]⟩
    · refine ⟨body, hnil, ?_, fun _ => rfl⟩
      intro l hl
      rw [hbody] at hl
      obtain ⟨s, hs, hl⟩ := List.mem_flatMap.1 hl
      obtain ⟨m, hm, rfl⟩ := List.mem_map.1 hl
      exact feed_notMem_of_mem_cut (h s hs).unbroken m hm
  refine ⟨⟨0, "\x7b"⟩ :: (inner ++ [⟨0, "\x7d"⟩]), ⟨rfl, by simp [List.getLast?_cons], ?_⟩, ?_⟩
  · intro l hl
    rcases List.mem_cons.1 hl with rfl | hl
    · decide
    · rcases List.mem_append.1 hl with hl | hl
      · exact hunbroken l hl
      · obtain rfl := List.mem_singleton.1 hl
        decide
  · intro indent hindent
    have hmap : inner.map (written indent) ≠ [] := by simpa using hne
    rw [laidOut, List.map_cons, List.map_append, String.intercalate_cons_of_ne_nil (by simp),
      String.intercalate_append_of_ne_nil hmap (by simp)]
    show Piece.braced indent _ = _ ++ _ ++ (laidOut indent inner ++ _ ++ _)
    rw [Piece.braced, hblock hindent, hinner]
    simp [written_zero, String.append_assoc]

theorem expressionBody {ss : List Sketch} (h : ∀ s ∈ ss, Flush s.lines) :
    Laid fun indent => Piece.expressionBody (ss.map (·.piece indent)) := by
  have hseveral := ((const "(").append (joined ", " h)).append (const ")")
  obtain _ | ⟨s, _ | ⟨t, ss⟩⟩ := ss
  · exact hseveral
  · have hs := text (h s List.mem_cons_self)
    show Laid fun indent => if s.kind = .object then "(" ++ (s.piece indent).text ++ ")" else
      (s.piece indent).text
    split
    · exact ((const "(").append hs).append (const ")")
    · exact hs
  · exact hseveral

theorem lambda {params : Sketch} {body : List Sketch} (hparams : Flush params.lines)
    (h : ∀ s ∈ body, Flush s.lines) :
    Laid fun indent => Piece.lambda indent (params.piece indent) (body.map (·.piece indent)) := by
  -- whether the body is a block does not depend on the indent
  have hreturn (indent : String) : Piece.endsInReturn (body.map (·.piece indent)) =
      (body.map (·.kind)).getLast?.any (· = .returnExpression) := by
    rw [Piece.endsInReturn_eq, List.map_map]
    rfl
  refine (((const "(").append (text hparams)).append (const ") => ")).append ?_
  simp only [Piece.lambdaBody, hreturn]
  split
  · exact braced h
  · exact expressionBody h

end Laid

/-! ## Trees -/

/-- **The script of a node is laid out if those of its children are.** -/
theorem Kind.exists_laid {k : Kind} {ss : List Sketch}
    (hshape : k.type.shapeFault? (ss.map (·.kind.type)) = none) (h : ∀ s ∈ ss, Flush s.lines) :
    ∃ f, Laid f ∧ ∀ indent, k.assemble? indent (ss.map (·.piece indent)) = some (f indent) := by
  cases k with
  | program => exact ⟨_, .joined "\n" h, fun _ => rfl⟩
  | integer value => exact ⟨_, .const _, fun _ => rfl⟩
  | string value => exact ⟨_, .const _, fun _ => rfl⟩
  | boolean value => exact ⟨_, .const _, fun _ => rfl⟩
  | void => exact ⟨_, .const _, fun _ => rfl⟩
  | identifier name => exact ⟨_, .const _, fun _ => rfl⟩
  | binaryOperator operator => exact ⟨_, .const _, fun _ => rfl⟩
  | array => exact ⟨_, ((Laid.const "[").append (.joined "," h)).append (.const "]"), fun _ => rfl⟩
  | object =>
      cases ss with
      | nil => exact ⟨_, .const _, fun _ => rfl⟩
      | cons s ss =>
          exact ⟨_, ((Laid.const "\x7b ").append (.joined ", " h)).append (.const " \x7d"),
            fun _ => rfl⟩
  | parameters => exact ⟨_, .joined ", " h, fun _ => rfl⟩
  | arguments => exact ⟨_, .joined ", " h, fun _ => rfl⟩
  | returnExpression =>
      exact ⟨_, (Laid.const "return ").append (.joined "," h), fun _ => rfl⟩
  | variableDeclaration name isMutable =>
      exact ⟨_, (Laid.const _).append (.joined "," h), fun _ => rfl⟩
  | binaryExpression =>
      have hall : ∀ f ∈ ss.map fun s indent => (s.piece indent).operand, Laid f := by
        intro f hf
        obtain ⟨s, hs, rfl⟩ := List.mem_map.1 hf
        exact .operand (h s hs)
      refine ⟨_, .intercalate " " hall, fun indent => ?_⟩
      simp [assemble?, List.map_map, Function.comp_def]
  | objectProperty =>
      obtain ⟨s, t, rfl⟩ := exists_two_of_shapeFault? (.inl rfl) hshape
      have hs := Laid.text (h s (by simp))
      have ht := Laid.text (h t (by simp))
      exact ⟨_, (hs.append (.const ": ")).append ht, fun _ => rfl⟩
  | call =>
      obtain ⟨s, t, rfl⟩ := exists_two_of_shapeFault? (.inr (.inl rfl)) hshape
      have hs := Laid.operand (h s (by simp))
      have ht := Laid.text (h t (by simp))
      exact ⟨_, ((hs.append (.const "(")).append ht).append (.const ")"), fun _ => rfl⟩
  | propertyAccess =>
      obtain ⟨s, t, rfl⟩ := exists_two_of_shapeFault? (.inr (.inr rfl)) hshape
      have hs := Laid.operand (h s (by simp))
      have ht := Laid.text (h t (by simp))
      exact ⟨_, (hs.append (.const ".")).append ht, fun _ => rfl⟩
  -- only functions have blocks; what is above puts texts side by side
  | functionDeclaration name =>
      obtain _ | ⟨params, _ | ⟨s, ss⟩⟩ := ss
      · simp [type, NodeType.shapeFault?] at hshape
      · have hparams := Laid.text (h params (by simp))
        exact ⟨_, ((Laid.const _).append hparams).append (.const _), fun _ => rfl⟩
      · have hparams := Laid.text (h params (by simp))
        have hbody := Laid.braced fun t ht => h t (List.mem_cons_of_mem params ht)
        exact ⟨_, (((Laid.const _).append hparams).append (.const ") ")).append hbody,
          fun _ => rfl⟩
  | namedFunction =>
      obtain _ | ⟨name, _ | ⟨params, body⟩⟩ := ss
      · simp [type, NodeType.shapeFault?] at hshape
      · simp [type, NodeType.shapeFault?] at hshape
      · have hname := Laid.text (h name (by simp))
        have hbody : ∀ t ∈ body, Flush t.lines := fun t ht => h t (by simp [ht])
        have hlambda := Laid.lambda (h params (by simp)) hbody
        exact ⟨_, (((Laid.const "const ").append hname).append (.const " = ")).append hlambda,
          fun _ => rfl⟩
  | anonymousFunction =>
      obtain _ | ⟨params, body⟩ := ss
      · simp [type, NodeType.shapeFault?] at hshape
      · have hbody : ∀ t ∈ body, Flush t.lines := fun t ht => h t (by simp [ht])
        exact ⟨_, .lambda (h params (by simp)) hbody, fun _ => rfl⟩

/-- Every tree with the right children throughout has a sketch. -/
theorem Node.exists_sketch {n : Node} (hn : n.Shaped) :
    ∃ s : Sketch, Flush s.lines ∧
      ∀ indent, Breakless indent → n.render? indent = some (s.piece indent) := by
  have hn' := hn
  induction hn with
  | @intro n own children ih =>
      have hall : ∃ ss : List Sketch, (∀ s ∈ ss, Flush s.lines) ∧
          ∀ indent, Breakless indent →
            List.Forall₂ (fun c p => c.render? indent = some p) n.children
              (ss.map (·.piece indent)) := by
        have hchildren : ∀ c ∈ n.children, ∃ s : Sketch, Flush s.lines ∧
            ∀ indent, Breakless indent → c.render? indent = some (s.piece indent) :=
          fun c hc => ih c hc (children c hc)
        clear own children ih hn'
        generalize n.children = ns at hchildren
        induction ns with
        | nil => exact ⟨[], by simp, fun _ _ => .nil⟩
        | cons c ns ihl =>
            obtain ⟨s, hs, hrender⟩ := hchildren c (by simp)
            obtain ⟨ss, hss, hrenders⟩ := ihl fun d hd => hchildren d (by simp [hd])
            refine ⟨s :: ss, ?_, fun indent hindent => ?_⟩
            · simpa using ⟨hs, hss⟩
            · exact .cons (hrender indent hindent) (hrenders indent hindent)
      obtain ⟨ss, hss, hrenders⟩ := hall
      have hbreakless : Breakless "" := ⟨by simp, by simp⟩
      have hshape : n.kind.type.shapeFault? (ss.map (·.kind.type)) = none := by
        have htypes := map_type_of_renders (hrenders "" hbreakless)
        rw [List.map_map] at htypes
        exact (congrArg _ htypes).trans own
      obtain ⟨f, ⟨ls, hls, hf⟩, hassemble⟩ := Kind.exists_laid hshape hss
      refine ⟨⟨n.kind, ls, n.accessesStd⟩, hls, fun indent hindent => ?_⟩
      have hrender := render?_eq_some_iff.2
        ⟨_, _, hrenders indent hindent, hassemble indent, rfl⟩
      -- the note of the script is that of the tree, whatever the indent
      rw [hrender, ← usesStd_of_render? hn' hrender, Sketch.piece, ← hf indent hindent]

theorem count_feed_laidOut {indent : String} (hindent : Breakless indent) {ls : List ScriptLine}
    (hne : ls ≠ []) (hls : ∀ l ∈ ls, '\n' ∉ l.text.toList) :
    (laidOut indent ls).toList.count '\n' + 1 = ls.length := by
  induction ls with
  | nil => exact absurd rfl hne
  | cons l ls ih =>
      have hl : (l.written indent).toList.count '\n' = 0 :=
        List.count_eq_zero.2 (feed_notMem_written hindent (hls l List.mem_cons_self))
      cases ls with
      | nil => simp [laidOut, hl]
      | cons m ls =>
          have hrest := ih (by simp) fun k hk => hls k (List.mem_cons_of_mem l hk)
          rw [laidOut_cons_cons, String.toList_append, String.toList_append, List.count_append,
            List.count_append, hl, List.length_cons, ← hrest]
          show 0 + 1 + _ + 1 = _
          omega

/-- **Indentation is layout.** A tree that a build returns has a list of lines, the first and the
last of them at depth 0, such that under any indent without line breaks its script is these lines,
each behind as many indents as its depth says. So the number of lines is the same under all such
indents. -/
theorem indentation_is_layout {n : Node} (h : n.Built) :
    ∃ lines : List ScriptLine, lines.head?.map depth = some 0 ∧
      lines.getLast?.map depth = some 0 ∧ (∀ l ∈ lines, '\n' ∉ l.text.toList) ∧
      ∀ g : Generator, '\n' ∉ g.indent.toList → '\r' ∉ g.indent.toList →
        ∃ text g', g.render? n = some (text, g') ∧
          text = "\n".intercalate (lines.map fun l =>
            String.join (List.replicate l.depth g.indent) ++ l.text) ∧
          text.toList.count '\n' + 1 = lines.length := by
  obtain ⟨s, hflush, hrender⟩ := Node.exists_sketch h.shaped
  refine ⟨s.lines, hflush.first, hflush.last, hflush.unbroken, fun g hfeed hreturn => ?_⟩
  have hindent : Breakless g.indent := ⟨hfeed, hreturn⟩
  have hne : s.lines ≠ [] := by
    obtain ⟨text, rest, hcons⟩ := hflush.exists_cons
    simp [hcons]
  obtain ⟨p, hp, hgenerator⟩ := Generator.render?_of_shaped h.shaped g
  obtain rfl := Option.some.inj (hp.symm.trans (hrender g.indent hindent))
  exact ⟨_, _, hgenerator, rfl, count_feed_laidOut hindent hne hflush.unbroken⟩

/-- An arrow function in a function, and a string that goes on in the next line. -/
theorem indentation_is_layout_nestedBlocks :
    ∃ raw n, parse "fn f() \x7b let g = (x) -> \x7b return 'a\\\nb' \x7d \x7d" = .ok raw ∧
      Node.build raw = .ok n ∧
      generate? "\t" n = some
        "function f() \x7b\n\tconst g = (x) => \x7b\n\t\treturn 'a\\\n\t\tb'\n\t\x7d\n\x7d" ∧
      ∃ lines : List ScriptLine, lines.head?.map depth = some 0 ∧
        lines.getLast?.map depth = some 0 ∧ (∀ l ∈ lines, '\n' ∉ l.text.toList) ∧
        ∀ indent ∈ ["", "\t"], ∃ text g', Generator.render? ⟨indent, false⟩ n = some (text, g') ∧
          text = "\n".intercalate (lines.map fun l =>
            String.join (List.replicate l.depth indent) ++ l.text) ∧
          text.toList.count '\n' + 1 = lines.length := by
  obtain ⟨raw, n, hparse, hbuild, hn⟩ := exists_parsed_of_any
    "fn f() \x7b let g = (x) -> \x7b return 'a\\\nb' \x7d \x7d"
    (fun n => generate? "\t" n == some
      "function f() \x7b\n\tconst g = (x) => \x7b\n\t\treturn 'a\\\n\t\tb'\n\t\x7d\n\x7d")
    (by decide +kernel)
  obtain ⟨lines, hfirst, hlast, hunbroken, hlines⟩ := indentation_is_layout ⟨.node raw, hbuild⟩
  refine ⟨raw, n, hparse, hbuild, by simpa using hn, lines, hfirst, hlast, hunbroken, ?_⟩
  intro indent hindent
  have hfree : ∀ i ∈ ["", "\t"], '\n' ∉ i.toList ∧ '\r' ∉ i.toList := by decide
  obtain ⟨hfeed, hreturn⟩ := hfree indent hindent
  exact hlines ⟨indent, false⟩ hfeed hreturn

end ExprScript
