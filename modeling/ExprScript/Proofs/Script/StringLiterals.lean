import ExprScript.Proofs.Script.StandardLibrary
import ExprScript.Proofs.Script.Statements
import Mathlib.Data.List.Infix
import Mathlib.Logic.Function.Iterate

set_option autoImplicit false

/-! # Strings in a script

The script of a node holds the scripts of its children. A child of a block is not copied, though:
the block is indented line by line, whatever the lines belong to. A string is written with the line
feeds that stand behind a backslash in it, and so its own lines are indented as well.

`shifted` says what one block does to the characters of a text inside, and `string_in_script` what
becomes of a string under all the blocks around it. It stands in the script as it was quoted when
there is no line feed in it, no block around it, or no indent.
-/

namespace ExprScript

/-! ## Texts within texts -/

def OccursIn (a b : String) : Prop := a.toList <:+: b.toList

namespace OccursIn

theorem refl (a : String) : OccursIn a a := List.infix_rfl

theorem trans {a b c : String} (h : OccursIn a b) (h' : OccursIn b c) : OccursIn a c :=
  List.IsInfix.trans h h'

theorem behind {a b : String} (h : OccursIn a b) (c : String) : OccursIn a (c ++ b) := by
  refine List.IsInfix.trans h ?_
  rw [String.toList_append]
  exact (List.suffix_append _ _).isInfix

theorem before {a b : String} (h : OccursIn a b) (c : String) : OccursIn a (b ++ c) := by
  refine List.IsInfix.trans h ?_
  rw [String.toList_append]
  exact (List.prefix_append _ _).isInfix

/-- A part of a row of texts occurs in the row. -/
theorem intercalate (sep : String) {as bs : List String} (h : as <:+: bs) :
    OccursIn (sep.intercalate as) (sep.intercalate bs) := by
  obtain ⟨front, back, rfl⟩ := h
  by_cases has : as = []
  · subst has
    rw [String.intercalate_nil]
    exact List.nil_infix
  · have hfront : OccursIn (sep.intercalate as) (sep.intercalate (front ++ as)) := by
      by_cases hnil : front = []
      · rw [hnil]
        exact refl _
      · rw [String.intercalate_append_of_ne_nil hnil has]
        exact (refl _).behind _
    by_cases hnil : back = []
    · rwa [hnil, List.append_nil]
    · rw [String.intercalate_append_of_ne_nil (by simp [has]) hnil]
      exact (hfront.before _).before _

end OccursIn

/-! ## Children in the script of their parent -/

/-- Whether the child with the given number stands in a block, by the kinds of all children. -/
def Kind.inBlock (k : Kind) (kinds : List Kind) (j : Nat) : Bool :=
  match k with
  | .functionDeclaration _ => 1 ≤ j
  | .namedFunction => 2 ≤ j && k.hasBlock kinds
  | .anonymousFunction => 1 ≤ j && k.hasBlock kinds
  | _ => false

def indented (indent : String) (lines : List String) : String :=
  "\n".intercalate (lines.map (indent ++ ·))

namespace Piece

/-- The text of a piece in the script of its parent: line by line behind the indent if it stands in
a block. -/
def shown (indent : String) (isBlock : Bool) (q : Piece) : String :=
  if isBlock then indented indent (linesOf q.text) else q.text

variable {indent : String} {q : Piece}

theorem occursIn_joined (separator : String) {ps : List Piece} (h : q ∈ ps) :
    OccursIn q.text (joined separator ps) := by
  have htext : q.text ∈ ps.map text := List.mem_map_of_mem h
  have hpart := OccursIn.intercalate separator ((List.singleton_infix_iff _ _).2 htext)
  rwa [String.intercalate_singleton] at hpart

theorem occursIn_operand (q : Piece) : OccursIn q.text q.operand := by
  unfold operand
  split
  · exact ((OccursIn.refl _).behind _).before _
  · exact .refl _

theorem occursIn_braced {body : List Piece} (h : q ∈ body) :
    OccursIn (q.shown indent true) (braced indent body) := by
  -- the lines of the piece are some of the lines of the block
  have hlines : (linesOf q.text).map (indent ++ ·) <:+:
      body.flatMap fun p => (linesOf p.text).map (indent ++ ·) :=
    List.infix_of_mem_flatten (List.mem_map_of_mem h)
  have hblock : OccursIn (q.shown indent true) (block indent body) := .intercalate "\n" hlines
  rw [braced]
  exact (hblock.behind _).before _

theorem occursIn_expressionBody {body : List Piece} (h : q ∈ body) :
    OccursIn q.text (expressionBody body) := by
  unfold expressionBody
  split
  · obtain rfl := List.mem_singleton.1 h
    split
    · exact ((OccursIn.refl _).behind _).before _
    · exact .refl _
  · exact ((occursIn_joined _ h).behind _).before _

theorem occursIn_lambda {body : List Piece} (params : Piece) (h : q ∈ body) :
    OccursIn (q.shown indent (endsInReturn body)) (lambda indent params body) := by
  rw [lambda, lambdaBody]
  refine OccursIn.behind ?_ _
  cases endsInReturn body with
  | true => exact occursIn_braced h
  | false => exact occursIn_expressionBody h

theorem params_occursIn_lambda (params : Piece) (body : List Piece) :
    OccursIn params.text (lambda indent params body) := by
  rw [lambda]
  exact (((OccursIn.refl _).behind _).before _).before _

end Piece

/-! ## Indenting a text -/

/-- The characters of a text when its lines but the first get an indent. -/
def shifted (indent : List Char) : List Char → List Char
  | [] => []
  | '\r' :: '\n' :: cs => '\n' :: (indent ++ shifted indent cs)
  | '\n' :: cs => '\n' :: (indent ++ shifted indent cs)
  | c :: cs => c :: shifted indent cs

section

variable {indent : List Char}

theorem shifted_feed (cs : List Char) :
    shifted indent ('\n' :: cs) = '\n' :: (indent ++ shifted indent cs) := by
  rw [shifted]

theorem shifted_cons {c : Char} {cs : List Char} (hfeed : c ≠ '\n')
    (hreturn : c = '\r' → cs.head? ≠ some '\n') :
    shifted indent (c :: cs) = c :: shifted indent cs := by
  rw [shifted.eq_def]
  split
  · rename_i h
    cases h
  · rename_i h
    obtain ⟨rfl, rfl⟩ := List.cons.inj h
    exact absurd rfl (hreturn rfl)
  · rename_i h
    exact absurd (List.cons.inj h).1 hfeed
  · rename_i h
    obtain ⟨rfl, rfl⟩ := List.cons.inj h
    rfl

/-- A text is indented in two parts where no line ends between them. -/
theorem shifted_append {as bs : List Char} (h : bs.head? ≠ some '\n') :
    shifted indent (as ++ bs) = shifted indent as ++ shifted indent bs := by
  fun_induction shifted indent as with
  | case1 => rfl
  | case2 cs ih => simp [shifted, ih]
  | case3 cs ih => simp [shifted, ih]
  | case4 c cs hreturn hfeed ih =>
      have hc : c ≠ '\n' := fun hc => hfeed hc
      have hhead : c = '\r' → (cs ++ bs).head? ≠ some '\n' := by
        rintro hr
        cases cs with
        | nil => exact h
        | cons d ds =>
            intro hd
            exact hreturn ds hr (by simpa using hd)
      rw [List.cons_append, shifted_cons hc hhead, ih, List.cons_append]

theorem shifted_of_unbroken {cs : List Char} (h : '\n' ∉ cs) : shifted indent cs = cs := by
  induction cs with
  | nil => rfl
  | cons c cs ih =>
      obtain ⟨hc, hcs⟩ : '\n' ≠ c ∧ '\n' ∉ cs := by simpa using h
      rw [shifted_cons hc.symm fun _ hhead => hcs (List.mem_of_head? hhead), ih hcs]

/-- The end of a line takes the carriage return before it along. -/
theorem shifted_line {back : List Char} (h : '\n' ∉ back) (cs : List Char) :
    shifted indent (back.reverse ++ '\n' :: cs) =
      (chopReturn back).reverse ++ '\n' :: (indent ++ shifted indent cs) := by
  cases back with
  | nil => exact shifted_feed cs
  | cons b back =>
      obtain ⟨hb, hback⟩ : '\n' ≠ b ∧ '\n' ∉ back := by simpa using h
      have hfront : shifted indent back.reverse = back.reverse :=
        shifted_of_unbroken (by simpa using hback)
      rw [List.reverse_cons, List.append_assoc, List.singleton_append,
        shifted_append (by simpa using hb.symm), hfront]
      by_cases hreturn : b = '\r'
      · subst hreturn
        rw [shifted]
        rfl
      · have hchop : chopReturn (b :: back) = b :: back := by simp [chopReturn, hreturn]
        rw [shifted_cons hb.symm fun hr => absurd hr hreturn, shifted_feed, hchop]
        simp

end

/-! ## What a block does to its lines -/

theorem indented_cons_cons (indent l m : String) (ls : List String) :
    indented indent (l :: m :: ls) = indent ++ l ++ "\n" ++ indented indent (m :: ls) := by
  simp [indented]

/-- Indented lines begin with the indent and the first of them. -/
theorem exists_toList_indented (indent line : String) (lines : List String) :
    ∃ rest, (indented indent (line :: lines)).toList = indent.toList ++ (line.toList ++ rest) := by
  cases lines with
  | nil => exact ⟨[], by simp [indented]⟩
  | cons m lines => exact ⟨_, by rw [indented_cons_cons]; simp; rfl⟩

/-- **The lines of a text, each behind an indent, are the text shifted.** What follows may change
the end of the last line, but nothing before that. -/
theorem exists_indented_linesFrom (indent : String) {back t : List Char} {x : Char}
    (hback : '\n' ∉ back) (hx : (back.reverse ++ t).getLast? = some x) (hfeed : x ≠ '\n')
    (hreturn : x ≠ '\r') (cs : List Char) :
    ∃ line lines rest, linesFrom back (t ++ cs) = line :: lines ∧
      (indented indent (line :: lines)).toList =
        indent.toList ++ (shifted indent.toList (back.reverse ++ t) ++ rest) := by
  -- a line is shifted together with its end, so what has been read of it stays with the rest
  induction t generalizing back with
  | nil =>
      rw [List.append_nil, List.getLast?_reverse] at hx
      have hne : back ≠ [] := by
        rintro rfl
        simp at hx
      obtain ⟨line, lines, hlines, more, hmore⟩ :=
        exists_prefix_linesFrom hne (by simpa [hx] using hreturn) [] cs
      obtain ⟨rest, hrest⟩ := exists_toList_indented indent line lines
      have hshifted : shifted indent.toList back.reverse = back.reverse :=
        shifted_of_unbroken (by simpa using hback)
      refine ⟨line, lines, more ++ rest, hlines, ?_⟩
      rw [hrest, ← hmore, List.append_nil, hshifted, List.append_assoc]
  | cons c t ih =>
      by_cases hc : c = '\n'
      · subst hc
        have hlast : (([] : List Char).reverse ++ t).getLast? = some x := by
          cases t with
          | nil => exact absurd (by simpa using hx.symm) hfeed
          | cons d t => simpa [List.getLast?_append, List.getLast?_cons] using hx
        obtain ⟨line, lines, rest, hlines, htext⟩ := ih List.not_mem_nil hlast
        refine ⟨String.ofList (chopReturn back).reverse, line :: lines, rest, ?_, ?_⟩
        · rw [List.cons_append, linesFrom, if_pos rfl, hlines]
        · calc (indented indent (String.ofList (chopReturn back).reverse :: line :: lines)).toList
              = indent.toList ++ ((chopReturn back).reverse ++
                  '\n' :: (indented indent (line :: lines)).toList) := by
                simp [indented_cons_cons]
            _ = indent.toList ++ ((chopReturn back).reverse ++
                  '\n' :: (indent.toList ++ (shifted indent.toList t ++ rest))) := by
                rw [htext]
                rfl
            _ = indent.toList ++
                  (shifted indent.toList (back.reverse ++ '\n' :: t) ++ rest) := by
                rw [shifted_line hback]
                simp
      · have hmore : '\n' ∉ c :: back := by simpa using ⟨Ne.symm hc, hback⟩
        have hsame : (c :: back).reverse ++ t = back.reverse ++ c :: t := by simp
        rw [← hsame] at hx ⊢
        obtain ⟨line, lines, rest, hlines, htext⟩ := ih hmore hx
        refine ⟨line, lines, rest, ?_, htext⟩
        rw [List.cons_append, linesFrom, if_neg hc, hlines]

/-- What occurs in a text occurs shifted in its indented lines, if no line ends at either end of
it. -/
theorem shifted_infix_indented {indent text : String} {cs : List Char} {x : Char}
    (hhead : cs.head? ≠ some '\n') (hx : cs.getLast? = some x) (hfeed : x ≠ '\n')
    (hreturn : x ≠ '\r') (h : cs <:+: text.toList) :
    shifted indent.toList cs <:+: (indented indent (linesOf text)).toList := by
  obtain ⟨front, back, htext⟩ := h
  have hlast : (([] : List Char).reverse ++ (front ++ cs)).getLast? = some x := by
    simp [List.getLast?_append, hx]
  obtain ⟨line, lines, rest, hlines, hindented⟩ :=
    exists_indented_linesFrom indent List.not_mem_nil hlast hfeed hreturn back
  rw [linesOf, ← htext, hlines, hindented]
  refine ⟨indent.toList ++ shifted indent.toList front, rest, ?_⟩
  rw [List.reverse_nil, List.nil_append, shifted_append hhead]
  simp

/-! ## Down to a string -/

namespace Kind

theorem inBlock_functionDeclaration_succ (name : String) (kinds : List Kind) (j : Nat) :
    (functionDeclaration name).inBlock kinds (j + 1) = true := by
  simp [inBlock]

theorem inBlock_namedFunction_body (name params : Piece) (body : List Piece) (j : Nat) :
    namedFunction.inBlock ((name :: params :: body).map (·.kind)) (j + 2) =
      Piece.endsInReturn body := by
  simp [inBlock, hasBlock, arrowBody, Piece.endsInReturn_eq]

theorem inBlock_anonymousFunction_body (params : Piece) (body : List Piece) (j : Nat) :
    anonymousFunction.inBlock ((params :: body).map (·.kind)) (j + 1) =
      Piece.endsInReturn body := by
  simp [inBlock, hasBlock, arrowBody, Piece.endsInReturn_eq]

end Kind

/-- The text of a child in a text that is put together from it. -/
theorem Kind.occursIn_assemble {k : Kind} {indent text : String} {ps : List Piece} {q : Piece}
    {j : Nat} (hshape : k.type.shapeFault? (ps.map (·.kind.type)) = none)
    (h : k.assemble? indent ps = some text) (hq : ps[j]? = some q) :
    OccursIn (q.shown indent (k.inBlock (ps.map (·.kind)) j)) text := by
  have hmem := List.mem_of_getElem? hq
  cases k with
  | integer _ | string _ | boolean _ | void | identifier _ | binaryOperator _ =>
      -- a leaf has no children
      rw [← written_of_shapeFault? hshape] at hmem
      cases hmem
  | program | parameters | arguments =>
      obtain rfl := Option.some.inj h
      exact Piece.occursIn_joined _ hmem
  | array =>
      obtain rfl := Option.some.inj h
      exact ((Piece.occursIn_joined _ hmem).behind _).before _
  | variableDeclaration | returnExpression =>
      obtain rfl := Option.some.inj h
      exact (Piece.occursIn_joined _ hmem).behind _
  | object =>
      cases ps with
      | nil => cases hmem
      | cons r ps =>
          obtain rfl := Option.some.inj h
          exact ((Piece.occursIn_joined _ hmem).behind _).before _
  | binaryExpression =>
      obtain rfl := Option.some.inj h
      have hoperand : q.operand ∈ ps.map Piece.operand := List.mem_map_of_mem hmem
      have hpart := OccursIn.intercalate " " ((List.singleton_infix_iff _ _).2 hoperand)
      rw [String.intercalate_singleton] at hpart
      exact q.occursIn_operand.trans hpart
  | objectProperty =>
      obtain ⟨r, t, rfl⟩ := exists_two_of_shapeFault? (.inl rfl) hshape
      obtain rfl := Option.some.inj h
      rcases List.mem_pair.1 hmem with rfl | rfl
      · exact ((OccursIn.refl _).before _).before _
      · exact (OccursIn.refl _).behind _
  | call =>
      obtain ⟨r, t, rfl⟩ := exists_two_of_shapeFault? (.inr (.inl rfl)) hshape
      obtain rfl := Option.some.inj h
      rcases List.mem_pair.1 hmem with rfl | rfl
      · exact ((q.occursIn_operand.before _).before _).before _
      · exact ((OccursIn.refl _).behind _).before _
  | propertyAccess =>
      obtain ⟨r, t, rfl⟩ := exists_two_of_shapeFault? (.inr (.inr rfl)) hshape
      obtain rfl := Option.some.inj h
      rcases List.mem_pair.1 hmem with rfl | rfl
      · exact (q.occursIn_operand.before _).before _
      · exact (OccursIn.refl _).behind _
  | functionDeclaration name =>
      obtain _ | ⟨params, _ | ⟨r, ps⟩⟩ := ps
      · cases h
      · obtain rfl := Option.some.inj h
        obtain rfl := List.mem_singleton.1 hmem
        obtain _ | j := j
        · exact ((OccursIn.refl _).behind _).before _
        · simp at hq
      · obtain rfl := Option.some.inj h
        obtain _ | j := j
        · obtain rfl := Option.some.inj hq
          exact (((OccursIn.refl _).behind _).before _).before _
        · have hbody : q ∈ r :: ps := List.mem_of_getElem? hq
          rw [inBlock_functionDeclaration_succ]
          exact (Piece.occursIn_braced hbody).behind _
  | namedFunction =>
      obtain _ | ⟨name, _ | ⟨params, body⟩⟩ := ps
      · cases h
      · cases h
      · obtain rfl := Option.some.inj h
        obtain _ | _ | j := j
        · obtain rfl := Option.some.inj hq
          exact (((OccursIn.refl _).behind _).before _).before _
        · obtain rfl := Option.some.inj hq
          exact (Piece.params_occursIn_lambda params body).behind _
        · have hbody : q ∈ body := List.mem_of_getElem? hq
          rw [inBlock_namedFunction_body]
          exact (Piece.occursIn_lambda params hbody).behind _
  | anonymousFunction =>
      obtain _ | ⟨params, body⟩ := ps
      · cases h
      · obtain rfl := Option.some.inj h
        obtain _ | j := j
        · obtain rfl := Option.some.inj hq
          exact Piece.params_occursIn_lambda params body
        · have hbody : q ∈ body := List.mem_of_getElem? hq
          rw [inBlock_anonymousFunction_body]
          exact Piece.occursIn_lambda params hbody

namespace Node

/-- The number of blocks around the node at an address. -/
def blocksAbove (n : Node) : List Nat → Nat
  | [] => 0
  | j :: a =>
    match n.children[j]? with
    | some c => c.blocksAbove a + if n.kind.inBlock (n.children.map kind) j then 1 else 0
    | none => 0

variable {indent : String}

/-- **The script of a node holds the scripts of its children**, indented if they stand in a
block. -/
theorem occursIn_of_child {n c : Node} {p : Piece} {j : Nat} (hn : n.Shaped)
    (h : n.render? indent = some p) (hc : n.children[j]? = some c) :
    ∃ q, c.render? indent = some q ∧
      OccursIn (q.shown indent (n.kind.inBlock (n.children.map kind) j)) p.text := by
  obtain ⟨ps, text, hps, htext, rfl⟩ := render?_eq_some_iff.1 h
  obtain ⟨q, hq, hrender⟩ := getElem?_of_forall₂ hps hc
  obtain ⟨hshape, -⟩ := hn
  refine ⟨q, hrender, ?_⟩
  rw [← map_type_of_renders hps] at hshape
  rw [← map_kind_of_renders hps]
  exact Kind.occursIn_assemble hshape htext hq

end Node

/-- The characters of a string whose content has been shifted a number of times. -/
def shiftedString (indent : String) (k : Nat) (v : String) : List Char :=
  '\'' :: ((shifted indent.toList)^[k] (quoteChars v.toList) ++ ['\''])

theorem shiftedString_succ (indent : String) (k : Nat) (v : String) :
    shiftedString indent (k + 1) v = shifted indent.toList (shiftedString indent k v) := by
  rw [shiftedString, shiftedString, Function.iterate_succ_apply',
    shifted_cons (by decide) (by simp), shifted_append (by simp)]
  rfl

/-- A string in a text is shifted once more where the text stands in a block. -/
theorem shiftedString_infix_shown {indent : String} {k : Nat} {v : String} {q : Piece}
    (h : shiftedString indent k v <:+: q.text.toList) (isBlock : Bool) :
    shiftedString indent (k + if isBlock then 1 else 0) v <:+: (q.shown indent isBlock).toList := by
  cases isBlock with
  | false => exact h
  | true =>
      rw [if_pos rfl, shiftedString_succ]
      exact shifted_infix_indented (x := '\'') (by simp [shiftedString])
        (by simp [shiftedString, List.getLast?_cons]) (by decide) (by decide) h

/-- **A string stands in the script of a tree, shifted by every block around it.** -/
theorem shiftedString_infix_render {indent : String} {n m : Node} {p : Piece} {a : List Nat}
    {v : String} (hn : n.Shaped) (h : n.render? indent = some p) (hm : n.at? a = some m)
    (hv : m.kind = .string v) : shiftedString indent (n.blocksAbove a) v <:+: p.text.toList := by
  induction a generalizing n p with
  | nil =>
      obtain rfl := Option.some.inj hm
      obtain ⟨ps, text, -, htext, rfl⟩ := Node.render?_eq_some_iff.1 h
      rw [hv] at htext
      obtain rfl := Option.some.inj htext
      rw [quote, String.toList_ofList]
      exact List.infix_rfl
  | cons j a ih =>
      obtain ⟨c, hc, hm⟩ := Node.at?_cons_eq_some.1 hm
      obtain ⟨q, hq, hshown⟩ := Node.occursIn_of_child hn h hc
      have hstring := ih (hn.child (List.mem_of_getElem? hc)) hq hm
      simp only [Node.blocksAbove, hc]
      exact (shiftedString_infix_shown hstring _).trans hshown

/-! ## Strings that stay as they are -/

theorem head?_quoteChars_ne (cs : List Char) : (quoteChars cs).head? ≠ some '\n' := by
  fun_cases quoteChars cs with
  | case6 c cs _ _ _ hfeed => simpa using hfeed
  | _ => simp

/-- Without an indent nothing is changed, since no carriage return stands before a line feed in a
quoted value. -/
theorem shifted_nil_quoteChars (cs : List Char) : shifted [] (quoteChars cs) = quoteChars cs := by
  have hcons {c : Char} {rest : List Char} (ih : shifted [] (quoteChars rest) = quoteChars rest) :
      shifted [] (c :: quoteChars rest) = c :: quoteChars rest := by
    by_cases hc : c = '\n'
    · rw [hc, shifted_feed, List.nil_append, ih]
    · rw [shifted_cons hc fun _ => head?_quoteChars_ne rest, ih]
  have hpair {c : Char} {rest : List Char} (ih : shifted [] (quoteChars rest) = quoteChars rest) :
      shifted [] ('\\' :: c :: quoteChars rest) = '\\' :: c :: quoteChars rest := by
    rw [shifted_cons (by decide) fun hr => absurd hr (by decide), hcons ih]
  fun_induction quoteChars cs with
  | case1 => rfl
  | case2 c cs ih => exact hpair ih
  | case3 => rfl
  | case4 cs ih => exact hpair ih
  | case5 cs ih => exact hpair ih
  | case6 c cs _ _ _ _ ih => exact hcons ih

theorem shiftedString_eq_quote {indent : String} {k : Nat} {v : String}
    (h : k = 0 ∨ '\n' ∉ (quote v).toList ∨ indent = "") :
    shiftedString indent k v = (quote v).toList := by
  have hquote : (quote v).toList = '\'' :: (quoteChars v.toList ++ ['\'']) := by
    rw [quote, String.toList_ofList]
    rfl
  have hfixed : (shifted indent.toList)^[k] (quoteChars v.toList) = quoteChars v.toList := by
    rcases h with rfl | hfeed | rfl
    · rfl
    · refine Function.iterate_fixed (shifted_of_unbroken fun hmem => hfeed ?_) k
      rw [hquote]
      simp [hmem]
    · exact Function.iterate_fixed (shifted_nil_quoteChars _) k
  rw [shiftedString, hfixed, hquote]

/-- **What becomes of a string in the script.** Every string of a program stands in the script of
the program, quoted and then shifted as often as there are blocks around it. Where the quoted string
has no line feed, where no block is around it, and where there is no indent, it stands there as it
was quoted. -/
theorem string_in_script {source : String} {raw : RawNode} {p m : Node} {a : List Nat} {v : String}
    (hparse : parse source = .ok raw) (hbuild : Node.build raw = .ok p) (hm : p.at? a = some m)
    (hv : m.kind = .string v) (indent : String) :
    ∃ text, generate? indent p = some text ∧
      shiftedString indent (p.blocksAbove a) v <:+: text.toList ∧
      (p.blocksAbove a = 0 ∨ '\n' ∉ (quote v).toList ∨ indent = "" →
        (quote v).toList <:+: text.toList) := by
  have hshaped : p.Shaped := (grammatical_of_parse hparse hbuild).2.1
  obtain ⟨q, hq, hrender⟩ := Generator.render?_of_shaped hshaped { indent }
  have hstring := shiftedString_infix_render hshaped hq hm hv
  obtain ⟨text, htext, hwithin⟩ : ∃ text, generate? indent p = some text ∧
      q.text.toList <:+: text.toList := by
    refine ⟨_, by rw [generate?, Generator.generate?, hrender]; rfl, ?_⟩
    dsimp only
    split
    · exact (OccursIn.refl q.text).behind stdShim
    · exact List.infix_rfl
  refine ⟨text, htext, hstring.trans hwithin, fun hcases => ?_⟩
  rw [← shiftedString_eq_quote hcases]
  exact hstring.trans hwithin

/-- A string with a line feed, in an arrow function in a function. -/
theorem string_in_script_nestedBlocks :
    ∃ raw p m, parse "fn f() \x7b let g = () -> \x7b return 'a\\\nb' \x7d \x7d" = .ok raw ∧
      Node.build raw = .ok p ∧ p.at? [0, 1, 2, 0] = some m ∧ m.kind = .string "a\\\nb" ∧
      p.blocksAbove [0, 1, 2, 0] = 2 ∧
      shiftedString "\t" 2 "a\\\nb" = "'a\\\n\t\tb'".toList ∧
      ∃ text, generate? "\t" p = some text ∧
        shiftedString "\t" (p.blocksAbove [0, 1, 2, 0]) "a\\\nb" <:+: text.toList ∧
        (p.blocksAbove [0, 1, 2, 0] = 0 ∨ '\n' ∉ (quote "a\\\nb").toList ∨ "\t" = "" →
          (quote "a\\\nb").toList <:+: text.toList) := by
  obtain ⟨raw, p, hparse, hbuild, hp⟩ := exists_parsed_of_any
    "fn f() \x7b let g = () -> \x7b return 'a\\\nb' \x7d \x7d"
    (fun p => (p.at? [0, 1, 2, 0]).any (·.kind == .string "a\\\nb") &&
      p.blocksAbove [0, 1, 2, 0] == 2)
    (by decide +kernel)
  rw [Bool.and_eq_true, beq_iff_eq] at hp
  obtain ⟨hp, hblocks⟩ := hp
  obtain ⟨m, hm, hkind⟩ := (Option.any_eq_true _ _).1 hp
  have hkind : m.kind = .string "a\\\nb" := beq_iff_eq.1 hkind
  exact ⟨raw, p, m, hparse, hbuild, hm, hkind, hblocks, by decide,
    string_in_script hparse hbuild hm hkind "\t"⟩

/-- The indent of a function gets into a string that goes on in the next line: what was quoted
stands nowhere in the script. -/
theorem string_broken_by_indent :
    ∃ raw p m text, parse "fn f() \x7b return 'a\\\nb' \x7d" = .ok raw ∧
      Node.build raw = .ok p ∧ p.at? [0, 1, 0] = some m ∧ m.kind = .string "a\\\nb" ∧
      generate? defaultIndent p = some text ∧
      text = "function f() \x7b\n  return 'a\\\n  b'\n\x7d" ∧
      ¬ (quote "a\\\nb").toList <:+: text.toList := by
  obtain ⟨raw, p, hparse, hbuild, hp⟩ := exists_parsed_of_any
    "fn f() \x7b return 'a\\\nb' \x7d"
    (fun p => (p.at? [0, 1, 0]).any (·.kind == .string "a\\\nb") &&
      generate? defaultIndent p == some "function f() \x7b\n  return 'a\\\n  b'\n\x7d")
    (by decide +kernel)
  rw [Bool.and_eq_true, beq_iff_eq] at hp
  obtain ⟨hp, hscript⟩ := hp
  obtain ⟨m, hm, hkind⟩ := (Option.any_eq_true _ _).1 hp
  exact ⟨raw, p, m, _, hparse, hbuild, hm, beq_iff_eq.1 hkind, hscript, rfl, by decide +kernel⟩

end ExprScript
