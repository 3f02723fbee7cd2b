import ExprScript.Proofs.Script.StringLiterals

set_option autoImplicit false

/-! # How the lines of a script end

The first line of the standard library ends in `-code`, and no line of a script ends so before the
library is put in front. In the script of a parsed program a line ends behind the brace of a block,
behind a backslash in a string, or behind a statement. A statement ends in a number, a quote, a
bracket or a word, and no word stands right behind a minus sign.

`WellEnded` says this of a text, the end of the text included. Texts can be put together where a
character that occurs in no such end stands on one side of the seam (`WellEnded.append`), and the
words and signs of a script have such a character at every seam. A text is well-ended again when it
is cut into lines (`WellEnded.of_mem_linesOf`), as long as no carriage return stands at the end of a
line: cutting would take it away. So a script holds the text of the library only if it was put in
front: `shim_occurs_iff`.
-/

namespace ExprScript

/-! ## Ends of lines -/

/-- A line that ends neither as the first line of the standard library does nor in a carriage
return. -/
structure Steady (cs : List Char) : Prop where
  code : ¬ "-code".toList <:+ cs
  carriage : ¬ ['\r'] <:+ cs

/-- A character that neither of these ends has. -/
def isNeutral (c : Char) : Bool := !"-code\r".toList.contains c

/-- One neutral character or more. -/
def isSign (text : String) : Bool := !text.toList.isEmpty && text.toList.all isNeutral

/-- No line of the text, the last one included, ends in one of these ways. -/
def WellEnded (text : String) : Prop :=
  ∀ u v, text.toList ++ ['\n'] = u ++ '\n' :: v → Steady u

/-- An end that lies across a seam has characters on both sides of it. -/
theorem not_suffix_append {w s t : List Char} (ht : ¬ w <:+ t)
    (hseam : (∃ c, s.getLast? = some c ∧ c ∉ w) ∨ ∃ c, t.head? = some c ∧ c ∉ w) :
    ¬ w <:+ s ++ t := by
  intro hw
  rcases List.suffix_or_suffix_of_suffix hw (List.suffix_append s t) with h | ⟨a, rfl⟩
  · exact ht h
  · -- the end is `a ++ t`, with `a` at the end of the first text
    obtain ⟨b, hb⟩ := hw
    have hs : s = b ++ a := List.append_cancel_right (by rw [← hb, List.append_assoc])
    rcases hseam with ⟨c, hc, hcw⟩ | ⟨c, hc, hcw⟩
    · by_cases hnil : a = []
      · exact ht (hnil ▸ List.suffix_refl t)
      · rw [hs, List.getLast?_append_of_ne_nil _ hnil] at hc
        exact hcw (List.mem_append_left t (List.mem_of_getLast? hc))
    · exact hcw (List.mem_append_right a (List.mem_of_head? hc))

namespace Steady

theorem nil : Steady [] := ⟨by decide, by decide⟩

theorem of_append {s t : List Char} (h : Steady (s ++ t)) : Steady t :=
  ⟨fun hw => h.code (hw.trans (List.suffix_append s t)),
    fun hw => h.carriage (hw.trans (List.suffix_append s t))⟩

theorem append {s t : List Char} (ht : Steady t)
    (hseam : s.getLast?.any isNeutral = true ∨ t.head?.any isNeutral = true) :
    Steady (s ++ t) := by
  have hfree {o : Option Char} (ho : o.any isNeutral = true) :
      (∃ c, o = some c ∧ c ∉ "-code".toList) ∧ ∃ c, o = some c ∧ c ∉ ['\r'] := by
    obtain ⟨c, hc, hneutral⟩ := (Option.any_eq_true _ _).1 ho
    have hnot : c ∉ "-code".toList ++ ['\r'] := by simpa [isNeutral] using hneutral
    rw [List.mem_append, not_or] at hnot
    exact ⟨⟨c, hc, hnot.1⟩, c, hc, hnot.2⟩
  rcases hseam with h | h
  · exact ⟨not_suffix_append ht.code (.inl (hfree h).1),
      not_suffix_append ht.carriage (.inl (hfree h).2)⟩
  · exact ⟨not_suffix_append ht.code (.inr (hfree h).1),
      not_suffix_append ht.carriage (.inr (hfree h).2)⟩

theorem of_getLast {cs : List Char} (h : cs.getLast?.any isNeutral = true) : Steady cs := by
  have happend := nil.append (.inl h)
  rwa [List.append_nil] at happend

theorem of_notMem {cs : List Char} (hcode : '-' ∉ cs ∨ 'e' ∉ cs) (hreturn : '\r' ∉ cs) :
    Steady cs := by
  refine ⟨fun hw => ?_, fun hw => hreturn (hw.subset (by simp))⟩
  rcases hcode with h | h
  · exact h (hw.subset (by decide))
  · exact h (hw.subset (by decide))

end Steady

namespace WellEnded

variable {s t text : String}

theorem of_unbroken (hfeed : '\n' ∉ text.toList) (h : Steady text.toList) : WellEnded text := by
  intro u v huv
  rcases List.append_eq_append_iff.1 huv with ⟨m, rfl, hm⟩ | ⟨m, htext, hm⟩
  · cases m with
    | nil => rwa [List.append_nil]
    | cons x m => simp at hm
  · cases m with
    | nil => rwa [htext, List.append_nil] at h
    | cons x m =>
        obtain rfl := (List.cons.inj hm).1
        exact absurd (by simp [htext]) hfeed

theorem of_neutral (h : text.toList.all isNeutral = true) : WellEnded text := by
  intro u v huv
  rcases List.eq_nil_or_concat u with rfl | ⟨front, x, rfl⟩
  · exact .nil
  · -- a character before a line feed is not the one behind the text
    have hx : x ∈ text.toList := by
      have hdrop := congrArg List.dropLast huv
      rw [List.dropLast_concat, List.dropLast_append_of_ne_nil (by simp)] at hdrop
      rw [hdrop]
      simp
    exact .of_getLast (by simpa using List.all_eq_true.1 h x hx)

/-- **Texts can be put together** where one of the two characters at the seam is neutral. -/
theorem append (hs : WellEnded s) (ht : WellEnded t)
    (hseam : s.toList.getLast?.any isNeutral = true ∨ t.toList.head?.any isNeutral = true) :
    WellEnded (s ++ t) := by
  intro u v huv
  have hown : Steady s.toList := hs s.toList [] rfl
  rw [String.toList_append, List.append_assoc] at huv
  rcases List.append_eq_append_iff.1 huv with ⟨m, rfl, hm⟩ | ⟨m, hsm, hm⟩
  · -- the line ends in the second text
    cases m with
    | nil => rwa [List.append_nil]
    | cons x m =>
        refine (ht _ v hm).append (hseam.imp_right fun h => ?_)
        cases htext : t.toList with
        | nil => simp [htext] at h
        | cons y ys =>
            rw [htext] at h hm
            rwa [(List.cons.inj hm).1] at h
  · -- the line ends in the first text
    cases m with
    | nil => rwa [hsm, List.append_nil] at hown
    | cons x m =>
        obtain rfl := (List.cons.inj hm).1
        exact hs u (m ++ ['\n']) (by simp [hsm])

theorem of_append (h : WellEnded (s ++ t)) : WellEnded t := by
  intro u v huv
  refine (h (s.toList ++ u) v ?_).of_append
  rw [String.toList_append, List.append_assoc, huv, List.append_assoc]

/-- Any text can follow a word and a space. -/
theorem behind_word {word : String} (hword : '\n' ∉ word.toList)
    (hlast : word.toList.getLast?.any isNeutral = true) (ht : WellEnded t) :
    WellEnded (word ++ t) :=
  append (of_unbroken hword (.of_getLast hlast)) ht (.inl hlast)

theorem behind_neutral (hs : s.toList.all isNeutral = true) (ht : WellEnded t) :
    WellEnded (s ++ t) := by
  by_cases hnil : s = ""
  · rwa [hnil, String.empty_append]
  · refine append (of_neutral hs) ht (.inl ?_)
    obtain ⟨x, hx⟩ := Option.ne_none_iff_exists'.1
      (mt List.getLast?_eq_none_iff.1 (mt String.toList_eq_nil_iff.1 hnil))
    rw [hx]
    exact List.all_eq_true.1 hs x (List.mem_of_getLast? hx)

/-- Any two texts can stand at the two sides of a sign. -/
theorem around_sign {sign : String} (hsign : isSign sign = true) (hs : WellEnded s)
    (ht : WellEnded t) : WellEnded (s ++ sign ++ t) := by
  obtain ⟨hne, hneutral⟩ := Bool.and_eq_true_iff.1 hsign
  rw [String.append_assoc]
  refine append hs (behind_neutral hneutral ht) (.inr ?_)
  cases hchars : sign.toList with
  | nil => simp [hchars] at hne
  | cons x xs =>
      have hx := List.all_eq_true.1 hneutral x (by simp [hchars])
      simpa [hchars] using hx

theorem before_sign {sign : String} (hsign : isSign sign = true) (hs : WellEnded s) :
    WellEnded (s ++ sign) := by
  have hempty : WellEnded "" := of_neutral rfl
  simpa using around_sign hsign hs hempty

theorem enclosed {opening closing : String} (hopening : opening.toList.all isNeutral = true)
    (hclosing : isSign closing = true) (h : WellEnded text) :
    WellEnded (opening ++ text ++ closing) :=
  before_sign hclosing (behind_neutral hopening h)

theorem intercalate {sign : String} (hsign : isSign sign = true) {texts : List String}
    (h : ∀ a ∈ texts, WellEnded a) : WellEnded (sign.intercalate texts) := by
  induction texts with
  | nil => exact of_neutral (by simp)
  | cons a texts ih =>
      have ha := h a List.mem_cons_self
      have hrest := ih fun b hb => h b (List.mem_cons_of_mem a hb)
      cases texts with
      | nil => rwa [String.intercalate_singleton]
      | cons b texts =>
          rw [String.intercalate_cons_cons]
          exact around_sign hsign ha hrest

/-! ## Cutting into lines -/

/-- The line that is being read goes on from `back`, so this is said of both together. -/
theorem of_mem_linesFrom {back cs : List Char} (hback : '\n' ∉ back)
    (h : WellEnded (String.ofList (back.reverse ++ cs))) {line : String}
    (hline : line ∈ linesFrom back cs) : WellEnded line := by
  induction cs generalizing back with
  | nil =>
      rw [linesFrom] at hline
      split at hline
      · simp at hline
      · obtain rfl := List.mem_singleton.1 hline
        rwa [List.append_nil] at h
  | cons c cs ih =>
      rw [linesFrom] at hline
      split at hline
      · rename_i hc
        subst hc
        have hsteady : Steady back.reverse := h back.reverse (cs ++ ['\n']) (by simp)
        -- there is no carriage return to be chopped off
        have hchop : chopReturn back = back := by
          unfold chopReturn
          split
          · exact absurd (by simp) hsteady.carriage
          · rfl
        rcases List.mem_cons.1 hline with rfl | hline
        · rw [hchop]
          exact of_unbroken (by simpa using hback) (by simpa using hsteady)
        · refine ih List.not_mem_nil ?_ hline
          rw [List.append_cons, String.ofList_append] at h
          exact h.of_append
      · rename_i hc
        refine ih (by simpa using ⟨Ne.symm hc, hback⟩) ?_ hline
        rwa [List.reverse_cons, List.append_assoc, List.singleton_append]

/-- The lines of a text that is well-ended are. -/
theorem of_mem_linesOf (h : WellEnded text) {line : String} (hline : line ∈ linesOf text) :
    WellEnded line :=
  of_mem_linesFrom List.not_mem_nil (by simpa using h) hline

/-! ## Words, numbers and strings -/

/-- A name has no minus sign. -/
theorem of_identifier {name : String} (h : IsIdentifier name.toList) : WellEnded name := by
  have hfree {c : Char} (hc : isIdentifierChar c = false) : c ∉ name.toList := by
    intro hmem
    rw [h.chars c hmem] at hc
    exact Bool.noConfusion hc
  exact of_unbroken (hfree (by decide)) (.of_notMem (.inl (hfree (by decide))) (hfree (by decide)))

/-- A number ends in a digit. -/
theorem toString_int (i : Int) : WellEnded (toString i) := by
  obtain ⟨sign, ds, htext, hsign, -, hds, -⟩ := Decimal.exists_sign_digits i
  have hfree {c : Char} (hdigit : c.isDigit = false) (hminus : c ≠ '-') :
      c ∉ (toString i).toList := by
    rw [htext, List.mem_append, not_or]
    constructor
    · rw [hsign]
      split
      · simpa using hminus
      · exact List.not_mem_nil
    · intro hc
      rw [hds c hc] at hdigit
      exact Bool.noConfusion hdigit
  exact of_unbroken (hfree (by decide) (by decide))
    (.of_notMem (.inr (hfree (by decide) (by decide))) (hfree (by decide) (by decide)))

end WellEnded

/-- Every line feed stands behind a neutral character. -/
def NeutralFeeds (cs : List Char) : Prop :=
  ∀ u v, cs = u ++ '\n' :: v → u.getLast?.any isNeutral = true

namespace NeutralFeeds

theorem any_getLast?_cons (x : Char) {u : List Char} (h : u.getLast?.any isNeutral = true) :
    (x :: u).getLast?.any isNeutral = true := by
  obtain ⟨c, hc, hneutral⟩ := (Option.any_eq_true _ _).1 h
  simp [List.getLast?_cons, hc, hneutral]

theorem cons {x : Char} {cs : List Char} (hx : x ≠ '\n') (h : NeutralFeeds cs) :
    NeutralFeeds (x :: cs) := by
  intro u v huv
  cases u with
  | nil => exact absurd (List.cons.inj huv).1 hx
  | cons y u => exact any_getLast?_cons y (h u v (List.cons.inj huv).2)

theorem feed {x : Char} {cs : List Char} (hx : x ≠ '\n') (hneutral : isNeutral x = true)
    (h : NeutralFeeds cs) : NeutralFeeds (x :: '\n' :: cs) := by
  intro u v huv
  obtain _ | ⟨y, _ | ⟨z, u⟩⟩ := u
  · exact absurd (List.cons.inj huv).1 hx
  · obtain rfl := (List.cons.inj huv).1
    exact hneutral
  · have hcs : cs = u ++ '\n' :: v := (List.cons.inj (List.cons.inj huv).2).2
    exact any_getLast?_cons y (any_getLast?_cons z (h u v hcs))

/-- In a quoted value a line feed stands behind a backslash. -/
theorem quoteChars (cs : List Char) :
    NeutralFeeds (ExprScript.quoteChars cs ++ ['\'', '\n']) := by
  have hquote : NeutralFeeds ['\'', '\n'] := feed (by decide) (by decide) (by simp [NeutralFeeds])
  fun_induction ExprScript.quoteChars cs with
  | case1 => exact hquote
  | case2 c cs ih =>
      -- only a pair brings a line feed with it
      by_cases hc : c = '\n'
      · subst hc
        exact feed (by decide) (by decide) ih
      · exact cons (by decide) (cons hc ih)
  | case3 => exact cons (by decide) hquote
  | case4 cs ih => exact cons (by decide) (cons (by decide) ih)
  | case5 cs ih => exact cons (by decide) (cons (by decide) ih)
  | case6 c cs _ _ _ hfeed ih => exact cons (fun hc => hfeed hc) ih

end NeutralFeeds

theorem WellEnded.quote (value : String) : WellEnded (quote value) := by
  have htext : (ExprScript.quote value).toList ++ ['\n'] =
      '\'' :: (quoteChars value.toList ++ ['\'', '\n']) := by
    simp [ExprScript.quote]
  intro u v huv
  rw [htext] at huv
  exact .of_getLast ((NeutralFeeds.quoteChars value.toList).cons (by decide) u v huv)

/-! ## Scripts -/

namespace Piece

theorem wellEnded_operand {p : Piece} (h : WellEnded p.text) : WellEnded p.operand := by
  unfold operand
  split
  · exact .enclosed (by decide) (by decide) h
  · exact h

variable {indent : String} {ps : List Piece}

theorem wellEnded_joined {separator : String} (hsep : isSign separator = true)
    (h : ∀ p ∈ ps, WellEnded p.text) : WellEnded (joined separator ps) := by
  refine .intercalate hsep fun a ha => ?_
  obtain ⟨p, hp, rfl⟩ := List.mem_map.1 ha
  exact h p hp

/-- **A block is well-ended if its statements are.** -/
theorem wellEnded_braced (hindent : indent.toList.all isNeutral = true)
    (h : ∀ p ∈ ps, WellEnded p.text) : WellEnded (braced indent ps) := by
  have hblock : WellEnded (block indent ps) := by
    refine .intercalate (by decide) fun a ha => ?_
    obtain ⟨p, hp, ha⟩ := List.mem_flatMap.1 ha
    obtain ⟨line, hline, rfl⟩ := List.mem_map.1 ha
    exact ((h p hp).of_mem_linesOf hline).behind_neutral hindent
  exact .enclosed (by decide) (by decide) hblock

theorem wellEnded_expressionBody (h : ∀ p ∈ ps, WellEnded p.text) :
    WellEnded (expressionBody ps) := by
  unfold expressionBody
  split
  · rename_i p
    have hp := h p List.mem_cons_self
    split
    · exact .enclosed (by decide) (by decide) hp
    · exact hp
  · exact .enclosed (by decide) (by decide) (wellEnded_joined (by decide) h)

theorem wellEnded_lambda (hindent : indent.toList.all isNeutral = true) {params : Piece}
    (hparams : WellEnded params.text) (h : ∀ p ∈ ps, WellEnded p.text) :
    WellEnded (lambda indent params ps) := by
  refine (hparams.behind_neutral (by decide)).around_sign (by decide) ?_
  rw [lambdaBody]
  split
  · exact wellEnded_braced hindent h
  · exact wellEnded_expressionBody h

end Piece

/-- **The script of a node is well-ended if those of its children are.** -/
theorem Kind.wellEnded_assemble {k : Kind} {indent text : String} {ps : List Piece}
    (hindent : indent.toList.all isNeutral = true) (hfits : k.Fits (ps.map (·.kind.type)))
    (h : ∀ p ∈ ps, WellEnded p.text) (htext : k.assemble? indent ps = some text) :
    WellEnded text := by
  cases k with
  | program =>
      obtain rfl := Option.some.inj htext
      exact Piece.wellEnded_joined (by decide) h
  | integer value =>
      obtain rfl := Option.some.inj htext
      exact .toString_int _
  | string value =>
      obtain rfl := Option.some.inj htext
      exact .quote value
  | boolean value =>
      obtain rfl := Option.some.inj htext
      cases value <;> exact .of_unbroken (by decide) (.of_notMem (.inl (by decide)) (by decide))
  | void =>
      obtain rfl := Option.some.inj htext
      exact .of_unbroken (by decide) (.of_notMem (.inl (by decide)) (by decide))
  | identifier name =>
      obtain rfl := Option.some.inj htext
      exact .of_identifier hfits.2
  | binaryOperator operator =>
      -- a minus sign may end an operator, but none ends in a letter
      obtain rfl := Option.some.inj htext
      have hall : ∀ o ∈ operators, '\n' ∉ o.toList ∧ 'e' ∉ o.toList ∧ '\r' ∉ o.toList := by
        decide
      obtain ⟨hfeed, he, hreturn⟩ := hall _ hfits.2
      exact .of_unbroken hfeed (.of_notMem (.inr he) hreturn)
  | array =>
      obtain rfl := Option.some.inj htext
      exact .enclosed (by decide) (by decide) (Piece.wellEnded_joined (by decide) h)
  | object =>
      cases ps with
      | nil =>
          obtain rfl := Option.some.inj htext
          exact .of_neutral (by decide)
      | cons p ps =>
          obtain rfl := Option.some.inj htext
          exact .enclosed (by decide) (by decide) (Piece.wellEnded_joined (by decide) h)
  | parameters | arguments =>
      obtain rfl := Option.some.inj htext
      exact Piece.wellEnded_joined (by decide) h
  | returnExpression =>
      obtain rfl := Option.some.inj htext
      exact (Piece.wellEnded_joined (by decide) h).behind_word (by decide) (by decide)
  | variableDeclaration name isMutable =>
      obtain rfl := Option.some.inj htext
      have hname := WellEnded.of_identifier hfits.1
      have hword : WellEnded ((if isMutable then "let " else "const ") ++ name) := by
        cases isMutable <;> exact hname.behind_word (by decide) (by decide)
      exact hword.around_sign (by decide) (Piece.wellEnded_joined (by decide) h)
  | binaryExpression =>
      obtain rfl := Option.some.inj htext
      refine .intercalate (by decide) fun a ha => ?_
      obtain ⟨p, hp, rfl⟩ := List.mem_map.1 ha
      exact Piece.wellEnded_operand (h p hp)
  | objectProperty =>
      obtain ⟨p, q, rfl⟩ := exists_two_of_shapeFault? (.inl rfl) (shapeFault?_eq_none_of_fits hfits)
      obtain rfl := Option.some.inj htext
      exact (h p (by simp)).around_sign (by decide) (h q (by simp))
  | call =>
      obtain ⟨p, q, rfl⟩ :=
        exists_two_of_shapeFault? (.inr (.inl rfl)) (shapeFault?_eq_none_of_fits hfits)
      obtain rfl := Option.some.inj htext
      exact ((Piece.wellEnded_operand (h p (by simp))).around_sign (by decide)
        (h q (by simp))).before_sign (by decide)
  | propertyAccess =>
      obtain ⟨p, q, rfl⟩ :=
        exists_two_of_shapeFault? (.inr (.inr rfl)) (shapeFault?_eq_none_of_fits hfits)
      obtain rfl := Option.some.inj htext
      exact (Piece.wellEnded_operand (h p (by simp))).around_sign (by decide) (h q (by simp))
  | functionDeclaration name =>
      have hname : WellEnded ("function " ++ name) :=
        (WellEnded.of_identifier hfits.1).behind_word (by decide) (by decide)
      obtain _ | ⟨params, _ | ⟨p, ps⟩⟩ := ps
      · cases htext
      · obtain rfl := Option.some.inj htext
        exact (hname.around_sign (by decide) (h params (by simp))).before_sign (by decide)
      · obtain rfl := Option.some.inj htext
        have hbody := Piece.wellEnded_braced hindent fun q hq => h q (List.mem_cons_of_mem params hq)
        exact (hname.around_sign (by decide) (h params (by simp))).around_sign (by decide) hbody
  | namedFunction =>
      obtain _ | ⟨name, _ | ⟨params, body⟩⟩ := ps
      · cases htext
      · cases htext
      · obtain rfl := Option.some.inj htext
        have hname : WellEnded ("const " ++ name.text) :=
          (h name (by simp)).behind_word (by decide) (by decide)
        exact hname.around_sign (by decide)
          (Piece.wellEnded_lambda hindent (h params (by simp)) fun q hq => h q (by simp [hq]))
  | anonymousFunction =>
      obtain _ | ⟨params, body⟩ := ps
      · cases htext
      · obtain rfl := Option.some.inj htext
        exact Piece.wellEnded_lambda hindent (h params (by simp)) fun q hq => h q (by simp [hq])

/-- **The lines of a parsed program do not end as the library does.** -/
theorem Node.wellEnded_of_render {n : Node} {p : Piece} {indent : String}
    (hindent : indent.toList.all isNeutral = true) (hn : n.Grammatical)
    (h : n.render? indent = some p) : WellEnded p.text := by
  induction hn generalizing p with
  | @intro n fits _ ih =>
      obtain ⟨ps, text, hps, htext, rfl⟩ := render?_eq_some_iff.1 h
      rw [← map_type_of_renders hps] at fits
      refine Kind.wellEnded_assemble hindent fits (fun q hq => ?_) htext
      obtain ⟨j, hj⟩ := List.mem_iff_getElem?.1 hq
      obtain ⟨c, hc, hrender⟩ := getElem?_of_forall₂ hps.flip hj
      exact ih c (List.mem_of_getElem? hc) hrender

/-- The text of the standard library is not in a text whose lines do not end as it does. -/
theorem WellEnded.not_occursIn_stdShim {text : String} (h : WellEnded text) :
    ¬ OccursIn stdShim text := by
  rintro ⟨front, back, htext⟩
  -- the end of the first line of the library would be the end of a line of the text
  obtain ⟨rest, hshim⟩ : ∃ rest,
      stdShim.toList = "// std-library".toList ++ "-code".toList ++ '\n' :: rest := ⟨_, rfl⟩
  refine (h (front ++ ("// std-library".toList ++ "-code".toList)) (rest ++ (back ++ ['\n']))
    ?_).code ?_
  · rw [← htext, hshim]
    simp only [List.append_assoc, List.cons_append]
  · rw [← List.append_assoc]
    exact List.suffix_append _ _

theorem Node.accessesStd_iff {n : Node} :
    n.accessesStd = true ↔ ∃ a m c, n.at? a = some m ∧ m.kind = .propertyAccess ∧
      m.children.head? = some c ∧ c.kind = .identifier stdName := by
  rw [accessesStd, List.any_eq_true]
  constructor
  · rintro ⟨m, hm, haccess⟩
    obtain ⟨a, ha⟩ := mem_postorder_iff.1 hm
    rw [isStdAccess, Bool.and_eq_true, decide_eq_true_iff, Option.any_eq_true] at haccess
    obtain ⟨hkind, c, hc, hname⟩ := haccess
    exact ⟨a, m, c, ha, hkind, hc, of_decide_eq_true hname⟩
  · rintro ⟨a, m, c, ha, hkind, hc, hname⟩
    refine ⟨m, mem_postorder_iff.2 ⟨a, ha⟩, ?_⟩
    simp [isStdAccess, hkind, hc, hname]

/-- **The text of the standard library is in a script exactly when the program accesses it.** For
every source that is parsed and built there is a complete script, and it holds the text of the
library if and only if some node of the tree is a property access whose first child is the name
`std`. -/
theorem shim_occurs_iff {source : String} {raw : RawNode} {p : Node}
    (hparse : parse source = .ok raw) (hbuild : Node.build raw = .ok p) :
    ∃ text, generate? defaultIndent p = some text ∧
      (stdShim.toList <:+: text.toList ↔
        ∃ a m c, p.at? a = some m ∧ m.kind = .propertyAccess ∧
          m.children.head? = some c ∧ c.kind = .identifier "std") := by
  obtain ⟨hg, hshaped, -⟩ := grammatical_of_parse hparse hbuild
  obtain ⟨q, hq, hrender⟩ := Generator.render?_of_shaped hshaped {}
  have htext : generate? defaultIndent p =
      some (if p.accessesStd then stdShim ++ q.text else q.text) := by
    have hrender : Generator.render? { indent := defaultIndent } p = some _ := hrender
    rw [generate?, Generator.generate?, hrender, Generator.seeing]
    rfl
  refine ⟨_, htext, ?_⟩
  refine Iff.trans ?_ Node.accessesStd_iff
  split
  · rename_i haccess
    exact iff_of_true ((OccursIn.refl stdShim).before q.text) haccess
  · rename_i haccess
    have hended := Node.wellEnded_of_render (by decide) hg hq
    exact iff_of_false hended.not_occursIn_stdShim haccess

/-- A string that begins as the library does, beside a name that is not accessed. -/
theorem shim_occurs_iff_spelledInString :
    ∃ raw p text, parse "fn f(std) \x7b return std + '// std-library-code\\\nconst std' \x7d" =
        .ok raw ∧
      Node.build raw = .ok p ∧ generate? defaultIndent p = some text ∧
      text = "function f(std) \x7b\n  return std + '// std-library-code\\\n  const std'\n\x7d" ∧
      (stdShim.toList <:+: text.toList ↔
        ∃ a m c, p.at? a = some m ∧ m.kind = .propertyAccess ∧
          m.children.head? = some c ∧ c.kind = .identifier "std") := by
  obtain ⟨raw, p, hparse, hbuild, hp⟩ := exists_parsed_of_any
    "fn f(std) \x7b return std + '// std-library-code\\\nconst std' \x7d"
    (fun p => generate? defaultIndent p ==
      some "function f(std) \x7b\n  return std + '// std-library-code\\\n  const std'\n\x7d")
    (by decide +kernel)
  obtain ⟨text, htext, hiff⟩ := shim_occurs_iff hparse hbuild
  have hscript := htext.symm.trans (beq_iff_eq.1 hp)
  exact ⟨raw, p, text, hparse, hbuild, htext, Option.some.inj hscript, hiff⟩

end ExprScript
