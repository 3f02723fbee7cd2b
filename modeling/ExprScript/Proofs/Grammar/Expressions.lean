import ExprScript.Proofs.Grammar.Operands

set_option autoImplicit false

/-! # Texts that are read as expressions

What is made of operands: a `ReadsRow` is a row of texts with marks between them, which are the
operators of a binary expression or the commas of a list. Where a row is matched, the raw trees
of the matches describe its nodes (`ReadsRow.run`); expressions and lists between brackets are
both read off from that.

An operand can be put together from an expression in parentheses, from a list between brackets,
and from an operand with a suffix. So every way to write an expression has one lemma here.
-/

namespace ExprScript

open Grammar Peg Rule

/-! ## Rows -/

/-- The separator `sep`, in front of a text, ends an item and is matched as a mark, which is
read as the nodes `ns`. -/
structure ReadsMark (Ends : List Char → Prop) (mark : Peg Rule) (sep : List Char)
    (ns : List Node) : Prop where
  ends : ∀ k, Ends (sep ++ k)
  accept : ∀ (p : Position) (text k : List Char), Opens text →
    ∃ c ms raws, programGrammar.run .spaced mark (Layout.skip ⟨p, sep ++ (text ++ k)⟩) = .ok c ms ∧
      Layout.skip c = ⟨p.after sep, text ++ k⟩ ∧
      RawNode.ofMatches ms = .ok raws ∧ List.Forall₂ RawNode.Describes raws ns

/-- Items with marks between them. -/
inductive ReadsRow (item : Rule) (Ends : List Char → Prop) (mark : Peg Rule) :
    List Char → List Node → Prop where
  | last {text : List Char} {n : Node} (first : ReadsAs item Ends text n) :
      ReadsRow item Ends mark text [n]
  | next {text sep rest : List Char} {n : Node} {marks ns : List Node}
      (first : ReadsAs item Ends text n) (between : ReadsMark Ends mark sep marks)
      (more : ReadsRow item Ends mark rest ns) :
      ReadsRow item Ends mark (text ++ (sep ++ rest)) (n :: (marks ++ ns))

section

variable {item : Rule} {Ends : List Char → Prop} {mark : Peg Rule} {text : List Char}
  {ns : List Node}

theorem ReadsRow.opens (h : ReadsRow item Ends mark text ns) : Opens text := by
  cases h with
  | last first => exact first.opens
  | next first _ _ => exact first.opens.append _

theorem ofMatches_append {ms ms' : List (MatchTree Rule)} {raws raws' : List RawNode}
    (h : RawNode.ofMatches ms = .ok raws) (h' : RawNode.ofMatches ms' = .ok raws') :
    RawNode.ofMatches (ms ++ ms') = .ok (raws ++ raws') := by
  induction ms generalizing raws with
  | nil =>
      rw [RawNode.ofMatches] at h
      obtain rfl := Except.ok.inj h
      exact h'
  | cons m ms ih =>
      rw [RawNode.ofMatches] at h
      rw [List.cons_append, RawNode.ofMatches]
      cases hm : RawNode.ofMatch m with
      | error e => rw [hm] at h; cases h
      | ok raw =>
          cases hms : RawNode.ofMatches ms with
          | error e => rw [hm, hms] at h; cases h
          | ok more =>
              rw [hm, hms] at h
              obtain rfl := Except.ok.inj h
              rw [ih hms]
              rfl

theorem ofMatches_cons {m : MatchTree Rule} {ms : List (MatchTree Rule)} {raw : RawNode}
    {raws : List RawNode} (h : RawNode.ofMatch m = .ok raw) (h' : RawNode.ofMatches ms = .ok raws) :
    RawNode.ofMatches (m :: ms) = .ok (raw :: raws) := by
  rw [RawNode.ofMatches, h, h']
  rfl

/-- **A row is matched item by item**, each after the first in a round with the mark in front of
it. -/
theorem ReadsRow.run (h : ReadsRow item Ends mark text ns) {k : List Char} (hk : Ends k)
    (p : Position) :
    ∃ c m d ms raws, programGrammar.run .spaced (.call item) ⟨p, text ++ k⟩ = .ok c [m] ∧
      programGrammar.Steps .spaced (.seq mark (.call item)) c d ms ∧
      Layout.skip d = Layout.skip ⟨p.after text, k⟩ ∧
      RawNode.ofMatches (m :: ms) = .ok raws ∧ List.Forall₂ RawNode.Describes raws ns := by
  induction h generalizing p with
  | last first =>
      obtain ⟨d, m, raw, hrun, hd, hraw, hdescribes⟩ := first.accept p k hk
      exact ⟨d, m, d, [], [raw], hrun, .refl d, hd, ofMatches_cons hraw rfl,
        .cons hdescribes .nil⟩
  | @next text sep rest n marks ns first between more ih =>
      obtain ⟨c, m, raw, hrun, hc, hraw, hdescribes⟩ := first.accept p _ (between.ends (rest ++ k))
      obtain ⟨c₁, os, raws, hmark, hc₁, hos, hmarks⟩ :=
        between.accept (p.after text) rest k more.opens
      obtain ⟨c₂, m₂, d, ms, raws', hitem, hsteps, hd, hms, hrest⟩ :=
        ih ((p.after text).after sep)
      -- layout in front of the mark and of the item counts as passed over in either place
      have hround : programGrammar.run .spaced (.seq mark (.call item))
          (programGrammar.gap .spaced c) = .ok c₂ (os ++ [m₂]) := by
        rw [← hc] at hmark
        rw [← hc₁] at hitem
        exact run_seq_ok hmark hitem
      refine ⟨c, m, d, os ++ (m₂ :: ms), raw :: (raws ++ raws'), ?_, ?_, ?_, ?_, ?_⟩
      · simpa only [List.append_assoc] using hrun
      · have hall := Steps.head hround hsteps
        rwa [List.append_assoc] at hall
      · rwa [Position.after_append, Position.after_append]
      · exact ofMatches_cons hraw (ofMatches_append hos hms)
      · exact .cons hdescribes (List.rel_append hmarks hrest)

end

/-! ## Operators -/

abbrev ReadsOperands (text : List Char) (ns : List Node) : Prop :=
  ReadsRow .operand EndsOperand (.call .binaryOperator) text ns

theorem readsMark_operator {o : String} (ho : o ∈ operators) {m : Node}
    (hkind : m.kind = .binaryOperator o) (hchildren : m.children = []) :
    ReadsMark EndsOperand (.call .binaryOperator) (' ' :: (o.toList ++ [' '])) [m] where
  ends k := by simpa using endsOperand_operator ho k
  accept p text k htext := by
    have hskip : Layout.skip ⟨p, ' ' :: (o.toList ++ [' ']) ++ (text ++ k)⟩ =
        ⟨p.advance ' ', o.toList ++ ' ' :: (text ++ k)⟩ := by
      have hspace := Layout.skip_append [' '] (List.forall_mem_singleton.2 rfl) p
        (o.toList ++ ' ' :: (text ++ k))
      have hfree := Layout.skip_of_free (c := ⟨p.advance ' ', _⟩) (free_operator ho (text ++ k))
      simpa using hspace.trans hfree
    rw [hskip]
    refine ⟨_, _, _, run_operator ho (by decide), ?_, ofMatches_cons rfl rfl, .cons ?_ .nil⟩
    · have hspace := htext.skip_append [' '] (List.forall_mem_singleton.2 rfl)
        ((p.advance ' ').after o.toList) k
      rwa [← Position.after_append] at hspace
    · refine .intro ?_ (by rw [hchildren]; exact .nil)
      show Except.ok (Kind.binaryOperator (String.ofList o.toList)) = _
      rw [String.ofList_toList, hkind]

/-- No operator is matched where none begins. -/
theorem run_operator_of_head {c : Cursor} (hc : EndsClass isOperatorStart c.rest) :
    programGrammar.run .spaced (.call .binaryOperator) c = .fail := by
  refine run_call_eq_fail_iff.2 ?_
  show programGrammar.run .spaced (.oneOf operators) c = .fail
  rw [run_oneOf, Outcome.ofCursor?_eq_fail_iff, List.findSome?_eq_none_iff]
  intro o ho
  rw [Cursor.strip?_eq_none_iff]
  rintro ⟨k, hk⟩
  obtain ⟨x, xs, hx, -⟩ := operator_cases ho
  have hstart : isOperatorStart x = true := List.any_eq_true.2 ⟨o, ho, by simp [hx]⟩
  rw [hx] at hk
  exact hc.head_ne hstart (by rw [← hk]; rfl)

/-- Operands and operators are matched as an expression. -/
theorem ReadsRow.expression {text : List Char} {ns : List Node} (h : ReadsOperands text ns)
    {k : List Char} (hk : EndsExpression k) (p : Position) :
    ∃ d span read ms raws, programGrammar.run .spaced (.call .expression) ⟨p, text ++ k⟩ =
        .ok d [.node .expression span read ms] ∧
      Layout.skip d = Layout.skip ⟨p.after text, k⟩ ∧
      RawNode.ofMatches ms = .ok raws ∧ List.Forall₂ RawNode.Describes raws ns := by
  obtain ⟨c, m, d, ms, raws, hrun, hsteps, hd, hms, hdescribes⟩ := h.run hk.toEndsOperand p
  have hstop : programGrammar.run .spaced operatorRound (Layout.skip d) = .fail := by
    rw [hd]
    exact run_seq_of_fail (run_operator_of_head (hk.operator _))
  obtain ⟨d', hstar, hd'⟩ := run_star_spaced rfl hsteps hstop
  have hbody : programGrammar.run .spaced (Rule.body .expression) ⟨p, text ++ k⟩ =
      .ok d' ([m] ++ ms) := run_seq_ok hrun hstar
  exact ⟨d', _, _, m :: ms, raws, (run_node_eq_ok_iff (by decide) (by decide)).2 ⟨_, hbody, rfl⟩,
    hd'.trans hd, hms, hdescribes⟩

/-- The text is read as an expression, and does not begin with the word of another statement. -/
structure ReadsExpression (text : List Char) (n : Node) : Prop
    extends ReadsAs .expression EndsExpression text n where
  word : ∀ k, EndsClass isIdentifierChar k →
    ∀ u ∈ statementWords, leadingWord (text ++ k) ≠ u.toList

/-- **An operand is an expression.** -/
theorem ReadsOperand.expression {text : List Char} {n : Node} (h : ReadsOperand text n) :
    ReadsExpression text n where
  opens := h.opens
  word _ hk := h.leads.leadingWord_ne hk
  accept p k hk := by
    have hrow : ReadsOperands text [n] := .last h.readsAs
    obtain ⟨d, span, read, ms, raws, hrun, hd, hms, _ | ⟨hraw, _ | _⟩⟩ := hrow.expression hk p
    refine ⟨d, _, _, hrun, hd, ?_, hraw⟩
    rw [RawNode.ofMatch, hms]
    rfl

structure ReadsBinary (text : List Char) (ns : List Node) : Prop where
  row : ReadsOperands text ns
  leads : ∃ first rest o, Opens first ∧ Leads first ∧ o ∈ operators ∧
    text = first ++ ' ' :: (o.toList ++ ' ' :: rest)
  two : 2 ≤ ns.length

/-- **Operands with operators between them are an expression.** -/
theorem ReadsBinary.expression {text : List Char} {ns : List Node} (h : ReadsBinary text ns)
    (i : Nat) (span : Span) : ReadsExpression text ⟨i, .binaryExpression, ns, span⟩ where
  opens := h.row.opens
  word k _ := by
    obtain ⟨first, rest, o, -, hleads, -, rfl⟩ := h.leads
    rw [List.append_assoc]
    exact hleads.leadingWord_ne (endsClass_cons (by decide) _)
  accept p k hk := by
    obtain ⟨d, span', read, ms, raws, hrun, hd, hms, hdescribes⟩ := h.row.expression hk p
    refine ⟨d, _, .ofType .binaryExpression raws span', hrun, hd, ?_, .intro rfl hdescribes⟩
    have hlen : 2 ≤ raws.length := hdescribes.length_eq ▸ h.two
    obtain _ | ⟨r, _ | ⟨r', raws⟩⟩ := raws
    · simp at hlen
    · simp at hlen
    · rw [RawNode.ofMatch, hms]
      rfl

/-! ## Parentheses -/

/-- What stands between an opening and a closing character. -/
theorem run_between {inner : Peg Rule} {o c : String} {x y : Char} (ho : o.toList = [x])
    (hc : c.toList = [y]) (hy : Layout.isSpace y = false ∧ y ≠ '/') {text k : List Char}
    {p : Position} {d : Cursor} {ts : List (MatchTree Rule)}
    (hinner : programGrammar.run .spaced inner (Layout.skip ⟨p.advance x, text ++ y :: k⟩) =
      .ok d ts)
    (hd : Layout.skip d = Layout.skip ⟨(p.advance x).after text, y :: k⟩) :
    programGrammar.run .spaced (inOrder (.lit o) [inner, .lit c]) ⟨p, x :: (text ++ [y]) ++ k⟩ =
      .ok ⟨p.after (x :: (text ++ [y])), k⟩ ts := by
  have hclose : programGrammar.run .spaced (.lit c) (Layout.skip d) =
      .ok ⟨p.after (x :: (text ++ [y])), k⟩ [] := by
    have hfree : Layout.Free (y :: k) := ⟨hy.1, fun h => hy.2 h.1⟩
    rw [hd, Layout.skip_of_free hfree, Position.after_cons, Position.after_append]
    exact run_lit_cons hc
  have hrest := run_seq_ok hinner hclose
  rw [List.append_nil] at hrest
  rw [List.cons_append, List.append_assoc]
  exact run_seq_nil (run_lit_cons ho) hrest

def isListMark (x : Char) : Bool := x == ',' || x == ')'

/-- The word at the front of the text, and what is behind it in front of `k`. -/
theorem Leads.split {text : List Char} (h : Leads text) {k : List Char}
    (hk : EndsClass isIdentifierChar k) (hnext : NextEnds isListMark k) :
    ∃ w r, text ++ k = w ++ r ∧ (∀ x ∈ w, isIdentifierChar x = true) ∧
      EndsClass isIdentifierChar r ∧ NextEnds isListMark r := by
  obtain ⟨w, r, rfl, hw, hr, -⟩ := h
  refine ⟨w, r ++ k, by rw [List.append_assoc], hw, ?_⟩
  cases r with
  | nil => exact ⟨hk, hnext⟩
  | cons x r =>
      obtain ⟨hword, hspace, hslash, hcomma, hclose⟩ := hr x rfl
      refine ⟨endsClass_cons hword _, nextEnds_of_free ⟨hspace, fun h => hslash h.1⟩ ?_⟩
      exact endsClass_cons (by simp [isListMark, hcomma, hclose]) _

theorem Leads.head_ne {text : List Char} (h : Leads text) (hopens : Opens text) (k : List Char) :
    (text ++ k).head? ≠ some ')' := by
  obtain ⟨w, r, rfl, hw, hr, -⟩ := h
  obtain ⟨x, xs, hx, -⟩ := hopens
  rw [hx]
  intro hclose
  obtain rfl : x = ')' := Option.some.inj hclose
  cases w with
  | nil => exact (hr ')' (by rw [← List.nil_append r, hx]; rfl)).2.2.2.2 rfl
  | cons y w =>
      obtain rfl : y = ')' := (List.cons.inj hx).1
      exact absurd (hw ')' (by simp)) (by decide)

/-- The names a parameter list could begin with are followed by no closing parenthesis. -/
theorem exists_run_names {text : List Char} (hopens : Opens text) (hleads : Leads text)
    {k : List Char} (hk : EndsClass isIdentifierChar k) (hnext : NextEnds isListMark k)
    (p : Position) :
    ∃ d ts, programGrammar.run .spaced (commaList (.call .identifier) []) ⟨p, text ++ k⟩ =
      .ok d ts ∧ (Layout.skip d).rest.head? ≠ some ')' := by
  cases hid : programGrammar.run .spaced (.call .identifier) ⟨p, text ++ k⟩ with
  | exhausted => exact absurd hid (programRanking.run_ne_exhausted (by decide))
  | fail =>
      refine ⟨_, _, run_opt_of_fail (run_seq_of_fail hid), ?_⟩
      rw [Layout.skip_of_free (hopens.free k)]
      exact hleads.head_ne hopens k
  | ok d ts =>
      obtain ⟨us, hname, -⟩ := (run_node_eq_ok_iff (by decide) (by decide)).1 hid
      obtain ⟨name, hreads, hidentifier, hend⟩ := isIdentifier_of_run hname
      obtain ⟨w, r, hsplit, hw, hr, hmark⟩ := hleads.split hk hnext
      -- the identifier is the word at the front, so what comes next is known
      have hrest : d.rest = r := by
        have happend : name ++ d.rest = w ++ r := hreads.rest.symm.trans hsplit
        have hwords : name = w := by
          rw [← leadingWord_append hidentifier.chars hend, happend, leadingWord_append hw hr]
        rw [hwords] at happend
        exact List.append_cancel_left happend
      have hafter : EndsClass isListMark (Layout.skip d).rest := by
        have := hmark d.pos
        rwa [← hrest] at this
      have hcomma : programGrammar.run .spaced (.seq (.lit ",") (.call .identifier))
          (Layout.skip d) = .fail :=
        run_seq_of_fail (run_lit_of_head (x := ',') rfl (hafter.head_ne (by decide)))
      obtain ⟨d', hstar, hd'⟩ := run_star_spaced rfl (.refl d) hcomma
      refine ⟨d', _, run_opt_of_ok (run_seq_ok hid hstar), ?_⟩
      rw [hd']
      exact hafter.head_ne (by decide)

/-- A parenthesis in front of a word and something other than a comma or a closing parenthesis
opens no parameter list, and so no function. -/
theorem run_anonymousFunction_of_leads {text : List Char} (hopens : Opens text)
    (hleads : Leads text) {k : List Char} (hk : EndsClass isIdentifierChar k)
    (hnext : NextEnds isListMark k) (p : Position) :
    programGrammar.run .spaced (.call .anonymousFunction) ⟨p, '(' :: (text ++ k)⟩ = .fail := by
  obtain ⟨d, ts, hlist, hd⟩ := exists_run_names hopens hleads hk hnext (p.advance '(')
  refine run_call_eq_fail_iff.2 (run_seq_of_fail (run_call_eq_fail_iff.2 ?_))
  show programGrammar.run .spaced (Rule.body .parameters) _ = .fail
  refine run_seq_eq_fail_iff.2 (.inr ⟨_, _, run_lit_cons rfl, ?_⟩)
  rw [hopens.gap]
  exact run_seq_eq_fail_iff.2 (.inr ⟨d, ts, hlist, run_lit_of_head (x := ')') rfl hd⟩)

/-- **A binary expression in parentheses is an operand.** -/
theorem ReadsBinary.operand {text : List Char} {ns : List Node} (h : ReadsBinary text ns)
    (i : Nat) (span : Span) :
    ReadsOperand ('(' :: (text ++ [')'])) ⟨i, .binaryExpression, ns, span⟩ := by
  refine readsOperand_of_head (by decide) (by decide) fun p k => ?_
  -- a function is tried before a group, and fails at the first operator
  have hfunction : programGrammar.run .spaced (.call .anonymousFunction)
      ⟨p, '(' :: (text ++ [')']) ++ k⟩ = .fail := by
    obtain ⟨first, rest, o, hopens, hleads, ho, rfl⟩ := h.leads
    obtain ⟨x, xs, hx, -, -, hcomma, hclose, -⟩ := operator_cases ho
    have hnext : NextEnds isListMark (' ' :: (o.toList ++ ' ' :: (rest ++ ')' :: k))) := by
      refine nextEnds_append [' '] (List.forall_mem_singleton.2 rfl)
        (nextEnds_of_free (free_operator ho _) ?_)
      rw [hx]
      exact endsClass_cons (by simp [isListMark, hcomma, hclose]) _
    have hfail := run_anonymousFunction_of_leads hopens hleads (endsClass_cons (by decide) _)
      hnext p
    simpa using hfail
  have hend : EndsExpression (')' :: k) := endsExpression_cons (by simp) k
  obtain ⟨d, m, raw, hrun, hd, hraw, hdescribes⟩ :=
    (h.expression i span).accept (p.advance '(') _ hend
  refine ⟨m, raw, ?_, hraw, hdescribes⟩
  rw [run_silent rfl]
  show programGrammar.run .spaced (Rule.body .primary) _ = _
  rw [Rule.body, firstOf, run_alt_of_fail hfunction, firstOf]
  refine run_alt_of_ok (run_between rfl rfl (by decide) ?_ hd)
  rw [Layout.skip_of_free (h.row.opens.free _)]
  exact hrun

/-! ## Suffixes -/

/-- **An operand with a suffix is an operand.** -/
theorem ReadsOperand.suffix {text : List Char} {n n' : Node} (h : ReadsOperand text n) {x : Char}
    (hx : x ∈ ['(', '.']) {xs : List Char}
    (hsuffix : ∀ (p : Position) (k : List Char), EndsClass isIdentifierChar k →
      ∃ m, programGrammar.run .spaced Rule.suffix ⟨p, x :: xs ++ k⟩ =
          .ok ⟨p.after (x :: xs), k⟩ [m] ∧
        ∀ start target, target.Describes n → ∃ folded : RawNode, folded.Describes n' ∧
          ∀ more, RawNode.ofSuffixes start target (m :: more) =
            RawNode.ofSuffixes start folded more) :
    ReadsOperand (text ++ x :: xs) n' where
  opens := h.opens.append _
  leads := h.leads.append hx xs
  chain p k hk := by
    have hfree : Layout.Free (x :: xs ++ k) ∧ isIdentifierChar x = false := by
      simp only [List.mem_cons, List.not_mem_nil, or_false] at hx
      rcases hx with rfl | rfl
      · exact ⟨⟨by decide, by simp⟩, by decide⟩
      · exact ⟨⟨by decide, by simp⟩, by decide⟩
    obtain ⟨c, m, raw, ss, hprimary, hraw, hsteps, hfold⟩ :=
      h.chain p (x :: xs ++ k) (endsClass_cons hfree.2 _)
    obtain ⟨s, hrun, hs⟩ := hsuffix (p.after text) k hk
    have hstep : programGrammar.Steps .spaced Rule.suffix ⟨p.after text, x :: xs ++ k⟩
        ⟨p.after (text ++ x :: xs), k⟩ [s] := by
      refine .single ?_
      show programGrammar.run .spaced Rule.suffix (Layout.skip _) = _
      rw [Layout.skip_of_free hfree.1, hrun, ← Position.after_append]
    refine ⟨c, m, raw, ss ++ [s], by rwa [List.append_assoc], hraw, hsteps.trans hstep, ?_⟩
    -- the new suffix is folded onto what the old ones gave
    intro start
    obtain ⟨folded, hdescribes, hall⟩ := hfold start
    obtain ⟨folded', hdescribes', hall'⟩ := hs start folded hdescribes
    refine ⟨folded', hdescribes', fun more => ?_⟩
    rw [List.append_assoc, hall]
    exact hall' more

/-- A name stands for the node `name`. -/
structure Names (word : String) (name : Node) : Prop where
  identifier : IsIdentifier word.toList
  kind : name.kind = .identifier word
  children : name.children = []

theorem Names.opens {word : String} {name : Node} (h : Names word name) : Opens word.toList :=
  h.identifier.opens

/-- A name is matched as an identifier. -/
theorem Names.run {word : String} {name : Node} (h : Names word name) {k : List Char}
    (hk : EndsClass isIdentifierChar k) (p : Position) :
    ∃ m raw, programGrammar.run .spaced (.call .identifier) ⟨p, word.toList ++ k⟩ =
        .ok ⟨p.after word.toList, k⟩ [m] ∧
      RawNode.ofMatch m = .ok raw ∧ raw.Describes name := by
  refine ⟨_, _, run_call_identifier h.identifier (by decide) hk, by rw [RawNode.ofMatch]; rfl, ?_⟩
  refine .intro ?_ (by rw [h.children]; exact .nil)
  show Except.ok (Kind.identifier (String.ofList word.toList)) = _
  rw [String.ofList_toList, h.kind]

/-- A property of an operand. -/
theorem ReadsOperand.access {text : List Char} {n name : Node} (h : ReadsOperand text n)
    {word : String} (hname : Names word name) (i : Nat) (span : Span) :
    ReadsOperand (text ++ '.' :: word.toList) ⟨i, .propertyAccess, [n, name], span⟩ := by
  refine h.suffix (by simp) fun p k hk => ?_
  obtain ⟨m, raw, hrun, hraw, hdescribes⟩ := hname.run hk (p.advance '.')
  rw [← hname.opens.gap] at hrun
  have hbody : programGrammar.run .spaced (Rule.body .property) ⟨p, '.' :: word.toList ++ k⟩ =
      .ok ⟨p.after ('.' :: word.toList), k⟩ [m] :=
    run_seq_nil (run_lit_cons rfl) hrun
  have hproperty := run_call_of_body (r := .property) (s := .spaced) (by decide) (by decide) hbody
  have harguments : programGrammar.run .spaced (.call .arguments) ⟨p, '.' :: word.toList ++ k⟩ =
      .fail := run_call_of_head (x := '(') rfl rfl (by simp)
  refine ⟨_, (run_alt_of_fail harguments).trans hproperty, fun start target htarget => ?_⟩
  refine ⟨.ofType .propertyAccess [target, raw] ⟨start, p.after ('.' :: word.toList)⟩,
    .intro rfl (.cons htarget (.cons hdescribes .nil)), fun more => ?_⟩
  show RawNode.ofSuffixes start target (.node .property _ _ (m :: []) :: more) = _
  rw [RawNode.ofSuffixes, hraw]
  rfl

/-! ## Lists between brackets -/

/-- Items with commas between them, or nothing. -/
def ReadsList (item : Rule) (text : List Char) (ns : List Node) : Prop :=
  text = [] ∧ ns = [] ∨ ReadsRow item EndsExpression (.lit ",") text ns

theorem readsMark_comma {pad : List Char} (hpad : ∀ x ∈ pad, Layout.isSpace x = true) :
    ReadsMark EndsExpression (.lit ",") (',' :: pad) [] where
  ends k := endsExpression_cons (by simp) _
  accept p text k htext := by
    have hfree : Layout.Free (',' :: pad ++ (text ++ k)) := ⟨by decide, by simp⟩
    rw [Layout.skip_of_free hfree]
    exact ⟨⟨p.advance ',', pad ++ (text ++ k)⟩, [], [], run_lit_cons rfl,
      htext.skip_append pad hpad _ _, rfl, .nil⟩

/-- A list is matched where neither an item nor a comma can follow it. -/
theorem ReadsList.run {item : Rule} {text : List Char} {ns : List Node}
    (h : ReadsList item text ns) {tail : List (Peg Rule)}
    (htail : tail = [] ∨ tail = [.opt (.lit ",")]) {k : List Char} (hk : EndsExpression k)
    (hitem : ∀ p, programGrammar.run .spaced (.call item) (Layout.skip ⟨p, k⟩) = .fail)
    (hcomma : NextEnds (· == ',') k) (p : Position) :
    ∃ d ms raws,
      programGrammar.run .spaced (commaList (.call item) tail) (Layout.skip ⟨p, text ++ k⟩) =
        .ok d ms ∧
      Layout.skip d = Layout.skip ⟨p.after text, k⟩ ∧
      RawNode.ofMatches ms = .ok raws ∧ List.Forall₂ RawNode.Describes raws ns := by
  rcases h with ⟨rfl, rfl⟩ | hrow
  · refine ⟨Layout.skip ⟨p, k⟩, [], [], run_opt_of_fail ?_, Layout.skip_skip _, rfl, .nil⟩
    rcases htail with rfl | rfl <;> exact run_seq_of_fail (hitem p)
  · obtain ⟨c, m, d, ms, raws, hfirst, hsteps, hd, hms, hdescribes⟩ := hrow.run hk p
    have hmark : programGrammar.run .spaced (.lit ",") (Layout.skip d) = .fail := by
      refine run_lit_of_head (x := ',') rfl fun hhead => ?_
      rw [hd] at hhead
      have := hcomma _ ',' hhead
      simp at this
    -- a further round would begin with a comma
    obtain ⟨d', hstar, hd'⟩ := run_star_spaced rfl hsteps (run_seq_of_fail hmark)
    rw [Layout.skip_of_free (hrow.opens.free k)]
    rcases htail with rfl | rfl
    · exact ⟨d', m :: ms, raws, run_opt_of_ok (run_seq_ok hfirst hstar), hd'.trans hd, hms,
        hdescribes⟩
    · have hopt : programGrammar.run .spaced (.opt (.lit ",")) (Layout.skip d') =
          .ok (Layout.skip d') [] := by
        rw [hd']
        exact run_opt_of_fail hmark
      refine ⟨Layout.skip d', m :: ms, raws, ?_, ?_, hms, hdescribes⟩
      · have hall := run_seq_ok hfirst (run_seq_ok hstar hopt)
        rw [List.append_nil] at hall
        exact run_opt_of_ok hall
      · rw [Layout.skip_skip, hd', hd]

/-- **A list between brackets is matched by the rule for it.** There may be space on the inner
sides of the brackets, and the rule may allow a comma behind the last item. -/
theorem run_brackets {r item : Rule} {o c : String} {x y : Char} {tail : List (Peg Rule)}
    (hbody : r.body = inOrder (.lit o) [commaList (.call item) tail, .lit c])
    (hmode : r.mode = .normal) (ho : o.toList = [x]) (hc : c.toList = [y])
    (hy : y ∈ [')', ']', '\x7d']) (htail : tail = [] ∨ tail = [.opt (.lit ",")])
    (hitem : ∀ p k, programGrammar.run .spaced (.call item) ⟨p, y :: k⟩ = .fail)
    (pad : List Char) (hpad : ∀ x ∈ pad, Layout.isSpace x = true) {text : List Char}
    {ns : List Node} (h : ReadsList item text ns) (p : Position) (k : List Char) :
    ∃ span read ms raws,
      programGrammar.run .spaced (.call r) ⟨p, x :: ((pad ++ text ++ pad) ++ [y]) ++ k⟩ =
        .ok ⟨p.after (x :: ((pad ++ text ++ pad) ++ [y])), k⟩ [.node r span read ms] ∧
      RawNode.ofMatches ms = .ok raws ∧ List.Forall₂ RawNode.Describes raws ns := by
  -- a closing bracket is no layout, begins no comment and is no comma
  have hclose : Layout.isSpace y = false ∧ y ≠ '/' ∧ y ≠ ',' ∧ y ∈ [',', ')', ']', '\x7d'] := by
    simp only [List.mem_cons, List.not_mem_nil, or_false] at hy
    rcases hy with rfl | rfl | rfl <;> decide
  have hfree : Layout.Free (y :: k) := ⟨hclose.1, fun h => hclose.2.1 h.1⟩
  have hskip (q : Position) : Layout.skip ⟨q, pad ++ y :: k⟩ = ⟨q.after pad, y :: k⟩ :=
    (Layout.skip_append pad hpad q _).trans (Layout.skip_of_free hfree)
  have hend : EndsExpression (pad ++ y :: k) := (endsExpression_cons hclose.2.2.2 k).append hpad
  have hcomma : NextEnds (· == ',') (pad ++ y :: k) :=
    nextEnds_append pad hpad
      (nextEnds_of_free hfree (endsClass_cons (by simpa using hclose.2.2.1) k))
  obtain ⟨d, ms, raws, hlist, hd, hms, hdescribes⟩ := h.run htail hend
    (fun q => by rw [hskip]; exact hitem _ _) hcomma ((p.advance x).after pad)
  refine ⟨_, _, ms, raws, run_call_of_body (r := r) (by rw [hmode]; decide) (by decide) ?_, hms,
    hdescribes⟩
  rw [hmode, hbody]
  have hinner : programGrammar.run .spaced (commaList (.call item) tail)
      (Layout.skip ⟨p.advance x, (pad ++ text ++ pad) ++ y :: k⟩) = .ok d ms := by
    rw [List.append_assoc, List.append_assoc, Layout.skip_append pad hpad]
    exact hlist
  refine run_between ho hc ⟨hclose.1, hclose.2.1⟩ hinner ?_
  rw [hd, hskip, Position.after_append, Position.after_append, Layout.skip_of_free hfree]

def isExpressionStart (x : Char) : Bool :=
  isIdentifierStart x || isLiteralStart x || ['[', '\x7b'].contains x

/-- No expression is matched where none begins. -/
theorem run_expression_of_head {c : Cursor} (hc : EndsClass isExpressionStart c.rest) :
    programGrammar.run .spaced (.call .expression) c = .fail := by
  have hliteral : EndsClass isLiteralStart c.rest :=
    hc.mono fun x hx => by simp [isExpressionStart, hx]
  have hstart : EndsClass isIdentifierStart c.rest :=
    hc.mono fun x hx => by simp [isExpressionStart, hx]
  have halpha : EndsClass Char.isAlpha c.rest :=
    hstart.mono fun x hx => by simp [isIdentifierStart, hx]
  have hprimary : programGrammar.run .spaced (.call .primary) c = .fail := by
    rw [run_primary_of_start hliteral (leadingWord_ne_of_not_alpha halpha), firstOf,
      run_alt_of_fail (run_call_of_head (r := .array) rfl rfl (hc.head_ne (by decide))), firstOf,
      run_alt_of_fail (run_call_of_head (r := .object) rfl rfl (hc.head_ne (by decide))), firstOf]
    exact run_call_identifier_of_not_start hstart
  have hoperand : programGrammar.run .spaced (.call .operand) c = .fail :=
    run_call_eq_fail_iff.2 (run_seq_of_fail hprimary)
  exact run_call_eq_fail_iff.2 (run_seq_of_fail hoperand)

/-- **A call of an operand is an operand.** -/
theorem ReadsOperand.call {text list : List Char} {n : Node} {ns : List Node}
    (h : ReadsOperand text n) (hlist : ReadsList .expression list ns) (i j : Nat)
    (span span' : Span) :
    ReadsOperand (text ++ '(' :: (list ++ [')']))
      ⟨i, .call, [n, ⟨j, .arguments, ns, span'⟩], span⟩ := by
  refine h.suffix (by simp) fun p k _ => ?_
  obtain ⟨espan, read, ms, raws, hrun, hms, hdescribes⟩ :=
    run_brackets (r := .arguments) (x := '(') (y := ')') rfl rfl rfl rfl (by simp) (.inl rfl)
      (fun _ l => run_expression_of_head (endsClass_cons (by decide) l)) [] (by simp) hlist p k
  rw [List.nil_append, List.append_nil] at hrun
  refine ⟨_, run_alt_of_ok hrun, fun start target htarget => ?_⟩
  refine ⟨.ofType .call [target, .ofType .arguments raws espan] ⟨start, espan.stop⟩,
    .intro rfl (.cons htarget (.cons (.intro rfl hdescribes) .nil)), fun more => ?_⟩
  rw [RawNode.ofSuffixes, hms]
  rfl

/-- **Expressions between square brackets are an operand.** -/
theorem readsOperand_array {list : List Char} {ns : List Node}
    (hlist : ReadsList .expression list ns) (i : Nat) (span : Span) :
    ReadsOperand ('[' :: (list ++ [']'])) ⟨i, .array, ns, span⟩ := by
  refine readsOperand_of_head (by decide) (by decide) fun p k => ?_
  obtain ⟨espan, read, ms, raws, hrun, hms, hdescribes⟩ :=
    run_brackets (r := .array) (x := '[') (y := ']') rfl rfl rfl rfl (by simp) (.inr rfl)
      (fun _ l => run_expression_of_head (endsClass_cons (by decide) l)) [] (by simp) hlist p k
  rw [List.nil_append, List.append_nil] at hrun
  refine ⟨.node .array espan read ms, .ofType .array raws espan, ?_, ?_, .intro rfl hdescribes⟩
  · rw [run_primary_of_start (endsClass_cons (by decide) _)
      (leadingWord_ne_of_not_alpha (endsClass_cons (by decide) _)), firstOf]
    exact run_alt_of_ok hrun
  · rw [RawNode.ofMatch, hms]
    rfl

/-- A name, a colon and an expression are a property of an object. -/
theorem ReadsExpression.property {text : List Char} {n name : Node} (h : ReadsExpression text n)
    {word : String} (hname : Names word name) (i : Nat) (span : Span) :
    ReadsAs .objectProperty EndsExpression (word.toList ++ ':' :: ' ' :: text)
      ⟨i, .objectProperty, [name, n], span⟩ := by
  refine ⟨hname.opens.append _, fun p k hk => ?_⟩
  obtain ⟨m, raw, hrun, hraw, hdescribes⟩ := hname.run (k := ':' :: ' ' :: (text ++ k))
    (endsClass_cons (by decide) _) p
  obtain ⟨d, m', raw', hrun', hd, hraw', hdescribes'⟩ :=
    h.accept ((p.after word.toList).after [':', ' ']) k hk
  -- the colon follows the name directly, and the value follows a space
  have hcolon : programGrammar.run .spaced (.lit ":")
      (programGrammar.gap .spaced ⟨p.after word.toList, ':' :: ' ' :: (text ++ k)⟩) =
        .ok ⟨(p.after word.toList).advance ':', ' ' :: (text ++ k)⟩ [] := by
    show programGrammar.run .spaced (.lit ":") (Layout.skip _) = _
    have hfree : Layout.Free (':' :: ' ' :: (text ++ k)) := ⟨by decide, by simp⟩
    rw [Layout.skip_of_free hfree]
    exact run_lit_cons rfl
  have hvalue : programGrammar.run .spaced (.call .expression)
      (programGrammar.gap .spaced ⟨(p.after word.toList).advance ':', ' ' :: (text ++ k)⟩) =
        .ok d [m'] := by
    have hskip := h.opens.skip_append [' '] (List.forall_mem_singleton.2 rfl)
      ((p.after word.toList).advance ':') k
    show programGrammar.run .spaced _ (Layout.skip _) = _
    rw [List.singleton_append] at hskip
    rw [hskip]
    exact hrun'
  have hbody := run_seq_ok hrun (run_seq_ok hcolon hvalue)
  have htext : (word.toList ++ ':' :: ' ' :: text) ++ k =
      word.toList ++ ':' :: ' ' :: (text ++ k) := by simp
  rw [htext]
  refine ⟨d, _, .ofType .objectProperty [raw, raw'] ⟨p, d.pos⟩,
    (run_node_eq_ok_iff (by decide) (by decide)).2 ⟨_, hbody, rfl⟩, ?_, ?_,
    .intro rfl (.cons hdescribes (.cons hdescribes' .nil))⟩
  · rw [hd, ← Position.after_append, ← Position.after_append]
    rfl
  · show RawNode.ofMatch (.node .objectProperty _ _ [m, m']) = _
    rw [RawNode.ofMatch, ofMatches_cons hraw (ofMatches_cons hraw' rfl)]
    rfl

/-- **Properties between braces are an operand.** -/
theorem readsOperand_object (pad : List Char) (hpad : ∀ x ∈ pad, Layout.isSpace x = true)
    {list : List Char} {ns : List Node} (hlist : ReadsList .objectProperty list ns) (i : Nat)
    (span : Span) :
    ReadsOperand ('\x7b' :: ((pad ++ list ++ pad) ++ ['\x7d'])) ⟨i, .object, ns, span⟩ := by
  refine readsOperand_of_head (by decide) (by decide) fun p k => ?_
  have hclose (q : Position) (l : List Char) :
      programGrammar.run .spaced (.call .objectProperty) ⟨q, '\x7d' :: l⟩ = .fail :=
    run_call_eq_fail_iff.2 (run_seq_of_fail (run_call_identifier_of_not_start
      (endsClass_cons (by decide) l)))
  obtain ⟨ospan, read, ms, raws, hrun, hms, hdescribes⟩ :=
    run_brackets (r := .object) (x := '\x7b') (y := '\x7d') rfl rfl rfl rfl (by simp) (.inr rfl)
      hclose pad hpad hlist p k
  refine ⟨.node .object ospan read ms, .ofType .object raws ospan, ?_, ?_, .intro rfl hdescribes⟩
  · rw [run_primary_of_start (endsClass_cons (by decide) _)
      (leadingWord_ne_of_not_alpha (endsClass_cons (by decide) _)), firstOf,
      run_alt_of_fail (run_call_of_head (r := .array) (x := '[') rfl rfl (by simp)), firstOf]
    exact run_alt_of_ok hrun
  · rw [RawNode.ofMatch, hms]
    rfl

end ExprScript
