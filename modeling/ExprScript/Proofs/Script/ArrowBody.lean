import ExprScript.Proofs.Script.Statements
import Mathlib.Data.List.Forall2

set_option autoImplicit false

/-! # Arrow functions without a block

The body of an arrow function is a block where its last statement is a `return`. Any other body is
written as one expression, with commas between its statements, whatever these are. A declaration
among them is then written in the place of an expression.

Which texts in such a body are not expressions can be told from the types of the statements:
`arrow_opensStatement_iff`. Which bodies are read as blocks though none was meant can be told from
their leads: `arrow_opensBrace_iff`.
-/

namespace ExprScript

/-! ## Texts that begin as statements do -/

def startsName : List Char → Bool
  | ' ' :: x :: _ => isIdentifierStart x
  | _ => false

/-- Whether a text begins as no expression does: with one of the words `const`, `let` and
`return`, or with the word `function` and a name. -/
def opensStatement (cs : List Char) : Bool :=
  ["const", "let", "return"].any (·.toList == leadingWord cs) ||
    ("function".toList == leadingWord cs && startsName (cs.drop 8))

/-- What stands behind an operand is no name. -/
theorem Trails.startsName {k : List Char} (h : Trails k) : startsName k = false := by
  rcases h with rfl | ⟨k', rfl⟩ | ⟨k', rfl⟩ | ⟨x, k', rfl, hx⟩
  · rfl
  · rfl
  · rfl
  · exact hx

/-- Words that can stand in an expression begin no statement. -/
theorem IsPlainWord.opensStatement {w k : List Char} (hw : IsPlainWord w) (hk : Trails k) :
    opensStatement (w ++ k) = false := by
  unfold ExprScript.opensStatement
  rw [leadingWord_append hw.chars hk.endsClass, Bool.or_eq_false_iff]
  constructor
  · rw [List.any_eq_false]
    intro u hu heq
    exact hw.free u hu (beq_iff_eq.1 heq).symm
  · -- `function` can be a name in a program, but no other name follows it there
    by_cases hfunction : "function".toList = w
    · subst hfunction
      have hdrop : List.drop 8 ("function".toList ++ k) = k := rfl
      rw [hdrop, hk.startsName, Bool.and_false]
    · rw [beq_eq_false_iff_ne.2 hfunction, Bool.false_and]

/-- Nor does a character that belongs to no word. -/
theorem opensStatement_of_head {x : Char} (hx : isIdentifierChar x = false) (cs : List Char) :
    opensStatement (x :: cs) = false := by
  have hword : leadingWord (x :: cs) = [] := by simp [leadingWord, hx]
  rw [opensStatement, hword]
  simp

theorem Kind.isIdentifierChar_of_mark {k : Kind} {x : Char} (h : k.mark? = some x) :
    isIdentifierChar x = false := by
  cases k with
  | integer v =>
      rw [mark?_integer] at h
      split at h
      · obtain rfl := Option.some.inj h
        decide
      · cases h
  | string v =>
      obtain rfl := Option.some.inj h
      decide
  | array | object | anonymousFunction =>
      obtain rfl := Option.some.inj h
      decide
  | _ => cases h

section

variable {indent : String}

theorem PlainScript.opensStatement {m : Node} {q : Piece} (h : PlainScript indent m q)
    {k : List Char} (hk : Trails k) : opensStatement (q.text.toList ++ k) = false := by
  rcases h.mark_or_word with ⟨x, hmark, hx⟩ | ⟨-, hword⟩
  · obtain ⟨xs, hxs⟩ := List.head?_eq_some_iff.1 hx
    rw [hxs]
    exact opensStatement_of_head (Kind.isIdentifierChar_of_mark hmark) _
  · exact hword.opensStatement hk

/-- A statement that is no expression begins as one. -/
theorem Kind.opensStatement_of_statementOnly {k : Kind} {ps : List Piece} {text : String}
    (hk : k.type.isStatementOnly = true) (hfits : k.Fits (ps.map (·.kind.type)))
    (h : k.assemble? indent ps = some text) : opensStatement text.toList = true := by
  obtain ⟨rest, hrest⟩ := exists_word hk h
  have hleading : leadingWord text.toList = k.word.toList := by
    rw [hrest]
    exact leadingWord_append k.word_ne_nil_and_chars.2 (endsClass_cons (by decide) _)
  rw [opensStatement, hleading, Bool.or_eq_true]
  cases k with
  | variableDeclaration name isMutable => cases isMutable <;> exact .inl (by simp [word])
  | functionDeclaration name =>
      obtain ⟨x, hx, hstart⟩ := hfits.1.start
      obtain ⟨xs, hxs⟩ := List.head?_eq_some_iff.1 hx
      obtain ⟨rest', hrest'⟩ := exists_functionName h
      have hname : startsName (text.toList.drop 8) = true := by
        rw [hrest', hxs]
        exact hstart
      exact .inr (by simp [word, hname])
  | namedFunction | returnExpression => exact .inl (by decide)
  | _ => cases hk

/-- **Texts that begin as no expression does** are those of statements that are none. -/
theorem opensStatement_iff {n : Node} {p : Piece} (hg : n.Grammatical)
    (ht : n.type.isStatement = true) (h : n.render? indent = some p) :
    opensStatement p.text.toList = true ↔ n.type.isStatementOnly = true := by
  by_cases hexpr : n.type.isExpression = true
  · have honly : ¬ n.type.isStatementOnly = true := by
      rw [NodeType.isStatementOnly_iff ht, hexpr]
      simp
    have hopens : opensStatement p.text.toList = false := by
      rcases lead_cases hg hexpr h with ⟨-, k, htext⟩ | ⟨m, q, k, -, hplain, htext, hk⟩
      · rw [htext]
        exact opensStatement_of_head (by decide) k
      · rw [htext]
        exact hplain.opensStatement hk
    rw [hopens]
    exact iff_of_false Bool.false_ne_true honly
  · have honly := (NodeType.isStatementOnly_iff ht).2 (by simpa using hexpr)
    obtain ⟨ps, text, hps, htext, rfl⟩ := Node.render?_eq_some_iff.1 h
    have hfits := hg.fits
    rw [← Node.map_type_of_renders hps] at hfits
    exact iff_of_true (Kind.opensStatement_of_statementOnly honly hfits htext) honly

/-- **What an arrow function without a block has in the place of an expression.** Its body is one
statement or several with commas between them, and the text of a statement begins as no
expression does exactly when it is a declaration or a `return`. -/
theorem arrow_opensStatement_iff {source : String} {raw : RawNode} {p : Node}
    (hparse : parse source = .ok raw) (hbuild : Node.build raw = .ok p) {a : List Nat} {m : Node}
    (hm : p.at? a = some m) (harrow : m.kind = .namedFunction ∨ m.kind = .anonymousFunction)
    (hblock : m.hasBlock = false) (indent : String) :
    ∃ s front qs, m.render? indent = some s ∧
      s.text = front ++ ") => " ++ Piece.expressionBody qs ∧
      List.Forall₂ (fun c q => c.render? indent = some q ∧
        (opensStatement q.text.toList = true ↔ c.type ∈ [.variableDeclaration,
          .functionDeclaration, .namedFunction, .returnExpression])) m.arrowBody qs := by
  have hg : m.Grammatical := (grammatical_of_parse hparse hbuild).1.at? hm
  obtain ⟨s, hs⟩ := Node.exists_render_of_shaped hg.shaped indent
  obtain ⟨front, qs, hqs, htext, hreturn⟩ := exists_arrow harrow hs
  refine ⟨s, front, qs, hs, ?_, ?_⟩
  · rw [htext, Piece.lambdaBody, hreturn, hblock]
    rfl
  · have hbody : ∀ c ∈ m.arrowBody, c.Grammatical ∧ c.type.isStatement = true := by
      intro c hc
      obtain ⟨hchild, hstatement⟩ := Node.of_mem_arrowBody hg hc
      exact ⟨hg.child hchild, hstatement⟩
    refine ((List.forall₂_and_left m.arrowBody qs).2 ⟨hbody, hqs⟩).imp ?_
    rintro c q ⟨⟨hc, hstatement⟩, hq⟩
    refine ⟨hq, (opensStatement_iff hc hstatement hq).trans ?_⟩
    cases c.type <;> decide

end

/-- A body that calls a function with the name `function`, behind a declaration. -/
theorem arrow_opensStatement_callOfFunction :
    ∃ raw p m, parse "let f = () -> \x7b var x = 1; function(x) \x7d" = .ok raw ∧
      Node.build raw = .ok p ∧ p.at? [0] = some m ∧
      (m.kind = .namedFunction ∨ m.kind = .anonymousFunction) ∧ m.hasBlock = false ∧
      ∃ s front qs, m.render? defaultIndent = some s ∧
        s.text = front ++ ") => " ++ Piece.expressionBody qs ∧
        List.Forall₂ (fun c q => c.render? defaultIndent = some q ∧
          (opensStatement q.text.toList = true ↔ c.type ∈ [.variableDeclaration,
            .functionDeclaration, .namedFunction, .returnExpression])) m.arrowBody qs := by
  obtain ⟨raw, p, hparse, hbuild, hp⟩ := exists_parsed_of_any
    "let f = () -> \x7b var x = 1; function(x) \x7d"
    (fun p => (p.at? [0]).any fun m => m.kind == .namedFunction && m.hasBlock == false)
    (by decide +kernel)
  obtain ⟨m, hm, htest⟩ := (Option.any_eq_true _ _).1 hp
  simp only [Bool.and_eq_true, beq_iff_eq] at htest
  obtain ⟨hkind, hblock⟩ := htest
  exact ⟨raw, p, m, hparse, hbuild, hm, .inl hkind, hblock,
    arrow_opensStatement_iff hparse hbuild hm (.inl hkind) hblock defaultIndent⟩

/-- A declaration that is the whole body of an arrow function is written in the place of an
expression. -/
theorem declaration_as_arrowBody :
    ∃ raw p m c, parse "let f = () -> \x7b let x = 1 \x7d" = .ok raw ∧ Node.build raw = .ok p ∧
      p.at? [0] = some m ∧ m.kind = .namedFunction ∧ m.hasBlock = false ∧
      c ∈ m.arrowBody ∧ c.type = .variableDeclaration ∧
      generate? defaultIndent p = some "const f = () => const x = 1" := by
  obtain ⟨raw, p, hparse, hbuild, hp⟩ := exists_parsed_of_any
    "let f = () -> \x7b let x = 1 \x7d"
    (fun p => ((p.at? [0]).any fun m => m.kind == .namedFunction && m.hasBlock == false &&
        m.arrowBody.any (·.type == .variableDeclaration)) &&
      generate? defaultIndent p == some "const f = () => const x = 1")
    (by decide +kernel)
  rw [Bool.and_eq_true, beq_iff_eq] at hp
  obtain ⟨hp, hscript⟩ := hp
  obtain ⟨m, hm, htest⟩ := (Option.any_eq_true _ _).1 hp
  simp only [Bool.and_eq_true, beq_iff_eq, List.any_eq_true] at htest
  obtain ⟨⟨hkind, hblock⟩, c, hc, htype⟩ := htest
  exact ⟨raw, p, m, c, hparse, hbuild, hm, hkind, hblock, hc, htype, hscript⟩

/-! ## Bodies that begin with a brace

An object that is the whole body is put in parentheses, since a brace behind the arrow begins a
block. A body that only begins with an object is not: its own type is that of a call, an access or a
binary expression. -/

/-- An object is the only node without operands whose mark is a brace. -/
theorem Kind.mark?_eq_brace_iff {k : Kind} : k.mark? = some '\x7b' ↔ k = .object := by
  cases k with
  | integer v =>
      rw [mark?_integer]
      split <;> simp
  | object => exact iff_of_true rfl rfl
  | string _ | array | anonymousFunction =>
      refine iff_of_false (fun h => ?_) (by simp)
      exact absurd (Option.some.inj h) (by decide)
  | _ => exact iff_of_false (fun h => by cases h) (by simp)

theorem head?_ne_brace_of_word {w : List Char} (hw : ∀ x ∈ w, isIdentifierChar x = true)
    (k : List Char) (hne : w ≠ []) : (w ++ k).head? ≠ some '\x7b' := by
  obtain ⟨x, xs, rfl⟩ := List.exists_cons_of_ne_nil hne
  intro hhead
  obtain rfl : x = '\x7b' := Option.some.inj hhead
  exact absurd (hw '\x7b' List.mem_cons_self) (by decide)

section

variable {indent : String}

theorem PlainScript.head?_eq_brace_iff {m : Node} {q : Piece} (h : PlainScript indent m q)
    (k : List Char) : (q.text.toList ++ k).head? = some '\x7b' ↔ m.kind = .object := by
  rcases h.mark_or_word with ⟨x, hmark, hx⟩ | ⟨hmark, hword⟩
  · rw [← Kind.mark?_eq_brace_iff, hmark]
    obtain ⟨xs, hxs⟩ := List.head?_eq_some_iff.1 hx
    rw [hxs]
    rfl
  · rw [← Kind.mark?_eq_brace_iff, hmark]
    exact iff_of_false (head?_ne_brace_of_word hword.chars k hword.ne_nil) (by simp)

/-- **A statement begins with a brace** exactly when its lead is an object. -/
theorem head?_eq_brace_iff {n : Node} {p : Piece} (hg : n.Grammatical)
    (ht : n.type.isStatement = true) (h : n.render? indent = some p) :
    p.text.toList.head? = some '\x7b' ↔ ∃ l, n.lead? = some l ∧ l.kind = .object := by
  by_cases hexpr : n.type.isExpression = true
  · rcases lead_cases hg hexpr h with ⟨hlead, k, htext⟩ | ⟨m, q, k, hlead, hplain, htext, -⟩
    · rw [htext, hlead]
      simp
    · rw [htext, hlead, hplain.head?_eq_brace_iff k]
      simp
  · -- such a statement begins with a word and is its own lead
    have honly := (NodeType.isStatementOnly_iff ht).2 (by simpa using hexpr)
    obtain ⟨ps, text, -, htext, rfl⟩ := Node.render?_eq_some_iff.1 h
    obtain ⟨rest, hrest⟩ := Kind.exists_word honly htext
    obtain ⟨hne, hchars⟩ := n.kind.word_ne_nil_and_chars
    rw [hrest]
    refine iff_of_false (head?_ne_brace_of_word hchars _ hne) ?_
    rintro ⟨l, hlead, hobject⟩
    obtain ⟨i, kind, ns, span⟩ := n
    cases kind with
    | variableDeclaration | functionDeclaration | namedFunction | returnExpression =>
        obtain rfl := Option.some.inj hlead
        cases hobject
    | _ => cases honly

/-- Several statements in the place of an expression are put in parentheses, and so is an object. -/
theorem Piece.head?_expressionBody (qs : List Piece) :
    (expressionBody qs).toList.head? = some '\x7b' ↔
      ∃ q, qs = [q] ∧ q.kind ≠ .object ∧ q.text.toList.head? = some '\x7b' := by
  have parenthesized (text : String) : ("(" ++ text ++ ")").toList.head? ≠ some '\x7b' := by
    simp [String.toList_append]
  obtain _ | ⟨q, _ | ⟨r, qs⟩⟩ := qs
  · exact iff_of_false (parenthesized _) (by simp)
  · unfold expressionBody
    dsimp only
    split
    · rename_i hobject
      exact iff_of_false (parenthesized _) (by simp [hobject])
    · rename_i hobject
      simp [hobject]
  · exact iff_of_false (parenthesized _) (by simp)

/-- **Which arrow functions without a block open one.** The text behind the arrow begins with a
brace exactly when the body is a single statement that is no object and has an object for its
lead: a call, an access or a binary expression whose first operands lead down to an object. -/
theorem arrow_opensBrace_iff {source : String} {raw : RawNode} {p : Node}
    (hparse : parse source = .ok raw) (hbuild : Node.build raw = .ok p) {a : List Nat} {m : Node}
    (hm : p.at? a = some m) (harrow : m.kind = .namedFunction ∨ m.kind = .anonymousFunction)
    (hblock : m.hasBlock = false) (indent : String) :
    ∃ s front qs, m.render? indent = some s ∧
      List.Forall₂ (fun c q => c.render? indent = some q) m.arrowBody qs ∧
      s.text = front ++ ") => " ++ Piece.expressionBody qs ∧
      ((Piece.expressionBody qs).toList.head? = some '\x7b' ↔
        ∃ c l, m.arrowBody = [c] ∧ c.kind ≠ .object ∧ c.lead? = some l ∧ l.kind = .object) := by
  have hg : m.Grammatical := (grammatical_of_parse hparse hbuild).1.at? hm
  obtain ⟨s, hs⟩ := Node.exists_render_of_shaped hg.shaped indent
  obtain ⟨front, qs, hqs, htext, hreturn⟩ := exists_arrow harrow hs
  refine ⟨s, front, qs, hs, hqs, ?_, ?_⟩
  · rw [htext, Piece.lambdaBody, hreturn, hblock]
    rfl
  · rw [Piece.head?_expressionBody]
    have hbody {c : Node} {q : Piece} (hc : c ∈ m.arrowBody) (hq : c.render? indent = some q) :
        q.text.toList.head? = some '\x7b' ↔ ∃ l, c.lead? = some l ∧ l.kind = .object := by
      obtain ⟨hchild, hstatement⟩ := Node.of_mem_arrowBody hg hc
      exact head?_eq_brace_iff (hg.child hchild) hstatement hq
    -- several expressions stand in parentheses, so only a single one can open a brace
    constructor
    · rintro ⟨q, rfl, hkind, hhead⟩
      obtain ⟨c, rest, hq, hrest, hc⟩ := List.forall₂_cons_right_iff.1 hqs
      obtain rfl := List.forall₂_nil_right_iff.1 hrest
      obtain ⟨l, hlead, hobject⟩ := (hbody (by simp [hc]) hq).1 hhead
      rw [Node.kind_of_render? hq] at hkind
      exact ⟨c, l, hc, hkind, hlead, hobject⟩
    · rintro ⟨c, l, hc, hkind, hlead, hobject⟩
      rw [hc] at hqs
      obtain ⟨q, rest, hq, hrest, rfl⟩ := List.forall₂_cons_left_iff.1 hqs
      obtain rfl := List.forall₂_nil_left_iff.1 hrest
      refine ⟨q, rfl, ?_, (hbody (by simp [hc]) hq).2 ⟨l, hlead, hobject⟩⟩
      rwa [Node.kind_of_render? hq]

end

/-- A body whose first operands lead down to an object through a call and an access. -/
theorem arrow_opensBrace_callOnAccess :
    ∃ raw p m c l, parse "let f = (x) -> \x7b a: x \x7d.a(x) + 1" = .ok raw ∧
      Node.build raw = .ok p ∧ p.at? [0] = some m ∧
      (m.kind = .namedFunction ∨ m.kind = .anonymousFunction) ∧ m.hasBlock = false ∧
      m.arrowBody = [c] ∧ c.kind = .binaryExpression ∧ c.lead? = some l ∧ l.kind = .object ∧
      ∃ s front qs, m.render? defaultIndent = some s ∧
        List.Forall₂ (fun c q => c.render? defaultIndent = some q) m.arrowBody qs ∧
        s.text = front ++ ") => " ++ Piece.expressionBody qs ∧
        ((Piece.expressionBody qs).toList.head? = some '\x7b' ↔
          ∃ c l, m.arrowBody = [c] ∧ c.kind ≠ .object ∧ c.lead? = some l ∧ l.kind = .object) := by
  obtain ⟨raw, p, hparse, hbuild, hp⟩ := exists_parsed_of_any
    "let f = (x) -> \x7b a: x \x7d.a(x) + 1"
    (fun p => (p.at? [0]).any fun m => m.kind == .namedFunction && m.hasBlock == false &&
      m.arrowBody.length == 1 && m.arrowBody.all fun c =>
        c.kind == .binaryExpression && c.lead?.any (·.kind == .object))
    (by decide +kernel)
  obtain ⟨m, hm, htest⟩ := (Option.any_eq_true _ _).1 hp
  simp only [Bool.and_eq_true, beq_iff_eq] at htest
  obtain ⟨⟨⟨hkind, hblock⟩, hone⟩, hbody⟩ := htest
  obtain ⟨c, hc⟩ := List.length_eq_one_iff.1 hone
  have hcbody := List.all_eq_true.1 hbody c (by simp [hc])
  rw [Bool.and_eq_true, beq_iff_eq] at hcbody
  obtain ⟨hckind, hlead⟩ := hcbody
  obtain ⟨l, hl, hobject⟩ := (Option.any_eq_true _ _).1 hlead
  exact ⟨raw, p, m, c, l, hparse, hbuild, hm, .inl hkind, hblock, hc, hckind, hl,
    beq_iff_eq.1 hobject, arrow_opensBrace_iff hparse hbuild hm (.inl hkind) hblock defaultIndent⟩

/-- A property of an object as the whole body of an arrow function: what follows the arrow is read
as a block. -/
theorem object_begins_arrowBody :
    ∃ raw p m c q, parse "let f = () -> \x7b a: 1 \x7d.a" = .ok raw ∧ Node.build raw = .ok p ∧
      p.at? [0] = some m ∧ m.kind = .namedFunction ∧ m.hasBlock = false ∧ m.arrowBody = [c] ∧
      c.render? defaultIndent = some q ∧ q.text.toList.head? = some '\x7b' ∧
      generate? defaultIndent p = some ("const f = () => " ++ q.text) := by
  obtain ⟨raw, p, hparse, hbuild, hp⟩ := exists_parsed_of_any
    "let f = () -> \x7b a: 1 \x7d.a"
    (fun p => ((p.at? [0]).any fun m => m.kind == .namedFunction && m.hasBlock == false &&
        m.arrowBody.length == 1 && m.arrowBody.all fun c =>
          (c.render? defaultIndent).any fun q => q.text.toList.head? == some '\x7b' &&
            generate? defaultIndent p == some ("const f = () => " ++ q.text)))
    (by decide +kernel)
  obtain ⟨m, hm, htest⟩ := (Option.any_eq_true _ _).1 hp
  simp only [Bool.and_eq_true, beq_iff_eq] at htest
  obtain ⟨⟨⟨hkind, hblock⟩, hone⟩, hbody⟩ := htest
  obtain ⟨c, hc⟩ := List.length_eq_one_iff.1 hone
  obtain ⟨q, hq, htext⟩ := (Option.any_eq_true _ _).1 (List.all_eq_true.1 hbody c (by simp [hc]))
  rw [Bool.and_eq_true, beq_iff_eq, beq_iff_eq] at htext
  exact ⟨raw, p, m, c, q, hparse, hbuild, hm, hkind, hblock, hc, hq, htext.1, htext.2⟩

end ExprScript
