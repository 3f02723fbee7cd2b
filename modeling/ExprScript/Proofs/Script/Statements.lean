import ExprScript.Proofs.Compile
import ExprScript.Proofs.Script.Lead

set_option autoImplicit false

/-! # Statements on lines of their own

A program, a function and an arrow function with a block put their statements on lines, one after
the other and with no mark between them (`exists_layout`). Where the expression of one line can go
on with the first character of the next, the two statements are read as one.

The first character of a statement depends on its lead alone (`begins_of_render`), so it can be
told from the tree which statements go on from the line before: `line_continues_iff`.
-/

namespace ExprScript

/-! ## Where statements stand -/

/-- The part of a list over the children of an arrow function that goes with its statements. -/
def Kind.arrowBody {α : Type} : Kind → List α → List α
  | .namedFunction, xs => xs.drop 2
  | .anonymousFunction, xs => xs.drop 1
  | _, _ => []

/-- Whether the body of an arrow function becomes a block, by the kinds of its children: its last
statement is a `return`. -/
def Kind.hasBlock (k : Kind) (kinds : List Kind) : Bool :=
  (k.arrowBody kinds).getLast?.any (· = .returnExpression)

theorem Kind.arrowBody_map {α β : Type} (f : α → β) (k : Kind) (xs : List α) :
    k.arrowBody (xs.map f) = (k.arrowBody xs).map f := by
  cases k with
  | namedFunction | anonymousFunction => exact List.map_drop.symm
  | _ => rfl

namespace Node

def arrowBody (n : Node) : List Node := n.kind.arrowBody n.children

def hasBlock (n : Node) : Bool := n.kind.hasBlock (n.children.map kind)

/-- The statements that the script of a node puts on lines of their own. -/
def statements (n : Node) : List Node :=
  match n.kind with
  | .program => n.children
  | .functionDeclaration _ => n.children.drop 1
  | .namedFunction | .anonymousFunction => if n.hasBlock then n.arrowBody else []
  | _ => []

theorem of_mem_drop {ns : List Node} {c : Node} {k : Nat} (hc : c ∈ ns.drop k)
    (hstatements : ∀ t ∈ (ns.map type).drop k, t.isStatement = true) :
    c ∈ ns ∧ c.type.isStatement = true := by
  have htype : c.type ∈ (ns.map type).drop k := by
    rw [← List.map_drop]
    exact List.mem_map_of_mem hc
  exact ⟨List.mem_of_mem_drop hc, hstatements _ htype⟩

/-- The statements of an arrow function are among its children. -/
theorem of_mem_arrowBody {n c : Node} (hn : n.Grammatical) (hc : c ∈ n.arrowBody) :
    c ∈ n.children ∧ c.type.isStatement = true := by
  have hfits := hn.fits
  obtain ⟨i, kind, ns, span⟩ := n
  cases kind with
  | namedFunction | anonymousFunction =>
      obtain ⟨us, htypes, -, hus⟩ := hfits
      exact of_mem_drop hc (by rw [htypes]; exact hus)
  | _ => simp [arrowBody, Kind.arrowBody] at hc

theorem of_mem_statements {n c : Node} (hn : n.Grammatical) (hc : c ∈ n.statements) :
    c ∈ n.children ∧ c.type.isStatement = true := by
  have hfits := hn.fits
  have harrow := of_mem_arrowBody (c := c) hn
  obtain ⟨i, kind, ns, span⟩ := n
  cases kind with
  | program => exact ⟨hc, hfits _ (List.mem_map_of_mem hc)⟩
  | functionDeclaration name =>
      obtain ⟨-, us, htypes, hus⟩ := hfits
      exact of_mem_drop hc (by rw [htypes]; exact hus)
  | namedFunction | anonymousFunction =>
      simp only [statements] at hc
      split at hc
      · exact harrow hc
      · simp at hc
  | _ => simp [statements] at hc

end Node

/-! ## How the script lays them out -/

/-- The lines of a statement in the script of a node of the given kind. The statements of a
program are written as they are, those of a body line by line behind the indent. -/
def Kind.statementLines (indent : String) (k : Kind) (p : Piece) : List String :=
  if k = .program then [p.text] else (linesOf p.text).map (indent ++ ·)

/-- What stands in front of such a line. -/
def Kind.margin (indent : String) (k : Kind) : String := if k = .program then "" else indent

theorem Kind.statementLines_of_ne {k : Kind} (hk : k ≠ .program) (indent : String) :
    k.statementLines indent = fun p => (linesOf p.text).map (indent ++ ·) := by
  funext p
  rw [statementLines, if_neg hk]

theorem Piece.endsInReturn_eq (qs : List Piece) :
    endsInReturn qs = (qs.map (·.kind)).getLast?.any (· = .returnExpression) := by
  rw [endsInReturn, List.getLast?_map]
  cases qs.getLast? <;> rfl

section

variable {indent : String}

/-- The script of an arrow function: parameters, an arrow and the body made of the scripts of its
statements. -/
theorem exists_arrow {m : Node} {s : Piece}
    (hm : m.kind = .namedFunction ∨ m.kind = .anonymousFunction)
    (h : m.render? indent = some s) :
    ∃ front qs, List.Forall₂ (fun c q => c.render? indent = some q) m.arrowBody qs ∧
      s.text = front ++ ") => " ++ Piece.lambdaBody indent qs ∧
      Piece.endsInReturn qs = m.hasBlock := by
  obtain ⟨ps, text, hps, htext, rfl⟩ := Node.render?_eq_some_iff.1 h
  have hblock {qs : List Piece}
      (hqs : List.Forall₂ (fun c q => c.render? indent = some q) m.arrowBody qs) :
      Piece.endsInReturn qs = m.hasBlock := by
    rw [Piece.endsInReturn_eq, Node.map_kind_of_renders hqs, Node.hasBlock, Kind.hasBlock,
      Kind.arrowBody_map, Node.arrowBody]
  obtain ⟨i, kind, ns, span⟩ := m
  -- what comes in front of the body is a name and the parameters, or the parameters alone
  rcases hm with rfl | rfl
  · obtain _ | @⟨_, p, _, _, _, _ | @⟨_, q, _, qs, _, hqs⟩⟩ := hps
    · cases htext
    · cases htext
    · obtain rfl := Option.some.inj htext
      refine ⟨"const " ++ p.text ++ " = " ++ "(" ++ q.text, qs, hqs, ?_, hblock hqs⟩
      simp only [Piece.lambda, String.append_assoc]
  · obtain _ | @⟨_, p, _, qs, _, hqs⟩ := hps
    · cases htext
    · obtain rfl := Option.some.inj htext
      exact ⟨"(" ++ p.text, qs, hqs, rfl, hblock hqs⟩

/-- **The script of a node has the lines of its statements one after the other.** -/
theorem exists_layout {m : Node} {s : Piece} (hne : m.statements ≠ [])
    (h : m.render? indent = some s) :
    ∃ front qs back, List.Forall₂ (fun c q => c.render? indent = some q) m.statements qs ∧
      s.text = front ++ "\n".intercalate (qs.flatMap (m.kind.statementLines indent)) ++ back := by
  have harrow := fun hm => exists_arrow (m := m) hm h
  obtain ⟨ps, text, hps, htext, rfl⟩ := Node.render?_eq_some_iff.1 h
  -- a function and an arrow function write the same block behind different fronts
  have braced (hk : m.kind ≠ .program) (front : String) (qs : List Piece) :
      front ++ Piece.braced indent qs = front ++ "\x7b\n" ++
        "\n".intercalate (qs.flatMap (m.kind.statementLines indent)) ++ "\n\x7d" := by
    rw [Kind.statementLines_of_ne hk]
    simp only [Piece.braced, Piece.block, String.append_assoc]
  obtain ⟨i, kind, ns, span⟩ := m
  cases kind with
  | program =>
      obtain rfl := Option.some.inj htext
      have hlines : Kind.program.statementLines indent = fun p => [p.text] := rfl
      refine ⟨"", ps, "", hps, ?_⟩
      simp [Piece.joined, hlines, List.map_eq_flatMap]
  | functionDeclaration name =>
      obtain _ | @⟨_, p, _, _, _, _ | @⟨_, q, _, qs, hq, hqs⟩⟩ := hps
      · exact absurd rfl hne
      · exact absurd rfl hne
      · obtain rfl := Option.some.inj htext
        exact ⟨_, q :: qs, _, .cons hq hqs, braced (by simp) _ _⟩
  | namedFunction | anonymousFunction =>
      simp only [Node.statements] at hne ⊢
      split at hne
      · rename_i hblock
        obtain ⟨front, qs, hqs, htext', hreturn⟩ := harrow (by simp)
        rw [hblock] at hreturn
        rw [if_pos hblock]
        rw [Piece.lambdaBody, if_pos hreturn] at htext'
        exact ⟨_, qs, _, hqs, htext'.trans (braced (by simp) _ _)⟩
      · exact absurd rfl hne
  | _ => exact absurd rfl hne

end

/-! ## The break between two lines -/

/-- A list of lines has a break between each line and the next. -/
theorem exists_break (as : List String) (a b : String) (bs : List String) :
    ∃ front rest, ("\n".intercalate (as ++ a :: b :: bs)).toList =
      front ++ (a.toList ++ '\n' :: (b.toList ++ rest)) := by
  have hbegin : ∃ rest, ("\n".intercalate (b :: bs)).toList = b.toList ++ rest := by
    cases bs with
    | nil => exact ⟨[], by simp⟩
    | cons c bs => exact ⟨'\n' :: ("\n".intercalate (c :: bs)).toList, by simp⟩
  obtain ⟨rest, hrest⟩ := hbegin
  induction as with
  | nil =>
      refine ⟨[], rest, ?_⟩
      rw [List.nil_append, String.intercalate_cons_cons, String.toList_append, hrest]
      simp
  | cons c as ih =>
      obtain ⟨front, rest, hih⟩ := ih
      refine ⟨c.toList ++ '\n' :: front, rest, ?_⟩
      rw [List.cons_append, String.intercalate_cons_of_ne_nil (by simp), String.toList_append, hih]
      simp

/-- Between the lines of two pieces in a row the last line of the first and the first line of the
second meet. -/
theorem exists_break_between {lines : Piece → List String} {q r : Piece} {last line : String}
    (hq : (lines q).getLast? = some last) (hr : (lines r).head? = some line)
    (before after : List Piece) :
    ∃ front rest, ("\n".intercalate ((before ++ q :: r :: after).flatMap lines)).toList =
      front ++ (last.toList ++ '\n' :: (line.toList ++ rest)) := by
  obtain ⟨init, hinit⟩ := List.getLast?_eq_some_iff.1 hq
  obtain ⟨tail, htail⟩ := List.head?_eq_some_iff.1 hr
  have hflat : (before ++ q :: r :: after).flatMap lines =
      (before.flatMap lines ++ init) ++ last :: line :: (tail ++ after.flatMap lines) := by
    simp [hinit, htail]
  rw [hflat]
  exact exists_break _ _ _ _

/-! ## How statements begin -/

/-- The characters on which an expression goes on from the line before. -/
def continuations : List Char := ['(', '[', '-', '+', '*', '/', '.']

/-- Whether the script of a node that begins with no operand begins with such a character. -/
def Kind.continuesLine : Kind → Bool
  | .integer value => value.toInt < 0
  | .array | .anonymousFunction => true
  | _ => false

theorem Kind.continuesLine_integer (value : Int64) :
    (Kind.integer value).continuesLine = decide (value.toInt < 0) := rfl

/-- Whether the script of a statement begins with such a character: its lead is in parentheses, or
is a negative number, an array or a function. -/
def Node.continuesLine (n : Node) : Bool := n.lead?.all (·.kind.continuesLine)

/-- The text begins on its first line, and `continues` tells whether an expression goes on with
that character from the line before. -/
def Begins (continues : Bool) (text : List Char) : Prop :=
  ∃ x, text.head? = some x ∧ x ∉ ['\n', '\r'] ∧ (x ∈ continuations ↔ continues = true)

theorem Begins.append {continues : Bool} {text : List Char} (h : Begins continues text)
    (k : List Char) : Begins continues (text ++ k) := by
  obtain ⟨x, hx, hbegins⟩ := h
  obtain ⟨xs, rfl⟩ := List.head?_eq_some_iff.1 hx
  exact ⟨x, rfl, hbegins⟩

/-- Words and numbers do not go on from the line before. -/
theorem begins_of_word {w : List Char} (hne : w ≠ []) (hw : ∀ x ∈ w, isIdentifierChar x = true) :
    Begins false w := by
  obtain ⟨x, xs, rfl⟩ := List.exists_cons_of_ne_nil hne
  have hx : isIdentifierChar x = true := hw x (by simp)
  have hother : (continuations ++ ['\n', '\r']).all (fun y => !isIdentifierChar y) = true := by
    decide
  have hnot : x ∉ continuations ++ ['\n', '\r'] := by
    intro hmem
    have hfalse := List.all_eq_true.1 hother x hmem
    simp [hx] at hfalse
  rw [List.mem_append, not_or] at hnot
  exact ⟨x, rfl, hnot.2, iff_of_false hnot.1 Bool.false_ne_true⟩

/-- Among the marks, those of negative numbers, arrays and functions go on. -/
theorem Kind.begins_of_mark {k : Kind} {x : Char} {text : List Char} (hmark : k.mark? = some x)
    (hx : text.head? = some x) : Begins k.continuesLine text := by
  refine ⟨x, hx, ?_⟩
  cases k with
  | integer v =>
      rw [mark?_integer] at hmark
      split at hmark
      · rename_i hv
        obtain rfl := Option.some.inj hmark
        exact ⟨by decide, iff_of_true (by decide) (decide_eq_true hv)⟩
      · cases hmark
  | string v =>
      obtain rfl := Option.some.inj hmark
      exact ⟨by decide, iff_of_false (by decide) Bool.false_ne_true⟩
  | array | object | anonymousFunction =>
      obtain rfl := Option.some.inj hmark
      exact ⟨by decide, by decide⟩
  | _ => cases hmark

theorem Kind.continuesLine_of_mark? {k : Kind} (h : k.mark? = none) : k.continuesLine = false := by
  cases k with
  | integer v =>
      rw [mark?_integer] at h
      rw [continuesLine_integer]
      simpa using h
  | array | anonymousFunction => cases h
  | _ => rfl

def NodeType.isStatementOnly : NodeType → Bool
  | .variableDeclaration | .functionDeclaration | .namedFunction | .returnExpression => true
  | _ => false

/-- The word that begins the script of such a statement. -/
def Kind.word : Kind → String
  | .variableDeclaration _ isMutable => if isMutable then "let" else "const"
  | .functionDeclaration _ => "function"
  | .namedFunction => "const"
  | _ => "return"

theorem Kind.word_ne_nil_and_chars (k : Kind) :
    k.word.toList ≠ [] ∧ ∀ x ∈ k.word.toList, isIdentifierChar x = true := by
  have hwords : ∀ w ∈ ["let", "const", "function", "return"],
      w.toList ≠ [] ∧ w.toList.all isIdentifierChar = true := by decide
  have hmem : k.word ∈ ["let", "const", "function", "return"] := by
    cases k with
    | variableDeclaration name isMutable => cases isMutable <;> simp [word]
    | _ => simp [word]
  exact (hwords k.word hmem).imp_right List.all_eq_true.1

/-- In a function declaration the name follows. -/
theorem Kind.exists_functionName {name indent : String} {ps : List Piece} {text : String}
    (h : (Kind.functionDeclaration name).assemble? indent ps = some text) :
    ∃ rest, text.toList = "function".toList ++ ' ' :: (name.toList ++ rest) := by
  obtain _ | ⟨p, _ | ⟨q, ps⟩⟩ := ps
  · cases h
  · obtain rfl := Option.some.inj h
    exact ⟨_, by simp; rfl⟩
  · obtain rfl := Option.some.inj h
    exact ⟨_, by simp; rfl⟩

/-- A statement that is no expression begins with a word, a space and more. -/
theorem Kind.exists_word {k : Kind} {indent : String} {ps : List Piece} {text : String}
    (hk : k.type.isStatementOnly = true) (h : k.assemble? indent ps = some text) :
    ∃ rest, text.toList = k.word.toList ++ ' ' :: rest := by
  cases k with
  | variableDeclaration name isMutable =>
      obtain rfl := Option.some.inj h
      cases isMutable <;> exact ⟨_, by simp [word]; rfl⟩
  | functionDeclaration name =>
      obtain ⟨rest, hrest⟩ := exists_functionName h
      exact ⟨name.toList ++ rest, hrest⟩
  | namedFunction =>
      obtain _ | ⟨p, _ | ⟨q, ps⟩⟩ := ps
      · cases h
      · cases h
      · obtain rfl := Option.some.inj h
        exact ⟨_, by simp [word]; rfl⟩
  | returnExpression =>
      obtain rfl := Option.some.inj h
      exact ⟨_, by simp [word]; rfl⟩
  | _ => cases hk

section

variable {indent : String}

theorem PlainScript.begins {m : Node} {q : Piece} (h : PlainScript indent m q) :
    Begins m.kind.continuesLine q.text.toList := by
  rcases h.mark_or_word with ⟨x, hmark, hx⟩ | ⟨hmark, hword⟩
  · exact Kind.begins_of_mark hmark hx
  · rw [Kind.continuesLine_of_mark? hmark]
    exact begins_of_word hword.ne_nil hword.chars

/-- A statement is an expression or begins with a word of its own. -/
theorem NodeType.isStatementOnly_iff {t : NodeType} (h : t.isStatement = true) :
    t.isStatementOnly = true ↔ t.isExpression = false := by
  cases t <;> simp_all [isStatementOnly, isStatement, isExpression]

/-- **How a statement begins** can be told from its lead. -/
theorem begins_of_render {n : Node} {p : Piece} (hg : n.Grammatical)
    (ht : n.type.isStatement = true) (h : n.render? indent = some p) :
    Begins n.continuesLine p.text.toList := by
  by_cases hexpr : n.type.isExpression = true
  · rw [Node.continuesLine]
    rcases lead_cases hg hexpr h with ⟨hlead, k, htext⟩ | ⟨m, q, k, hlead, hplain, htext, -⟩
    · rw [hlead, htext]
      exact ⟨'(', rfl, by decide, by decide⟩
    · rw [hlead, htext]
      exact hplain.begins.append k
  · have honly := (NodeType.isStatementOnly_iff ht).2 (by simpa using hexpr)
    obtain ⟨ps, text, -, htext, rfl⟩ := Node.render?_eq_some_iff.1 h
    obtain ⟨rest, hrest⟩ := Kind.exists_word honly htext
    obtain ⟨i, kind, ns, span⟩ := n
    -- such a statement is its own lead
    have hcontinues : Node.continuesLine ⟨i, kind, ns, span⟩ = false := by
      cases kind <;> first | rfl | cases honly
    obtain ⟨hne, hchars⟩ := kind.word_ne_nil_and_chars
    rw [hcontinues, hrest]
    exact (begins_of_word hne hchars).append _

end

/-! ## Two statements in a row -/

/-- A line that goes on keeps what has been read, if that does not end in a carriage return. -/
theorem exists_prefix_linesFrom {back : List Char} (hne : back ≠ [])
    (hreturn : back.head? ≠ some '\r') (more cs : List Char) :
    ∃ line lines, linesFrom (more ++ back) cs = line :: lines ∧ back.reverse <+: line.toList := by
  induction cs generalizing more with
  | nil =>
      refine ⟨String.ofList (more ++ back).reverse, [], ?_, by simp⟩
      rw [linesFrom, if_neg (by simp [hne])]
  | cons c cs ih =>
      rw [linesFrom]
      split
      · refine ⟨_, _, rfl, ?_⟩
        -- what is cut off belongs to the characters behind
        have hchop : ∃ rest, chopReturn (more ++ back) = rest ++ back := by
          cases more with
          | nil =>
              obtain ⟨b, back, rfl⟩ := List.exists_cons_of_ne_nil hne
              have hb : b ≠ '\r' := by simpa using hreturn
              exact ⟨[], by simp [chopReturn, hb]⟩
          | cons d more =>
              by_cases hd : d = '\r'
              · exact ⟨more, by simp [chopReturn, hd]⟩
              · exact ⟨d :: more, by simp [chopReturn, hd]⟩
        obtain ⟨rest, hrest⟩ := hchop
        simp [hrest]
      · exact ih (c :: more)

/-- Read on from a character that ends no line, the first line begins with the last one read. -/
theorem exists_linesFrom {back : List Char} {x : Char} (hx : back.getLast? = some x)
    (hreturn : x ≠ '\r') (cs : List Char) :
    ∃ line lines, linesFrom back cs = line :: lines ∧ line.toList.head? = some x := by
  obtain ⟨more, rfl⟩ := List.getLast?_eq_some_iff.1 hx
  obtain ⟨line, lines, hlines, rest, hrest⟩ :=
    exists_prefix_linesFrom (List.cons_ne_nil x []) (by simpa using hreturn) more cs
  exact ⟨line, lines, hlines, by rw [← hrest]; rfl⟩

theorem exists_linesOf {text : String} {x : Char} (hx : text.toList.head? = some x)
    (hbreak : x ∉ ['\n', '\r']) :
    ∃ line lines, linesOf text = line :: lines ∧ line.toList.head? = some x := by
  obtain ⟨cs, hcs⟩ := List.head?_eq_some_iff.1 hx
  obtain ⟨hfeed, hreturn⟩ : x ≠ '\n' ∧ x ≠ '\r' := by simpa using hbreak
  rw [linesOf, hcs, linesFrom, if_neg hfeed]
  exact exists_linesFrom rfl hreturn cs

/-- The first line of a statement begins, behind the margin, as the statement does. -/
theorem Kind.exists_head_statementLines (k : Kind) (indent : String) {p : Piece} {x : Char}
    (hx : p.text.toList.head? = some x) (hbreak : x ∉ ['\n', '\r']) :
    ∃ line rest, (k.statementLines indent p).head? = some line ∧
      line.toList = (k.margin indent).toList ++ x :: rest := by
  by_cases hk : k = .program
  · obtain ⟨rest, hrest⟩ := List.head?_eq_some_iff.1 hx
    rw [statementLines, margin, if_pos hk, if_pos hk]
    exact ⟨p.text, rest, rfl, hrest⟩
  · obtain ⟨line, lines, hlines, hline⟩ := exists_linesOf hx hbreak
    obtain ⟨rest, hrest⟩ := List.head?_eq_some_iff.1 hline
    rw [statementLines, margin, if_neg hk, if_neg hk, hlines]
    exact ⟨indent ++ line, rest, rfl, by rw [String.toList_append, hrest]⟩

/-- Two neighbours and what goes with them. -/
theorem exists_neighbours {R : Node → Piece → Prop} {ns : List Node} {ps : List Piece} {c d : Node}
    (hpair : [c, d] <:+: ns) (h : List.Forall₂ R ns ps) :
    ∃ qs p q rs, ps = qs ++ p :: q :: rs ∧ R c p ∧ R d q := by
  obtain ⟨before, after, rfl⟩ := hpair
  induction before generalizing ps with
  | nil =>
      obtain _ | @⟨_, p, _, _, hp, _ | @⟨_, q, _, rs, hq, -⟩⟩ := h
      exact ⟨[], p, q, rs, rfl, hp, hq⟩
  | cons b before ih =>
      obtain _ | @⟨_, r, _, ps, -, hps⟩ := h
      obtain ⟨qs, p, q, rs, rfl, hp, hq⟩ := ih hps
      exact ⟨r :: qs, p, q, rs, rfl, hp, hq⟩

/-- **Which statements go on from the line before.** Of two statements in a row, the script has
the last line of the first, a line break, the margin, and then the second. The character that
follows the margin is one that continues the expression before it exactly when the second
statement is an expression whose lead is in parentheses, a negative number, an array or a
function. -/
theorem line_continues_iff {source : String} {raw : RawNode} {p : Node}
    (hparse : parse source = .ok raw) (hbuild : Node.build raw = .ok p)
    {a : List Nat} {m first next : Node} (hm : p.at? a = some m)
    (hpair : [first, next] <:+: m.statements) (indent : String) :
    ∃ s q r last front x rest, m.render? indent = some s ∧
      first.render? indent = some q ∧ next.render? indent = some r ∧
      (m.kind.statementLines indent q).getLast? = some last ∧ r.text.toList.head? = some x ∧
      s.text.toList =
        front ++ (last.toList ++ '\n' :: ((m.kind.margin indent).toList ++ x :: rest)) ∧
      (x ∈ continuations ↔ next.continuesLine = true) := by
  have hg : m.Grammatical := (grammatical_of_parse hparse hbuild).1.at? hm
  obtain ⟨s, hs⟩ := Node.exists_render_of_shaped hg.shaped indent
  have hne : m.statements ≠ [] := by
    rintro hnil
    rw [hnil] at hpair
    simp at hpair
  obtain ⟨front, qs, back, hqs, htext⟩ := exists_layout hne hs
  obtain ⟨before, q, r, after, rfl, hq, hr⟩ := exists_neighbours hpair hqs
  have begins {c : Node} {t : Piece} (hc : c ∈ m.statements) (ht : c.render? indent = some t) :
      Begins c.continuesLine t.text.toList := by
    obtain ⟨hchild, hstatement⟩ := Node.of_mem_statements hg hc
    exact begins_of_render (hg.child hchild) hstatement ht
  obtain ⟨y, hy, hybreak, -⟩ := begins (hpair.subset (by simp)) hq
  obtain ⟨x, hx, hxbreak, hiff⟩ := begins (hpair.subset (by simp)) hr
  -- both statements have a first line, so the first one has a last line too
  obtain ⟨line', -, hline', -⟩ := m.kind.exists_head_statementLines indent hy hybreak
  obtain ⟨line, rest, hline, hmargin⟩ := m.kind.exists_head_statementLines indent hx hxbreak
  obtain ⟨last, hlast⟩ : ∃ last, (m.kind.statementLines indent q).getLast? = some last := by
    obtain ⟨lines, hlines⟩ := List.head?_eq_some_iff.1 hline'
    exact ⟨_, by rw [hlines, List.getLast?_cons]⟩
  obtain ⟨front', behind, hbreak⟩ := exists_break_between hlast hline before after
  refine ⟨s, q, r, last, front.toList ++ front', x, rest ++ (behind ++ back.toList), hs, hq, hr,
    hlast, hx, ?_, hiff⟩
  rw [htext, String.toList_append, String.toList_append, hbreak, hmargin]
  simp

/-- A call on an array goes on from the line before, in the body of a function. -/
theorem line_continues_callOnArray :
    ∃ raw p m first next, parse "fn f(a) \x7b a.b; [a](0) \x7d" = .ok raw ∧ Node.build raw = .ok p ∧
      p.at? [0] = some m ∧ [first, next] <:+: m.statements ∧ next.continuesLine = true ∧
      ∃ s q r last front x rest, m.render? defaultIndent = some s ∧
        first.render? defaultIndent = some q ∧ next.render? defaultIndent = some r ∧
        (m.kind.statementLines defaultIndent q).getLast? = some last ∧
        r.text.toList.head? = some x ∧
        s.text.toList = front ++
          (last.toList ++ '\n' :: ((m.kind.margin defaultIndent).toList ++ x :: rest)) ∧
        (x ∈ continuations ↔ next.continuesLine = true) := by
  obtain ⟨raw, p, hparse, hbuild, hp⟩ := exists_parsed_of_any "fn f(a) \x7b a.b; [a](0) \x7d"
    (fun p => (p.at? [0]).any fun m =>
      m.statements.length == 2 && m.statements.getLast?.any Node.continuesLine)
    (by decide +kernel)
  obtain ⟨m, hm, htwo⟩ := (Option.any_eq_true _ _).1 hp
  rw [Bool.and_eq_true, beq_iff_eq, List.length_eq_two] at htwo
  obtain ⟨⟨first, next, hstatements⟩, hcontinues⟩ := htwo
  have hpair : [first, next] <:+: m.statements := hstatements ▸ List.infix_rfl
  rw [hstatements] at hcontinues
  exact ⟨raw, p, m, first, next, hparse, hbuild, hm, hpair, hcontinues,
    line_continues_iff hparse hbuild hm hpair defaultIndent⟩

/-- An array behind a declaration: the script has two lines that are read as one statement. -/
theorem array_continues_declaration :
    ∃ raw p first next q, parse "let a = 1; [a]" = .ok raw ∧ Node.build raw = .ok p ∧
      p.kind = .program ∧ p.children = [first, next] ∧ first.type ≠ .functionDeclaration ∧
      next.render? defaultIndent = some q ∧
      (∃ x ∈ continuations, q.text.toList.head? = some x) ∧
      generate? defaultIndent p = some "const a = 1\n[a]" := by
  obtain ⟨raw, p, hparse, hbuild, hp⟩ := exists_parsed_of_any "let a = 1; [a]"
    (fun p => p.kind == .program && p.children.length == 2 &&
      p.children.head?.any (·.type != .functionDeclaration) &&
      p.children.getLast?.any (fun n => (n.render? defaultIndent).any
        (·.text.toList.head? == some '[')) &&
      generate? defaultIndent p == some "const a = 1\n[a]")
    (by decide +kernel)
  simp only [Bool.and_eq_true, beq_iff_eq] at hp
  obtain ⟨⟨⟨⟨hkind, htwo⟩, hfirst⟩, hnext⟩, hscript⟩ := hp
  obtain ⟨first, next, hchildren⟩ := List.length_eq_two.1 htwo
  rw [hchildren] at hfirst hnext
  have hnext : (next.render? defaultIndent).any (·.text.toList.head? == some '[') = true := hnext
  obtain ⟨q, hq, hhead⟩ := (Option.any_eq_true _ _).1 hnext
  exact ⟨raw, p, first, next, q, hparse, hbuild, hkind, hchildren, by simpa using hfirst, hq,
    ⟨'[', by decide, by simpa using hhead⟩, hscript⟩

end ExprScript
