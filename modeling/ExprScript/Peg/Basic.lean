import ExprScript.Source.Cursor

set_option autoImplicit false

/-! # Parsing expression grammars

A grammar is data: a finite type `ρ` of rule names, a body for each of them, and the layout
that may stand between the parts of a sequence. `Grammar.eval` runs an expression at a cursor.
Choice is ordered and committed, repetition takes all it can, and nothing is remembered from
an alternative that failed.

Rules come in four modes. A `normal` rule gives a tree node. A `silent` rule gives none, and
what its body matched stands in its place. A `token` rule gives a node without children and
allows no layout inside. A `compound` rule allows no layout either, but keeps the nodes of
the rules it calls.

In a sequence the layout between two parts is passed over before the second part is tried, so
a part that matches the empty text leaves the cursor behind the layout. In a repetition the
layout belongs to the next round and is given back when that round fails.

The evaluator counts down a fuel argument at every step into an expression; running dry is
`Outcome.exhausted`, which is neither a match nor a mismatch.
-/

namespace ExprScript

/-- Parsing expressions over the rule names `ρ`. -/
inductive Peg (ρ : Type) where
  /-- the given text -/
  | lit (text : String)
  /-- one character of a class -/
  | one (p : Char → Bool)
  /-- the end of the text -/
  | done
  /-- the first part, layout, the second part -/
  | seq (a b : Peg ρ)
  /-- the first part, or the second where the first does not match -/
  | alt (a b : Peg ρ)
  /-- as many rounds as match, with layout between them -/
  | star (a : Peg ρ)
  /-- the part if it matches -/
  | opt (a : Peg ρ)
  /-- nothing, where the part does not match -/
  | absent (a : Peg ρ)
  /-- the body of a rule -/
  | call (r : ρ)

namespace Peg

variable {ρ : Type}

def inOrder : Peg ρ → List (Peg ρ) → Peg ρ
  | a, [] => a
  | a, b :: bs => .seq a (inOrder b bs)

def firstOf : Peg ρ → List (Peg ρ) → Peg ρ
  | a, [] => a
  | a, b :: bs => .alt a (firstOf b bs)

/-- The first of the given texts that matches. -/
def oneOf : List String → Peg ρ
  -- the empty text always matches, so its absence never does
  | [] => .absent (.lit "")
  | [t] => .lit t
  | t :: u :: us => .alt (.lit t) (oneOf (u :: us))

end Peg

/-- How a rule treats layout and what it leaves in the tree. -/
inductive Mode where
  | normal
  | silent
  | token
  | compound
deriving DecidableEq, Repr

/-- Where an expression is being run: among layout (`spaced`), in a compound rule (`glued`),
or in a token (`token`), where no nodes are made. -/
inductive Setting where
  | spaced
  | glued
  | token
deriving DecidableEq, Repr

/-- The setting of the body of a rule that is called in the setting `s`. -/
def Mode.enter : Mode → Setting → Setting
  | .normal, s => s
  | .silent, s => s
  | .token, _ => .token
  | .compound, .token => .token
  | .compound, _ => .glued

/-- A grammar: the body and mode of each rule, and the layout between parts. -/
structure Grammar (ρ : Type) where
  body : ρ → Peg ρ
  mode : ρ → Mode
  /-- the cursor behind the layout that stands at a cursor -/
  skip : Cursor → Cursor

/-- A match: the rule, where it stands, the text it covers, and the matches inside it. -/
inductive MatchTree (ρ : Type) where
  | node (rule : ρ) (span : Span) (text : List Char) (children : List (MatchTree ρ))

/-- The result of running an expression. -/
inductive Outcome (ρ : Type) where
  /-- a match that ends at `stop` -/
  | ok (stop : Cursor) (trees : List (MatchTree ρ))
  /-- a mismatch -/
  | fail
  /-- the fuel ran out -/
  | exhausted

namespace Outcome

variable {ρ : Type}

/-- The outcome with `ts` in front of its trees. -/
def after (ts : List (MatchTree ρ)) : Outcome ρ → Outcome ρ
  | .ok c us => .ok c (ts ++ us)
  | .fail => .fail
  | .exhausted => .exhausted

def ofCursor? : Option Cursor → Outcome ρ
  | some c => .ok c []
  | none => .fail

/-- Rounds of `step` from `c` on, until one does not match; at most `n` of them. -/
def rounds (step : Cursor → Outcome ρ) : Nat → Cursor → Outcome ρ
  | 0, _ => .exhausted
  | n + 1, c =>
    match step c with
    | .ok c₁ ts => (rounds step n c₁).after ts
    | .fail => .ok c []
    | .exhausted => .exhausted

end Outcome

namespace Grammar

variable {ρ : Type} (G : Grammar ρ)

/-- The cursor at which the next part of a sequence is tried. -/
def gap : Setting → Cursor → Cursor
  | .spaced, c => G.skip c
  | _, c => c

/-- What calling the rule `r` in the setting `s` at `c` makes of the outcome of its body. -/
def wrap (r : ρ) (s : Setting) (c : Cursor) : Outcome ρ → Outcome ρ
  | .ok d ts =>
    match G.mode r, s with
    | .silent, _ => .ok d ts
    | _, .token => .ok d []
    | _, _ => .ok d [.node r ⟨c.pos, d.pos⟩ (c.upTo d) ts]
  | .fail => .fail
  | .exhausted => .exhausted

/-- Runs an expression at a cursor. A round of a repetition takes at least one character of
the text ahead, so the number of rounds is bounded by its length. -/
def eval : Nat → Setting → Peg ρ → Cursor → Outcome ρ
  | 0, _, _, _ => .exhausted
  | n + 1, s, e, c =>
    match e with
    | .lit t => .ofCursor? (c.strip? t.toList)
    | .one p => .ofCursor? (c.step? p)
    | .done => if c.rest.isEmpty then .ok c [] else .fail
    | .seq a b =>
      match eval n s a c with
      | .ok c₁ ts => (eval n s b (G.gap s c₁)).after ts
      | .fail => .fail
      | .exhausted => .exhausted
    | .alt a b =>
      match eval n s a c with
      | .ok c₁ ts => .ok c₁ ts
      | .fail => eval n s b c
      | .exhausted => .exhausted
    | .star a =>
      match eval n s a c with
      | .ok c₁ ts =>
        -- the gap is part of each further round, so a round that fails gives it back
        (Outcome.rounds (fun d => eval n s a (G.gap s d)) (c₁.rest.length + 1) c₁).after ts
      | .fail => .ok c []
      | .exhausted => .exhausted
    | .opt a =>
      match eval n s a c with
      | .ok c₁ ts => .ok c₁ ts
      | .fail => .ok c []
      | .exhausted => .exhausted
    | .absent a =>
      match eval n s a c with
      | .ok _ _ => .fail
      | .fail => .ok c []
      | .exhausted => .exhausted
    | .call r => G.wrap r s c (eval n ((G.mode r).enter s) (G.body r) c)

end Grammar

end ExprScript
