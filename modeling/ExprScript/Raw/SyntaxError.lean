import ExprScript.Grammar.Rule
import ExprScript.Source.Position

set_option autoImplicit false

/-! # Syntax errors

Why a text is not a program, and where. The last two causes say that the evaluation of the
grammar, or the reading of a match, broke off; no text leads to them.
-/

namespace ExprScript

/-- Why a text is not a program. -/
inductive SyntaxCause where
  /-- the grammar does not match; these rules would have let it go on -/
  | expected (rules : List Rule)
  /-- an integer literal that is no 64-bit integer -/
  | integerRange (literal : String)
  /-- a match of the rule without the parts the rule calls for -/
  | malformed (rule : Rule)
  /-- the evaluation of the grammar did not end -/
  | unfinished
deriving DecidableEq, Repr

/-- A reason why a text is not a program, and the place it concerns. -/
structure SyntaxError where
  cause : SyntaxCause
  span : Span
deriving DecidableEq, Repr

def SyntaxCause.message : SyntaxCause → String
  | .expected rules => "expected " ++ enumeration ((Rule.listing rules).map Rule.description)
  | .integerRange literal => "invalid integer literal '" ++ literal ++ "'"
  | .malformed rule => "incomplete match of " ++ rule.description
  | .unfinished => "the match did not end"

namespace SyntaxError

def message (e : SyntaxError) : String := e.cause.message

/-- The wording of an error with the line and column it starts at. -/
def display (e : SyntaxError) : String :=
  e.message ++ " (line " ++ toString e.span.start.line ++ ", column " ++
    toString e.span.start.column ++ ")"

end SyntaxError

end ExprScript
