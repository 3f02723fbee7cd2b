import ExprScript.Grammar.Basic
import ExprScript.Peg.Furthest
import ExprScript.Raw.OfMatch
import ExprScript.Source.Blank

set_option autoImplicit false

/-! # Parsing

`parse` reads a source text as a program. A text of nothing but blank characters is the program
without statements; every other text has to match the grammar as a whole.
-/

namespace ExprScript

def matchProgram (cs : List Char) : Outcome Rule :=
  programGrammar.eval (programFuel cs.length) .spaced (.call .program) (.start cs)

/-- The rules that failed furthest into a text, and where. -/
def furthestFailure (cs : List Char) : Furthest Rule :=
  programGrammar.attempts (programFuel cs.length) .spaced (.call .program) (.start cs) .initial

/-- The error of a text that the grammar does not match. -/
def mismatch (cs : List Char) : SyntaxError :=
  let furthest := furthestFailure cs
  ⟨.expected furthest.rules, .point furthest.pos⟩

/-- The raw tree of a source text. -/
def parse (source : String) : Except SyntaxError RawNode :=
  let cs := source.toList
  if cs.all isBlank then .ok .emptyProgram
  else
    match matchProgram cs with
    | .ok _ [m] => RawNode.ofMatch m
    -- neither this nor running out of fuel happens on any text
    | .ok _ _ => .error ⟨.malformed .program, .empty⟩
    | .fail => .error (mismatch cs)
    | .exhausted => .error ⟨.unfinished, .empty⟩

end ExprScript
