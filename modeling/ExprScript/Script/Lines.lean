set_option autoImplicit false

/-! # Lines of a text

A line ends at a line feed; a carriage return right before that line feed belongs to the line
ending. What follows the last line feed is a line of its own unless it is empty, and its
carriage returns are part of it.
-/

namespace ExprScript

/-- A line, given from its last character back, without the carriage return of its ending. -/
def chopReturn : List Char → List Char
  | '\r' :: cs => cs
  | cs => cs

/-- The lines of a text of which `back` has been read since the last line feed, last character
first. -/
def linesFrom (back : List Char) : List Char → List String
  | [] => if back.isEmpty then [] else [String.ofList back.reverse]
  | c :: cs =>
    if c = '\n' then String.ofList (chopReturn back).reverse :: linesFrom [] cs
    else linesFrom (c :: back) cs

def linesOf (text : String) : List String := linesFrom [] text.toList

end ExprScript
