import ExprScript.Source.Cursor

set_option autoImplicit false

/-! # Layout

What may stand between two words of a program without meaning anything: spaces, tabs, carriage
returns, line feeds, and comments from `//` to the end of the line.
-/

namespace ExprScript.Layout

/-- The four characters that separate words. -/
def isSpace (c : Char) : Bool := c == ' ' || c == '\t' || c == '\r' || c == '\n'

mutual

def skipFrom (p : Position) : List Char → Cursor
  | [] => ⟨p, []⟩
  | c :: cs =>
    if isSpace c then skipFrom (p.advance c) cs
    else
      match c, cs with
      | '/', '/' :: ds => skipComment ((p.advance '/').advance '/') ds
      | _, _ => ⟨p, c :: cs⟩

/-- The cursor behind the rest of a comment and all the layout after it. -/
def skipComment (p : Position) : List Char → Cursor
  | [] => ⟨p, []⟩
  | c :: cs =>
    if c = '\n' then skipFrom (p.advance c) cs
    else skipComment (p.advance c) cs

end

/-- The cursor behind all the layout that stands at `c`. -/
def skip (c : Cursor) : Cursor := skipFrom c.pos c.rest

end ExprScript.Layout
