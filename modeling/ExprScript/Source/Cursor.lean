import ExprScript.Source.Position

set_option autoImplicit false

/-! # Cursors

A `Cursor` is a place in a text that is being read: the position reached and the characters
still ahead. Reading only ever drops characters from the front, so a later cursor of the same
text has a suffix of the earlier one's characters, and the text between the two
(`Cursor.upTo`) is what has been read.
-/

namespace ExprScript

/-- A place in a text that is being read. -/
structure Cursor where
  pos : Position
  rest : List Char
deriving DecidableEq, Repr, Inhabited

namespace Cursor

def start (cs : List Char) : Cursor := ⟨.first, cs⟩

/-- The cursor behind `text`, when `text` is what comes next. -/
def strip? : List Char → Cursor → Option Cursor
  | [], c => some c
  | t :: ts, ⟨p, x :: xs⟩ => if t = x then strip? ts ⟨p.advance x, xs⟩ else none
  | _ :: _, ⟨_, []⟩ => none

/-- The cursor behind the next character, when that character satisfies `p`. -/
def step? (p : Char → Bool) : Cursor → Option Cursor
  | ⟨q, x :: xs⟩ => if p x then some ⟨q.advance x, xs⟩ else none
  | ⟨_, []⟩ => none

/-- The characters between `c` and the later cursor `d`. -/
def upTo (c d : Cursor) : List Char := c.rest.take (c.rest.length - d.rest.length)

end Cursor

end ExprScript
