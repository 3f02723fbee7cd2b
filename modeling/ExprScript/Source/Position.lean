set_option autoImplicit false

/-! # Positions and spans

A `Position` is a point between two characters of a source text. It is known three ways at
once: by the number of UTF-8 bytes before it, and by line and column, both counted from one,
where a column is one character wide whatever its encoding. A line ends at a line feed and
nowhere else, so a carriage return takes up a column of the line it stands on.

A `Span` is the stretch between two positions. Nodes that no source text stands behind carry
`Span.empty`, whose numbers are all zero.
-/

namespace ExprScript

/-- A point of a source text: bytes before it, line and column. -/
structure Position where
  offset : Nat
  line : Nat
  column : Nat
deriving DecidableEq, Repr, Inhabited

namespace Position

/-- The position of a node without a source text. -/
def zero : Position := ⟨0, 0, 0⟩

/-- The position before the first character of a source text. -/
def first : Position := ⟨0, 1, 1⟩

/-- The position after the character `c` that stands at `p`. -/
def advance (p : Position) (c : Char) : Position :=
  if c = '\n' then ⟨p.offset + c.utf8Size, p.line + 1, 1⟩
  else ⟨p.offset + c.utf8Size, p.line, p.column + 1⟩

/-- The position after the characters `cs` that stand at `p`. -/
def after (p : Position) (cs : List Char) : Position := cs.foldl advance p

@[simp] theorem after_nil (p : Position) : p.after [] = p := rfl

@[simp] theorem after_cons (p : Position) (c : Char) (cs : List Char) :
    p.after (c :: cs) = (p.advance c).after cs := rfl

theorem after_append (p : Position) (cs ds : List Char) :
    p.after (cs ++ ds) = (p.after cs).after ds := by
  simp [after, List.foldl_append]

end Position

structure Span where
  start : Position
  stop : Position
deriving DecidableEq, Repr, Inhabited

namespace Span

/-- The span of a node without a source text. -/
def empty : Span := ⟨.zero, .zero⟩

/-- The empty span at the position `p`. -/
def point (p : Position) : Span := ⟨p, p⟩

/-- The number of bytes in the span; zero when it ends before it starts. -/
def len (s : Span) : Nat := s.stop.offset - s.start.offset

def isEmpty (s : Span) : Bool := s.len == 0

end Span

end ExprScript
