set_option autoImplicit false

/-! # Places in a YAML text

A place is the text ahead together with a `Mark`: how many characters, and how many lines, lie
before it, and how many characters of its own line do. Columns carry the structure of a YAML
text, so every step keeps track of them.

A line ends at a line feed or at one of the two Unicode separators; other line breaks have been
replaced by line feeds before.
-/

namespace ExprScript.Yaml

/-! ## Characters -/

def isBlankChar (c : Char) : Bool := c == ' ' || c == '\t'

def isBreak (c : Char) : Bool := c == '\n' || c == '\u2028' || c == '\u2029'

/-- The characters that divide the items inside brackets. -/
def isFlowMark (c : Char) : Bool := [',', '[', ']', '{', '}'].contains c

def isNameChar (c : Char) : Bool := c.isAlphanum || c == '_' || c == '-'

/-- The byte order mark, which may begin a line. -/
def byteOrderMark : Char := '\ufeff'

/-- Whether a blank, a line break or the end comes next. -/
def startsBlank : List Char → Bool
  | [] => true
  | c :: _ => isBlankChar c || isBreak c

/-- Whether a line break or the end comes next. -/
def startsBreak : List Char → Bool
  | [] => true
  | c :: _ => isBreak c

/-- Whether the three dashes of the start of a document come next. -/
def startsDocument : List Char → Bool
  | '-' :: '-' :: '-' :: cs => startsBlank cs
  | _ => false

/-- Whether the three dots of the end of a document come next. -/
def endsDocument : List Char → Bool
  | '.' :: '.' :: '.' :: cs => startsBlank cs
  | _ => false

/-- Whether a marker of the start or the end of a document comes next. -/
def startsMarker (cs : List Char) : Bool := startsDocument cs || endsDocument cs

/-! ## Marks and places -/

/-- How far a place is from the start of the text and of its line. -/
structure Mark where
  index : Nat := 0
  line : Nat := 0
  column : Nat := 0
deriving DecidableEq, Repr

/-- The mark behind the character `c`. -/
def Mark.after (m : Mark) (c : Char) : Mark :=
  if isBreak c then ⟨m.index + 1, m.line + 1, 0⟩ else ⟨m.index + 1, m.line, m.column + 1⟩

structure Place where
  mark : Mark := {}
  rest : List Char
deriving Repr

namespace Place

def skip (p : Place) (n : Nat) : Place := ⟨(p.rest.take n).foldl Mark.after p.mark, p.rest.drop n⟩

def past (p : Place) (test : Char → Bool) : Place :=
  ⟨(p.rest.takeWhile test).foldl Mark.after p.mark, p.rest.dropWhile test⟩

/-- The characters ahead that satisfy a predicate, and the place behind them. -/
def span (p : Place) (test : Char → Bool) : List Char × Place :=
  (p.rest.takeWhile test, p.past test)

/-- The place behind the rest of a line, if nothing but a comment is left of it. -/
def endLine? (p : Place) : Option Place :=
  let p := p.past isBlankChar
  let p := if p.rest.head? = some '#' then p.past (fun c => !isBreak c) else p
  -- the end of the text ends its last line as well
  if startsBreak p.rest then some (p.skip 1) else none

end Place

/-! ## Layout -/

mutual

/-- The place behind the spaces, line breaks and comments ahead, and whether a key may begin
there. Outside brackets (`flow` being false) every new line lets a key begin. Tabs are passed
over where they cannot be taken for indentation: inside brackets, and where no key may begin. -/
def layoutFrom (flow keyAllowed : Bool) (m : Mark) : List Char → Place × Bool
  | [] => (⟨m, []⟩, keyAllowed)
  | c :: cs =>
    if m.column = 0 && c = byteOrderMark then layoutFrom flow keyAllowed (m.after c) cs
    else if c = ' ' || (c = '\t' && (flow || !keyAllowed)) then
      layoutFrom flow keyAllowed (m.after c) cs
    else if c = '#' then commentFrom flow keyAllowed (m.after c) cs
    else if isBreak c then layoutFrom flow (keyAllowed || !flow) (m.after c) cs
    else (⟨m, c :: cs⟩, keyAllowed)

/-- The same from within a comment. -/
def commentFrom (flow keyAllowed : Bool) (m : Mark) : List Char → Place × Bool
  | [] => (⟨m, []⟩, keyAllowed)
  | c :: cs =>
    if isBreak c then layoutFrom flow (keyAllowed || !flow) (m.after c) cs
    else commentFrom flow keyAllowed (m.after c) cs

end

end ExprScript.Yaml
