import ExprScript.Json.Range
import ExprScript.Json.Value

set_option autoImplicit false

/-! # Reading JSON

The reader takes exactly the JSON texts of RFC 8259, with three limits: arrays and objects may
be nested at most `maxDepth` deep, an escaped surrogate has to be half of a pair, and a number
has to be in the range of double precision.

Each reader takes the characters ahead and returns what it has read with the characters behind
it. The fuel of `value` counts down at every step into a value; a step takes a character or
is followed by one that does.
-/

namespace ExprScript.Json

/-- How deep arrays and objects may be nested. -/
def maxDepth : Nat := 127

/-- The characters that may stand between two words. -/
def isSpace (c : Char) : Bool := c == ' ' || c == '\n' || c == '\t' || c == '\r'

def skipSpace (cs : List Char) : List Char := cs.dropWhile isSpace

/-! ## Strings -/

def hexDigit? (c : Char) : Option Nat :=
  if '0' ≤ c && c ≤ '9' then some (c.toNat - '0'.toNat)
  else if 'a' ≤ c && c ≤ 'f' then some (c.toNat - 'a'.toNat + 10)
  else if 'A' ≤ c && c ≤ 'F' then some (c.toNat - 'A'.toNat + 10)
  else none

def hex4? (a b c d : Char) : Option Nat := do
  let a ← hexDigit? a
  let b ← hexDigit? b
  let c ← hexDigit? c
  let d ← hexDigit? d
  return ((a * 16 + b) * 16 + c) * 16 + d

/-- The character that a backslash and the given character stand for. -/
def escaped? : Char → Option Char
  | '"' => some '"'
  | '\\' => some '\\'
  | '/' => some '/'
  | 'b' => some '\x08'
  | 'f' => some '\x0c'
  | 'n' => some '\n'
  | 'r' => some '\r'
  | 't' => some '\t'
  | _ => none

/-- Whether the code unit is the first half of a surrogate pair. -/
def isHighSurrogate (n : Nat) : Bool := 0xD800 ≤ n && n < 0xDC00

/-- Whether the code unit is the second half of a surrogate pair. -/
def isLowSurrogate (n : Nat) : Bool := 0xDC00 ≤ n && n < 0xE000

/-- The content of a string up to its closing quote, and the text behind that quote. -/
def stringContent : List Char → Option (List Char × List Char)
  | [] => none
  | '"' :: rest => some ([], rest)
  | '\\' :: 'u' :: a :: b :: c :: d :: rest =>
    match hex4? a b c d with
    | none => none
    | some n =>
      -- a second half without the first
      if isLowSurrogate n then none
      else if isHighSurrogate n then
        match rest with
        | '\\' :: 'u' :: e :: f :: g :: h :: rest =>
          match hex4? e f g h with
          | none => none
          | some m =>
            if isLowSurrogate m then
              (stringContent rest).map fun (s, r) =>
                (Char.ofNat (0x10000 + (n - 0xD800) * 0x400 + (m - 0xDC00)) :: s, r)
            else none
        | _ => none
      else (stringContent rest).map fun (s, r) => (Char.ofNat n :: s, r)
  | '\\' :: c :: rest =>
    match escaped? c with
    | none => none
    | some x => (stringContent rest).map fun (s, r) => (x :: s, r)
  | c :: rest =>
    -- control characters have to be escaped; a backslash gets here only at the end of the text
    if c == '\\' || c.toNat < 0x20 then none
    else (stringContent rest).map fun (s, r) => (c :: s, r)

def string? : List Char → Option (String × List Char)
  | '"' :: cs => (stringContent cs).map fun (s, r) => (String.ofList s, r)
  | _ => none

/-! ## Numbers -/

/-- A run of at least one digit, and the text behind it. -/
def digits? (cs : List Char) : Option (List Char × List Char) :=
  match cs.takeWhile Char.isDigit with
  | [] => none
  | ds => some (ds, cs.dropWhile Char.isDigit)

/-- The digits of an integer, which are a single zero or begin with another digit. -/
def integerDigits? : List Char → Option (List Char × List Char)
  | '0' :: rest => some (['0'], rest)
  | cs => digits? cs

/-- The digits behind a decimal point, if there is one. -/
def fraction? : List Char → Option (List Char × List Char)
  | '.' :: cs => digits? cs
  | cs => some ([], cs)

/-- The exponent, if there is one: its text, its value and the text behind it. -/
def exponent? (cs : List Char) : Option (List Char × Int × List Char) :=
  match cs with
  | e :: rest =>
    if e == 'e' || e == 'E' then
      match rest with
      | '-' :: ds =>
        (digits? ds).map fun (x, r) => (e :: '-' :: x, -(Decimal.ofDigits x : Int), r)
      | '+' :: ds =>
        (digits? ds).map fun (x, r) => (e :: '+' :: x, (Decimal.ofDigits x : Int), r)
      | ds => (digits? ds).map fun (x, r) => (e :: x, (Decimal.ofDigits x : Int), r)
    else some ([], 0, cs)
  | [] => some ([], 0, [])

/-- A number without its sign, and the text behind it. -/
def number? (negative : Bool) (cs : List Char) : Option (Json × List Char) := do
  let (whole, rest) ← integerDigits? cs
  let (part, rest) ← fraction? rest
  let (power, exponent, rest) ← exponent? rest
  if outOfRange whole part exponent then none
  else
    let sign := if negative then ['-'] else []
    let point := if part.isEmpty then [] else '.' :: part
    let n := Decimal.ofDigits whole
    -- the integers have no negative zero
    if part.isEmpty && power.isEmpty && !(negative && n == 0) then
      return (.int (if negative then -(n : Int) else n), rest)
    else return (.real (String.ofList (sign ++ whole ++ point ++ power)), rest)

/-! ## Values -/

mutual

/-- A value at the head of the text, in which arrays and objects may be nested `depth` deep,
and the text behind it. -/
def value : Nat → Nat → List Char → Option (Json × List Char)
  | 0, _, _ => none
  | n + 1, depth, cs =>
    match cs with
    | 'n' :: 'u' :: 'l' :: 'l' :: rest => some (.null, rest)
    | 't' :: 'r' :: 'u' :: 'e' :: rest => some (.bool true, rest)
    | 'f' :: 'a' :: 'l' :: 's' :: 'e' :: rest => some (.bool false, rest)
    | '"' :: rest => (stringContent rest).map fun (s, r) => (.str (String.ofList s), r)
    | '-' :: rest => number? true rest
    | '[' :: rest =>
      match depth with
      | 0 => none
      | depth + 1 =>
        match skipSpace rest with
        | ']' :: rest => some (.arr [], rest)
        | rest => (items n depth rest).map fun (xs, r) => (.arr xs, r)
    | '{' :: rest =>
      match depth with
      | 0 => none
      | depth + 1 =>
        match skipSpace rest with
        | '}' :: rest => some (.obj [], rest)
        | rest => (fields n depth rest).map fun (xs, r) => (.obj xs, r)
    | cs => number? false cs

/-- The items of an array, up to and without its closing bracket. -/
def items : Nat → Nat → List Char → Option (List Json × List Char)
  | 0, _, _ => none
  | n + 1, depth, cs =>
    match value n depth (skipSpace cs) with
    | none => none
    | some (x, rest) =>
      match skipSpace rest with
      | ',' :: rest => (items n depth rest).map fun (xs, r) => (x :: xs, r)
      | ']' :: rest => some ([x], rest)
      | _ => none

/-- The fields of an object, up to and without its closing brace. -/
def fields : Nat → Nat → List Char → Option (List (String × Json) × List Char)
  | 0, _, _ => none
  | n + 1, depth, cs =>
    match string? (skipSpace cs) with
    | none => none
    | some (key, rest) =>
      match skipSpace rest with
      | ':' :: rest =>
        match value n depth (skipSpace rest) with
        | none => none
        | some (x, rest) =>
          match skipSpace rest with
          | ',' :: rest => (fields n depth rest).map fun (xs, r) => ((key, x) :: xs, r)
          | '}' :: rest => some ([(key, x)], rest)
          | _ => none
      | _ => none

end

def read? (text : String) : Option Json :=
  let cs := text.toList
  -- a bracket takes two steps: into the value that it begins, and to its first item
  match value (2 * cs.length + 2) maxDepth (skipSpace cs) with
  | some (v, rest) => if (skipSpace rest).isEmpty then some v else none
  | none => none

end ExprScript.Json
