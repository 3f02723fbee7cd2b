import ExprScript.Json.Value

set_option autoImplicit false

/-! # Writing JSON

`Json.pretty` writes a value over several lines, each level indented by two spaces. Empty
arrays and objects stay on their line.
-/

namespace ExprScript.Json

def hexDigit (n : Nat) : Char :=
  if n < 10 then Char.ofNat ('0'.toNat + n) else Char.ofNat ('a'.toNat + (n - 10))

/-- The characters a character is written with inside a string. -/
def escape (c : Char) : List Char :=
  match c with
  | '"' => ['\\', '"']
  | '\\' => ['\\', '\\']
  | '\x08' => ['\\', 'b']
  | '\x0c' => ['\\', 'f']
  | '\n' => ['\\', 'n']
  | '\r' => ['\\', 'r']
  | '\t' => ['\\', 't']
  | c =>
    if c.toNat < 0x20 then ['\\', 'u', '0', '0', hexDigit (c.toNat / 16), hexDigit (c.toNat % 16)]
    else [c]

def quote (s : String) : String := "\"" ++ String.ofList (s.toList.flatMap escape) ++ "\""

/-- A new line at the given level. -/
def newline (level : Nat) : String := "\n" ++ String.join (List.replicate level "  ")

mutual

def prettyAt (level : Nat) : Json → String
  | .null => "null"
  | .bool b => if b then "true" else "false"
  | .int n => toString n
  | .real literal => literal
  | .str s => quote s
  | .arr [] => "[]"
  | .arr (x :: xs) =>
    "[" ++ newline (level + 1) ++ prettyAt (level + 1) x ++ prettyItems (level + 1) xs ++
      newline level ++ "]"
  | .obj [] => "\x7b\x7d"
  | .obj ((k, x) :: xs) =>
    "\x7b" ++ newline (level + 1) ++ quote k ++ ": " ++ prettyAt (level + 1) x ++
      prettyFields (level + 1) xs ++ newline level ++ "\x7d"

/-- The items of an array after the first, each behind a comma. -/
def prettyItems (level : Nat) : List Json → String
  | [] => ""
  | x :: xs => "," ++ newline level ++ prettyAt level x ++ prettyItems level xs

/-- The fields of an object after the first, each behind a comma. -/
def prettyFields (level : Nat) : List (String × Json) → String
  | [] => ""
  | (k, x) :: xs =>
    "," ++ newline level ++ quote k ++ ": " ++ prettyAt level x ++ prettyFields level xs

end

def pretty (v : Json) : String := prettyAt 0 v

end ExprScript.Json
