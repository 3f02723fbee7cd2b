set_option autoImplicit false

/-! # YAML values

A scalar is kept as its text, together with how it was written and with its tag, if it has one.
A node that is not there is the empty plain scalar. What a scalar means is decided by whoever
reads it: the same `1` is a text to one reader and a number to another.
-/

namespace ExprScript

inductive ScalarStyle where
  | plain
  | quoted
  | literal
  | folded
deriving DecidableEq, Repr, Inhabited

inductive Yaml where
  | scalar (text : String) (style : ScalarStyle) (tag : Option String)
  | seq (items : List Yaml)
  | map (entries : List (Yaml × Yaml))
  /-- a node that contains the place at which it is asked for -/
  | cycle
deriving Repr, Inhabited

namespace Yaml

/-- The node that is not there. -/
def empty : Yaml := .scalar "" .plain none

def text? : Yaml → Option String
  | .scalar text _ _ => some text
  | _ => none

/-- Whether the node is an empty plain scalar, as one that is not there is. -/
def isEmpty : Yaml → Bool
  | .scalar text style _ => text.isEmpty && style = .plain
  | _ => false

/-- The items of a sequence; an empty node counts as a sequence without items. -/
def items? : Yaml → Option (List Yaml)
  | .seq items => some items
  | v => if v.isEmpty then some [] else none

/-- The entries of a mapping whose keys are scalars; an empty node counts as a mapping without
entries. -/
def entries? : Yaml → Option (List (String × Yaml))
  | .map entries => entries.mapM fun (k, v) => k.text?.map (·, v)
  | v => if v.isEmpty then some [] else none

/-! ## Tags -/

def typeTag (name : String) : String := "tag:yaml.org,2002:" ++ name

/-- The text of a scalar that can stand for a value of the type with the given name: one that is
plain, or a literal block with the tag of that type. -/
def typedText? (type : String) : Yaml → Option String
  | .scalar text style tag =>
    if style = .plain || (style = .literal && tag = some (typeTag type)) then some text else none
  | _ => none

/-! ## Null, truth values and numbers -/

/-- Whether the node is null, or nothing if its tag says so but its text does not. A plain scalar
without a tag is null also if it is empty. -/
def isNull? : Yaml → Option Bool
  | .scalar text .plain tag =>
    let named := ["~", "null", "Null", "NULL"].contains text
    match tag with
    | none => some (named || text.isEmpty)
    | some tag => if tag = typeTag "null" then if named then some true else none else some false
  | _ => some false

def bool? (v : Yaml) : Option Bool :=
  match v.typedText? "bool" with
  | none => none
  | some text =>
    if ["true", "True", "TRUE"].contains text then some true
    else if ["false", "False", "FALSE"].contains text then some false
    else none

/-- The value of a digit in bases up to sixteen. -/
def digit? (c : Char) : Option Nat :=
  if '0' ≤ c && c ≤ '9' then some (c.toNat - '0'.toNat)
  else if 'a' ≤ c && c ≤ 'f' then some (c.toNat - 'a'.toNat + 10)
  else if 'A' ≤ c && c ≤ 'F' then some (c.toNat - 'A'.toNat + 10)
  else none

/-- The number that a run of digits denotes in a base, continuing the number `n`. -/
def digitsFrom? (base : Nat) (n : Nat) : List Char → Option Nat
  | [] => some n
  | c :: cs =>
    match digit? c with
    | some d => if d < base then digitsFrom? base (n * base + d) cs else none
    | none => none

def digits? (base : Nat) : List Char → Option Nat
  | [] => none
  | cs => digitsFrom? base 0 cs

/-- The natural number of 64 bits that a scalar denotes: decimal without leading zeros, or in
base sixteen, eight or two behind `0x`, `0o` or `0b`, with an optional plus sign. -/
def nat64? (v : Yaml) : Option Nat :=
  match v.typedText? "int" with
  | none => none
  | some text =>
    let cs :=
      match text.toList with
      | '+' :: cs => cs
      | cs => cs
    let n :=
      match cs with
      | '0' :: 'x' :: ds => digits? 16 ds
      | '0' :: 'o' :: ds => digits? 8 ds
      | '0' :: 'b' :: ds => digits? 2 ds
      | ['0'] => some 0
      | '0' :: _ => none
      | ds => digits? 10 ds
    n.filter (· < UInt64.size)

/-- A value that may be null or missing, and is read by `read` otherwise. -/
def optional? {α : Type} (read : Yaml → Option α) : Option Yaml → Option (Option α)
  | none => some none
  | some v => v.isNull?.bind fun null => if null then some none else (read v).map some

/-- Whether none of the keys comes twice in the entries. -/
def unrepeated (keys : List String) (entries : List (String × Yaml)) : Bool :=
  keys.all fun k => (entries.filter (·.1 == k)).length ≤ 1

end Yaml

end ExprScript
