import ExprScript.Yaml.Property
import ExprScript.Yaml.Value

set_option autoImplicit false

/-! # YAML tokens

A text is cut into tokens from left to right. Indentation becomes tokens as well: where a mapping
or a sequence in block form begins, `blockMappingStart` or `blockSequenceStart` is put in, and
where a line is indented less, a `blockEnd` for every block that it leaves.

Only its colon tells a key. So whatever can begin a key is remembered as a `PendingKey`, one for
each level of brackets, and the `key` token is put in front of it when the colon is met. A key
has to stand on one line, at most `keyLimit` characters before its colon; a pending key that has
become too old is forgotten. Outside brackets, a word in the column of the keys around it has to
be a key, so that it is an error to forget that one.
-/

namespace ExprScript.Yaml

inductive Token where
  | directive (d : Directive)
  | documentStart
  | documentEnd
  | streamEnd
  | blockSequenceStart
  | blockMappingStart
  | blockEnd
  | flowSequenceStart
  | flowSequenceEnd
  | flowMappingStart
  | flowMappingEnd
  | blockEntry
  | flowEntry
  | key
  | value
  | aliasOf (name : String)
  | anchor (name : String)
  | tag (handle suffix : String)
  | scalar (text : String) (style : ScalarStyle)
deriving DecidableEq, Repr

/-- How many characters there may be from the beginning of a key to its colon. -/
def keyLimit : Nat := 1024

/-- The beginning of what may turn out to be a key. -/
structure PendingKey where
  /-- whether it has to be a key -/
  required : Bool
  /-- how many tokens come before it -/
  number : Nat
  mark : Mark
deriving Repr

/-- Whether a pending key can no longer be a key at a later mark. -/
def PendingKey.isOld (k : PendingKey) (m : Mark) : Bool :=
  k.mark.line < m.line || k.mark.index + keyLimit < m.index

/-- Forgets a pending key, unless it has to be a key. -/
def forget? (k : Option PendingKey) : Option (Option PendingKey) :=
  if k.any PendingKey.required then none else some none

/-- Forgets a pending key if it is too old. -/
def expire? (m : Mark) (k : Option PendingKey) : Option (Option PendingKey) :=
  if k.any (·.isOld m) then forget? k else some k

/-- The state of cutting a text into tokens. -/
structure Lexer where
  place : Place
  /-- the tokens so far, the last one first -/
  tokens : List Token := []
  /-- the number of the tokens so far -/
  count : Nat := 0
  /-- the pending key inside the innermost brackets -/
  pending : Option PendingKey := none
  /-- the pending keys further out, from the inside out -/
  outer : List (Option PendingKey) := []
  /-- the column of the innermost block, negative outside all blocks -/
  indent : Int := -1
  /-- the columns of the blocks further out, from the inside out -/
  indents : List Int := []
  /-- whether a key may begin here -/
  keyAllowed : Bool := true
deriving Repr

namespace Lexer

/-- Whether the place is inside brackets. -/
def inFlow (l : Lexer) : Bool := !l.outer.isEmpty

def column (l : Lexer) : Nat := l.place.mark.column

def push (l : Lexer) (t : Token) : Lexer :=
  { l with tokens := t :: l.tokens, count := l.count + 1 }

/-- Adds a token and goes `n` characters further. -/
def take (l : Lexer) (n : Nat) (t : Token) : Lexer := { l.push t with place := l.place.skip n }

/-- Puts a token in front of the token with the given number. -/
def insert (l : Lexer) (number : Nat) (t : Token) : Lexer :=
  -- the last token comes first in the list
  let behind := l.count - number
  { l with tokens := l.tokens.take behind ++ t :: l.tokens.drop behind, count := l.count + 1 }

/-! ## Pending keys -/

/-- Forgets the pending key of this level. -/
def dropKey? (l : Lexer) : Option Lexer :=
  (forget? l.pending).map fun pending => { l with pending }

/-- Forgets all pending keys that are too old. -/
def dropOldKeys? (l : Lexer) : Option Lexer :=
  match expire? l.place.mark l.pending, l.outer.mapM (expire? l.place.mark) with
  | some pending, some outer => some { l with pending, outer }
  | _, _ => none

/-- Remembers that a key may begin here, if it may. -/
def saveKey? (l : Lexer) : Option Lexer :=
  if l.keyAllowed then
    l.dropKey?.map fun l =>
      { l with pending := some ⟨!l.inFlow && l.indent = l.column, l.count, l.place.mark⟩ }
  else some l

/-! ## Indentation -/

/-- The number of blocks that end where a line begins in the given column, with the columns of
the blocks that are left. -/
def leave (column : Int) (indent : Int) : List Int → Nat × Int × List Int
  | [] => (0, indent, [])
  | next :: rest =>
    if column < indent then
      let (n, indent, rest) := leave column next rest
      (n + 1, indent, rest)
    else (0, indent, next :: rest)

/-- Ends the blocks further right than the given column. Inside brackets there are none. -/
def unroll (l : Lexer) (column : Int) : Lexer :=
  if l.inFlow then l
  else
    let (n, indent, indents) := leave column l.indent l.indents
    { l with
      tokens := List.replicate n .blockEnd ++ l.tokens
      count := l.count + n
      indent, indents }

/-- Begins a block in the given column, in front of the token with the given number, unless the
innermost block is in that column already. Inside brackets no block begins. -/
def roll (l : Lexer) (column number : Nat) (t : Token) : Lexer :=
  if l.inFlow || (column : Int) ≤ l.indent then l
  else { l.insert number t with indent := column, indents := l.indent :: l.indents }

/-- Begins a block here. Outside brackets that is possible only where a key may begin. -/
def rollHere? (l : Lexer) (t : Token) : Option Lexer :=
  if l.inFlow then some l
  else if l.keyAllowed then some (l.roll l.column l.count t)
  else none

/-! ## Tokens -/

def marker? (l : Lexer) (t : Token) : Option Lexer :=
  (l.unroll (-1)).dropKey?.map fun l => { l.take 3 t with keyAllowed := false }

def directiveLine? (l : Lexer) : Option Lexer :=
  match (l.unroll (-1)).dropKey?, directive? l.place with
  | some l, some (d, p) => some { l.push (.directive d) with place := p, keyAllowed := false }
  | _, _ => none

def openFlow? (l : Lexer) (t : Token) : Option Lexer :=
  l.saveKey?.map fun l =>
    { l.take 1 t with pending := none, outer := l.pending :: l.outer, keyAllowed := true }

def closeFlow? (l : Lexer) (t : Token) : Option Lexer :=
  l.dropKey?.map fun l =>
    { l.take 1 t with
      -- a bracket that nothing has opened is left to the reader of the tokens
      pending := l.outer.head?.getD l.pending
      outer := l.outer.tail
      keyAllowed := false }

def flowEntry? (l : Lexer) : Option Lexer :=
  l.dropKey?.map fun l => { l.take 1 .flowEntry with keyAllowed := true }

/-- The dash of a sequence item. -/
def blockEntry? (l : Lexer) : Option Lexer :=
  (l.rollHere? .blockSequenceStart).bind fun l =>
    l.dropKey?.map fun l => { l.take 1 .blockEntry with keyAllowed := true }

/-- The question mark of a key. -/
def explicitKey? (l : Lexer) : Option Lexer :=
  (l.rollHere? .blockMappingStart).bind fun l =>
    l.dropKey?.map fun l => { l.take 1 .key with keyAllowed := !l.inFlow }

/-- The colon of a value, behind a pending key or not. -/
def value? (l : Lexer) : Option Lexer :=
  match l.pending with
  | some k =>
    -- a mapping that begins here begins in front of its first key
    let l := (l.insert k.number .key).roll k.mark.column k.number .blockMappingStart
    some { l.take 1 .value with pending := none, keyAllowed := false }
  | none =>
    (l.rollHere? .blockMappingStart).map fun l =>
      { l.take 1 .value with keyAllowed := !l.inFlow }

def named? (l : Lexer) (t : String → Token) : Option Lexer :=
  match l.saveKey?, anchorName? l.place with
  | some l, some (name, p) => some { l.push (t name) with place := p, keyAllowed := false }
  | _, _ => none

def tagged? (l : Lexer) : Option Lexer :=
  match l.saveKey?, tag? l.inFlow l.place with
  | some l, some (handle, suffix, p) =>
    some { l.push (.tag handle suffix) with place := p, keyAllowed := false }
  | _, _ => none

/-- A scalar in block form, behind which a key may begin. -/
def blockScalar? (l : Lexer) (style : ScalarStyle) : Option Lexer :=
  match l.dropKey?, block? l.indent l.place with
  | some l, some (text, p) =>
    some { l.push (.scalar text style) with place := p, keyAllowed := true }
  | _, _ => none

def quotedScalar? (l : Lexer) : Option Lexer :=
  match l.saveKey?, quoted? l.place with
  | some l, some (text, p) =>
    some { l.push (.scalar text .quoted) with place := p, keyAllowed := false }
  | _, _ => none

/-- A plain scalar. A key may begin behind it if a line ends there. -/
def plainScalar? (l : Lexer) : Option Lexer :=
  match l.saveKey?, plain? l.inFlow (l.indent + 1).toNat l.place with
  | some l, some (text, crossed, p) =>
    some { l.push (.scalar text .plain) with place := p, keyAllowed := crossed }
  | _, _ => none

/-- The token that begins with the character `c`, with `cs` behind it. -/
def token? (l : Lexer) (c : Char) (cs : List Char) : Option Lexer :=
  if l.column = 0 && c = '%' then l.directiveLine?
  else if l.column = 0 && startsDocument (c :: cs) then l.marker? .documentStart
  else if l.column = 0 && endsDocument (c :: cs) then l.marker? .documentEnd
  else if c = '[' then l.openFlow? .flowSequenceStart
  else if c = '{' then l.openFlow? .flowMappingStart
  else if c = ']' then l.closeFlow? .flowSequenceEnd
  else if c = '}' then l.closeFlow? .flowMappingEnd
  else if c = ',' then l.flowEntry?
  else if c = '-' && startsBlank cs then l.blockEntry?
  else if c = '?' && (l.inFlow || startsBlank cs) then l.explicitKey?
  else if c = ':' && (l.inFlow || startsBlank cs) then l.value?
  else if c = '*' then l.named? .aliasOf
  else if c = '&' then l.named? .anchor
  else if c = '!' then l.tagged?
  else if c = '|' && !l.inFlow then l.blockScalar? .literal
  else if c = '>' && !l.inFlow then l.blockScalar? .folded
  else if c = '\'' || c = '"' then l.quotedScalar?
  else if startsPlain l.inFlow (c :: cs) then l.plainScalar?
  else none

/-- Goes to the next word: passes over the layout, forgets old keys and ends blocks. -/
def advance? (l : Lexer) : Option Lexer :=
  let (place, keyAllowed) := layoutFrom l.inFlow l.keyAllowed l.place.mark l.place.rest
  (dropOldKeys? { l with place, keyAllowed }).map fun l => l.unroll l.column

/-- The tokens of the text from here on, in order. -/
def finish? : Nat → Lexer → Option (List Token)
  | 0, _ => none
  | n + 1, l =>
    match l.advance? with
    | none => none
    | some l =>
      match l.place.rest with
      | [] => (l.unroll (-1)).dropKey?.map fun l => (l.push .streamEnd).tokens.reverse
      | c :: cs =>
        match l.token? c cs with
        | none => none
        | some l => finish? n l

end Lexer

/-- The tokens of a text. Every token but the last one takes a character. -/
def Token.scan? (cs : List Char) : Option (List Token) :=
  Lexer.finish? (cs.length + 1) { place := { rest := cs } }

end ExprScript.Yaml
