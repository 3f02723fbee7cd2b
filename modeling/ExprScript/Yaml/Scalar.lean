import ExprScript.Yaml.Place

set_option autoImplicit false

/-! # YAML scalars

Scalars are written plainly, between single or double quotes, or as blocks. A plain or quoted
scalar may run over several lines: the blanks around a line break are dropped, a single break
becomes a space, and of several breaks the first is dropped. Only line feeds fold in this way;
a Unicode separator is kept. A block keeps its lines (`|`) or folds them in a similar way (`>`).

A plain scalar takes the blank lines behind it along, and ends at the first word that does not
belong to it.
-/

namespace ExprScript.Yaml

/-! ## Gaps between words -/

/-- What lies between two words of a scalar: blanks on one line, or line breaks. The first break
is missing if it was escaped. -/
inductive Gap where
  | blanks (cs : List Char)
  | breaks (first : Option Char) (more : List Char)

namespace Gap

def none : Gap := .blanks []

/-- The gap after an escaped line break. -/
def escaped : Gap := .breaks Option.none []

/-- The gap with one more blank, which counts only before the first line break. -/
def addBlank : Gap → Char → Gap
  | .blanks cs, c => .blanks (cs ++ [c])
  | .breaks first more, _ => .breaks first more

def addBreak : Gap → Char → Gap
  | .blanks _, c => .breaks (some c) []
  | .breaks first more, c => .breaks first (more ++ [c])

def crosses : Gap → Bool
  | .blanks _ => false
  | .breaks _ _ => true

def isNone : Gap → Bool
  | .blanks cs => cs.isEmpty
  | .breaks _ _ => false

/-- The text a gap stands for. -/
def text : Gap → List Char
  | .blanks cs => cs
  | .breaks (some '\n') [] => [' ']
  | .breaks (some '\n') more => more
  | .breaks (some c) more => c :: more
  | .breaks Option.none more => more

end Gap

/-! ## Plain scalars -/

/-- The characters that begin something other than a plain scalar. -/
def isIndicator (c : Char) : Bool :=
  ['-', '?', ':', ',', '[', ']', '{', '}', '#', '&', '*', '!', '|', '>', '\'', '"', '%', '@',
    '\x60'].contains c

/-- Whether a plain scalar can begin here. -/
def startsPlain (flow : Bool) : List Char → Bool
  | [] => false
  | c :: cs =>
    !(isIndicator c || isBlankChar c || isBreak c) ||
      (c = '-' && !cs.head?.any isBlankChar) ||
      (!flow && (c = '?' || c = ':') && !startsBlank cs)

/-- Whether a plain scalar ends before the next word, which follows a gap: the word is indented
too little, begins a comment or is a marker. -/
def endsPlain (flow : Bool) (floor : Nat) (m : Mark) (cs : List Char) : Bool :=
  (!flow && m.column < floor) || (m.column = 0 && startsMarker cs) || cs.head? = some '#'

/-- The rest of a plain scalar behind a gap, whether a line break has been passed behind its end,
and the place of the next word. Its further lines begin in the column `floor` or behind it, and a
tab before that column is refused. -/
def plainFrom (flow : Bool) (floor : Nat) (gap : Gap) (m : Mark) :
    List Char → Option (List Char × Bool × Place)
  | [] => some ([], gap.crosses, ⟨m, []⟩)
  | c :: cs =>
    if isBreak c then plainFrom flow floor (gap.addBreak c) (m.after c) cs
    else if isBlankChar c then
      if c = '\t' && gap.crosses && m.column < floor then none
      else plainFrom flow floor (gap.addBlank c) (m.after c) cs
    else if !gap.isNone && endsPlain flow floor m (c :: cs) then
      some ([], gap.crosses, ⟨m, c :: cs⟩)
    else if flow && c = ':' && cs.head?.any (fun d => d == '?' || isFlowMark d) then none
    else if (c = ':' && startsBlank cs) || (flow && isFlowMark c) then
      some ([], gap.crosses, ⟨m, c :: cs⟩)
    else
      (plainFrom flow floor Gap.none (m.after c) cs).map fun (t, r) => (gap.text ++ c :: t, r)

/-- A plain scalar, whether a line break has been passed behind its end, and the place of the
next word. -/
def plain? (flow : Bool) (floor : Nat) (p : Place) : Option (String × Bool × Place) :=
  (plainFrom flow floor Gap.none p.mark p.rest).map fun (t, r) => (String.ofList t, r)

/-! ## Quoted scalars -/

/-- The content of a scalar in single quotes behind a gap, and the place behind its closing
quote. A marker at the beginning of a line is refused. -/
def singleQuoted (gap : Gap) (m : Mark) : List Char → Option (List Char × Place)
  | [] => none
  | '\'' :: '\'' :: cs =>
    (singleQuoted Gap.none ((m.after '\'').after '\'') cs).map fun (t, r) =>
      (gap.text ++ '\'' :: t, r)
  | '\'' :: cs => some (gap.text, ⟨m.after '\'', cs⟩)
  | c :: cs =>
    if m.column = 0 && startsMarker (c :: cs) then none
    else if isBreak c then singleQuoted (gap.addBreak c) (m.after c) cs
    else if isBlankChar c then singleQuoted (gap.addBlank c) (m.after c) cs
    else (singleQuoted Gap.none (m.after c) cs).map fun (t, r) => (gap.text ++ c :: t, r)

def hexValue? (c : Char) : Option Nat :=
  if '0' ≤ c && c ≤ '9' then some (c.toNat - '0'.toNat)
  else if 'a' ≤ c && c ≤ 'f' then some (c.toNat - 'a'.toNat + 10)
  else if 'A' ≤ c && c ≤ 'F' then some (c.toNat - 'A'.toNat + 10)
  else none

def hexNumber? (cs : List Char) : Option Nat :=
  cs.foldlM (fun n c => (hexValue? c).map (n * 16 + ·)) 0

/-- The character whose number is written with hexadecimal digits, if there is one. -/
def hexChar? (cs : List Char) : Option Char :=
  (hexNumber? cs).bind fun n => if n.isValidChar then some (Char.ofNat n) else none

def escaped? : Char → Option Char
  | '0' => some '\x00'
  | 'a' => some '\x07'
  | 'b' => some '\x08'
  | 't' => some '\t'
  | '\t' => some '\t'
  | 'n' => some '\n'
  | 'v' => some '\x0b'
  | 'f' => some '\x0c'
  | 'r' => some '\r'
  | 'e' => some '\x1b'
  | ' ' => some ' '
  | '"' => some '"'
  | '/' => some '/'
  | '\\' => some '\\'
  | 'N' => some '\u0085'
  | '_' => some '\u00a0'
  | 'L' => some '\u2028'
  | 'P' => some '\u2029'
  | _ => none

def Mark.along (m : Mark) (n : Nat) : Mark := ⟨m.index + n, m.line, m.column + n⟩

/-- The content of a scalar in double quotes behind a gap, and the place behind its closing
quote. A marker at the beginning of a line is refused. -/
def doubleQuoted (gap : Gap) (m : Mark) : List Char → Option (List Char × Place)
  | [] => none
  | '"' :: cs => some (gap.text, ⟨m.after '"', cs⟩)
  | '\\' :: 'x' :: a :: b :: cs =>
    match hexChar? [a, b] with
    | some c => (doubleQuoted Gap.none (m.along 4) cs).map fun (t, r) => (gap.text ++ c :: t, r)
    | none => none
  | '\\' :: 'u' :: a :: b :: c :: d :: cs =>
    match hexChar? [a, b, c, d] with
    | some c => (doubleQuoted Gap.none (m.along 6) cs).map fun (t, r) => (gap.text ++ c :: t, r)
    | none => none
  | '\\' :: 'U' :: a :: b :: c :: d :: e :: f :: g :: h :: cs =>
    match hexChar? [a, b, c, d, e, f, g, h] with
    | some c => (doubleQuoted Gap.none (m.along 10) cs).map fun (t, r) => (gap.text ++ c :: t, r)
    | none => none
  | '\\' :: x :: cs =>
    -- an escaped break leaves nothing behind, not even a space
    if isBreak x then
      (doubleQuoted Gap.escaped ((m.after '\\').after x) cs).map fun (t, r) => (gap.text ++ t, r)
    else
      match escaped? x with
      | some c => (doubleQuoted Gap.none (m.along 2) cs).map fun (t, r) => (gap.text ++ c :: t, r)
      | none => none
  | c :: cs =>
    if m.column = 0 && startsMarker (c :: cs) then none
    else if isBreak c then doubleQuoted (gap.addBreak c) (m.after c) cs
    else if isBlankChar c then doubleQuoted (gap.addBlank c) (m.after c) cs
    else (doubleQuoted Gap.none (m.after c) cs).map fun (t, r) => (gap.text ++ c :: t, r)

/-- The scalar whose opening quote is ahead, and the place behind it. -/
def quoted? (p : Place) : Option (String × Place) :=
  let q := p.skip 1
  let content := if p.rest.head? = some '"' then doubleQuoted Gap.none q.mark q.rest
    else singleQuoted Gap.none q.mark q.rest
  content.map fun (t, r) => (String.ofList t, r)

/-! ## Block scalars -/

/-- What becomes of the line breaks at the end of a block. -/
inductive Chomp where
  | strip
  | clip
  | keep
deriving DecidableEq

/-- The explicit indentation that a digit other than zero gives, and the place behind it. -/
def blockDigit (p : Place) : Nat × Place :=
  match p.rest with
  | d :: _ => if d.isDigit && d != '0' then (d.toNat - '0'.toNat, p.skip 1) else (0, p)
  | [] => (0, p)

/-- The treatment of line breaks that a sign gives, and the place behind it. -/
def blockSign (p : Place) : Chomp × Place :=
  match p.rest with
  | '-' :: _ => (.strip, p.skip 1)
  | '+' :: _ => (.keep, p.skip 1)
  | _ => (.clip, p)

/-- The head of a block behind its `|` or `>`: the explicit indentation and the treatment of
line breaks at the end, either of which may come first. -/
def blockHead (p : Place) : Nat × Chomp × Place :=
  match blockSign p with
  | (.clip, _) =>
    let (increment, q) := blockDigit p
    if increment = 0 then (0, .clip, p)
    else
      let (chomp, q) := blockSign q
      (increment, chomp, q)
  | (chomp, q) =>
    let (increment, q) := blockDigit q
    (increment, chomp, q)

/-- The empty lines ahead in a block: their line breaks, the furthest column reached by spaces,
and the place behind them and the indentation there. An `indent` of zero is not known yet. A tab
in the indentation is refused. -/
def blockBreaks (indent furthest : Nat) (m : Mark) :
    List Char → Option (List Char × Nat × Place)
  | [] => some ([], max furthest m.column, ⟨m, []⟩)
  | c :: cs =>
    if c = ' ' && (indent = 0 || m.column < indent) then
      blockBreaks indent furthest (m.after c) cs
    else if c = '\t' && (indent = 0 || m.column < indent) then none
    else if isBreak c then
      (blockBreaks indent (max furthest m.column) (m.after c) cs).map fun (bs, r) => (c :: bs, r)
    else some ([], max furthest m.column, ⟨m, c :: cs⟩)

/-- The lines of a block from `p` on. `pending` is the line break of the line before, `breaks`
are those of the empty lines after it, and `spaced` says whether that line began with a blank.
Returns the text, the line break and the empty lines left at the end, and the place behind the
block. -/
def blockLines (literal : Bool) (indent : Nat) :
    Nat → List Char → List Char → Bool → Place →
      Option (List Char × List Char × List Char × Place)
  | 0, _, _, _, _ => none
  | n + 1, pending, breaks, spaced, p =>
    if p.mark.column = indent && !p.rest.isEmpty then
      let spacedHere := p.rest.head?.any isBlankChar
      -- a folded block joins two lines by a space, unless a blank begins one of them
      let joint :=
        if !literal && pending.head? = some '\n' && !spaced && !spacedHere then
          if breaks.isEmpty then [' '] else []
        else pending
      let (line, q) := p.span (fun c => !isBreak c)
      let q' := q.skip 1
      match blockBreaks indent 0 q'.mark q'.rest with
      | none => none
      | some (breaks', _, r) =>
        (blockLines literal indent n (q.rest.take 1) breaks' spacedHere r).map
          fun (t, rest) => (joint ++ breaks ++ line ++ t, rest)
    else some ([], pending, breaks, p)

/-- The block scalar whose `|` or `>` is ahead, and the place behind it. Its lines are indented
further than `base`, the indentation around it, which is negative at the top. -/
def block? (base : Int) (p : Place) : Option (String × Place) :=
  let literal := p.rest.head? = some '|'
  let (increment, chomp, p) := blockHead (p.skip 1)
  match p.endLine? with
  | none => none
  | some p =>
    let known := if increment = 0 then 0 else base.toNat + increment
    match blockBreaks known 0 p.mark p.rest with
    | none => none
    | some (breaks, furthest, q) =>
      -- without a digit, the empty lines and the first other line say how far the block is indented
      let indent := if known = 0 then max (max furthest (base + 1).toNat) 1 else known
      match blockLines literal indent (q.rest.length + 1) [] breaks false q with
      | none => none
      | some (t, pending, breaks, q) =>
        let ending := if chomp = .strip then [] else pending
        let kept := if chomp = .keep then breaks else []
        some (String.ofList (t ++ ending ++ kept), q)

end ExprScript.Yaml
