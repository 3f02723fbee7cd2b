import ExprScript.Yaml.Scalar

set_option autoImplicit false

/-! # Anchors, tags and directives

An anchor names a node, and an alias stands for the node of that name. A tag gives a node a
type. It is written `!handle!suffix` or `!suffix`, where a directive at the head of the document
can say what a handle stands for, or in full as `!<tag>`.
-/

namespace ExprScript.Yaml

/-- The name of the anchor or alias whose sign is ahead, and the place behind it. -/
def anchorName? (p : Place) : Option (String × Place) :=
  let (name, q) := (p.skip 1).span isNameChar
  -- besides blanks, these signs may follow a name directly
  let ends := startsBlank q.rest ||
    q.rest.head?.any (fun c => ['?', ':', ',', ']', '}', '%', '@', '\x60'].contains c)
  if !name.isEmpty && ends then some (String.ofList name, q) else none

/-! ## Tags -/

/-- The characters of a tag; the last three only where it is written in full. -/
def isTagChar (full : Bool) (c : Char) : Bool :=
  isNameChar c ||
    [';', '/', '?', ':', '@', '&', '=', '+', '$', '.', '%', '!', '~', '*', '\'', '(', ')'].contains
      c ||
    (full && [',', '[', ']'].contains c)

/-- The number of bytes in the encoding of a character that begins with the given byte. -/
def encodedWidth? (byte : Nat) : Option Nat :=
  if byte < 0x80 then some 1
  else if byte < 0xC0 then none
  else if byte < 0xE0 then some 2
  else if byte < 0xF0 then some 3
  else if byte < 0xF8 then some 4
  else none

/-- The bytes of a tag, in which a percent sign with two hexadecimal digits stands for a byte.
`width` bytes of the encoding of a character are still to come. -/
def unescapeTag (width : Nat) : List Char → Option (List Nat)
  | [] => if width = 0 then some [] else none
  | '%' :: a :: b :: cs =>
    match hexNumber? [a, b] with
    | none => none
    | some byte =>
      if width = 0 then
        match encodedWidth? byte with
        | none => none
        | some w => (unescapeTag (w - 1) cs).map (byte :: ·)
      else if 0x80 ≤ byte && byte < 0xC0 then (unescapeTag (width - 1) cs).map (byte :: ·)
      else none
  | c :: cs => if c = '%' || width ≠ 0 then none else (unescapeTag 0 cs).map (c.toNat :: ·)

/-- The text of a tag from its bytes. It ends at a zero; a byte of a longer encoding counts as a
character of its own, so that texts are equal exactly if their bytes are. -/
def tagText (bytes : List Nat) : String :=
  String.ofList ((bytes.takeWhile (· ≠ 0)).map Char.ofNat)

def tagChars? (full : Bool) (p : Place) : Option (List Nat × Place) :=
  let (cs, q) := p.span (isTagChar full)
  (unescapeTag 0 cs).map (·, q)

/-- A handle, which begins and perhaps ends with an exclamation mark, and the place behind it. -/
def tagHandle (p : Place) : List Char × Place :=
  let (name, q) := (p.skip 1).span isNameChar
  if q.rest.head? = some '!' then ('!' :: name ++ ['!'], q.skip 1) else ('!' :: name, q)

/-- A tag written in full behind its `!<`: no handle, the tag, and the place behind it. -/
def fullTag? (p : Place) : Option (String × String × Place) :=
  match tagChars? true p with
  | none => none
  | some (bytes, q) =>
    if bytes.isEmpty || q.rest.head? ≠ some '>' then none
    else some ("", tagText bytes, q.skip 1)

/-- A tag written with a handle or with an exclamation mark alone: the handle, the suffix and the
place behind it. A lone exclamation mark is a tag without a handle. -/
def shortTag? (p : Place) : Option (String × String × Place) :=
  let (handle, q) := tagHandle p
  match tagChars? false q with
  | none => none
  | some (bytes, r) =>
    -- without an exclamation mark behind it, what looked like a handle begins the suffix
    if 1 < handle.length && handle.getLast? = some '!' then
      if bytes.isEmpty then none else some (String.ofList handle, tagText bytes, r)
    else
      let suffix := tagText ((handle.drop 1).map Char.toNat ++ bytes)
      if suffix.isEmpty then some ("", "!", r) else some ("!", suffix, r)

/-- The tag ahead: its handle, its suffix and the place behind it. -/
def tag? (flow : Bool) (p : Place) : Option (String × String × Place) :=
  let found := if (p.rest.drop 1).head? = some '<' then fullTag? (p.skip 2) else shortTag? p
  match found with
  | none => none
  | some (handle, suffix, q) =>
    -- inside brackets a comma may follow directly
    if (flow && q.rest.head? = some ',') || startsBlank q.rest then some (handle, suffix, q)
    else none

/-! ## Directives -/

/-- A directive at the head of a document. -/
inductive Directive where
  /-- the version of YAML that the document is written in -/
  | version (major minor : Nat)
  /-- the text that a handle of tags stands for -/
  | handle (name : String) (meaning : String)
deriving DecidableEq, Repr

/-- A version number of at most nine digits, and the place behind it. -/
def versionNumber? (p : Place) : Option (Nat × Place) :=
  let (ds, q) := p.span Char.isDigit
  if ds.isEmpty || 9 < ds.length then none
  else some (ds.foldl (fun n d => n * 10 + (d.toNat - '0'.toNat)) 0, q)

def versionDirective? (p : Place) : Option (Directive × Place) :=
  match versionNumber? (p.past isBlankChar) with
  | none => none
  | some (major, q) =>
    if q.rest.head? = some '.' then
      (versionNumber? (q.skip 1)).map fun (minor, r) => (.version major minor, r)
    else none

def handleDirective? (p : Place) : Option (Directive × Place) :=
  let p := p.past isBlankChar
  if p.rest.head? ≠ some '!' then none
  else
    let (handle, q) := tagHandle p
    if handle.getLast? ≠ some '!' || !q.rest.head?.any isBlankChar then none
    else
      match tagChars? true (q.past isBlankChar) with
      | none => none
      | some (bytes, r) =>
        if bytes.isEmpty || !startsBlank r.rest then none
        else some (.handle (String.ofList handle) (tagText bytes), r)

/-- The directive whose percent sign is ahead, and the place behind its line. -/
def directive? (p : Place) : Option (Directive × Place) :=
  let (name, q) := (p.skip 1).span isNameChar
  let found :=
    if !startsBlank q.rest then none
    else if name = "YAML".toList then versionDirective? q
    else if name = "TAG".toList then handleDirective? q
    else none
  found.bind fun (d, r) => r.endLine?.map (d, ·)

end ExprScript.Yaml
