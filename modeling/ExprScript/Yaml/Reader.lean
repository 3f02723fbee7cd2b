import ExprScript.Yaml.Token

set_option autoImplicit false

/-! # Reading YAML

A text holds one document. Its tokens are read by recursive descent; the fuel counts down at
every step into a node or to the next item, and such a step takes a token or is followed by one
that does.

An alias stands for the node with its anchor. Of several nodes with one anchor the last one that
has begun counts. If that node is not complete yet, the alias is inside it, and stands for
`Yaml.cycle`.
-/

namespace ExprScript.Yaml

/-! ## Anchors and tags -/

/-- The tokens ahead, and what is known about anchors. -/
structure Reading where
  tokens : List Token
  /-- the number of each anchored node by its name, the last one first -/
  names : List (String × Nat) := []
  /-- the anchored nodes that are complete, by number -/
  nodes : List (Nat × Yaml) := []

namespace Reading

def ahead (r : Reading) (tokens : List Token) : Reading := { r with tokens }

/-- Notes that a node with the given anchor begins. Returns its number. -/
def start (r : Reading) (name : String) : Nat × Reading :=
  (r.names.length, { r with names := (name, r.names.length) :: r.names })

/-- Notes that a node is complete. -/
def complete (r : Reading) (number : Option Nat) (v : Yaml) : Reading :=
  match number with
  | some i => { r with nodes := (i, v) :: r.nodes }
  | none => r

/-- The node that an alias stands for. -/
def resolve? (r : Reading) (name : String) : Option Yaml :=
  (r.names.lookup name).map fun i => (r.nodes.lookup i).getD .cycle

end Reading

/-- What handles of tags stand for. -/
abbrev Handles : Type := List (String × String)

def defaultHandles : Handles := [("!", "!"), ("!!", typeTag "")]

/-- The tag with the given handle and suffix. -/
def resolveTag? (handles : Handles) (handle suffix : String) : Option String :=
  if handle.isEmpty then some suffix else (handles.lookup handle).map (· ++ suffix)

/-- The anchor and the tag in front of a node, in either order, and the tokens behind them. -/
def properties? (handles : Handles) :
    List Token → Option (Option String × Option String × List Token)
  | .anchor a :: .tag h s :: ts => (resolveTag? handles h s).map fun t => (some a, some t, ts)
  | .tag h s :: .anchor a :: ts => (resolveTag? handles h s).map fun t => (some a, some t, ts)
  | .anchor a :: ts => some (some a, none, ts)
  | .tag h s :: ts => (resolveTag? handles h s).map fun t => (none, some t, ts)
  | ts => some (none, none, ts)

/-! ## Nodes -/

/-- Whether the item of a block sequence is missing. -/
def lacksItem : List Token → Bool
  | .blockEntry :: _ | .blockEnd :: _ => true
  | _ => false

/-- Whether the item of a sequence in the column of its key is missing. -/
def lacksSharedItem : List Token → Bool
  | .blockEntry :: _ | .key :: _ | .value :: _ | .blockEnd :: _ => true
  | _ => false

/-- Whether the key or the value of a block mapping is missing. -/
def lacksEntry : List Token → Bool
  | .key :: _ | .value :: _ | .blockEnd :: _ => true
  | _ => false

/-- Whether the value inside brackets is missing. -/
def lacksFlowValue : List Token → Bool
  | .flowEntry :: _ | .flowSequenceEnd :: _ | .flowMappingEnd :: _ => true
  | _ => false

mutual

/-- A node. In `block` position it may be in block form, and as part of a block mapping
(`shared`) it may be a sequence in the column of its key. -/
def node (handles : Handles) : Nat → Bool → Bool → Reading → Option (Yaml × Reading)
  | 0, _, _, _ => none
  | n + 1, block, shared, r =>
    match r.tokens with
    | .aliasOf name :: ts => (r.resolve? name).map (·, r.ahead ts)
    | ts =>
      match properties? handles ts with
      | none => none
      | some (anchor, tag, ts) =>
        let (number, r) :=
          match anchor with
          | some name => ((r.start name).map some id)
          | none => (none, r)
        (content handles n block shared (anchor.isSome || tag.isSome) tag (r.ahead ts)).map
          fun (v, r) => (v, r.complete number v)

/-- A node behind its anchor and its tag, if it has some. Such a node may be empty. -/
def content (handles : Handles) :
    Nat → Bool → Bool → Bool → Option String → Reading → Option (Yaml × Reading)
  | 0, _, _, _, _, _ => none
  | n + 1, block, shared, hasProperties, tag, r =>
    let nothing := if hasProperties then some (Yaml.scalar "" .plain tag, r) else none
    match r.tokens with
    | .scalar text style :: ts =>
      -- a lone exclamation mark names no type
      some (.scalar text style (tag.filter (· ≠ "!")), r.ahead ts)
    | .flowSequenceStart :: ts =>
      (flowItems handles n true (r.ahead ts)).map fun (vs, r) => (.seq vs, r)
    | .flowMappingStart :: ts =>
      (flowEntries handles n true (r.ahead ts)).map fun (es, r) => (.map es, r)
    | .blockEntry :: _ =>
      if shared then (sharedItems handles n r).map fun (vs, r) => (.seq vs, r) else nothing
    | .blockSequenceStart :: ts =>
      if block then (blockItems handles n (r.ahead ts)).map fun (vs, r) => (.seq vs, r) else nothing
    | .blockMappingStart :: ts =>
      if block then (blockEntries handles n (r.ahead ts)).map fun (es, r) => (.map es, r)
      else nothing
    | _ => nothing

def blockItems (handles : Handles) : Nat → Reading → Option (List Yaml × Reading)
  | 0, _ => none
  | n + 1, r =>
    match r.tokens with
    | .blockEntry :: ts =>
      let item :=
        if lacksItem ts then some (Yaml.empty, r.ahead ts)
        else node handles n true false (r.ahead ts)
      match item with
      | none => none
      | some (v, r) => (blockItems handles n r).map fun (vs, r) => (v :: vs, r)
    | .blockEnd :: ts => some ([], r.ahead ts)
    | _ => none

/-- The items of a sequence in the column of its key. -/
def sharedItems (handles : Handles) : Nat → Reading → Option (List Yaml × Reading)
  | 0, _ => none
  | n + 1, r =>
    match r.tokens with
    | .blockEntry :: ts =>
      let item :=
        if lacksSharedItem ts then some (Yaml.empty, r.ahead ts)
        else node handles n true false (r.ahead ts)
      match item with
      | none => none
      | some (v, r) => (sharedItems handles n r).map fun (vs, r) => (v :: vs, r)
    | _ => some ([], r)

def blockEntries (handles : Handles) : Nat → Reading → Option (List (Yaml × Yaml) × Reading)
  | 0, _ => none
  | n + 1, r =>
    match r.tokens with
    | .key :: ts =>
      let key :=
        if lacksEntry ts then some (Yaml.empty, r.ahead ts)
        else node handles n true true (r.ahead ts)
      match key with
      | none => none
      | some (k, r) =>
        match blockValue handles n r with
        | none => none
        | some (v, r) => (blockEntries handles n r).map fun (es, r) => ((k, v) :: es, r)
    | .blockEnd :: ts => some ([], r.ahead ts)
    | _ => none

/-- The value of an entry of a block mapping, which may be missing. -/
def blockValue (handles : Handles) : Nat → Reading → Option (Yaml × Reading)
  | 0, _ => none
  | n + 1, r =>
    match r.tokens with
    | .value :: ts =>
      if lacksEntry ts then some (Yaml.empty, r.ahead ts) else node handles n true true (r.ahead ts)
    | _ => some (Yaml.empty, r)

/-- The items of a sequence up to its closing bracket. An item may be a key with its value. -/
def flowItems (handles : Handles) : Nat → Bool → Reading → Option (List Yaml × Reading)
  | 0, _, _ => none
  | n + 1, first, r =>
    match r.tokens with
    | .flowSequenceEnd :: ts => some ([], r.ahead ts)
    | ts =>
      let behind :=
        if first then some ts
        else
          match ts with
          | .flowEntry :: ts => some ts
          | _ => none
      match behind with
      | none => none
      -- a comma may come behind the last item
      | some (.flowSequenceEnd :: ts) => some ([], r.ahead ts)
      | some (.key :: ts) =>
        match flowPair handles n (r.ahead ts) with
        | none => none
        | some (e, r) => (flowItems handles n false r).map fun (vs, r) => (.map [e] :: vs, r)
      | some ts =>
        match node handles n false false (r.ahead ts) with
        | none => none
        | some (v, r) => (flowItems handles n false r).map fun (vs, r) => (v :: vs, r)

/-- A key with its value in a sequence inside brackets. Where the key is missing, the token in
its place is passed over. -/
def flowPair (handles : Handles) : Nat → Reading → Option ((Yaml × Yaml) × Reading)
  | 0, _ => none
  | n + 1, r =>
    let key :=
      match r.tokens with
      | .value :: ts | .flowEntry :: ts | .flowSequenceEnd :: ts => some (Yaml.empty, r.ahead ts)
      | _ => node handles n false false r
    match key with
    | none => none
    | some (k, r) => (flowValue handles n r).map fun (v, r) => ((k, v), r)

/-- The value of a key inside brackets, which may be missing. -/
def flowValue (handles : Handles) : Nat → Reading → Option (Yaml × Reading)
  | 0, _ => none
  | n + 1, r =>
    match r.tokens with
    | .value :: ts =>
      if lacksFlowValue ts then some (Yaml.empty, r.ahead ts)
      else node handles n false false (r.ahead ts)
    | _ => some (Yaml.empty, r)

/-- The entries of a mapping up to its closing brace. A node that is no key has no value. -/
def flowEntries (handles : Handles) :
    Nat → Bool → Reading → Option (List (Yaml × Yaml) × Reading)
  | 0, _, _ => none
  | n + 1, first, r =>
    match r.tokens with
    | .flowMappingEnd :: ts => some ([], r.ahead ts)
    | ts =>
      let behind :=
        if first then some ts
        else
          match ts with
          | .flowEntry :: ts => some ts
          | _ => none
      match behind with
      | none => none
      -- a comma may come behind the last entry
      | some (.flowMappingEnd :: ts) => some ([], r.ahead ts)
      | some (.key :: ts) =>
        let key :=
          match ts with
          | .value :: _ | .flowEntry :: _ | .flowMappingEnd :: _ => some (Yaml.empty, r.ahead ts)
          | _ => node handles n false false (r.ahead ts)
        match key with
        | none => none
        | some (k, r) =>
          match flowValue handles n r with
          | none => none
          | some (v, r) => (flowEntries handles n false r).map fun (es, r) => ((k, v) :: es, r)
      | some ts =>
        match node handles n false false (r.ahead ts) with
        | none => none
        | some (k, r) =>
          (flowEntries handles n false r).map fun (es, r) => ((k, Yaml.empty) :: es, r)

end

/-! ## Documents -/

/-- The handles that some directives declare. There may be one version, which is 1.1 or 1.2, and
one meaning for each handle. -/
def handlesOf? (versioned : Bool) (handles : Handles) : List Directive → Option Handles
  | [] => some handles
  | .version major minor :: ds =>
    if versioned || major ≠ 1 || (minor ≠ 1 && minor ≠ 2) then none
    else handlesOf? true handles ds
  | .handle name meaning :: ds =>
    if (handles.lookup name).isSome then none
    else handlesOf? versioned (handles ++ [(name, meaning)]) ds

def directives : List Token → List Directive × List Token
  | .directive d :: ts =>
    let (ds, rest) := directives ts
    (d :: ds, rest)
  | ts => ([], ts)

/-- Whether nothing but markers of the end of the document is left. -/
def isFinished : List Token → Bool
  | .documentEnd :: ts => isFinished ts
  | [.streamEnd] => true
  | _ => false

/-- The node of a document, and the tokens behind it. -/
def rootNode (handles : Handles) (ts : List Token) : Option (Yaml × List Token) :=
  (node handles (3 * ts.length + 3) true false { tokens := ts }).map fun (v, r) => (v, r.tokens)

/-- The document that begins with its marker or a directive. It may be empty. -/
def markedDocument (ts : List Token) : Option (Yaml × List Token) :=
  let (ds, ts) := directives ts
  match handlesOf? false [] ds, ts with
  | some handles, .documentStart :: ts =>
    match ts with
    | .directive _ :: _ | .documentStart :: _ | .documentEnd :: _ | .streamEnd :: _ =>
      some (Yaml.empty, ts)
    -- handles that the document declares come first and hide those that are always there
    | _ => rootNode (handles ++ defaultHandles) ts
  | _, _ => none

/-- The value of the tokens of one document. No tokens at all are the empty node. -/
def ofTokens? (ts : List Token) : Option Yaml :=
  let document :=
    match ts with
    | .streamEnd :: _ => some (Yaml.empty, ts)
    | .directive _ :: _ | .documentStart :: _ => markedDocument ts
    | _ => rootNode defaultHandles ts
  match document with
  | some (v, rest) => if isFinished rest then some v else none
  | none => none

/-- The text with the line breaks of other systems written as line feeds. -/
def unifyBreaks : List Char → List Char
  | '\r' :: '\n' :: cs => '\n' :: unifyBreaks cs
  | '\r' :: cs => '\n' :: unifyBreaks cs
  | c :: cs => (if c = '\u0085' then '\n' else c) :: unifyBreaks cs
  | [] => []

def isPermitted (c : Char) : Bool :=
  let n := c.toNat
  n == 0x09 || n == 0x0A || n == 0x0D || (0x20 ≤ n && n ≤ 0x7E) || n == 0x85 ||
    (0xA0 ≤ n && n ≤ 0xFFFD) || 0x10000 ≤ n

/-- The value of a text of one document. A text without a word is the empty node. -/
def read? (text : String) : Option Yaml :=
  let cs := text.toList
  if cs.all isPermitted then (Token.scan? (unifyBreaks cs)).bind ofTokens? else none

end ExprScript.Yaml
