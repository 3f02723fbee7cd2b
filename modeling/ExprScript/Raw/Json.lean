import ExprScript.Json.Printer
import ExprScript.Json.Reader
import ExprScript.Raw.Node

set_option autoImplicit false

/-! # Raw trees as JSON

A raw node is written as an object of its fields, of which the optional ones are left out when
they are missing. When it is read, it may also be an array of its fields in the order of
`RawNode.keys`, from which fields at the end may be left out. Positions and locations may be
arrays in the same way.

An object may have keys that mean nothing here, any number of times, but a known key only once.
A raw tree is one node or a list of nodes.
-/

namespace ExprScript

/-! ## Writing -/

def Position.toJson (p : Position) : Json :=
  .obj [("offset", .int p.offset), ("line", .int p.line), ("column", .int p.column)]

def Span.toJson (s : Span) : Json := .obj [("start", s.start.toJson), ("end", s.stop.toJson)]

def RawValue.toJson : RawValue → Json
  | .boolean b => .bool b
  | .integer n => .int n.toInt
  | .string s => .str s

/-- A field that is written only when there is something to write. -/
def optionalField (key : String) : Option Json → List (String × Json)
  | some v => [(key, v)]
  | none => []

namespace RawNode

mutual

def toJson : RawNode → Json
  | ⟨tag, children, location, value, name, variableName, mutable, operator⟩ =>
    .obj ([("type", .str tag), ("children", .arr (toJsons children)),
        ("location", location.toJson)] ++
      optionalField "value" (value.map RawValue.toJson) ++
      optionalField "name" (name.map Json.str) ++
      optionalField "variableName" (variableName.map Json.str) ++
      optionalField "mutable" (mutable.map Json.bool) ++
      optionalField "operator" (operator.map Json.str))

def toJsons : List RawNode → List Json
  | [] => []
  | n :: ns => toJson n :: toJsons ns

end

end RawNode

/-! ## Reading -/

/-- The values of the given keys in an object, or of an array that lists them in order. An
object in which one of the keys is repeated and an array with more items than keys are
refused. -/
def Json.record? (keys : List String) : Json → Option (List (Option Json))
  | .obj fields =>
    if keys.all fun k => (fields.filter (·.1 == k)).length ≤ 1 then
      some (keys.map fun k => fields.lookup k)
    else none
  | .arr items =>
    if items.length ≤ keys.length then
      some (items.map some ++ List.replicate (keys.length - items.length) none)
    else none
  | _ => none

def Json.nat64? : Json → Option Nat
  | .int n => if 0 ≤ n ∧ n < UInt64.size then some n.toNat else none
  | _ => none

def Json.text? : Json → Option String
  | .str s => some s
  | _ => none

def Json.bool? : Json → Option Bool
  | .bool b => some b
  | _ => none

/-- A field that may be missing or null, and is read by `read` otherwise. -/
def Json.optional? {α : Type} (read : Json → Option α) : Option Json → Option (Option α)
  | none => some none
  | some .null => some none
  | some v => (read v).map some

def Position.ofJson? (v : Json) : Option Position :=
  match v.record? ["offset", "line", "column"] with
  | some [some offset, some line, some column] => do
    return ⟨← offset.nat64?, ← line.nat64?, ← column.nat64?⟩
  | _ => none

def Span.ofJson? (v : Json) : Option Span :=
  match v.record? ["start", "end"] with
  | some [some start, some stop] => do return ⟨← Position.ofJson? start, ← Position.ofJson? stop⟩
  | _ => none

def RawValue.ofJson? : Json → Option RawValue
  | .bool b => some (.boolean b)
  | .int n => (Decimal.toInt64? n).map .integer
  | .str s => some (.string s)
  | _ => none

namespace RawNode

/-- The keys of a raw node, in the order of its fields in an array. -/
def keys : List String :=
  ["type", "children", "location", "value", "name", "variableName", "mutable", "operator"]

/-- The raw node with the given fields, in the order of `keys`, and the given children. -/
def ofFields? (fields : List (Option Json)) (children : List RawNode) : Option RawNode :=
  match fields with
  | [some tag, _, location, value, name, variableName, mutable, operator] => do
    return {
      tag := ← tag.text?
      children
      -- unlike the fields below, a location may be missing but not null
      location := ← location.elim (some .empty) Span.ofJson?
      value := ← Json.optional? RawValue.ofJson? value
      name := ← Json.optional? Json.text? name
      variableName := ← Json.optional? Json.text? variableName
      mutable := ← Json.optional? Json.bool? mutable
      operator := ← Json.optional? Json.text? operator }
  | _ => none

mutual

def ofJson? : Json → Option RawNode
  | .obj fields => do
    ofFields? (← Json.record? keys (.obj fields)) (← childrenOfFields? fields)
  | .arr items => do
    ofFields? (← Json.record? keys (.arr items)) (← childrenOfItems? items)
  | _ => none

/-- The children of a node whose fields are given with their keys. -/
def childrenOfFields? : List (String × Json) → Option (List RawNode)
  | [] => some []
  | (key, v) :: fields => if key = "children" then ofList? v else childrenOfFields? fields

/-- The children of a node whose fields are given in order. -/
def childrenOfItems? : List Json → Option (List RawNode)
  | _ :: v :: _ => ofList? v
  | _ => some []

/-- The raw nodes that an array of them stands for. -/
def ofList? : Json → Option (List RawNode)
  | .arr items => ofItems? items
  | _ => none

def ofItems? : List Json → Option (List RawNode)
  | [] => some []
  | v :: vs => do
    let node ← ofJson? v
    let nodes ← ofItems? vs
    return node :: nodes

end

end RawNode

namespace RawTree

def toJson : RawTree → Json
  | .node root => root.toJson
  | .nodes roots => .arr (RawNode.toJsons roots)

/-- The raw tree a value stands for: one node if it can be read so, else a list of nodes. -/
def ofJson? (v : Json) : Option RawTree :=
  ((RawNode.ofJson? v).map .node).or ((RawNode.ofList? v).map .nodes)

end RawTree

end ExprScript
