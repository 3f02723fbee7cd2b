import ExprScript.NodeType
import ExprScript.Source.Position

set_option autoImplicit false

/-! # Raw trees

A `RawNode` is a node of a parse tree whose tags and fields nobody has checked yet. Raw trees
come from the grammar or, as JSON, from another parser, so the tag may be any text and each
field may be missing. `Tree/Build.lean` checks a raw tree and makes it a program tree.
-/

namespace ExprScript

/-- The literal a raw node carries. Integers have 64 bits. -/
inductive RawValue where
  | boolean (value : Bool)
  | integer (value : Int64)
  | string (value : String)
deriving DecidableEq, Repr

structure RawNode where
  tag : String
  children : List RawNode := []
  location : Span := .empty
  value : Option RawValue := none
  name : Option String := none
  variableName : Option String := none
  mutable : Option Bool := none
  operator : Option String := none
deriving Repr, Inhabited

/-- What another parser hands over: one tree, or the statements of a program. -/
inductive RawTree where
  | node (root : RawNode)
  | nodes (roots : List RawNode)
deriving Repr

namespace RawNode

/-- A node of the given type without fields of its own. -/
def ofType (t : NodeType) (children : List RawNode) (location : Span) : RawNode :=
  ⟨t.tag, children, location, none, none, none, none, none⟩

/-- The program without statements, behind which no source text stands. -/
def emptyProgram : RawNode := ofType .program [] .empty

end RawNode

end ExprScript
