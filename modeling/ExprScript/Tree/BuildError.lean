import ExprScript.NodeType
import ExprScript.Source.Position

set_option autoImplicit false

/-! # Faults of raw trees

Why a raw node cannot become a program node. A fault names what the node's tag calls for and
the node does not have.
-/

namespace ExprScript

/-- The fields of a raw node that some node type requires. -/
inductive RawField where
  | value
  | name
  | variableName
  | operator
deriving DecidableEq, Repr

def RawField.key : RawField → String
  | .value => "value"
  | .name => "name"
  | .variableName => "variableName"
  | .operator => "operator"

/-- What the value of a raw node has to be. -/
inductive ValueType where
  | integer
  | string
  | boolean
deriving DecidableEq, Repr

def ValueType.description : ValueType → String
  | .integer => "an integer"
  | .string => "a string"
  | .boolean => "a boolean"

/-- What is wrong with the types of a node's children. -/
inductive ShapeFault where
  | leafWithChildren
  | notProperties
  | notKeyAndValue
  | noValue
  | noParameters
  | noBody
  | notNameAndParameters
  | notIdentifiers
  | notCalleeAndArguments
  | notAlternating
  | notObjectAndName
deriving DecidableEq, Repr

def ShapeFault.message : ShapeFault → String
  | .leafWithChildren => "leaf node must not have children"
  | .notProperties => "expected only property declarations"
  | .notKeyAndValue => "expected [identifier, value]"
  | .noValue => "expected at least one expression"
  | .noParameters => "expected [parameters, ..body]"
  | .noBody => "function expression has no body"
  | .notNameAndParameters => "expected [name, parameters, ..body]"
  | .notIdentifiers => "parameters must be identifiers"
  | .notCalleeAndArguments => "expected [callee, arguments]"
  | .notAlternating => "expected alternating operands and operators"
  | .notObjectAndName => "expected [object, property-identifier]"

inductive BuildFault where
  | unknownType
  | missing (field : RawField)
  | wrongValue (expected : ValueType)
  | shape (fault : ShapeFault)
deriving DecidableEq, Repr

/-- A fault of a raw node with the given tag and location. -/
structure BuildError where
  tag : String
  span : Span
  fault : BuildFault
deriving DecidableEq, Repr

def BuildError.message (e : BuildError) : String :=
  match e.fault with
  | .unknownType => "unknown node type: " ++ e.tag
  | .missing field => e.tag ++ " node is missing required field '" ++ field.key ++ "'"
  | .wrongValue expected =>
    e.tag ++ " node has invalid field 'value': expected " ++ expected.description
  | .shape fault => e.tag ++ " node has invalid shape: " ++ fault.message

end ExprScript
