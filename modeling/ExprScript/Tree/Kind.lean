import ExprScript.NodeType

set_option autoImplicit false

/-! # Kinds of program nodes

A `Kind` is a node type together with what a node of that type carries besides its children:
the value of a literal, the name of an identifier or declaration, the text of an operator.
-/

namespace ExprScript

/-- What a program node is, apart from its children. -/
inductive Kind where
  | program
  | integer (value : Int64)
  | string (value : String)
  | boolean (value : Bool)
  | void
  | identifier (name : String)
  | array
  | object
  | objectProperty
  | variableDeclaration (name : String) (mutable : Bool)
  | functionDeclaration (name : String)
  | namedFunction
  | anonymousFunction
  | parameters
  | arguments
  | call
  | binaryOperator (operator : String)
  | binaryExpression
  | propertyAccess
  | returnExpression
deriving DecidableEq, Repr, Inhabited

namespace Kind

def type : Kind → NodeType
  | .program => .program
  | .integer _ => .integer
  | .string _ => .string
  | .boolean _ => .boolean
  | .void => .void
  | .identifier _ => .identifier
  | .array => .array
  | .object => .object
  | .objectProperty => .objectProperty
  | .variableDeclaration _ _ => .variableDeclaration
  | .functionDeclaration _ => .functionDeclaration
  | .namedFunction => .namedFunction
  | .anonymousFunction => .anonymousFunction
  | .parameters => .parameters
  | .arguments => .arguments
  | .call => .call
  | .binaryOperator _ => .binaryOperator
  | .binaryExpression => .binaryExpression
  | .propertyAccess => .propertyAccess
  | .returnExpression => .returnExpression

def identifierName? : Kind → Option String
  | .identifier name => some name
  | _ => none

/-- The part of a label behind the name of the type, if the kind carries anything. -/
def detail? : Kind → Option String
  | .integer value => some (toString value.toInt)
  | .string value => some ("'" ++ value ++ "'")
  | .boolean value => some (if value then "true" else "false")
  | .identifier name => some name
  | .variableDeclaration name true => some (name ++ " (mutable)")
  | .variableDeclaration name false => some name
  | .functionDeclaration name => some name
  | .binaryOperator operator => some operator
  | .program | .void | .array | .object | .objectProperty | .namedFunction
  | .anonymousFunction | .parameters | .arguments | .call | .binaryExpression
  | .propertyAccess | .returnExpression => none

/-- A short description such as `identifier: a`. -/
def label (k : Kind) : String :=
  match k.detail? with
  | some detail => k.type.name ++ ": " ++ detail
  | none => k.type.name

end Kind

/-- Whether a node of this type opens a scope of its own. -/
def NodeType.isScopeForming : NodeType → Bool
  | .namedFunction | .anonymousFunction | .functionDeclaration => true
  | _ => false

end ExprScript
