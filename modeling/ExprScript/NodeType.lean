set_option autoImplicit false

/-! # Node types

The twenty types of program nodes. A type has a `tag`, by which it is known in raw trees, and a
`name`, which labels and listings show.
-/

namespace ExprScript

inductive NodeType where
  | program
  | integer
  | string
  | boolean
  | void
  | identifier
  | array
  | object
  | objectProperty
  | variableDeclaration
  | functionDeclaration
  | namedFunction
  | anonymousFunction
  | parameters
  | arguments
  | call
  | binaryOperator
  | binaryExpression
  | propertyAccess
  | returnExpression
deriving DecidableEq, Repr, Inhabited

namespace NodeType

def all : List NodeType :=
  [.program, .integer, .string, .boolean, .void, .identifier, .array, .object,
    .objectProperty, .variableDeclaration, .functionDeclaration, .namedFunction,
    .anonymousFunction, .parameters, .arguments, .call, .binaryOperator, .binaryExpression,
    .propertyAccess, .returnExpression]

/-- The tag of the type in raw trees. -/
def tag : NodeType → String
  | .program => "program"
  | .integer => "integer"
  | .string => "string"
  | .boolean => "boolean"
  | .void => "void"
  | .identifier => "identifier"
  | .array => "array"
  | .object => "object"
  | .objectProperty => "objectPropertyDeclaration"
  | .variableDeclaration => "variableDeclaration"
  | .functionDeclaration => "fnDeclaration"
  | .namedFunction => "namedFnExpression"
  | .anonymousFunction => "anonymousFnExpression"
  | .parameters => "fnParams"
  | .arguments => "fnArgs"
  | .call => "callExpression"
  | .binaryOperator => "binaryOperator"
  | .binaryExpression => "binaryExpression"
  | .propertyAccess => "propertyAccessExpression"
  | .returnExpression => "returnExpression"

def ofTag? (tag : String) : Option NodeType := all.find? (·.tag == tag)

/-- The name of the type in labels and listings. -/
def name : NodeType → String
  | .program => "program"
  | .integer => "integer"
  | .string => "string"
  | .boolean => "boolean"
  | .void => "void"
  | .identifier => "identifier"
  | .array => "array"
  | .object => "object"
  | .objectProperty => "object property declaration"
  | .variableDeclaration => "variable declaration"
  | .functionDeclaration => "function declaration"
  | .namedFunction => "named fn expression"
  | .anonymousFunction => "anonymous fn expression"
  | .parameters => "function parameters"
  | .arguments => "function arguments"
  | .call => "call expression"
  | .binaryOperator => "binary operator"
  | .binaryExpression => "binary expression"
  | .propertyAccess => "property access expression"
  | .returnExpression => "return expression"

def ofName? (name : String) : Option NodeType := all.find? (·.name == name)

theorem mem_all (t : NodeType) : t ∈ all := by cases t <;> decide

theorem ofTag?_tag (t : NodeType) : ofTag? t.tag = some t := by cases t <;> decide

theorem ofName?_name (t : NodeType) : ofName? t.name = some t := by cases t <;> decide

end NodeType

end ExprScript
