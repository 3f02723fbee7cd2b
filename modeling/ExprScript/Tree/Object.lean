import ExprScript.Json.Value
import ExprScript.Tree.Node

set_option autoImplicit false

/-! # Program trees as JSON

The JSON form of a program tree keeps the type, the payload and the children of every node and
leaves out ids and spans. The keys of an object are in alphabetical order.
-/

namespace ExprScript

/-- The fields of the JSON form that a kind brings besides its type, in alphabetical order. -/
def Kind.fields : Kind → List (String × Json)
  | .integer value => [("value", .int value.toInt)]
  | .string value => [("value", .str value)]
  | .boolean value => [("value", .bool value)]
  | .identifier name => [("value", .str name)]
  | .binaryOperator operator => [("operator", .str operator)]
  | .variableDeclaration name mutable => [("mutable", .bool mutable), ("name", .str name)]
  | .functionDeclaration name => [("name", .str name)]
  | .program | .void | .array | .object | .objectProperty | .namedFunction
  | .anonymousFunction | .parameters | .arguments | .call | .binaryExpression
  | .propertyAccess | .returnExpression => []

namespace Node

mutual

/-- The JSON form of a tree. -/
def toObject : Node → Json
  | ⟨_, kind, children, _⟩ =>
    .obj (("_type", .str kind.type.name) :: ("children", .arr (toObjects children)) ::
      kind.fields)

def toObjects : List Node → List Json
  | [] => []
  | n :: ns => toObject n :: toObjects ns

end

end Node

end ExprScript
