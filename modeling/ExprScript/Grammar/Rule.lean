set_option autoImplicit false

/-! # The rules of the grammar

The names of the grammar's rules, in the order in which messages list them, and the words
messages use for them.
-/

namespace ExprScript

inductive Rule where
  | endOfInput
  | program
  | statement
  | functionDeclaration
  | namedFunction
  | variableDeclaration
  | returnExpression
  | anonymousFunction
  | lambdaBody
  | parameters
  | expression
  | binaryOperator
  | operand
  | arguments
  | property
  | primary
  | array
  | object
  | objectProperty
  | integer
  | boolean
  | void
  | string
  | singleQuoted
  | doubleQuoted
  | identifier
  | identifierChar
  | keyword
  | functionKeyword
  | returnKeyword
  | mutableKeyword
  | immutableKeyword
deriving DecidableEq, Repr, Inhabited

namespace Rule

def all : List Rule :=
  [.endOfInput, .program, .statement, .functionDeclaration, .namedFunction, .variableDeclaration,
    .returnExpression, .anonymousFunction, .lambdaBody, .parameters, .expression,
    .binaryOperator, .operand, .arguments, .property, .primary, .array, .object,
    .objectProperty, .integer, .boolean, .void, .string, .singleQuoted, .doubleQuoted,
    .identifier, .identifierChar, .keyword, .functionKeyword, .returnKeyword,
    .mutableKeyword, .immutableKeyword]

/-- The words a message uses for a rule. Two rules may share them. -/
def description : Rule → String
  | .endOfInput => "end of input"
  | .expression | .operand => "expression"
  | .binaryOperator => "operator"
  | .functionDeclaration => "function declaration"
  | .namedFunction | .anonymousFunction => "function expression"
  | .variableDeclaration => "variable declaration"
  | .returnExpression => "return"
  | .parameters => "parameter list"
  | .arguments => "argument list"
  | .property => "property access"
  | .identifier => "identifier"
  | .integer => "integer"
  | .string => "string"
  | .boolean => "boolean"
  | .void => "void"
  | .array => "array"
  | .object => "object"
  | .objectProperty => "object property"
  | .mutableKeyword | .immutableKeyword => "declaration keyword"
  | .functionKeyword => "fn"
  | .returnKeyword => "return"
  | .program | .statement | .lambdaBody | .primary | .singleQuoted | .doubleQuoted
  | .identifierChar | .keyword => "token"

/-- The rules of `rs` in the order messages list them, each once. -/
def listing (rs : List Rule) : List Rule := all.filter (· ∈ rs)

end Rule

/-- Words as an English enumeration: `x`, `x or y`, `x, y, or z`. -/
def enumeration : List String → String
  | [] => ""
  | [x] => x
  | [x, y] => x ++ " or " ++ y
  | x :: y :: zs =>
    ", ".intercalate ((x :: y :: zs).dropLast) ++ ", or " ++ (x :: y :: zs).getLast (by simp)

end ExprScript
