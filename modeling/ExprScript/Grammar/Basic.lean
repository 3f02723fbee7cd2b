import ExprScript.Grammar.Layout
import ExprScript.Grammar.Rule
import ExprScript.Peg.Basic

set_option autoImplicit false

/-! # The grammar of programs

A program is a list of statements, each with an optional semicolon. The binding of a lambda to
an immutable name is tried before the plain declaration, and a lambda before a parenthesised
expression, so the longer reading wins where both are possible. A pair of braces after an
arrow is a block if statements fill it, and an object otherwise.

Operators are not ranked: an `expression` is a flat alternation of operands and operators.

The empty text at the head of a program lets layout come before the first statement.
-/

namespace ExprScript

open Peg

def isIdentifierChar (c : Char) : Bool := c.isAlphanum || c == '_'

def isIdentifierStart (c : Char) : Bool := c.isAlpha || c == '_'

/-- The binary operators; one that another begins with comes after it. -/
def operators : List String :=
  ["==", "!=", "<=", ">=", "&&", "||", "+", "-", "*", "/", "%", "<", ">"]

def keywords : List String :=
  ["fn", "var", "let", "const", "return", "true", "false", "void"]

namespace Rule

/-- Items with commas between them, and `tail` after the last one; or nothing at all. -/
def commaList (item : Peg Rule) (tail : List (Peg Rule)) : Peg Rule :=
  .opt (inOrder item (.star (.seq (.lit ",") item) :: tail))

/-- No character of an identifier follows. -/
def wordEnd : Peg Rule := .absent (.call .identifierChar)

/-- A string's content: pairs of a backslash and a character, and characters other than the
quote `q`. -/
def quoted (q : String) : Peg Rule :=
  .star (.alt (.seq (.lit "\\") (.one fun _ => true))
    (.seq (.absent (.lit q)) (.one fun _ => true)))

def body : Rule → Peg Rule
  | .endOfInput => .done
  | .program => inOrder (.lit "") [.star (.call .statement), .call .endOfInput]
  | .statement =>
    .seq
      (firstOf (.call .functionDeclaration)
        [.call .namedFunction, .call .variableDeclaration, .call .returnExpression,
          .call .expression])
      (.opt (.lit ";"))
  | .functionDeclaration =>
    inOrder (.call .functionKeyword)
      [.call .identifier, .call .parameters, .lit "\x7b", .star (.call .statement), .lit "\x7d"]
  | .namedFunction =>
    inOrder (.call .immutableKeyword)
      [.call .identifier, .lit "=", .call .parameters, .lit "->", .call .lambdaBody]
  | .variableDeclaration =>
    inOrder (.alt (.call .mutableKeyword) (.call .immutableKeyword))
      [.call .identifier, .lit "=", .call .expression]
  | .returnExpression => .seq (.call .returnKeyword) (.call .expression)
  | .anonymousFunction => inOrder (.call .parameters) [.lit "->", .call .lambdaBody]
  | .lambdaBody =>
    .alt
      (inOrder (.lit "\x7b") [.call .statement, .star (.call .statement), .lit "\x7d"])
      (.call .expression)
  | .parameters => inOrder (.lit "(") [commaList (.call .identifier) [], .lit ")"]
  | .expression =>
    .seq (.call .operand) (.star (.seq (.call .binaryOperator) (.call .operand)))
  | .binaryOperator => oneOf operators
  | .operand => .seq (.call .primary) (.star (.alt (.call .arguments) (.call .property)))
  | .arguments => inOrder (.lit "(") [commaList (.call .expression) [], .lit ")"]
  | .property => .seq (.lit ".") (.call .identifier)
  | .primary =>
    firstOf (.call .anonymousFunction)
      [inOrder (.lit "(") [.call .expression, .lit ")"], .call .void, .call .boolean,
        .call .integer, .call .string, .call .array, .call .object, .call .identifier]
  | .array =>
    inOrder (.lit "[") [commaList (.call .expression) [.opt (.lit ",")], .lit "]"]
  | .object =>
    inOrder (.lit "\x7b") [commaList (.call .objectProperty) [.opt (.lit ",")], .lit "\x7d"]
  | .objectProperty => inOrder (.call .identifier) [.lit ":", .call .expression]
  | .integer =>
    inOrder (.opt (.lit "-")) [.one Char.isDigit, .star (.one Char.isDigit), wordEnd]
  | .boolean => .seq (oneOf ["true", "false"]) wordEnd
  | .void => .seq (.lit "void") wordEnd
  | .string =>
    .alt (inOrder (.lit "'") [.call .singleQuoted, .lit "'"])
      (inOrder (.lit "\"") [.call .doubleQuoted, .lit "\""])
  | .singleQuoted => quoted "'"
  | .doubleQuoted => quoted "\""
  | .identifier =>
    inOrder (.absent (.call .keyword))
      [.one isIdentifierStart, .star (.call .identifierChar)]
  | .identifierChar => .one isIdentifierChar
  | .keyword => .seq (oneOf keywords) wordEnd
  | .functionKeyword => .seq (.lit "fn") wordEnd
  | .returnKeyword => .seq (.lit "return") wordEnd
  | .mutableKeyword => .seq (.lit "var") wordEnd
  | .immutableKeyword => .seq (oneOf ["let", "const"]) wordEnd

def mode : Rule → Mode
  | .statement | .lambdaBody | .primary | .identifierChar => .silent
  | .integer | .boolean | .void | .singleQuoted | .doubleQuoted | .identifier | .keyword
  | .functionKeyword | .returnKeyword | .mutableKeyword | .immutableKeyword => .token
  | .string => .compound
  | .endOfInput | .program | .functionDeclaration | .namedFunction | .variableDeclaration
  | .returnExpression | .anonymousFunction | .parameters | .expression | .binaryOperator
  | .operand | .arguments | .property | .array | .object | .objectProperty => .normal

end Rule

def programGrammar : Grammar Rule where
  body := Rule.body
  mode := Rule.mode
  skip := Layout.skip

/-- Fuel that is enough for a text of `n` characters: fewer than 64 steps into expressions lie
between two characters taken. -/
def programFuel (n : Nat) : Nat := 64 * (n + 1)

end ExprScript
