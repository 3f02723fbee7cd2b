import ExprScript.Script.Lines
import ExprScript.Script.Quote
import ExprScript.Tree.Node

set_option autoImplicit false

/-! # JavaScript of a program tree

The script of a node is put together from the scripts of its children (`Kind.assemble?`), and
nothing else of the children matters but their kinds. There is no script for a node that lacks
a child its kind calls for.

* An operand, callee or property target that is a binary expression or a function is put in
  parentheses.
* A function whose body ends in a `return` has a block for its body, one statement a line. Any
  other body is an expression: an object is put in parentheses, and several expressions become
  one with commas.
* A block is indented line by line, whatever the lines belong to.
-/

namespace ExprScript

/-- The script of a node together with its kind, and whether anything written in it reads a
property of the standard library. -/
structure Piece where
  kind : Kind
  text : String
  usesStd : Bool
deriving Repr, Inhabited

def stdName : String := "std"

namespace Piece

/-- Whether the piece needs parentheses to be an operand. -/
def isCompound (p : Piece) : Bool :=
  match p.kind.type with
  | .binaryExpression | .anonymousFunction | .namedFunction => true
  | _ => false

/-- The text of a piece that is used as an operand, callee or property target. -/
def operand (p : Piece) : String := if p.isCompound then "(" ++ p.text ++ ")" else p.text

def joined (separator : String) (ps : List Piece) : String :=
  separator.intercalate (ps.map text)

/-- The lines of the statements of a block, each behind the indent. -/
def block (indent : String) (body : List Piece) : String :=
  "\n".intercalate (body.flatMap fun p => (linesOf p.text).map (indent ++ ·))

def braced (indent : String) (body : List Piece) : String :=
  "\x7b\n" ++ block indent body ++ "\n\x7d"

def endsInReturn (body : List Piece) : Bool :=
  match body.getLast? with
  | some p => p.kind = .returnExpression
  | none => false

/-- The body of an arrow function without a block. -/
def expressionBody : List Piece → String
  | [p] => if p.kind = .object then "(" ++ p.text ++ ")" else p.text
  -- the value of a list with commas is that of its last expression
  | ps => "(" ++ joined ", " ps ++ ")"

def lambdaBody (indent : String) (body : List Piece) : String :=
  if endsInReturn body then braced indent body else expressionBody body

def lambda (indent : String) (params : Piece) (body : List Piece) : String :=
  "(" ++ params.text ++ ") => " ++ lambdaBody indent body

end Piece

open Piece in
/-- The script of a node of the given kind whose children have the given scripts. -/
def Kind.assemble? (indent : String) : Kind → List Piece → Option String
  | .program, ps => some (joined "\n" ps)
  | .integer value, _ => some (toString value.toInt)
  | .string value, _ => some (quote value)
  | .boolean value, _ => some (if value then "true" else "false")
  | .void, _ => some "undefined"
  | .identifier name, _ => some name
  | .array, ps => some ("[" ++ joined "," ps ++ "]")
  | .object, [] => some "\x7b\x7d"
  | .object, p :: ps => some ("\x7b " ++ joined ", " (p :: ps) ++ " \x7d")
  | .objectProperty, key :: value :: _ => some (key.text ++ ": " ++ value.text)
  | .variableDeclaration name mutable, ps =>
    some ((if mutable then "let " else "const ") ++ name ++ " = " ++ joined "," ps)
  | .functionDeclaration name, [params] =>
    some ("function " ++ name ++ "(" ++ params.text ++ ") \x7b\x7d")
  | .functionDeclaration name, params :: p :: body =>
    some ("function " ++ name ++ "(" ++ params.text ++ ") " ++ braced indent (p :: body))
  | .namedFunction, name :: params :: body =>
    some ("const " ++ name.text ++ " = " ++ lambda indent params body)
  | .anonymousFunction, params :: body => some (lambda indent params body)
  | .parameters, ps => some (joined ", " ps)
  | .arguments, ps => some (joined ", " ps)
  | .call, callee :: args :: _ => some (callee.operand ++ "(" ++ args.text ++ ")")
  | .binaryOperator operator, _ => some operator
  | .binaryExpression, ps => some (" ".intercalate (ps.map operand))
  | .propertyAccess, target :: property :: _ => some (target.operand ++ "." ++ property.text)
  | .returnExpression, ps => some ("return " ++ joined "," ps)
  | .objectProperty, _ | .functionDeclaration _, _ | .namedFunction, _ | .anonymousFunction, _
  | .call, _ | .propertyAccess, _ => none

/-- The children whose scripts go into the script of a node of the given kind. A leaf is written
without any, and where two children are taken by their position, those behind them are left
out. -/
def Kind.written : Kind → List Piece → List Piece
  | .integer _, _ | .string _, _ | .boolean _, _ | .void, _ | .identifier _, _
  | .binaryOperator _, _ => []
  | .objectProperty, ps | .call, ps | .propertyAccess, ps => ps.take 2
  | .program, ps | .array, ps | .object, ps | .variableDeclaration _ _, ps
  | .functionDeclaration _, ps | .namedFunction, ps | .anonymousFunction, ps
  | .parameters, ps | .arguments, ps | .binaryExpression, ps | .returnExpression, ps => ps

/-- Whether a node of the given kind with the given children reads a property of the standard
library itself. -/
def Kind.readsStd : Kind → List Piece → Bool
  | .propertyAccess, target :: _ => target.kind = .identifier stdName
  | _, _ => false

namespace Node

mutual

/-- The script of a tree, if every node has the children its kind calls for. -/
def render? (indent : String) : Node → Option Piece
  | ⟨_, kind, children, _⟩ =>
    match renderAll? indent children with
    | none => none
    | some ps =>
      (kind.assemble? indent ps).map fun text =>
        ⟨kind, text, kind.readsStd ps || (kind.written ps).any (·.usesStd)⟩

def renderAll? (indent : String) : List Node → Option (List Piece)
  | [] => some []
  | n :: ns =>
    match render? indent n, renderAll? indent ns with
    | some p, some ps => some (p :: ps)
    | _, _ => none

end

end Node

end ExprScript
