import ExprScript.Peg.Basic
import ExprScript.Raw.Node
import ExprScript.Raw.SyntaxError
import ExprScript.Source.Decimal

set_option autoImplicit false

/-! # Raw trees of matches

The raw tree of a match of the grammar. Each node keeps the span of the match it comes from.
An expression of one operand is that operand. Calls and property accesses are folded from the
left: in `a.b(c)` the access is the callee, and the span of each fold runs from the start of
the operand to the end of its last suffix.

The only fault a match can have is an integer literal outside the 64-bit range; of several,
the leftmost is reported.
-/

namespace ExprScript

namespace RawNode

mutual

def ofMatch : MatchTree Rule → Except SyntaxError RawNode
  | .node .program span _ children => do
    return ofType .program (← ofStatements children) span
  | .node .functionDeclaration span _ (_ :: .node _ _ name _ :: params :: body) => do
    let params ← ofMatch params
    let body ← ofMatches body
    return { ofType .functionDeclaration (params :: body) span with
      name := some (String.ofList name) }
  | .node .namedFunction span _ (_ :: parts) => do
    return ofType .namedFunction (← ofMatches parts) span
  | .node .variableDeclaration span _ (.node opening _ _ _ :: .node _ _ name _ :: value) => do
    return { ofType .variableDeclaration (← ofMatches value) span with
      variableName := some (String.ofList name)
      mutable := some (opening = .mutableKeyword) }
  | .node .returnExpression span _ (_ :: value) => do
    return ofType .returnExpression (← ofMatches value) span
  | .node .anonymousFunction span _ parts => do
    return ofType .anonymousFunction (← ofMatches parts) span
  | .node .parameters span _ names => do
    return ofType .parameters (← ofMatches names) span
  | .node .arguments span _ values => do
    return ofType .arguments (← ofMatches values) span
  | .node .expression span _ parts => do
    match ← ofMatches parts with
    -- no operator: the operand stands for itself
    | [single] => return single
    | operands => return ofType .binaryExpression operands span
  | .node .operand span _ (target :: suffixes) => do
    ofSuffixes span.start (← ofMatch target) suffixes
  | .node .binaryOperator span text _ =>
    return { ofType .binaryOperator [] span with operator := some (String.ofList text) }
  | .node .array span _ items => do
    return ofType .array (← ofMatches items) span
  | .node .object span _ properties => do
    return ofType .object (← ofMatches properties) span
  | .node .objectProperty span _ parts => do
    return ofType .objectProperty (← ofMatches parts) span
  | .node .integer span text _ =>
    match Decimal.toInt64? (Decimal.ofSigned text) with
    | some value => return { ofType .integer [] span with value := some (.integer value) }
    | none => throw ⟨.integerRange (String.ofList text), span⟩
  | .node .boolean span text _ =>
    return { ofType .boolean [] span with value := some (.boolean (text = "true".toList)) }
  | .node .void span _ _ => return ofType .void [] span
  | .node .string span _ (.node _ _ content _ :: _) =>
    return { ofType .string [] span with value := some (.string (String.ofList content)) }
  | .node .identifier span text _ =>
    return { ofType .identifier [] span with value := some (.string (String.ofList text)) }
  -- no match of the grammar has another shape than those above
  | .node rule span _ _ => throw ⟨.malformed rule, span⟩

def ofMatches : List (MatchTree Rule) → Except SyntaxError (List RawNode)
  | [] => return []
  | m :: ms => do
    let node ← ofMatch m
    let nodes ← ofMatches ms
    return node :: nodes

/-- The raw trees of the statements of a program; the end of the input is none. -/
def ofStatements : List (MatchTree Rule) → Except SyntaxError (List RawNode)
  | [] => return []
  | .node .endOfInput _ _ _ :: ms => ofStatements ms
  | m :: ms => do
    let node ← ofMatch m
    let nodes ← ofStatements ms
    return node :: nodes

/-- The raw tree of an operand that starts at `start`: the node of its target with the
suffixes folded onto it. -/
def ofSuffixes (start : Position) (target : RawNode) :
    List (MatchTree Rule) → Except SyntaxError RawNode
  | [] => return target
  | .node .arguments span _ values :: suffixes => do
    let arguments := ofType .arguments (← ofMatches values) span
    ofSuffixes start (ofType .call [target, arguments] ⟨start, span.stop⟩) suffixes
  | .node .property span _ (name :: _) :: suffixes => do
    let name ← ofMatch name
    ofSuffixes start (ofType .propertyAccess [target, name] ⟨start, span.stop⟩) suffixes
  | .node rule span _ _ :: _ => throw ⟨.malformed rule, ⟨start, span.stop⟩⟩

end

end RawNode

end ExprScript
