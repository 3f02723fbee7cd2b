import ExprScript.Raw.Node
import ExprScript.Tree.BuildError
import ExprScript.Tree.Node

set_option autoImplicit false

/-! # Building program trees

A raw tree becomes a program tree node by node. The tag and the fields of a raw node give the
kind (`RawNode.kind`), then its children are built, and then their types have to fit
(`NodeType.shapeFault?`). A node gets its id when all this is done, so ids are given out in
post-order, and the first fault met ends the build.

Ids are counted on from one build to the next. A build therefore takes the next free id and
returns it together with the result, also when the result is an error: nodes finished before
the fault have used up theirs.
-/

namespace ExprScript

def RawNode.error (raw : RawNode) (fault : BuildFault) : BuildError :=
  ⟨raw.tag, raw.location, fault⟩

/-- The name of an identifier node: its value, or its name where it has no value. -/
def RawNode.identifierName (raw : RawNode) : Except BuildError String :=
  match raw.value, raw.name with
  | some (.string name), _ => .ok name
  | some _, _ => .error (raw.error (.wrongValue .string))
  | none, some name => .ok name
  | none, none => .error (raw.error (.missing .value))

/-- The kind of a raw node, from its tag and its fields. -/
def RawNode.kind (raw : RawNode) : Except BuildError Kind :=
  match NodeType.ofTag? raw.tag with
  | none => .error (raw.error .unknownType)
  | some .program => .ok .program
  | some .integer =>
    match raw.value with
    | some (.integer value) => .ok (.integer value)
    | some _ => .error (raw.error (.wrongValue .integer))
    | none => .error (raw.error (.missing .value))
  | some .string =>
    match raw.value with
    | some (.string value) => .ok (.string value)
    | some _ => .error (raw.error (.wrongValue .string))
    | none => .error (raw.error (.missing .value))
  | some .boolean =>
    match raw.value with
    | some (.boolean value) => .ok (.boolean value)
    | some _ => .error (raw.error (.wrongValue .boolean))
    | none => .error (raw.error (.missing .value))
  | some .void => .ok .void
  | some .identifier => raw.identifierName.map .identifier
  | some .array => .ok .array
  | some .object => .ok .object
  | some .objectProperty => .ok .objectProperty
  | some .variableDeclaration =>
    match raw.variableName.or raw.name with
    | some name => .ok (.variableDeclaration name (raw.mutable.getD false))
    | none => .error (raw.error (.missing .variableName))
  | some .functionDeclaration =>
    match raw.name with
    | some name => .ok (.functionDeclaration name)
    | none => .error (raw.error (.missing .name))
  | some .namedFunction => .ok .namedFunction
  | some .anonymousFunction => .ok .anonymousFunction
  | some .parameters => .ok .parameters
  | some .arguments => .ok .arguments
  | some .call => .ok .call
  | some .binaryOperator =>
    match raw.operator with
    | some operator => .ok (.binaryOperator operator)
    | none => .error (raw.error (.missing .operator))
  | some .binaryExpression => .ok .binaryExpression
  | some .propertyAccess => .ok .propertyAccess
  | some .returnExpression => .ok .returnExpression

/-- Whether operands and operators take turns in the given types, beginning and ending with an
operand. -/
def alternates : List NodeType → Bool
  | [] => false
  | [operand] => operand != .binaryOperator
  | operand :: operator :: rest =>
    operand != .binaryOperator && operator == .binaryOperator && alternates rest

/-- What is wrong with the types of the children of a node of the given type. -/
def NodeType.shapeFault? : NodeType → List NodeType → Option ShapeFault
  | .integer, types | .string, types | .boolean, types | .void, types | .identifier, types
  | .binaryOperator, types => if types.isEmpty then none else some .leafWithChildren
  | .program, _ | .array, _ | .arguments, _ => none
  | .object, types => if types.all (· == .objectProperty) then none else some .notProperties
  | .objectProperty, types =>
    match types with
    | [.identifier, _] => none
    | _ => some .notKeyAndValue
  | .variableDeclaration, types | .returnExpression, types =>
    if types.isEmpty then some .noValue else none
  | .functionDeclaration, types =>
    match types with
    | .parameters :: _ => none
    | _ => some .noParameters
  | .anonymousFunction, types =>
    match types with
    | [.parameters] => some .noBody
    | .parameters :: _ => none
    | _ => some .noParameters
  | .namedFunction, types =>
    match types with
    | .identifier :: .parameters :: _ :: _ => none
    | _ => some .notNameAndParameters
  | .parameters, types => if types.all (· == .identifier) then none else some .notIdentifiers
  | .call, types =>
    match types with
    | [_, .arguments] => none
    | _ => some .notCalleeAndArguments
  | .binaryExpression, types =>
    if 3 ≤ types.length && alternates types then none else some .notAlternating
  | .propertyAccess, types =>
    match types with
    | [_, .identifier] => none
    | _ => some .notObjectAndName

namespace Node

mutual

/-- Builds the tree of a raw node, giving out ids from `next` on. -/
def ofRaw (next : Nat) : RawNode → Except BuildError Node × Nat
  | raw@⟨_, children, location, _, _, _, _, _⟩ =>
    match raw.kind with
    | .error e => (.error e, next)
    | .ok kind =>
      match ofRaws next children with
      | (.error e, next) => (.error e, next)
      | (.ok nodes, next) =>
        match kind.type.shapeFault? (nodes.map type) with
        | some fault => (.error (raw.error (.shape fault)), next)
        | none => (.ok ⟨next, kind, nodes, location⟩, next + 1)

/-- Builds the trees of raw nodes one after the other, up to the first fault. -/
def ofRaws (next : Nat) : List RawNode → Except BuildError (List Node) × Nat
  | [] => (.ok [], next)
  | raw :: raws =>
    match ofRaw next raw with
    | (.error e, next) => (.error e, next)
    | (.ok node, next) =>
      match ofRaws next raws with
      | (.error e, next) => (.error e, next)
      | (.ok nodes, next) => (.ok (node :: nodes), next)

end

def build (raw : RawNode) : Except BuildError Node := (ofRaw 0 raw).1

/-- Builds a program whose statements are the given raw nodes. -/
def buildProgram (raws : List RawNode) : Except BuildError Node :=
  match ofRaws 0 raws with
  | (.error e, _) => .error e
  -- a program may have any children, so there is no shape to check
  | (.ok nodes, next) => .ok ⟨next, .program, nodes, .empty⟩

/-- Builds what another parser has handed over. -/
def buildTree : RawTree → Except BuildError Node
  | .node root => build root
  | .nodes roots => buildProgram roots

end Node

end ExprScript
