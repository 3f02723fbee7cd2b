import ExprScript.Check.Rule

set_option autoImplicit false

/-! # Undefined names

The rule that every identifier has to be bound, in a scope around it or as a global. The name
of a property and the key of an object property are not references and need no binding.
-/

namespace ExprScript

/-- Whether the node is the name of a property or the key of an object property. Children are
told apart by their ids. -/
def isNamePosition (n : Node) (parent : Option Node) : Bool :=
  match parent with
  | none => false
  | some p =>
    match p.type with
    | .propertyAccess => p.children[1]?.any (·.id = n.id)
    | .objectProperty => p.children[0]?.any (·.id = n.id)
    | _ => false

def undefinedRuleName : String := "undefined-identifier"

def undefinedName (name : String) (span : Span) : Diagnostic where
  rule := undefinedRuleName
  message := "Error on line " ++ toString span.start.line ++ ": " ++ name ++ " is not defined"
  span := span

/-- The rule that identifiers have to be bound, where `globals` always are. -/
def undefinedRule (globals : List String) : CheckRule where
  name := undefinedRuleName
  check n site :=
    match n.identifierName? with
    | none => none
    | some name =>
      if isNamePosition n site.parent || globals.contains name ||
          site.scopes.resolves site.scope name then none
      else some (undefinedName name n.span)

/-- The rules every program is checked with. -/
def defaultRules (globals : List String) : RuleSet :=
  RuleSet.empty.add .identifier (undefinedRule globals)

end ExprScript
