import ExprScript.Tree.Node

set_option autoImplicit false

/-! # Scopes

A scope is opened by the root of a program tree and by every function. It binds the names of
the declarations directly below the node that opened it, the names of that function's
parameters, and, for a lambda bound to a name, that name itself.
-/

namespace ExprScript

/-- A scope in a tree of scopes, which refer to each other by number. -/
structure Scope where
  /-- the node that opened the scope -/
  context : Node
  parent : Option Nat
  children : List Nat := []
deriving Repr, Inhabited

namespace Scope

/-- The variable declarations directly below the context. -/
def locals (s : Scope) : List Node := s.context.childrenOfType .variableDeclaration

/-- The functions directly below the context that have a name. -/
def functions (s : Scope) : List Node :=
  s.context.children.filter fun c => c.type = .functionDeclaration || c.type = .namedFunction

def parameters? (s : Scope) : Option Node := (s.context.childrenOfType .parameters).head?

/-- Whether the scope itself binds a name. -/
def declares (s : Scope) (name : String) : Bool :=
  s.locals.any (fun d => d.declaredName? = some name) ||
    s.parameters?.any (fun ps => ps.children.any fun p => p.identifierName? = some name) ||
    (s.context.type = .namedFunction && s.context.declaredName? = some name) ||
    s.functions.any (fun f => f.declaredName? = some name)

end Scope

end ExprScript
