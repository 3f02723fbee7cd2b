import ExprScript.Check.Undefined

set_option autoImplicit false

/-! # Checking a program

Every node of a program is checked once, in the innermost scope it belongs to. Scopes are
visited in post-order, and in each of them the subtree of its context is visited from the
leaves up. Nodes that have been visited are remembered by id: a subtree whose root has been
visited, in a scope further in, is left out.
-/

namespace ExprScript

/-- The ids of the nodes visited so far, and what has been found at them. -/
structure CheckState where
  visited : List Nat := []
  found : List Diagnostic := []
deriving Repr

namespace RuleSet

mutual

/-- Visits a node and what is below it, in the scope number `scope`. -/
def visit (rules : RuleSet) (scopes : ScopeTree) (scope : Nat) (parent : Option Node)
    (st : CheckState) : Node → CheckState
  | n@⟨id, _, children, _⟩ =>
    if st.visited.contains id then st
    else
      -- the children come first, and a node counts as visited only once they are done
      let st := visitAll rules scopes scope n st children
      ⟨id :: st.visited, st.found ++ rules.findings n ⟨scopes, scope, parent⟩⟩

def visitAll (rules : RuleSet) (scopes : ScopeTree) (scope : Nat) (parent : Node)
    (st : CheckState) : List Node → CheckState
  | [] => st
  | n :: ns => visitAll rules scopes scope parent (visit rules scopes scope (some parent) st n) ns

end

def visitScope (rules : RuleSet) (scopes : ScopeTree) (st : CheckState) (i : Nat) : CheckState :=
  match scopes.get? i with
  | some s => rules.visit scopes i none st s.context
  | none => st

/-- Everything the rules find in a tree of scopes. -/
def process (rules : RuleSet) (scopes : ScopeTree) : List Diagnostic :=
  (scopes.postOrder.foldl (rules.visitScope scopes) {}).found

def analyze (rules : RuleSet) (program : Node) : List Diagnostic :=
  rules.process (.ofProgram program)

end RuleSet

end ExprScript
