import ExprScript.Scope.Tree

set_option autoImplicit false

/-! # Rules

A rule looks at one node, the scope it is in and the node above it, and may find something to
report. Rules are registered for a node type; those of one type run in the order in which they
were registered.
-/

namespace ExprScript

structure Diagnostic where
  /-- the name of the rule -/
  rule : String
  message : String
  span : Span
deriving DecidableEq, Repr

/-- The wording of a check that has found something. -/
def Diagnostic.failureText (found : List Diagnostic) : String :=
  toString found.length ++ " semantic error(s)"

/-- Where a rule meets a node. -/
structure Site where
  scopes : ScopeTree
  /-- the number of the scope the node is in -/
  scope : Nat
  /-- the node above, unless the node opened the scope -/
  parent : Option Node

structure CheckRule where
  name : String
  check : Node → Site → Option Diagnostic

/-- Rules with the node types they are registered for, in order of registration. -/
structure RuleSet where
  entries : List (NodeType × CheckRule)

namespace RuleSet

def empty : RuleSet := ⟨[]⟩

def add (rules : RuleSet) (t : NodeType) (rule : CheckRule) : RuleSet :=
  ⟨rules.entries ++ [(t, rule)]⟩

def size (rules : RuleSet) : Nat := rules.entries.length

def forType (rules : RuleSet) (t : NodeType) : List CheckRule :=
  (rules.entries.filter (·.1 = t)).map Prod.snd

/-- What the rules for its type find at a node. -/
def findings (rules : RuleSet) (n : Node) (site : Site) : List Diagnostic :=
  (rules.forType n.type).filterMap fun rule => rule.check n site

end RuleSet

end ExprScript
