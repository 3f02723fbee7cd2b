import ExprScript.Source.Position
import ExprScript.Tree.Kind

set_option autoImplicit false

/-! # Program trees

A program tree is a tree of `Node`s. What the children of a node mean depends on its kind:

* `program`: the statements;
* `array`, `arguments`: the values;
* `object`: the properties; `objectProperty`: the key and the value;
* `variableDeclaration`, `returnExpression`: the values;
* `functionDeclaration`, `anonymousFunction`: the parameters and the body;
* `namedFunction`: the name, the parameters and the body;
* `parameters`: the identifiers;
* `call`: the callee and the arguments;
* `binaryExpression`: operands and operators in turn;
* `propertyAccess`: the object and the name of the property;
* all other kinds: none.

Nodes are told apart by their `id`, so two nodes that look alike are still two.
-/

namespace ExprScript

structure Node where
  id : Nat
  kind : Kind
  children : List Node
  span : Span
deriving Repr, Inhabited

namespace Node

mutual

/-- Whether two trees are equal, ids and spans included. -/
def decEq : (a b : Node) → Decidable (a = b)
  | ⟨i, k, cs, s⟩, ⟨j, l, ds, t⟩ =>
    match decEqAll cs ds with
    | isTrue h =>
      if e : i = j ∧ k = l ∧ s = t then isTrue (by rw [h, e.1, e.2.1, e.2.2])
      else isFalse (by rintro ⟨⟩; exact e ⟨rfl, rfl, rfl⟩)
    | isFalse h => isFalse (by simp [h])

def decEqAll : (as bs : List Node) → Decidable (as = bs)
  | [], [] => isTrue rfl
  | [], _ :: _ => isFalse (by simp)
  | _ :: _, [] => isFalse (by simp)
  | a :: as, b :: bs =>
    match decEq a b, decEqAll as bs with
    | isTrue h, isTrue k => isTrue (by rw [h, k])
    | isFalse h, _ => isFalse (by simp [h])
    | _, isFalse k => isFalse (by simp [k])

end

instance : DecidableEq Node := decEq

def type (n : Node) : NodeType := n.kind.type

def label (n : Node) : String := n.kind.label

def identifierName? (n : Node) : Option String := n.kind.identifierName?

/-- The name a declaration binds in the scope around it. A lambda bound to a name has that
name as its first child. -/
def declaredName? (n : Node) : Option String :=
  match n.kind with
  | .variableDeclaration name _ => some name
  | .functionDeclaration name => some name
  | .namedFunction => n.children.head?.bind identifierName?
  | _ => none

def isScopeForming (n : Node) : Bool := n.type.isScopeForming

def childrenOfType (n : Node) (t : NodeType) : List Node := n.children.filter (·.type = t)

mutual

/-- Equality up to ids and spans. -/
def sameShape : Node → Node → Bool
  | ⟨_, k, cs, _⟩, ⟨_, l, ds, _⟩ => k = l && sameShapes cs ds

def sameShapes : List Node → List Node → Bool
  | [], [] => true
  | a :: as, b :: bs => sameShape a b && sameShapes as bs
  | [], _ :: _ => false
  | _ :: _, [] => false

end

end Node

end ExprScript
