import ExprScript.Scope.Basic
import ExprScript.Tree.Walk

set_option autoImplicit false

/-! # Trees of scopes

The scopes of a program tree are numbered in the order in which their contexts come in the
tree, the root being number zero. `ScopeTree.openScope` gives a scope the next number, collects
the nearest nodes below its context that open a scope (`Node.nestedForming`), and opens a scope for
each of them in turn. A scope is entered among the children of the scope around it when it has been
opened together with all scopes in it.

`ScopeTree.postOrder` lists the numbers of all scopes, each after those of the scopes in it. It
keeps a stack of scopes to list, each with a mark that says whether the scopes in it have been
put on the stack already.
-/

namespace ExprScript

namespace Node

mutual

/-- The nearest nodes at or below a node that open a scope. -/
def nearestForming : Node → List Node
  | n@⟨_, _, children, _⟩ => if n.isScopeForming then [n] else nearestFormingAll children

def nearestFormingAll : List Node → List Node
  | [] => []
  | n :: ns => nearestForming n ++ nearestFormingAll ns

end

/-- The nearest nodes below a node that open a scope. -/
def nestedForming (n : Node) : List Node := nearestFormingAll n.children

mutual

theorem sizes_nearestForming_le : (n : Node) → sizes n.nearestForming ≤ n.size
  | ⟨_, _, children, _⟩ => by
    rw [nearestForming]
    split
    · exact Nat.le_refl _
    · have hchildren := sizes_nearestFormingAll_le children
      rw [size]
      omega

theorem sizes_nearestFormingAll_le : (ns : List Node) → sizes (nearestFormingAll ns) ≤ sizes ns
  | [] => Nat.le_refl _
  | n :: ns => by
    have hn := sizes_nearestForming_le n
    have hns := sizes_nearestFormingAll_le ns
    rw [nearestFormingAll, sizes_append, sizes]
    omega

end

theorem sizes_nestedForming_lt (n : Node) : sizes n.nestedForming < n.size := by
  have hle := sizes_nearestFormingAll_le n.children
  rw [nestedForming, size_eq]
  omega

end Node

/-- The scopes of a program tree, by number. -/
structure ScopeTree where
  scopes : List Scope
deriving Repr, Inhabited

namespace ScopeTree

def size (t : ScopeTree) : Nat := t.scopes.length

def get? (t : ScopeTree) (i : Nat) : Option Scope := t.scopes[i]?

/-- The numbers of the scopes directly in the scope with the given number. -/
def childrenOf (t : ScopeTree) (i : Nat) : List Nat := (t.get? i).elim [] Scope.children

/-- The number of the scope around the scope with the given number. -/
def parentOf? (t : ScopeTree) (i : Nat) : Option Nat := (t.get? i).bind Scope.parent

/-! ## Construction -/

def push (t : ScopeTree) (context : Node) (parent : Option Nat) : ScopeTree :=
  ⟨t.scopes ++ [{ context := context, parent := parent }]⟩

/-- Enters the scope number `k` among the children of the scope number `i`. -/
def link (t : ScopeTree) (i k : Nat) : ScopeTree :=
  ⟨t.scopes.modify i fun s => { s with children := s.children ++ [k] }⟩

mutual

/-- Opens the scope of a node and those in it. -/
def openScope (t : ScopeTree) (context : Node) (parent : Option Nat) : ScopeTree :=
  (t.push context parent).openAll t.size context.nestedForming
termination_by 2 * context.size
decreasing_by
  have hlt := context.sizes_nestedForming_lt
  omega

/-- Opens the scopes of nodes in the scope number `i`, one after the other. -/
def openAll (t : ScopeTree) (i : Nat) : List Node → ScopeTree
  | [] => t
  | n :: ns =>
    -- the number that the scope gets is the number of scopes before it
    ((t.openScope n (some i)).link i t.size).openAll i ns
termination_by ns => 2 * Node.sizes ns + 1
decreasing_by
  · rw [Node.sizes]
    omega
  · rw [Node.sizes, Node.size_eq]
    omega

end

def ofProgram (program : Node) : ScopeTree := openScope ⟨[]⟩ program none

/-! ## Post-order -/

/-- The scopes listed when `stack` holds the scopes to list; at most `fuel` of its entries are
taken off. -/
def postOrderFrom (t : ScopeTree) : Nat → List (Nat × Bool) → List Nat
  | 0, _ => []
  | _ + 1, [] => []
  | n + 1, (i, true) :: stack => i :: postOrderFrom t n stack
  | n + 1, (i, false) :: stack =>
    postOrderFrom t n ((t.childrenOf i).map (·, false) ++ (i, true) :: stack)

/-- All scopes, each after the scopes in it. Every scope comes to the top of the stack twice. -/
def postOrder (t : ScopeTree) : List Nat := t.postOrderFrom (2 * t.size) [(0, false)]

/-! ## Names -/

/-- A scope and the scopes around it, from the inside out. -/
def ancestors (t : ScopeTree) (i : Nat) : List Nat :=
  match t.parentOf? i with
  -- true in the scope tree of a program, and needed for the recursion to end
  | some p => if p < i then i :: t.ancestors p else [i]
  | none => [i]

def declares (t : ScopeTree) (i : Nat) (name : String) : Bool :=
  (t.get? i).any (·.declares name)

/-- Whether a scope or one around it binds a name. -/
def resolves (t : ScopeTree) (i : Nat) (name : String) : Bool :=
  (t.ancestors i).any fun j => t.declares j name

end ScopeTree

end ExprScript
