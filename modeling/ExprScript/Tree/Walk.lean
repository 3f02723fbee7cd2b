import ExprScript.Tree.Node

set_option autoImplicit false

/-! # Walking a program tree

`Node.walk` lists a tree from the root down and from left to right. It keeps the nodes still to
visit on a stack: the next node is taken off, and its children are put in its place.
`Node.pretty` writes the labels of the tree, one a line, indented by depth.
-/

namespace ExprScript

namespace Node

mutual

/-- The number of nodes in a tree, counted along its structure. -/
def size : Node → Nat
  | ⟨_, _, children, _⟩ => 1 + sizes children

def sizes : List Node → Nat
  | [] => 0
  | n :: ns => size n + sizes ns

end

theorem size_eq (n : Node) : n.size = 1 + sizes n.children := by
  cases n; simp [size]

theorem sizes_append (ms ns : List Node) : sizes (ms ++ ns) = sizes ms + sizes ns := by
  induction ms with
  | nil => simp [sizes]
  | cons m ms ih => simp only [List.cons_append, sizes, ih]; omega

/-- The nodes visited when `stack` holds the nodes still to visit. -/
def walkFrom : List Node → List Node
  | [] => []
  | n :: stack => n :: walkFrom (n.children ++ stack)
termination_by stack => sizes stack
decreasing_by
  simp only [sizes_append, sizes, size_eq]
  omega

/-- The nodes of a tree, each before its children. -/
def walk (n : Node) : List Node := walkFrom [n]

def count (n : Node) : Nat := n.walk.length

mutual

/-- The lines of the indented listing of a tree whose root is `depth` levels deep. -/
def outline (depth : Nat) : Node → List String
  | ⟨_, kind, children, _⟩ =>
    (String.join (List.replicate depth "  ") ++ kind.label) :: outlines (depth + 1) children

def outlines (depth : Nat) : List Node → List String
  | [] => []
  | n :: ns => outline depth n ++ outlines depth ns

end

/-- The indented listing of the labels of a tree. -/
def pretty (n : Node) : String := "\n".intercalate (n.outline 0)

end Node

end ExprScript
