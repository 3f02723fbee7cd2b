import ExprScript.Proofs.Tree.Address
import ExprScript.Tree.Walk

set_option autoImplicit false

/-! # A walk goes through the tree in pre-order

`Node.walk` works on a stack. What it lists for a stack is what it lists for the parts of that
stack, one after the other (`walkFrom_append`), and so a node comes first and the walks of its
children follow (`walk_eq`, `walkFrom_cons_eq`). In particular a walk lists as many nodes as
there are in the listing from the leaves up (`count_eq_length_postorder`).
-/

namespace ExprScript.Node

theorem walkFrom_nil : walkFrom [] = [] := by rw [walkFrom]

theorem walkFrom_cons (n : Node) (ns : List Node) :
    walkFrom (n :: ns) = n :: walkFrom (n.children ++ ns) := by rw [walkFrom]

/-- What lies deeper on the stack waits until everything above it has been listed. -/
theorem walkFrom_append (ms ns : List Node) :
    walkFrom (ms ++ ns) = walkFrom ms ++ walkFrom ns := by
  induction ms using walkFrom.induct with
  | case1 => rw [walkFrom_nil, List.nil_append, List.nil_append]
  | case2 n stack ih =>
      rw [List.cons_append, walkFrom_cons, walkFrom_cons, ← List.append_assoc, ih, List.cons_append]

theorem walk_eq (n : Node) : n.walk = n :: walkFrom n.children := by
  rw [walk, walkFrom_cons, List.append_nil]

theorem walkFrom_cons_eq (n : Node) (ns : List Node) :
    walkFrom (n :: ns) = n.walk ++ walkFrom ns := by
  rw [walkFrom_cons, walkFrom_append, walk_eq, List.cons_append]

theorem count_and :
    (∀ n : Node, n.count = n.postorder.length) ∧
      ∀ ns : List Node, (walkFrom ns).length = (ns.flatMap postorder).length := by
  refine forestInduction (fun n ih => ?_) ?_ (fun n ns ihn ihns => ?_)
  · rw [count, walk_eq, postorder_eq, List.length_cons, List.length_append, ih]
    rfl
  · rw [walkFrom_nil]
    rfl
  · rw [walkFrom_cons_eq, List.flatMap_cons, List.length_append, List.length_append, ihns, ← ihn]
    rfl

/-- A walk and the listing from the leaves up have the same length. -/
theorem count_eq_length_postorder (n : Node) : n.count = n.postorder.length := count_and.1 n

end ExprScript.Node
