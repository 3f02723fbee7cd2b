import ExprScript.Proofs.Tree.Walk
import Mathlib.Logic.Function.Iterate

set_option autoImplicit false

/-! # The listing of a tree from the root down

A walk keeps the nodes still to visit on a stack, on which siblings from several levels wait at the
same time. `Node.nextStack` is what one call does to the stack. The node number `m` of a walk is on
top of the stack after `m` calls (`getElem?_walkFrom`), so a walk ends after as many calls as it
lists nodes.

The nodes of a walk and the lines of the indented listing are both read off `Node.entries`, where
the length of the address of a node is its depth (`walk_eq_map_entries_and`,
`outline_eq_map_entries_and`). The main statement is `walk_is_preorder`.
-/

namespace ExprScript.Node

/-! ## The stack -/

/-- The stack after one more node has been taken off and its children put in its place. -/
def nextStack : List Node → List Node
  | [] => []
  | n :: stack => n.children ++ stack

/-- The node number `m` of a walk is on top of the stack after `m` calls. -/
theorem getElem?_walkFrom (stack : List Node) (m : Nat) :
    (walkFrom stack)[m]? = (nextStack^[m] stack).head? := by
  induction m generalizing stack with
  | zero =>
      cases stack with
      | nil => rw [walkFrom_nil]; rfl
      | cons n stack => rw [walkFrom_cons]; rfl
  | succ m ih =>
      rw [Function.iterate_succ_apply]
      cases stack with
      | nil =>
          -- an empty stack stays empty
          rw [nextStack, ← ih, walkFrom_nil, List.getElem?_nil, List.getElem?_nil]
      | cons n stack => rw [walkFrom_cons, List.getElem?_cons_succ, ih, nextStack]

/-- The stack is empty once every node has been taken off, and not before. -/
theorem iterate_nextStack_eq_nil_iff (stack : List Node) (m : Nat) :
    nextStack^[m] stack = [] ↔ (walkFrom stack).length ≤ m := by
  rw [← List.head?_eq_none_iff, ← getElem?_walkFrom, List.getElem?_eq_none_iff]

/-! ## The nodes -/

theorem walkFrom_eq_flatMap (ns : List Node) : walkFrom ns = ns.flatMap walk := by
  induction ns with
  | nil => exact walkFrom_nil
  | cons n ns ih => rw [walkFrom_cons_eq, ih, List.flatMap_cons]

theorem walk_eq_cons_flatMap (n : Node) : n.walk = n :: n.children.flatMap walk := by
  rw [walk_eq, walkFrom_eq_flatMap]

theorem length_flatMap_walk (ns : List Node) :
    (ns.flatMap walk).length = ns.foldr (fun n total => n.count + total) 0 := by
  induction ns with
  | nil => rfl
  | cons n ns ih => rw [List.flatMap_cons, List.length_append, ih, List.foldr_cons, count]

/-- A tree has one node more than its subtrees together. -/
theorem count_eq (n : Node) :
    n.count = 1 + n.children.foldr (fun c total => c.count + total) 0 := by
  calc n.count
      = (n.children.flatMap walk).length + 1 := by
        rw [count, walk_eq_cons_flatMap, List.length_cons]
    _ = 1 + n.children.foldr (fun c total => c.count + total) 0 := by
        rw [length_flatMap_walk, Nat.add_comm]

theorem walk_eq_map_entries_and :
    (∀ n : Node, n.walk = n.entries.map Prod.snd) ∧
      ∀ (ns : List Node) (j : Nat), walkFrom ns = (entriesFrom j ns).map Prod.snd := by
  refine forestInduction (fun n ih => ?_) (fun j => walkFrom_nil) (fun n ns ihn ihns j => ?_)
  · rw [walk_eq, entries_eq, List.map_cons, ih 0]
  · rw [walkFrom_cons_eq, entriesFrom, List.map_append, List.map_map, ihn, ihns (j + 1)]
    rfl

/-! ## The lines -/

/-- The line of a node whose address is counted from a node `depth` levels deep. -/
def lineAt (depth : Nat) (e : List Nat × Node) : String :=
  String.join (List.replicate (depth + e.1.length) "  ") ++ e.2.label

/-- The indented listing follows the same order. -/
theorem outline_eq_map_entries_and :
    (∀ (n : Node) (depth : Nat), outline depth n = n.entries.map (lineAt depth)) ∧
      ∀ (ns : List Node) (j depth : Nat),
        outlines (depth + 1) ns = (entriesFrom j ns).map (lineAt depth) := by
  refine forestInduction (fun n ih depth => ?_) (fun j depth => rfl)
    (fun n ns ihn ihns j depth => ?_)
  · have houtline : outline depth n = lineAt depth ([], n) :: outlines (depth + 1) n.children := by
      cases n; rw [outline]; rfl
    rw [houtline, entries_eq, List.map_cons, ih 0]
  · -- below its parent, a node has an address that is longer by one
    have hline : lineAt depth ∘ (fun e => (j :: e.1, e.2)) = lineAt (depth + 1) := by
      funext e
      simp only [lineAt, Function.comp_apply, List.length_cons]
      rw [Nat.add_assoc, Nat.add_comm 1]
    rw [outlines, entriesFrom, List.map_append, List.map_map, hline, ihn, ihns (j + 1)]

theorem pretty_eq (n : Node) : n.pretty = "\n".intercalate (n.entries.map (lineAt 0)) := by
  rw [pretty, outline_eq_map_entries_and.1]

theorem feed_notMem_lineAt {depth : Nat} {e : List Nat × Node} (h : '\n' ∉ e.2.label.toList) :
    '\n' ∉ (lineAt depth e).toList := by
  unfold lineAt
  rw [String.toList_append, String.toList_join, List.mem_append, List.mem_flatMap]
  rintro (⟨margin, hmargin, hfeed⟩ | hfeed)
  · rw [List.eq_of_mem_replicate hmargin] at hfeed
    exact absurd hfeed (by decide)
  · exact h hfeed

/-- Labels without a line break take one line each. -/
theorem splitOn_pretty {n : Node} (h : ∀ m ∈ n.walk, '\n' ∉ m.label.toList) :
    n.pretty.toList.splitOn '\n' = n.entries.map fun e => (lineAt 0 e).toList := by
  have hlines : ∀ line ∈ n.entries.map (fun e => (lineAt 0 e).toList), '\n' ∉ line := by
    intro line hline
    obtain ⟨e, he, rfl⟩ := List.mem_map.mp hline
    apply feed_notMem_lineAt
    apply h
    rw [walk_eq_map_entries_and.1]
    exact List.mem_map_of_mem he
  have hne : n.entries.map (fun e => (lineAt 0 e).toList) ≠ [] := by
    rw [entries_eq]
    simp
  rw [pretty_eq, String.toList_intercalate, List.map_map]
  exact List.splitOn_intercalate '\n' hlines hne

/-! ## The listing -/

/-- The tree `n` is walked in the order of `listing`, in which every node has its address. -/
structure WalkedAs (n : Node) (listing : List (List Nat × Node)) : Prop where
  /-- Each call of a walk takes the next node off the stack, -/
  yields : ∀ m, n.walk[m]? = (nextStack^[m] [n]).head?
  /-- and the stack is empty after as many calls as there are nodes, not before. -/
  ends : ∀ m, nextStack^[m] [n] = [] ↔ n.count ≤ m
  /-- A node comes first, and then what is listed for each of its children. -/
  recursion : n.walk = n :: n.children.flatMap walk
  nodes : n.walk = listing.map Prod.snd
  /-- Every address of the tree is listed with the node that stands there, -/
  mem : ∀ a m, (a, m) ∈ listing ↔ n.at? a = some m
  /-- in pre-order, and so each of them once. -/
  order : listing.Pairwise fun e f => List.Lex (· < ·) e.1 f.1
  count : n.count = 1 + n.children.foldr (fun c total => c.count + total) 0
  /-- The printed text has the labels in this order, behind two spaces for each level. -/
  text : n.pretty = "\n".intercalate
    (listing.map fun e => String.join (List.replicate e.1.length "  ") ++ e.2.label)
  /-- Where no label has a line break, these are the lines of the text. -/
  lines : (∀ m ∈ n.walk, '\n' ∉ m.label.toList) →
    (n.pretty.toList.splitOn '\n').map String.ofList =
      listing.map fun e => String.join (List.replicate e.1.length "  ") ++ e.2.label

/-- **A walk lists a tree in pre-order**, each node once, and the printed text follows the walk. -/
theorem walk_is_preorder (n : Node) : ∃ listing, n.WalkedAs listing := by
  have hline : (fun e : List Nat × Node =>
      String.join (List.replicate e.1.length "  ") ++ e.2.label) = lineAt 0 := by
    funext e
    rw [lineAt, Nat.zero_add]
  refine ⟨n.entries, getElem?_walkFrom [n], iterate_nextStack_eq_nil_iff [n],
    walk_eq_cons_flatMap n, walk_eq_map_entries_and.1 n, mem_entries_and.1 n,
    sorted_entries_and.1 n, count_eq n, ?_, fun hlabels => ?_⟩
  · rw [hline]
    exact pretty_eq n
  · rw [hline, splitOn_pretty hlabels, List.map_map]
    exact List.map_congr_left fun e _ => String.ofList_toList

/-- The call of a name with another one, which takes five lines. -/
theorem walk_is_preorder_callOfName :
    ∃ (n : Node) (listing : List (List Nat × Node)), n.WalkedAs listing ∧
      (∀ m ∈ n.walk, '\n' ∉ m.label.toList) ∧
      listing.map (fun e => String.join (List.replicate e.1.length "  ") ++ e.2.label) =
        ["program", "  call expression", "    identifier: f", "    function arguments",
          "      identifier: a"] := by
  let f : Node := ⟨0, .identifier "f", [], .empty⟩
  let a : Node := ⟨1, .identifier "a", [], .empty⟩
  let call : Node := ⟨3, .call, [f, ⟨2, .arguments, [a], .empty⟩], .empty⟩
  let program : Node := ⟨4, .program, [call], .empty⟩
  have hwalk : program.walk.map label = ["program", "call expression", "identifier: f",
      "function arguments", "identifier: a"] := by
    simp only [walk, walkFrom_cons, walkFrom_nil, program, call, f, a, List.nil_append,
      List.append_nil]
    rfl
  have hunbroken : ∀ line ∈ ["program", "call expression", "identifier: f", "function arguments",
      "identifier: a"], '\n' ∉ line.toList := by decide
  have hlabels : ∀ m ∈ program.walk, '\n' ∉ m.label.toList := by
    intro m hm
    apply hunbroken
    rw [← hwalk]
    exact List.mem_map_of_mem hm
  obtain ⟨listing, h⟩ := walk_is_preorder program
  refine ⟨program, listing, h, hlabels, ?_⟩
  rw [← h.lines hlabels]
  decide +kernel

end ExprScript.Node
