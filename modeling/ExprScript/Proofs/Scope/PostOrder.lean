import ExprScript.Proofs.Scope.Enclosure
import Mathlib.Logic.Function.Iterate

set_option autoImplicit false

/-! # The order in which scopes are listed

`ScopeTree.postOrder` runs a loop on a stack. A scope comes to the top of it twice: first to have
the scopes in it put on the stack, and then, with a mark, to be listed. `ScopeTree.turn` is one turn
of that loop, and `ScopeTree.subtree` is the listing by recursion over the scopes.

The loop is taken apart by what one turn does. What has been listed and what the stack still stands
for are the same listing together before and after it (`pending_turn`), and the number of turns left
goes down by one (`turnsLeft_turn`). For this it is enough that every link leads to a higher number
(`Ascending`), and so the loop ends with the recursive listing (`stack_eq_nil_iff`,
`listed_of_stack_eq_nil`). That this has every scope once is a matter of the scopes of a program
forming a tree: the scopes listed for a scope are those it is around (`mem_subtree_iff`), and of two
scopes around a scope one is around the other (`mem_ancestors_of_lt`).
-/

namespace ExprScript.ScopeTree

/-! ## The scopes at and below a scope -/

/-- The scopes at and below the scope number `i`, each after those in it. A link that does not
lead to a higher number is not followed. -/
def subtree (t : ScopeTree) (i : Nat) : List Nat :=
  (t.childrenOf i).flatMap (fun k => if i < k ∧ k < t.size then t.subtree k else []) ++ [i]
termination_by t.size - i

def Ascending (t : ScopeTree) : Prop := ∀ i, ∀ k ∈ t.childrenOf i, i < k ∧ k < t.size

section Links

variable {t : ScopeTree} (ht : t.Ascending)
include ht

theorem subtree_eq (i : Nat) : t.subtree i = (t.childrenOf i).flatMap t.subtree ++ [i] := by
  rw [subtree]
  congr 1
  refine List.flatMap_congr fun k hk => ?_
  rw [if_pos (ht i k hk)]

/-- Induction over scopes: what passes from the children of a scope to the scope holds of every
scope. -/
theorem linksInduction {P : Nat → Prop} (step : ∀ i, (∀ k ∈ t.childrenOf i, P k) → P i) (i : Nat) :
    P i := by
  refine step i fun k hk => ?_
  have hlt := ht i k hk
  exact linksInduction step k
termination_by t.size - i

theorem mem_subtree {i j : Nat} :
    j ∈ t.subtree i ↔ j = i ∨ ∃ k ∈ t.childrenOf i, j ∈ t.subtree k := by
  rw [subtree_eq ht, List.mem_append, List.mem_flatMap, List.mem_singleton, or_comm]

/-- The scopes below a scope are listed in one piece. -/
theorem subtree_isInfix {i j : Nat} (h : j ∈ t.subtree i) : t.subtree j <:+: t.subtree i := by
  induction i using linksInduction ht with
  | step i ih =>
      rcases (mem_subtree ht).mp h with rfl | ⟨k, hk, hj⟩
      · exact List.infix_refl _
      · rw [subtree_eq ht i]
        have hchild : t.subtree k <:+: (t.childrenOf i).flatMap t.subtree :=
          List.infix_flatMap_of_mem hk t.subtree
        exact ((ih k hk hj).trans hchild).trans (List.prefix_append _ _).isInfix

end Links

/-! ## The loop -/

/-- A state of the loop: the stack, and the scopes listed so far. -/
structure Traversal where
  stack : List (Nat × Bool)
  listed : List Nat

/-- The states by what is on top of the stack: nothing, a scope with a mark, or one without. -/
theorem Traversal.topCases {P : Traversal → Prop} (done : ∀ listed, P ⟨[], listed⟩)
    (marked : ∀ i stack listed, P ⟨(i, true) :: stack, listed⟩)
    (fresh : ∀ i stack listed, P ⟨(i, false) :: stack, listed⟩) (s : Traversal) : P s := by
  obtain ⟨_ | ⟨⟨i, _ | _⟩, stack⟩, listed⟩ := s
  · exact done listed
  · exact fresh i stack listed
  · exact marked i stack listed

def turn (t : ScopeTree) : Traversal → Traversal
  | ⟨[], listed⟩ => ⟨[], listed⟩
  | ⟨(i, true) :: stack, listed⟩ => ⟨stack, listed ++ [i]⟩
  | ⟨(i, false) :: stack, listed⟩ =>
    ⟨(t.childrenOf i).map (·, false) ++ (i, true) :: stack, listed⟩

def start : Traversal := ⟨[(0, false)], []⟩

/-- The scopes listed in a number of turns are those listed with that much fuel. -/
theorem listed_iterate_turn (t : ScopeTree) (m : Nat) (s : Traversal) :
    (t.turn^[m] s).listed = s.listed ++ t.postOrderFrom m s.stack := by
  induction m generalizing s with
  | zero => simp [postOrderFrom]
  | succ m ih =>
      rw [Function.iterate_succ_apply, ih]
      cases s using Traversal.topCases with
      | done listed => cases m <;> simp [turn, postOrderFrom]
      | marked i stack listed => simp [turn, postOrderFrom]
      | fresh i stack listed => simp [turn, postOrderFrom]

/-- What is still to be listed when `stack` is on the stack. -/
def pending (t : ScopeTree) (stack : List (Nat × Bool)) : List Nat :=
  stack.flatMap fun e => if e.2 then [e.1] else t.subtree e.1

/-- The number of turns it takes to empty the stack. -/
def turnsLeft (t : ScopeTree) : List (Nat × Bool) → Nat
  | [] => 0
  | (_, true) :: stack => 1 + t.turnsLeft stack
  | (i, false) :: stack => 2 * (t.subtree i).length + t.turnsLeft stack

theorem pending_append_fresh (t : ScopeTree) (ks : List Nat) (stack : List (Nat × Bool)) :
    t.pending (ks.map (·, false) ++ stack) = ks.flatMap t.subtree ++ t.pending stack := by
  simp [pending, List.flatMap_map]

theorem turnsLeft_append_fresh (t : ScopeTree) (ks : List Nat) (stack : List (Nat × Bool)) :
    t.turnsLeft (ks.map (·, false) ++ stack) =
      2 * (ks.flatMap t.subtree).length + t.turnsLeft stack := by
  induction ks with
  | nil => simp
  | cons k ks ih =>
      rw [List.map_cons, List.cons_append, turnsLeft, ih, List.flatMap_cons, List.length_append]
      omega

section Turns

variable {t : ScopeTree} (ht : t.Ascending)
include ht

/-- **A turn keeps the listing**: what has been listed and what is still to be listed stay the
same together. -/
theorem pending_turn (s : Traversal) :
    (t.turn s).listed ++ t.pending (t.turn s).stack = s.listed ++ t.pending s.stack := by
  cases s using Traversal.topCases with
  | done listed => rfl
  | marked i stack listed => simp [turn, pending]
  | fresh i stack listed =>
      -- the children and the mark behind them stand for what the scope stood for
      have hexpand : t.pending ((t.childrenOf i).map (·, false) ++ (i, true) :: stack) =
          t.subtree i ++ t.pending stack := by
        rw [pending_append_fresh, subtree_eq ht i, List.append_assoc]
        rfl
      rw [turn, hexpand]
      rfl

/-- Each turn is one of those left. -/
theorem turnsLeft_turn (s : Traversal) :
    t.turnsLeft (t.turn s).stack = t.turnsLeft s.stack - 1 := by
  cases s using Traversal.topCases with
  | done listed => rfl
  | marked i stack listed => simp [turn, turnsLeft]
  | fresh i stack listed =>
      simp only [turn, turnsLeft, turnsLeft_append_fresh]
      rw [subtree_eq ht i, List.length_append, List.length_singleton]
      omega

theorem pending_iterate_turn (m : Nat) (s : Traversal) :
    (t.turn^[m] s).listed ++ t.pending (t.turn^[m] s).stack = s.listed ++ t.pending s.stack := by
  induction m with
  | zero => rfl
  | succ m ih => rw [Function.iterate_succ_apply', pending_turn ht, ih]

theorem turnsLeft_iterate_turn (m : Nat) (s : Traversal) :
    t.turnsLeft (t.turn^[m] s).stack = t.turnsLeft s.stack - m := by
  induction m with
  | zero => rfl
  | succ m ih =>
      rw [Function.iterate_succ_apply', turnsLeft_turn ht, ih]
      omega

/-- No turn is left exactly when the stack is empty. -/
theorem turnsLeft_eq_zero_iff {stack : List (Nat × Bool)} : t.turnsLeft stack = 0 ↔ stack = [] := by
  cases stack with
  | nil => simp [turnsLeft]
  | cons e stack =>
      obtain ⟨i, expanded⟩ := e
      cases expanded with
      | true => simp [turnsLeft]
      | false =>
          have hlength : 0 < (t.subtree i).length := by rw [subtree_eq ht]; simp
          simp only [turnsLeft, reduceCtorEq, iff_false]
          omega

/-- **The loop ends** after two turns for each entry of the recursive listing, and not before. -/
theorem stack_eq_nil_iff (m : Nat) :
    (t.turn^[m] start).stack = [] ↔ 2 * (t.subtree 0).length ≤ m := by
  have hstart : t.turnsLeft start.stack = 2 * (t.subtree 0).length := rfl
  rw [← turnsLeft_eq_zero_iff ht, turnsLeft_iterate_turn ht, hstart]
  omega

/-- **What the loop has listed in the end** is the recursive listing. -/
theorem listed_of_stack_eq_nil {m : Nat} (h : (t.turn^[m] start).stack = []) :
    (t.turn^[m] start).listed = t.subtree 0 := by
  have hkept := pending_iterate_turn ht m start
  rw [h] at hkept
  simpa [pending, start] using hkept

/-- A turn puts only scopes on the stack that are there. -/
theorem inBounds_turn {s : Traversal} (hs : ∀ e ∈ s.stack, e.1 < t.size) :
    ∀ e ∈ (t.turn s).stack, e.1 < t.size := by
  cases s using Traversal.topCases with
  | done listed => exact hs
  | marked i stack listed =>
      intro e he
      exact hs e (List.mem_cons_of_mem _ he)
  | fresh i stack listed =>
      intro e he
      rcases List.mem_append.mp he with he | he
      · obtain ⟨k, hk, rfl⟩ := List.mem_map.mp he
        exact (ht i k hk).2
      · rcases List.mem_cons.mp he with rfl | he
        · exact hs (i, false) List.mem_cons_self
        · exact hs e (List.mem_cons_of_mem _ he)

theorem inBounds_iterate_turn (hroot : 0 < t.size) (m : Nat) :
    ∀ e ∈ (t.turn^[m] start).stack, e.1 < t.size := by
  induction m with
  | zero =>
      intro e he
      obtain rfl : e = (0, false) := List.mem_singleton.mp he
      exact hroot
  | succ m ih =>
      rw [Function.iterate_succ_apply']
      exact inBounds_turn ht ih

end Turns

/-! ## The scopes of a program -/

open Node

variable {p : Node} {i j k l : Nat}

/-- A scope has a higher number than the scope around it. -/
theorem ascending_ofProgram (p : Node) : (ofProgram p).Ascending := by
  intro i k hk
  have hparent := mem_childrenOf_iff.mp hk
  exact ⟨lt_of_parentOf? hparent, lt_size_of_parentOf? hparent⟩

theorem mem_ancestors : i ∈ (ofProgram p).ancestors j ↔
    i = j ∨ ∃ q, q < j ∧ (ofProgram p).parentOf? j = some q ∧ i ∈ (ofProgram p).ancestors q := by
  rw [ancestors_eq, List.mem_cons]
  cases hparent : (ofProgram p).parentOf? j with
  | none => simp
  | some q => simp [lt_of_parentOf? hparent]

theorem le_of_mem_ancestors (h : i ∈ (ofProgram p).ancestors j) : i ≤ j := by
  induction j using Nat.strongRecOn with
  | ind j ih =>
      rcases mem_ancestors.mp h with rfl | ⟨q, hlt, -, hq⟩
      · exact Nat.le_refl i
      · have hle := ih q hlt hq
        omega

/-- The parent of a scope around a scope is around it too. -/
theorem mem_ancestors_of_parentOf? (h : k ∈ (ofProgram p).ancestors j)
    (hparent : (ofProgram p).parentOf? k = some i) : i ∈ (ofProgram p).ancestors j := by
  induction j using Nat.strongRecOn with
  | ind j ih =>
      rcases mem_ancestors.mp h with rfl | ⟨q, hlt, hq, hk⟩
      · have hself : i ∈ (ofProgram p).ancestors i := mem_ancestors.mpr (.inl rfl)
        exact mem_ancestors.mpr (.inr ⟨i, lt_of_parentOf? hparent, hparent, hself⟩)
      · exact mem_ancestors.mpr (.inr ⟨q, hlt, hq, ih q hlt hk⟩)

/-- Of two scopes around a scope, one is around the other. -/
theorem mem_ancestors_of_lt (hk : k ∈ (ofProgram p).ancestors j)
    (hl : l ∈ (ofProgram p).ancestors j) (hkl : k < l) : k ∈ (ofProgram p).ancestors l := by
  induction j using Nat.strongRecOn with
  | ind j ih =>
      rcases mem_ancestors.mp hl with rfl | ⟨q, hlt, hq, hl'⟩
      · exact hk
      · rcases mem_ancestors.mp hk with rfl | ⟨q', -, hq', hk'⟩
        · have hle := le_of_mem_ancestors hl'
          omega
        · obtain rfl : q' = q := Option.some.inj (hq'.symm.trans hq)
          exact ih q' hlt hk' hl'

/-- **The scopes listed for a scope are those it is around**, itself included. -/
theorem mem_subtree_iff : j ∈ (ofProgram p).subtree i ↔ i ∈ (ofProgram p).ancestors j := by
  have hlinks := ascending_ofProgram p
  constructor
  · intro h
    induction i using linksInduction hlinks with
    | step i ih =>
        rcases (mem_subtree hlinks).mp h with rfl | ⟨k, hk, hj⟩
        · exact mem_ancestors.mpr (.inl rfl)
        · exact mem_ancestors_of_parentOf? (ih k hk hj) (mem_childrenOf_iff.mp hk)
  · intro h
    induction j using Nat.strongRecOn with
    | ind j ih =>
        have hself : j ∈ (ofProgram p).subtree j := (mem_subtree hlinks).mpr (.inl rfl)
        rcases mem_ancestors.mp h with rfl | ⟨q, hlt, hq, hi⟩
        · exact hself
        · have hj : j ∈ (ofProgram p).subtree q :=
            (mem_subtree hlinks).mpr (.inr ⟨j, mem_childrenOf_iff.mpr hq, hself⟩)
          exact (subtree_isInfix hlinks (ih q hlt hi)).subset hj

/-- No scope is at or below two children of a scope. -/
theorem disjoint_subtree (hk : k ∈ (ofProgram p).childrenOf i) (hl : l ∈ (ofProgram p).childrenOf i)
    (hkl : k < l) : List.Disjoint ((ofProgram p).subtree k) ((ofProgram p).subtree l) := by
  intro j hjk hjl
  have haround := mem_ancestors_of_lt (mem_subtree_iff.mp hjk) (mem_subtree_iff.mp hjl) hkl
  rcases mem_ancestors.mp haround with rfl | ⟨q, -, hq, hkq⟩
  · exact Nat.lt_irrefl k hkl
  · -- then the one child would be around their common parent
    obtain rfl : q = i := Option.some.inj (hq.symm.trans (mem_childrenOf_iff.mp hl))
    have hle := le_of_mem_ancestors hkq
    have hlt := (ascending_ofProgram p q k hk).1
    omega

theorem sorted_childrenOf (p : Node) (i : Nat) : ((ofProgram p).childrenOf i).Pairwise (· < ·) := by
  rw [childrenOf_eq]
  exact List.pairwise_lt_range.sublist List.filter_sublist

theorem nodup_subtree (p : Node) (i : Nat) : ((ofProgram p).subtree i).Nodup := by
  have hlinks := ascending_ofProgram p
  induction i using linksInduction hlinks with
  | step i ih =>
      rw [subtree_eq hlinks, List.nodup_append]
      refine ⟨List.nodup_flatMap.mpr ⟨ih, ?_⟩, List.nodup_singleton i, ?_⟩
      · refine (sorted_childrenOf p i).imp_of_mem fun hk hl hkl => ?_
        exact disjoint_subtree hk hl hkl
      · intro j hj m hm hjm
        obtain ⟨k, hk, hjk⟩ := List.mem_flatMap.mp hj
        have hle := le_of_mem_ancestors (mem_subtree_iff.mp hjk)
        have hlt := (hlinks i k hk).1
        have hmi : m = i := List.mem_singleton.mp hm
        omega

theorem zero_mem_ancestors_iff : 0 ∈ (ofProgram p).ancestors j ↔ j < (ofProgram p).size := by
  constructor
  · intro h
    rcases mem_ancestors.mp h with rfl | ⟨q, -, hq, -⟩
    · rw [ofProgram_eq]
      exact Nat.succ_pos _
    · exact lt_size_of_parentOf? hq
  · intro h
    exact List.mem_of_getLast? (getLast?_ancestors h)

/-- The recursive listing from the root has every scope once. -/
theorem perm_subtree (p : Node) :
    ((ofProgram p).subtree 0).Perm (List.range (ofProgram p).size) := by
  refine (List.perm_ext_iff_of_nodup (nodup_subtree p 0) List.nodup_range).mpr fun j => ?_
  rw [mem_subtree_iff, zero_mem_ancestors_iff, List.mem_range]

theorem length_subtree (p : Node) : ((ofProgram p).subtree 0).length = (ofProgram p).size := by
  rw [(perm_subtree p).length_eq, List.length_range]

theorem stack_ofProgram_eq_nil_iff (p : Node) (m : Nat) :
    ((ofProgram p).turn^[m] start).stack = [] ↔ 2 * (ofProgram p).size ≤ m := by
  rw [stack_eq_nil_iff (ascending_ofProgram p), length_subtree]

theorem postOrder_eq_subtree (p : Node) : (ofProgram p).postOrder = (ofProgram p).subtree 0 := by
  have hempty := (stack_ofProgram_eq_nil_iff p _).mpr (Nat.le_refl (2 * (ofProgram p).size))
  calc (ofProgram p).postOrder
      = ((ofProgram p).turn^[2 * (ofProgram p).size] start).listed := by
        rw [listed_iterate_turn]; rfl
    _ = (ofProgram p).subtree 0 := listed_of_stack_eq_nil (ascending_ofProgram p) hempty

theorem subtree_isInfix_postOrder (h : i < (ofProgram p).size) :
    (ofProgram p).subtree i <:+: (ofProgram p).postOrder := by
  rw [postOrder_eq_subtree]
  apply subtree_isInfix (ascending_ofProgram p)
  rwa [mem_subtree_iff, zero_mem_ancestors_iff]

/-- In a list without repetitions, what stands in front of an item has a smaller index. -/
theorem idxOf_lt_of_nodup {front back : List Nat} (h : (front ++ i :: back).Nodup)
    (hj : j ∈ front) : (front ++ i :: back).idxOf j < (front ++ i :: back).idxOf i := by
  have hi : i ∉ front := by
    intro hi
    exact (List.nodup_append.mp h).2.2 i hi i List.mem_cons_self rfl
  have hlt := List.idxOf_lt_length_of_mem hj
  rw [List.idxOf_append_of_mem hj, List.idxOf_append_of_notMem hi]
  omega

/-- A scope comes after every scope it is around. -/
theorem idxOf_postOrder_lt (h : i ∈ (ofProgram p).ancestors j) (hne : i ≠ j) :
    (ofProgram p).postOrder.idxOf j < (ofProgram p).postOrder.idxOf i := by
  have hlinks := ascending_ofProgram p
  have hi : i < (ofProgram p).size := by
    have hle := le_of_mem_ancestors h
    rcases mem_ancestors.mp h with heq | ⟨q, -, hq, -⟩
    · exact absurd heq hne
    · have hj := lt_size_of_parentOf? hq
      omega
  have hinner : j ∈ ((ofProgram p).childrenOf i).flatMap (ofProgram p).subtree := by
    have hj := mem_subtree_iff.mpr h
    rw [subtree_eq hlinks] at hj
    rcases List.mem_append.mp hj with hj | hj
    · exact hj
    · exact absurd (List.mem_singleton.mp hj).symm hne
  obtain ⟨before, after, hinfix⟩ := subtree_isInfix_postOrder hi
  have hnodup := nodup_subtree p 0
  -- the scope stands right behind those in it
  rw [subtree_eq hlinks, ← List.append_assoc, List.append_assoc _ [i], List.singleton_append]
    at hinfix
  rw [← postOrder_eq_subtree, ← hinfix] at hnodup
  rw [← hinfix]
  exact idxOf_lt_of_nodup hnodup (List.mem_append_right before hinner)

/-- The scope number `k` was opened before the scope number `l` in the program. -/
def OpenedBefore (p : Node) (k l : Nat) : Prop :=
  ∃ a b, p.scopePlaces[k]? = some a ∧ p.scopePlaces[l]? = some b ∧ List.Lex (· < ·) a b

theorem childrenOf_openedBefore (p : Node) (i : Nat) :
    ((ofProgram p).childrenOf i).Pairwise (OpenedBefore p) := by
  refine (sorted_childrenOf p i).imp_of_mem fun {k l} hk hl hkl => ?_
  obtain ⟨a, ha⟩ := exists_place (ascending_ofProgram p i k hk).2
  obtain ⟨b, hb⟩ := exists_place (ascending_ofProgram p i l hl).2
  refine ⟨a, b, ha, hb, ?_⟩
  obtain ⟨hk', rfl⟩ := List.getElem?_eq_some_iff.mp ha
  obtain ⟨hl', rfl⟩ := List.getElem?_eq_some_iff.mp hb
  exact List.pairwise_iff_getElem.mp (sorted_scopePlaces p) k l hk' hl' hkl

/-! ## The listing -/

/-- `order` lists the scopes `t` of the program `p` from the inside out. -/
structure ListsInsideOut (t : ScopeTree) (p : Node) (order : List Nat) : Prop where
  /-- With fuel for `m` turns the loop lists what it has listed after `m` turns. -/
  turns : ∀ m, (t.turn^[m] start).listed = t.postOrderFrom m start.stack
  /-- It ends after two turns for each scope, and not before, -/
  ends : ∀ m, (t.turn^[m] start).stack = [] ↔ 2 * t.size ≤ m
  /-- it never looks for a scope that is not there, -/
  inBounds : ∀ m, ∀ e ∈ (t.turn^[m] start).stack, e.1 < t.size
  /-- and this is what it has listed then. -/
  result : ∀ m, 2 * t.size ≤ m → (t.turn^[m] start).listed = order
  /-- Every scope is listed once. -/
  once : order.Perm (List.range t.size)
  /-- The order is that of a recursion from the root, -/
  whole : order = t.subtree 0
  /-- in which a scope comes right behind what is listed for its children, one after the other. -/
  recursion : ∀ i, t.subtree i = (t.childrenOf i).flatMap t.subtree ++ [i]
  /-- What is listed for a scope are the scopes at and below it, -/
  below : ∀ i j, j ∈ t.subtree i ↔ i ∈ t.ancestors j
  /-- and these stand together. -/
  contiguous : ∀ i < t.size, t.subtree i <:+: order
  /-- So a scope comes after all scopes below it, -/
  after : ∀ i j, i ∈ t.ancestors j → i ≠ j → order.idxOf j < order.idxOf i
  /-- and the root's comes last. -/
  last : order.getLast? = some 0
  /-- The scopes were opened at these places of the program, -/
  contexts : t.scopes.map (fun s => some s.context) = p.scopePlaces.map p.at?
  /-- and the children of a scope are in the order of their places. -/
  siblings : ∀ i, (t.childrenOf i).Pairwise (OpenedBefore p)

/-- **The loop lists the scopes of a program from the inside out**, in the order of the recursion
over them. -/
theorem postOrder_inside_out (p : Node) :
    (ofProgram p).ListsInsideOut p (ofProgram p).postOrder := by
  have hlinks := ascending_ofProgram p
  have hroot : 0 < (ofProgram p).size := zero_mem_ancestors_iff.mp (mem_ancestors.mpr (.inl rfl))
  refine ⟨fun m => listed_iterate_turn _ m start, stack_ofProgram_eq_nil_iff p,
    inBounds_iterate_turn hlinks hroot, fun m hm => ?_, ?_, postOrder_eq_subtree p,
    subtree_eq hlinks, fun i j => mem_subtree_iff, fun i hi => subtree_isInfix_postOrder hi,
    fun i j => idxOf_postOrder_lt, ?_, contexts_eq p, childrenOf_openedBefore p⟩
  · rw [listed_of_stack_eq_nil hlinks ((stack_ofProgram_eq_nil_iff p m).mpr hm),
      postOrder_eq_subtree]
  · rw [postOrder_eq_subtree]
    exact perm_subtree p
  · rw [postOrder_eq_subtree, subtree_eq hlinks, List.getLast?_concat]

end ExprScript.ScopeTree
