import ExprScript.Tree.Node
import Mathlib.Data.List.Nodup

set_option autoImplicit false

/-! # Addresses in a program tree

A place in a program tree is given by its *address*: the numbers of the children to take from
the root on (`Node.at?`). Two places are two even where the nodes at them look alike, so
statements about "every node of a tree" are made about addresses.

`Node.entries` lists the nodes of a tree from the root down, each with its address. The addresses
are in lexicographic order, which is pre-order (`sorted_entries_and`), and every address of the tree
is listed, with the node that stands there (`mem_entries_and`).

`Node.postorder` lists the nodes of a tree from the leaves up. A node is in it exactly when it
stands at some address, and the ids in it are distinct exactly when no two addresses share an
id (`DistinctIds.nodup`, `distinctIds_of_nodup`).
-/

namespace ExprScript

namespace Node

/-- Induction over a program tree: what passes from the children of a node to the node holds
of every node. -/
theorem childrenInduction {P : Node → Prop} (step : ∀ n : Node, (∀ c ∈ n.children, P c) → P n)
    (n : Node) : P n := by
  obtain ⟨id, kind, children, span⟩ := n
  refine step _ fun c hc => ?_
  have hlt := List.sizeOf_lt_of_mem hc
  exact childrenInduction step c
termination_by sizeOf n
decreasing_by
  simp only [Node.mk.sizeOf_spec] at *
  omega

/-- Induction over a program tree and lists of subtrees at once, for functions that number the
subtrees of a list one after the other. -/
theorem forestInduction {P : Node → Prop} {Q : List Node → Prop}
    (node : ∀ n : Node, Q n.children → P n) (nil : Q [])
    (cons : ∀ (n : Node) (ns : List Node), P n → Q ns → Q (n :: ns)) :
    (∀ n, P n) ∧ ∀ ns, Q ns := by
  have list : ∀ ns : List Node, (∀ n ∈ ns, P n) → Q ns := by
    intro ns
    induction ns with
    | nil => intro _; exact nil
    | cons n ns ih =>
        intro h
        exact cons n ns (h n (by simp)) (ih fun m hm => h m (by simp [hm]))
  have each : ∀ n, P n := childrenInduction fun n ih => node n (list n.children ih)
  exact ⟨each, fun ns => list ns fun n _ => each n⟩

/-! ## Navigation -/

/-- The node reached by taking the child with each of the given numbers in turn. -/
def at? (n : Node) : List Nat → Option Node
  | [] => some n
  | j :: a =>
    match n.children[j]? with
    | some c => c.at? a
    | none => none

@[simp] theorem at?_nil (n : Node) : n.at? [] = some n := rfl

theorem at?_cons_eq_some {n m : Node} {j : Nat} {a : List Nat} :
    n.at? (j :: a) = some m ↔ ∃ c, n.children[j]? = some c ∧ c.at? a = some m := by
  show (match n.children[j]? with | some c => c.at? a | none => none) = some m ↔ _
  cases n.children[j]? with
  | none => simp
  | some c => simp

/-- An address that goes on leads from the node reached first to the node reached then. -/
theorem at?_append_eq_some {n m : Node} {a b : List Nat} :
    n.at? (a ++ b) = some m ↔ ∃ q, n.at? a = some q ∧ q.at? b = some m := by
  induction a generalizing n with
  | nil => simp
  | cons j a ih =>
      rw [List.cons_append, at?_cons_eq_some]
      constructor
      · rintro ⟨c, hc, hm⟩
        obtain ⟨q, hq, hm'⟩ := ih.mp hm
        exact ⟨q, at?_cons_eq_some.mpr ⟨c, hc, hq⟩, hm'⟩
      · rintro ⟨q, hq, hm⟩
        obtain ⟨c, hc, hq'⟩ := at?_cons_eq_some.mp hq
        exact ⟨c, hc, ih.mpr ⟨q, hq', hm⟩⟩

/-- What passes from a node to its children passes to every place of a tree. -/
theorem of_at? {P : Node → Prop} (child : ∀ {n c : Node}, P n → c ∈ n.children → P c)
    {n m : Node} {a : List Nat} (h : P n) (ha : n.at? a = some m) : P m := by
  induction a generalizing n with
  | nil =>
      obtain rfl : n = m := by simpa using ha
      exact h
  | cons j a ih =>
      obtain ⟨c, hc, ha'⟩ := at?_cons_eq_some.mp ha
      exact ih (child h (List.mem_of_getElem? hc)) ha'

/-! ## Listing from the root down -/

mutual

/-- The nodes of a tree with their addresses, each before its children. -/
def entries : Node → List (List Nat × Node)
  | n@⟨_, _, children, _⟩ => ([], n) :: entriesFrom 0 children

/-- The nodes below a node with their addresses, from its child number `j` on. -/
def entriesFrom (j : Nat) : List Node → List (List Nat × Node)
  | [] => []
  | n :: ns => (entries n).map (fun e => (j :: e.1, e.2)) ++ entriesFrom (j + 1) ns

end

theorem entries_eq (n : Node) : n.entries = ([], n) :: entriesFrom 0 n.children := by
  cases n; rw [entries]

/-- What is listed at an address is the node that stands there. -/
theorem mem_entries_and :
    (∀ (n : Node) (a : List Nat) (m : Node), (a, m) ∈ n.entries ↔ n.at? a = some m) ∧
    ∀ (ns : List Node) (j : Nat) (a : List Nat) (m : Node), (a, m) ∈ entriesFrom j ns ↔
      ∃ l b c, a = (j + l) :: b ∧ ns[l]? = some c ∧ c.at? b = some m := by
  refine forestInduction (fun n ih a m => ?_) (fun j a m => ?_) (fun n ns ihn ihns j a m => ?_)
  · rw [entries_eq, List.mem_cons, ih]
    cases a with
    | nil => simp [eq_comm]
    | cons l b => simp [at?_cons_eq_some]
  · simp [entriesFrom]
  · rw [entriesFrom, List.mem_append, List.mem_map, ihns]
    constructor
    · rintro (⟨⟨b, m'⟩, hb, he⟩ | ⟨l, b, c, rfl, hc, hm⟩)
      · obtain ⟨rfl, rfl⟩ := Prod.mk.inj he
        exact ⟨0, b, n, rfl, rfl, (ihn b m').mp hb⟩
      · exact ⟨l + 1, b, c, by rw [Nat.add_assoc, Nat.add_comm 1 l], hc, hm⟩
    · rintro ⟨_ | l, b, c, rfl, hc, hm⟩
      · obtain rfl : n = c := Option.some.inj hc
        exact .inl ⟨(b, m), (ihn b m).mpr hm, rfl⟩
      · exact .inr ⟨l, b, c, by rw [Nat.add_assoc, Nat.add_comm 1 l], hc, hm⟩

/-- The addresses are listed in pre-order, and each of them once. -/
theorem sorted_entries_and :
    (∀ n : Node, n.entries.Pairwise fun e f => List.Lex (· < ·) e.1 f.1) ∧
      ∀ (ns : List Node) (j : Nat),
        (entriesFrom j ns).Pairwise fun e f => List.Lex (· < ·) e.1 f.1 := by
  refine forestInduction (fun n ih => ?_) (fun j => .nil) (fun n ns ihn ihns j => ?_)
  · rw [entries_eq, List.pairwise_cons]
    refine ⟨fun e he => ?_, ih 0⟩
    obtain ⟨l, b, c, ha, -⟩ := (mem_entries_and.2 _ _ _ _).mp he
    rw [ha]
    exact .nil
  · rw [entriesFrom, List.pairwise_append]
    refine ⟨List.pairwise_map.mpr (ihn.imp .cons), ihns (j + 1), fun e he f hf => ?_⟩
    -- the addresses below the first child begin with a smaller number than all others
    obtain ⟨d, -, rfl⟩ := List.mem_map.mp he
    obtain ⟨l, b, c, ha, -⟩ := (mem_entries_and.2 _ _ _ _).mp hf
    rw [ha]
    exact .rel (by omega)

/-! ## Listing from the leaves up -/

mutual

def postorder : Node → List Node
  | n@⟨_, _, children, _⟩ => postorderAll children ++ [n]

def postorderAll : List Node → List Node
  | [] => []
  | n :: ns => postorder n ++ postorderAll ns

end

theorem postorderAll_eq_flatMap (ns : List Node) : postorderAll ns = ns.flatMap postorder := by
  induction ns with
  | nil => rfl
  | cons n ns ih => rw [postorderAll, ih, List.flatMap_cons]

theorem postorder_eq (n : Node) : n.postorder = n.children.flatMap postorder ++ [n] := by
  obtain ⟨id, kind, children, span⟩ := n
  rw [postorder, postorderAll_eq_flatMap]

/-- The nodes listed are those that stand at some address. -/
theorem mem_postorder_iff {n m : Node} : m ∈ n.postorder ↔ ∃ a, n.at? a = some m := by
  induction n using childrenInduction with
  | step n ih =>
      rw [postorder_eq, List.mem_append, List.mem_flatMap, List.mem_singleton]
      constructor
      · rintro (⟨c, hc, hm⟩ | rfl)
        · obtain ⟨a, ha⟩ := (ih c hc).mp hm
          obtain ⟨j, hj⟩ := List.mem_iff_getElem?.mp hc
          exact ⟨j :: a, at?_cons_eq_some.mpr ⟨c, hj, ha⟩⟩
        · exact ⟨[], rfl⟩
      · rintro ⟨a, ha⟩
        cases a with
        | nil => exact Or.inr (by simpa using ha.symm)
        | cons j a =>
            obtain ⟨c, hc, ha'⟩ := at?_cons_eq_some.mp ha
            have hmem : c ∈ n.children := List.mem_of_getElem? hc
            exact Or.inl ⟨c, hmem, (ih c hmem).mpr ⟨a, ha'⟩⟩

/-! ## Distinct ids -/

/-- No two places of the tree share an id. -/
def DistinctIds (n : Node) : Prop :=
  ∀ (a b : List Nat) (x y : Node),
    n.at? a = some x → n.at? b = some y → x.id = y.id → a = b

theorem DistinctIds.child {n c : Node} {j : Nat} (h : n.DistinctIds)
    (hc : n.children[j]? = some c) : c.DistinctIds := by
  intro a b x y ha hb hxy
  have hab := h (j :: a) (j :: b) x y (at?_cons_eq_some.mpr ⟨c, hc, ha⟩)
    (at?_cons_eq_some.mpr ⟨c, hc, hb⟩) hxy
  exact (List.cons.inj hab).2

/-- Where no two places share an id, no id is listed twice. -/
theorem DistinctIds.nodup {n : Node} (h : n.DistinctIds) : (n.postorder.map id).Nodup := by
  induction n using childrenInduction with
  | step n ih =>
      rw [postorder_eq, List.map_append, List.map_flatMap, List.nodup_append]
      refine ⟨List.nodup_flatMap.mpr ⟨?_, ?_⟩, by simp, ?_⟩
      · intro c hc
        obtain ⟨j, hj⟩ := List.mem_iff_getElem?.mp hc
        exact ih c hc (h.child hj)
      · rw [List.pairwise_iff_getElem]
        intro i j hi hj hij x hx hy
        -- one id in the listings of two children would stand at two addresses
        obtain ⟨m, hm, rfl⟩ := List.mem_map.mp hx
        obtain ⟨m', hm', hid⟩ := List.mem_map.mp hy
        obtain ⟨a, ha⟩ := mem_postorder_iff.mp hm
        obtain ⟨b, hb⟩ := mem_postorder_iff.mp hm'
        have hab := h (i :: a) (j :: b) m m'
          (at?_cons_eq_some.mpr ⟨_, List.getElem?_eq_getElem hi, ha⟩)
          (at?_cons_eq_some.mpr ⟨_, List.getElem?_eq_getElem hj, hb⟩) hid.symm
        have : i = j := (List.cons.inj hab).1
        omega
      · intro x hx y hy hxy
        obtain ⟨c, hc, hx'⟩ := List.mem_flatMap.mp hx
        obtain ⟨m, hm, rfl⟩ := List.mem_map.mp hx'
        obtain ⟨a, ha⟩ := mem_postorder_iff.mp hm
        obtain ⟨j, hj⟩ := List.mem_iff_getElem?.mp hc
        have hyn : y = n.id := by simpa using hy
        have hab := h (j :: a) [] m n (at?_cons_eq_some.mpr ⟨c, hj, ha⟩) rfl (hxy.trans hyn)
        exact absurd hab (by simp)

/-- Where no id is listed twice, no two places share an id. -/
theorem distinctIds_of_nodup {n : Node} (h : (n.postorder.map id).Nodup) : n.DistinctIds := by
  induction n using childrenInduction with
  | step n ih =>
      rw [postorder_eq, List.map_append, List.map_flatMap, List.nodup_append] at h
      obtain ⟨hchildren, -, hroot⟩ := h
      obtain ⟨heach, hpair⟩ := List.nodup_flatMap.mp hchildren
      -- two places are the root and one below it, or below two children, or below the same child
      have hbelow : ∀ {j : Nat} {c m : Node} {a : List Nat}, n.children[j]? = some c →
          c.at? a = some m → m.id ≠ n.id := by
        intro j c m a hc ha
        refine hroot m.id (List.mem_flatMap.mpr ⟨c, List.mem_of_getElem? hc, ?_⟩) n.id (by simp)
        exact List.mem_map_of_mem (mem_postorder_iff.mpr ⟨a, ha⟩)
      have hapart : ∀ {i j : Nat} {c d m m' : Node} {a b : List Nat}, i < j →
          n.children[i]? = some c → n.children[j]? = some d → c.at? a = some m →
          d.at? b = some m' → m.id ≠ m'.id := by
        intro i j c d m m' a b hij hc hd ha hb heq
        obtain ⟨hi, rfl⟩ := List.getElem?_eq_some_iff.mp hc
        obtain ⟨hj, rfl⟩ := List.getElem?_eq_some_iff.mp hd
        refine (List.pairwise_iff_getElem.mp hpair) i j hi hj hij
          (List.mem_map_of_mem (mem_postorder_iff.mpr ⟨a, ha⟩)) ?_
        rw [heq]
        exact List.mem_map_of_mem (mem_postorder_iff.mpr ⟨b, hb⟩)
      intro a b x y ha hb hxy
      cases a with
      | nil =>
          cases b with
          | nil => rfl
          | cons j b =>
              obtain ⟨d, hd, hb'⟩ := at?_cons_eq_some.mp hb
              obtain rfl : n = x := by simpa using ha
              exact absurd hxy.symm (hbelow hd hb')
      | cons i a =>
          obtain ⟨c, hc, ha'⟩ := at?_cons_eq_some.mp ha
          cases b with
          | nil =>
              obtain rfl : n = y := by simpa using hb
              exact absurd hxy (hbelow hc ha')
          | cons j b =>
              obtain ⟨d, hd, hb'⟩ := at?_cons_eq_some.mp hb
              rcases Nat.lt_trichotomy i j with hij | rfl | hij
              · exact absurd hxy (hapart hij hc hd ha' hb')
              · obtain rfl : c = d := by
                  rw [hc] at hd
                  exact Option.some.inj hd
                have := ih c (List.mem_of_getElem? hc) (heach c (List.mem_of_getElem? hc))
                  a b x y ha' hb' hxy
                rw [this]
              · exact absurd hxy.symm (hapart hij hd hc hb' ha')

end Node

end ExprScript
