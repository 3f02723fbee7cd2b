import ExprScript.Check.Run
import ExprScript.Proofs.Scope.Numbering
import ExprScript.Proofs.Scope.Region

set_option autoImplicit false

/-! # The visits of a check

A check walks the subtree of every scope, the inner scopes first, and leaves out what it has
visited before. Here its visits are listed by recursion over the program tree, with the scope
and the parent the rules are shown.

* `Node.ownVisits i` are the visits of the scope number `i` that the node opens: its subtree from
  the leaves up, less the subtrees of the scopes further in.
* `Node.visitsBelow k` are the visits of all scopes at and below a node, numbered from `k` on.

Together the two list every node of a tree once (`visits_perm`), and what is shown at a visit can
be read off the address of the node (`of_mem_visits`): the scope shown stands for the regions
around it, and the parent shown is the one in the tree unless the node opened the scope.
-/

namespace ExprScript

/-- One run of the rules at a node. -/
structure Visit where
  /-- the address of the node -/
  place : List Nat
  node : Node
  /-- the number of the scope the rules are shown -/
  scope : Nat
  /-- the parent the rules are shown -/
  parent : Option Node

namespace Visit

/-- The visit, seen from a node whose child number `j` is the tree visited. -/
def under (j : Nat) (v : Visit) : Visit := { v with place := j :: v.place }

@[simp] theorem under_place (j : Nat) (v : Visit) : (v.under j).place = j :: v.place := rfl
@[simp] theorem under_node (j : Nat) (v : Visit) : (v.under j).node = v.node := rfl
@[simp] theorem under_scope (j : Nat) (v : Visit) : (v.under j).scope = v.scope := rfl
@[simp] theorem under_parent (j : Nat) (v : Visit) : (v.under j).parent = v.parent := rfl

/-- What the rules are shown at a visit. -/
def shown (v : Visit) : Nat × Node × Option Node := (v.scope, v.node, v.parent)

@[simp] theorem under_shown (j : Nat) (v : Visit) : (v.under j).shown = v.shown := rfl

def findings (rules : RuleSet) (t : ScopeTree) (v : Visit) : List Diagnostic :=
  rules.findings v.node ⟨t, v.scope, v.parent⟩

@[simp] theorem under_findings (rules : RuleSet) (t : ScopeTree) (j : Nat) (v : Visit) :
    (v.under j).findings rules t = v.findings rules t := rfl

end Visit

namespace Node

/-! ## The lists of visits -/

mutual

/-- The visits of a subtree in the scope number `i`, where `parent` is the node above it. -/
def visitsIn (i : Nat) (parent : Node) : Node → List Visit
  | n@⟨_, _, children, _⟩ =>
    if n.isScopeForming then [] else visitsInAll i n 0 children ++ [⟨[], n, i, some parent⟩]

/-- The visits of the children of `parent` from the child number `j` on. -/
def visitsInAll (i : Nat) (parent : Node) (j : Nat) : List Node → List Visit
  | [] => []
  | n :: ns => (visitsIn i parent n).map (.under j) ++ visitsInAll i parent (j + 1) ns

end

/-- The visits of the scope number `i` opened by a node. -/
def ownVisits (i : Nat) (n : Node) : List Visit :=
  visitsInAll i n 0 n.children ++ [⟨[], n, i, none⟩]

mutual

/-- The visits of the scopes at and below a node, numbered from `k` on. -/
def visitsBelow (k : Nat) : Node → List Visit
  | n@⟨_, _, children, _⟩ =>
    if n.isScopeForming then visitsBelowAll (k + 1) 0 children ++ n.ownVisits k
    else visitsBelowAll k 0 children

/-- The visits of the scopes at and below nodes, the first of which is the child number `j`. -/
def visitsBelowAll (k j : Nat) : List Node → List Visit
  | [] => []
  | n :: ns => (visitsBelow k n).map (.under j) ++ visitsBelowAll (k + n.scopeCount) (j + 1) ns

end

def visits (p : Node) : List Visit := visitsBelowAll 1 0 p.children ++ p.ownVisits 0

section Cases

variable {n : Node} (i k : Nat) (parent : Node)

theorem visitsIn_forming (h : n.isScopeForming) : visitsIn i parent n = [] := by
  cases n; rw [visitsIn, if_pos h]

theorem visitsIn_plain (h : ¬ n.isScopeForming) :
    visitsIn i parent n = visitsInAll i n 0 n.children ++ [⟨[], n, i, some parent⟩] := by
  cases n; rw [visitsIn, if_neg h]

theorem visitsBelow_forming (h : n.isScopeForming) :
    n.visitsBelow k = visitsBelowAll (k + 1) 0 n.children ++ n.ownVisits k := by
  cases n; rw [visitsBelow, if_pos h]

theorem visitsBelow_plain (h : ¬ n.isScopeForming) :
    n.visitsBelow k = visitsBelowAll k 0 n.children := by
  cases n; rw [visitsBelow, if_neg h]

end Cases

end Node

def ScopeTree.visitsOf (t : ScopeTree) (i : Nat) : List Visit :=
  (t.get? i).elim [] fun s => s.context.ownVisits i

namespace Node

/-- A visit of a list of subtrees is a visit of one of them. -/
theorem exists_of_mem_visitsInAll {i j : Nat} {parent : Node} {ns : List Node} {v : Visit}
    (h : v ∈ visitsInAll i parent j ns) :
    ∃ (l : Nat) (c : Node) (w : Visit), ns[l]? = some c ∧ w ∈ visitsIn i parent c ∧
      v = w.under (j + l) := by
  induction ns generalizing j with
  | nil => simp [visitsInAll] at h
  | cons n ns ih =>
      rw [visitsInAll, List.mem_append, List.mem_map] at h
      rcases h with ⟨w, hw, rfl⟩ | h
      · exact ⟨0, n, w, rfl, hw, rfl⟩
      · obtain ⟨l, c, w, hl, hw, rfl⟩ := ih h
        exact ⟨l + 1, c, w, by simpa using hl, hw, by congr 1; omega⟩

/-- A visit of the scopes below a list of subtrees is one of the scopes below one of them. -/
theorem exists_of_mem_visitsBelowAll {k j : Nat} {ns : List Node} {v : Visit}
    (h : v ∈ visitsBelowAll k j ns) :
    ∃ (l : Nat) (c : Node) (w : Visit) (k' : Nat), ns[l]? = some c ∧ w ∈ c.visitsBelow k' ∧
      v = w.under (j + l) ∧ k ≤ k' ∧
      ∀ (t : ScopeTree) (i : Nat), t.HasFrom k (scopesFromAll i k ns) →
        t.HasFrom k' (c.scopesFrom i k') := by
  induction ns generalizing k j with
  | nil => simp [visitsBelowAll] at h
  | cons n ns ih =>
      rw [visitsBelowAll, List.mem_append, List.mem_map] at h
      rcases h with ⟨w, hw, rfl⟩ | h
      · exact ⟨0, n, w, k, rfl, hw, rfl, Nat.le_refl k, fun t i ht => ht.left⟩
      · obtain ⟨l, c, w, k', hl, hw, rfl, hk, hfrom⟩ := ih h
        refine ⟨l + 1, c, w, k', by simpa using hl, hw, by congr 1; omega, by omega, ?_⟩
        intro t i ht
        have hns := ht.right
        rw [length_scopesFrom] at hns
        exact hfrom t i hns

/-! ## Every node once -/

/-- The visits of a subtree in the scope around it and those of the scopes in it list the nodes
of the subtree. -/
theorem visits_perm_and :
    (∀ (n : Node) (i k : Nat) (parent : Node),
      ((n.visitsBelow k ++ visitsIn i parent n).map Visit.node).Perm n.postorder) ∧
    ∀ (ns : List Node) (i k j : Nat) (parent : Node),
      ((visitsBelowAll k j ns ++ visitsInAll i parent j ns).map Visit.node).Perm
        (ns.flatMap postorder) := by
  refine forestInduction (fun n ih i k parent => ?_) (fun i k j parent => List.Perm.refl _)
    (fun n ns ihn ihns i k j parent => ?_)
  · rw [postorder_eq]
    by_cases h : n.isScopeForming
    · rw [visitsBelow_forming k h, visitsIn_forming i parent h, List.append_nil, ownVisits,
        ← List.append_assoc, List.map_append]
      exact (ih k (k + 1) 0 n).append_right _
    · rw [visitsBelow_plain k h, visitsIn_plain i parent h, ← List.append_assoc, List.map_append]
      exact (ih i k 0 n).append_right _
  · have hunder : ∀ vs : List Visit, (vs.map (.under j)).map Visit.node = vs.map Visit.node := by
      intro vs
      simp [Function.comp_def]
    rw [visitsBelowAll, visitsInAll, List.flatMap_cons]
    simp only [List.map_append, hunder]
    -- the visits of the first subtree and those of the rest, brought together
    refine List.Perm.trans ?_ ((ihn i k parent).append (ihns i (k + n.scopeCount) (j + 1) parent))
    simp only [List.map_append, List.append_assoc]
    refine List.Perm.append_left _ ?_
    rw [← List.append_assoc, ← List.append_assoc]
    exact List.Perm.append_right _ List.perm_append_comm

theorem visits_perm (p : Node) : (p.visits.map Visit.node).Perm p.postorder := by
  rw [visits, ownVisits, ← List.append_assoc, List.map_append, postorder_eq]
  exact (visits_perm_and.2 p.children 0 1 0 p).append_right _

/-! ## What is shown at a visit -/

theorem at?_dropLast_cons {n c : Node} {j : Nat} (hc : n.children[j]? = some c) {a : List Nat} :
    n.at? (j :: a).dropLast = if a = [] then some n else c.at? a.dropLast := by
  by_cases ha : a = []
  · rw [if_pos ha, ha]; rfl
  · rw [if_neg ha, List.dropLast_cons_of_ne_nil ha, at?, hc]

/-- A visit of a subtree in the scope around it: no function lies on the way, and the parent
shown is the one in the tree. -/
theorem of_mem_visitsIn {n parent : Node} {i : Nat} {v : Visit} (h : v ∈ visitsIn i parent n) :
    n.at? v.place = some v.node ∧ v.scope = i ∧ (n :: n.path v.place).filter isScopeForming = [] ∧
      v.parent = if v.place = [] then some parent else n.at? v.place.dropLast := by
  induction n using childrenInduction generalizing parent v with
  | step n ih =>
      by_cases hn : n.isScopeForming
      · rw [visitsIn_forming i parent hn] at h
        simp at h
      · rw [visitsIn_plain i parent hn, List.mem_append, List.mem_singleton] at h
        rcases h with h | rfl
        · obtain ⟨l, c, w, hl, hw, rfl⟩ := exists_of_mem_visitsInAll h
          obtain ⟨hat, hscope, hpath, hparent⟩ := ih c (List.mem_of_getElem? hl) hw
          simp only [Visit.under_place, Visit.under_node, Visit.under_scope, Visit.under_parent,
            Nat.zero_add]
          refine ⟨at?_cons_eq_some.mpr ⟨c, hl, hat⟩, hscope, ?_, ?_⟩
          · rw [List.filter_cons_of_neg hn, path_cons hl, hpath]
          · rw [if_neg (by simp), at?_dropLast_cons hl, hparent]
        · exact ⟨rfl, rfl, by simp [hn], by simp⟩

/-- A visit of the scope a node opens. -/
theorem of_mem_ownVisits {n : Node} {i : Nat} {v : Visit} (h : v ∈ n.ownVisits i) :
    n.at? v.place = some v.node ∧ v.scope = i ∧ (n.path v.place).filter isScopeForming = [] ∧
      v.parent = if v.place = [] then none else n.at? v.place.dropLast := by
  rw [ownVisits, List.mem_append, List.mem_singleton] at h
  rcases h with h | rfl
  · obtain ⟨l, c, w, hl, hw, rfl⟩ := exists_of_mem_visitsInAll h
    obtain ⟨hat, hscope, hpath, hparent⟩ := of_mem_visitsIn hw
    simp only [Visit.under_place, Visit.under_node, Visit.under_scope, Visit.under_parent,
      Nat.zero_add]
    refine ⟨at?_cons_eq_some.mpr ⟨c, hl, hat⟩, hscope, ?_, ?_⟩
    · rw [path_cons hl, hpath]
    · rw [if_neg (by simp), at?_dropLast_cons hl, hparent]
  · exact ⟨rfl, rfl, rfl, rfl⟩

/-- The node visited lies on the path to it, or is the start of the path. -/
theorem mem_path_of_at? {n m : Node} {a : List Nat} (h : n.at? a = some m) (ha : a ≠ []) :
    m ∈ n.path a := by
  induction a generalizing n with
  | nil => exact absurd rfl ha
  | cons j a ih =>
      obtain ⟨c, hc, hm⟩ := at?_cons_eq_some.mp h
      rw [path_cons hc]
      by_cases ha' : a = []
      · subst ha'
        obtain rfl : c = m := by simpa using hm
        simp
      · exact List.mem_cons_of_mem _ (ih hm ha')

theorem not_forming_of_path {n m : Node} {a : List Nat} (h : n.at? a = some m) (ha : a ≠ [])
    (hpath : (n.path a).filter isScopeForming = []) : ¬ m.isScopeForming := by
  intro hm
  have : m ∈ (n.path a).filter isScopeForming := List.mem_filter.mpr ⟨mem_path_of_at? h ha, hm⟩
  rw [hpath] at this
  simp at this

/-- The parent of a node that no scope is opened by is the same seen from further up. -/
theorem parent_under {n c m : Node} {j : Nat} {a : List Nat} (hc : n.children[j]? = some c)
    (hroot : a = [] → m.isScopeForming) :
    (if m.isScopeForming then none else c.at? a.dropLast) =
      if m.isScopeForming then none else n.at? (j :: a).dropLast := by
  by_cases hm : m.isScopeForming
  · rw [if_pos hm, if_pos hm]
  · rw [if_neg hm, if_neg hm, at?_dropLast_cons hc, if_neg (fun ha => hm (hroot ha))]

/-- A visit of the scopes at and below a node in the scope number `i`: its scope number stands
for the functions on the way and then for what `i` stands for. -/
theorem of_mem_visitsBelow {t : ScopeTree} {n : Node} {i k : Nat} {v : Visit}
    (h : v ∈ n.visitsBelow k) (hi : i < k) (ht : t.HasFrom k (n.scopesFrom i k)) :
    n.at? v.place = some v.node ∧
      t.contextsAround v.scope =
        ((n :: n.path v.place).filter isScopeForming).reverse ++ t.contextsAround i ∧
      (v.place = [] → v.node.isScopeForming) ∧
      v.parent = if v.node.isScopeForming then none else n.at? v.place.dropLast := by
  induction n using childrenInduction generalizing i k v with
  | step n ih =>
      by_cases hn : n.isScopeForming
      · rw [scopesFrom_forming i k hn] at ht
        have hk : t.contextsAround k = n :: t.contextsAround i :=
          ScopeTree.contextsAround_inner ht.head rfl hi
        rw [visitsBelow_forming k hn, List.mem_append] at h
        rw [List.filter_cons_of_pos hn, List.reverse_cons, List.append_assoc,
          List.singleton_append, ← hk]
        -- the visit is made in a scope further in, or in the scope that `n` opens
        rcases h with h | h
        · obtain ⟨l, c, w, k', hl, hw, rfl, hkk, hfrom⟩ := exists_of_mem_visitsBelowAll h
          obtain ⟨hat, hctx, hroot, hparent⟩ :=
            ih c (List.mem_of_getElem? hl) hw (by omega) (hfrom t k ht.tail)
          simp only [Visit.under_place, Visit.under_node, Visit.under_scope, Visit.under_parent,
            Nat.zero_add]
          refine ⟨at?_cons_eq_some.mpr ⟨c, hl, hat⟩, ?_, by simp, ?_⟩
          · rw [path_cons hl, hctx]
          · rw [hparent, parent_under hl hroot]
        · obtain ⟨hat, hscope, hpath, hparent⟩ := of_mem_ownVisits h
          have hroot : v.place = [] → v.node = n := by
            intro hp
            rw [hp] at hat
            exact (Option.some.inj hat).symm
          refine ⟨hat, by rw [hscope, hpath]; rfl, fun hp => hroot hp ▸ hn, ?_⟩
          by_cases hp : v.place = []
          · rw [hparent, if_pos hp, hroot hp, if_pos hn]
          · rw [hparent, if_neg hp, if_neg (not_forming_of_path hat hp hpath)]
      · rw [visitsBelow_plain k hn] at h
        rw [scopesFrom_plain i k hn] at ht
        -- a node that opens no scope is visited with the scope around it, not here
        obtain ⟨l, c, w, k', hl, hw, rfl, hkk, hfrom⟩ := exists_of_mem_visitsBelowAll h
        obtain ⟨hat, hctx, hroot, hparent⟩ :=
          ih c (List.mem_of_getElem? hl) hw (by omega) (hfrom t i ht)
        simp only [Visit.under_place, Visit.under_node, Visit.under_scope, Visit.under_parent,
          Nat.zero_add]
        refine ⟨at?_cons_eq_some.mpr ⟨c, hl, hat⟩, ?_, by simp, ?_⟩
        · rw [List.filter_cons_of_neg hn, path_cons hl, hctx]
        · rw [hparent, parent_under hl hroot]

/-- **What is shown at a visit of a program**, by the address of the node. -/
theorem of_mem_visits {p : Node} {v : Visit} (h : v ∈ p.visits) :
    p.at? v.place = some v.node ∧
      (ScopeTree.ofProgram p).contextsAround v.scope = (p.regions v.place).reverse ∧
      v.parent =
        if v.place = [] ∨ v.node.isScopeForming then none else p.at? v.place.dropLast := by
  have hzero : (ScopeTree.ofProgram p).contextsAround 0 = [p] :=
    ScopeTree.contextsAround_root (ScopeTree.ofProgram_root p) rfl
  rw [regions, List.reverse_cons, ← hzero]
  rw [visits, List.mem_append] at h
  rcases h with h | h
  · obtain ⟨l, c, w, k, hl, hw, rfl, hk, hfrom⟩ := exists_of_mem_visitsBelowAll h
    obtain ⟨hat, hctx, hroot, hparent⟩ :=
      of_mem_visitsBelow hw (i := 0) (by omega) (hfrom _ 0 (ScopeTree.ofProgram_hasFrom p))
    simp only [Visit.under_place, Visit.under_node, Visit.under_scope, Visit.under_parent,
      Nat.zero_add]
    refine ⟨at?_cons_eq_some.mpr ⟨c, hl, hat⟩, ?_, ?_⟩
    · rw [path_cons hl, hctx]
    · rw [hparent, parent_under hl hroot]
      simp
  · obtain ⟨hat, hscope, hpath, hparent⟩ := of_mem_ownVisits h
    refine ⟨hat, by rw [hscope, hpath]; rfl, ?_⟩
    rw [hparent]
    by_cases hp : v.place = []
    · rw [if_pos hp, if_pos (Or.inl hp)]
    · rw [if_neg hp, if_neg]
      rintro (hp' | hm)
      · exact hp hp'
      · exact not_forming_of_path hat hp hpath hm

/-! ## The visits of each scope -/

/-- The visits of the scopes at and below a node are those of one scope after the other, in
post-order. -/
theorem visitsBelow_shown_and :
    (∀ (n : Node) (t : ScopeTree) (i k : Nat), t.HasFrom k (n.scopesFrom i k) →
      (n.visitsBelow k).map Visit.shown =
        (n.scopePostorder k).flatMap fun l => (t.visitsOf l).map Visit.shown) ∧
    ∀ (ns : List Node) (t : ScopeTree) (i k j : Nat), t.HasFrom k (scopesFromAll i k ns) →
      (visitsBelowAll k j ns).map Visit.shown =
        (scopePostorderAll k ns).flatMap fun l => (t.visitsOf l).map Visit.shown := by
  refine forestInduction (fun n ih t i k ht => ?_) (fun t i k j ht => rfl)
    (fun n ns ihn ihns t i k j ht => ?_)
  · by_cases hn : n.isScopeForming
    · rw [scopesFrom_forming i k hn] at ht
      have hk : t.visitsOf k = n.ownVisits k := by rw [ScopeTree.visitsOf, ht.head]; rfl
      rw [visitsBelow_forming k hn, scopePostorder_forming k hn, List.map_append,
        List.flatMap_append, ih t k (k + 1) 0 ht.tail, List.flatMap_singleton, hk]
    · rw [scopesFrom_plain i k hn] at ht
      rw [visitsBelow_plain k hn, scopePostorder_plain k hn, ih t i k 0 ht]
  · rw [scopesFromAll] at ht
    have hns := ht.right
    rw [length_scopesFrom] at hns
    rw [visitsBelowAll, scopePostorderAll, List.map_append, List.flatMap_append,
      ← ihn t i k ht.left, ← ihns t i _ (j + 1) hns]
    simp [Function.comp_def]

theorem visits_shown (p : Node) :
    p.visits.map Visit.shown =
      (ScopeTree.ofProgram p).postOrder.flatMap fun i =>
        ((ScopeTree.ofProgram p).visitsOf i).map Visit.shown := by
  have hzero : (ScopeTree.ofProgram p).visitsOf 0 = p.ownVisits 0 := by
    rw [ScopeTree.visitsOf, ScopeTree.ofProgram_root]; rfl
  rw [visits, ScopeTree.postOrder_ofProgram, List.map_append, List.flatMap_append,
    visitsBelow_shown_and.2 p.children _ 0 1 0 (ScopeTree.ofProgram_hasFrom p),
    List.flatMap_singleton, hzero]

end Node

end ExprScript
