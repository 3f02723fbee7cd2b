import ExprScript.Proofs.Tree.Address
import ExprScript.Scope.Tree

set_option autoImplicit false

/-! # The numbers of scopes

`ScopeTree.ofProgram` opens one scope after the other and goes back to a scope each time another
one in it has been opened. Here the result is written down by recursion over the program
tree. When the scopes at and below a node get the numbers from `k` on,

* `scopeCount` is how many there are,
* `outerScopes k` are the numbers of the outermost of them,
* `scopesFrom i k` are the scopes themselves, `i` being the number of the scope around,
* `scopePostorder k` are their numbers, each after those of the scopes in it.

The main statements are `ofProgram_eq` (the list of all scopes) and `postOrder_ofProgram` (the
order in which the stack of `ScopeTree.postOrder` lists them).
-/

namespace ExprScript

namespace Node

mutual

/-- The number of scopes opened by a node and below it. -/
def scopeCount : Node → Nat
  | n@⟨_, _, children, _⟩ =>
    if n.isScopeForming then 1 + scopeCounts children else scopeCounts children

def scopeCounts : List Node → Nat
  | [] => 0
  | n :: ns => scopeCount n + scopeCounts ns

end

mutual

/-- The numbers of the outermost scopes at and below a node, counted from `k` on. -/
def outerScopes (k : Nat) : Node → List Nat
  | n@⟨_, _, children, _⟩ => if n.isScopeForming then [k] else outerScopesAll k children

def outerScopesAll (k : Nat) : List Node → List Nat
  | [] => []
  | n :: ns => outerScopes k n ++ outerScopesAll (k + n.scopeCount) ns

end

mutual

/-- The scopes at and below a node in the scope number `i`, counted from `k` on. -/
def scopesFrom (i k : Nat) : Node → List Scope
  | n@⟨_, _, children, _⟩ =>
    if n.isScopeForming then
      ⟨n, some i, outerScopesAll (k + 1) children⟩ :: scopesFromAll k (k + 1) children
    else scopesFromAll i k children

def scopesFromAll (i k : Nat) : List Node → List Scope
  | [] => []
  | n :: ns => scopesFrom i k n ++ scopesFromAll i (k + n.scopeCount) ns

end

mutual

/-- The numbers of the scopes at and below a node, counted from `k` on, each after those of
the scopes in it. -/
def scopePostorder (k : Nat) : Node → List Nat
  | n@⟨_, _, children, _⟩ =>
    if n.isScopeForming then scopePostorderAll (k + 1) children ++ [k]
    else scopePostorderAll k children

def scopePostorderAll (k : Nat) : List Node → List Nat
  | [] => []
  | n :: ns => scopePostorder k n ++ scopePostorderAll (k + n.scopeCount) ns

end

/-! ## Facts about each definition

Each definition has two cases: a node that opens a scope, and one that does not. -/

section Cases

variable {n : Node} (i k : Nat)

theorem nearestForming_forming (h : n.isScopeForming) : n.nearestForming = [n] := by
  cases n; rw [nearestForming, if_pos h]

theorem nearestForming_plain (h : ¬ n.isScopeForming) : n.nearestForming = n.nestedForming := by
  cases n; rw [nearestForming, if_neg h, nestedForming]

theorem scopeCount_forming (h : n.isScopeForming) : n.scopeCount = 1 + scopeCounts n.children := by
  cases n; rw [scopeCount, if_pos h]

theorem scopeCount_plain (h : ¬ n.isScopeForming) : n.scopeCount = scopeCounts n.children := by
  cases n; rw [scopeCount, if_neg h]

theorem outerScopes_forming (h : n.isScopeForming) : n.outerScopes k = [k] := by
  cases n; rw [outerScopes, if_pos h]

theorem outerScopes_plain (h : ¬ n.isScopeForming) :
    n.outerScopes k = outerScopesAll k n.children := by
  cases n; rw [outerScopes, if_neg h]

theorem scopesFrom_forming (h : n.isScopeForming) :
    n.scopesFrom i k =
      ⟨n, some i, outerScopesAll (k + 1) n.children⟩ :: scopesFromAll k (k + 1) n.children := by
  cases n; rw [scopesFrom, if_pos h]

theorem scopesFrom_plain (h : ¬ n.isScopeForming) :
    n.scopesFrom i k = scopesFromAll i k n.children := by
  cases n; rw [scopesFrom, if_neg h]

theorem scopePostorder_forming (h : n.isScopeForming) :
    n.scopePostorder k = scopePostorderAll (k + 1) n.children ++ [k] := by
  cases n; rw [scopePostorder, if_pos h]

theorem scopePostorder_plain (h : ¬ n.isScopeForming) :
    n.scopePostorder k = scopePostorderAll k n.children := by
  cases n; rw [scopePostorder, if_neg h]

end Cases

theorem length_scopesFrom_and :
    (∀ (n : Node) (i k : Nat), (n.scopesFrom i k).length = n.scopeCount) ∧
      ∀ (ns : List Node) (i k : Nat), (scopesFromAll i k ns).length = scopeCounts ns := by
  refine forestInduction (fun n ih i k => ?_) (fun i k => rfl) (fun n ns ihn ihns i k => ?_)
  · by_cases h : n.isScopeForming
    · rw [scopesFrom_forming i k h, scopeCount_forming h, List.length_cons, ih]
      omega
    · rw [scopesFrom_plain i k h, scopeCount_plain h, ih]
  · rw [scopesFromAll, scopeCounts, List.length_append, ihn, ihns]

@[simp] theorem length_scopesFrom (n : Node) (i k : Nat) :
    (n.scopesFrom i k).length = n.scopeCount := length_scopesFrom_and.1 n i k

@[simp] theorem length_scopesFromAll (ns : List Node) (i k : Nat) :
    (scopesFromAll i k ns).length = scopeCounts ns := length_scopesFrom_and.2 ns i k

end Node

namespace ScopeTree

/-! ## What opening scopes adds -/

/-- The scopes `news` added at the end, and the numbers `numbers` entered among the children of the
scope number `i`. -/
def extend (t : ScopeTree) (i : Nat) (numbers : List Nat) (news : List Scope) : ScopeTree :=
  ⟨t.scopes.modify i (fun s => { s with children := s.children ++ numbers }) ++ news⟩

theorem extend_nil (t : ScopeTree) (i : Nat) : t.extend i [] [] = t := by
  obtain ⟨scopes⟩ := t
  have hid : (fun s : Scope => { s with children := s.children ++ [] }) = id := by
    funext s; simp
  rw [extend, hid, List.modify_id, List.append_nil]

@[simp] theorem size_extend (t : ScopeTree) (i : Nat) (numbers : List Nat) (news : List Scope) :
    (t.extend i numbers news).size = t.size + news.length := by
  simp [extend, size]

@[simp] theorem size_push (t : ScopeTree) (n : Node) (parent : Option Nat) :
    (t.push n parent).size = t.size + 1 := by
  simp [push, size]

theorem modify_append_of_lt {i : Nat} {ss : List Scope} (hi : i < ss.length) (f : Scope → Scope)
    (rs : List Scope) : (ss ++ rs).modify i f = ss.modify i f ++ rs := by
  apply List.ext_getElem?
  intro j
  grind

/-- Two additions to the same scope are one. -/
theorem extend_extend {t : ScopeTree} {i : Nat} (hi : i < t.size) (ks ls : List Nat)
    (ss rs : List Scope) :
    (t.extend i ks ss).extend i ls rs = t.extend i (ks ++ ls) (ss ++ rs) := by
  obtain ⟨scopes⟩ := t
  have hi' : i < scopes.length := hi
  simp only [extend, ScopeTree.mk.injEq]
  rw [modify_append_of_lt (by simpa using hi'), List.modify_modify_eq, List.append_assoc]
  congr 2
  funext s
  simp

/-- Opening a scope, adding to it and entering it in the scope around is one addition to the scope
around. -/
theorem link_extend_push {t : ScopeTree} {i : Nat} (hi : i < t.size) (n : Node) (ks : List Nat)
    (ss : List Scope) :
    ((t.push n (some i)).extend t.size ks ss).link i t.size =
      t.extend i [t.size] (⟨n, some i, ks⟩ :: ss) := by
  obtain ⟨scopes⟩ := t
  have hi' : i < scopes.length := hi
  have hlast (f : Scope → Scope) (s : Scope) :
      (scopes ++ [s]).modify scopes.length f = scopes ++ [f s] := by
    apply List.ext_getElem?
    intro j
    grind
  simp only [extend, push, link, size, ScopeTree.mk.injEq]
  rw [hlast, List.append_assoc, modify_append_of_lt hi']
  simp

/-- Opening the nearest scopes at or below a node in the scope number `i` adds all scopes at and
below the node, and enters the outermost of them in that scope. -/
theorem openAll_nearest_and :
    (∀ (n : Node) (t : ScopeTree) (i : Nat) (rest : List Node), i < t.size →
      t.openAll i (n.nearestForming ++ rest) =
        (t.extend i (n.outerScopes t.size) (n.scopesFrom i t.size)).openAll i rest) ∧
    ∀ (ns : List Node) (t : ScopeTree) (i : Nat) (rest : List Node), i < t.size →
      t.openAll i (Node.nearestFormingAll ns ++ rest) =
        (t.extend i (Node.outerScopesAll t.size ns) (Node.scopesFromAll i t.size ns)).openAll i
          rest := by
  refine Node.forestInduction (fun n ih t i rest hi => ?_) (fun t i rest hi => ?_)
    (fun n ns ihn ihns t i rest hi => ?_)
  · by_cases h : n.isScopeForming
    · -- the scopes in the new scope are opened first, with numbers behind its own
      have hnested := ih (t.push n (some i)) t.size [] (by simp)
      rw [List.append_nil, size_push, openAll] at hnested
      rw [Node.nearestForming_forming h, List.singleton_append, openAll, openScope,
        Node.nestedForming, hnested, link_extend_push hi, Node.outerScopes_forming _ h,
        Node.scopesFrom_forming _ _ h]
    · rw [Node.nearestForming_plain h, Node.nestedForming, ih t i rest hi,
        Node.outerScopes_plain _ h, Node.scopesFrom_plain _ _ h]
  · exact congrArg (openAll · i rest) (t.extend_nil i).symm
  · have hi' : i < (t.extend i (n.outerScopes t.size) (n.scopesFrom i t.size)).size := by
      rw [size_extend]
      omega
    rw [Node.nearestFormingAll, List.append_assoc, ihn t i _ hi, ihns _ i rest hi', size_extend,
      Node.length_scopesFrom, extend_extend hi]
    rfl

/-- **The list of all scopes**: the root's, and then those below it in the order of their
contexts in the tree. -/
theorem ofProgram_eq (p : Node) :
    ofProgram p =
      ⟨⟨p, none, Node.outerScopesAll 1 p.children⟩ :: Node.scopesFromAll 0 1 p.children⟩ := by
  have hopen := openAll_nearest_and.2 p.children (push ⟨[]⟩ p none) 0 [] (by simp)
  rw [List.append_nil, openAll] at hopen
  rw [ofProgram, openScope, Node.nestedForming]
  exact hopen

/-! ## Parts of a list of scopes -/

/-- The scopes `ss` have the numbers from `k` on. -/
def HasFrom (t : ScopeTree) (k : Nat) (ss : List Scope) : Prop :=
  ∃ before after, before.length = k ∧ t.scopes = before ++ (ss ++ after)

theorem HasFrom.head {t : ScopeTree} {k : Nat} {s : Scope} {ss : List Scope}
    (h : t.HasFrom k (s :: ss)) : t.get? k = some s := by
  obtain ⟨before, after, rfl, ht⟩ := h
  rw [get?, ht]
  simp

theorem HasFrom.tail {t : ScopeTree} {k : Nat} {s : Scope} {ss : List Scope}
    (h : t.HasFrom k (s :: ss)) : t.HasFrom (k + 1) ss := by
  obtain ⟨before, after, rfl, ht⟩ := h
  exact ⟨before ++ [s], after, by simp, by simp [ht]⟩

theorem HasFrom.left {t : ScopeTree} {k : Nat} {ss rs : List Scope}
    (h : t.HasFrom k (ss ++ rs)) : t.HasFrom k ss := by
  obtain ⟨before, after, rfl, ht⟩ := h
  exact ⟨before, rs ++ after, rfl, by simp [ht]⟩

theorem HasFrom.right {t : ScopeTree} {k : Nat} {ss rs : List Scope}
    (h : t.HasFrom k (ss ++ rs)) : t.HasFrom (k + ss.length) rs := by
  obtain ⟨before, after, rfl, ht⟩ := h
  exact ⟨before ++ ss, after, by simp, by simp [ht]⟩

theorem ofProgram_root (p : Node) :
    (ofProgram p).get? 0 = some ⟨p, none, Node.outerScopesAll 1 p.children⟩ := by
  rw [ofProgram_eq]
  rfl

theorem ofProgram_hasFrom (p : Node) :
    (ofProgram p).HasFrom 1 (Node.scopesFromAll 0 1 p.children) := by
  rw [ofProgram_eq]
  refine ⟨[⟨p, none, Node.outerScopesAll 1 p.children⟩], [], rfl, ?_⟩
  rw [List.append_nil, List.singleton_append]

/-! ## The order of the stack -/

theorem postOrderFrom_expand {t : ScopeTree} {i : Nat} {s : Scope} (h : t.get? i = some s)
    (fuel : Nat) (stack : List (Nat × Bool)) :
    t.postOrderFrom (fuel + 1) ((i, false) :: stack) =
      t.postOrderFrom fuel (s.children.map (·, false) ++ (i, true) :: stack) := by
  rw [postOrderFrom, childrenOf, h]
  rfl

/-- The scopes at and below a node take two steps each to leave the stack, and leave it in
post-order. -/
theorem postOrderFrom_outer_and :
    (∀ (n : Node) (t : ScopeTree) (i k fuel : Nat) (stack : List (Nat × Bool)),
      t.HasFrom k (n.scopesFrom i k) →
      t.postOrderFrom (2 * n.scopeCount + fuel) ((n.outerScopes k).map (·, false) ++ stack) =
        n.scopePostorder k ++ t.postOrderFrom fuel stack) ∧
    ∀ (ns : List Node) (t : ScopeTree) (i k fuel : Nat) (stack : List (Nat × Bool)),
      t.HasFrom k (Node.scopesFromAll i k ns) →
      t.postOrderFrom (2 * Node.scopeCounts ns + fuel)
          ((Node.outerScopesAll k ns).map (·, false) ++ stack) =
        Node.scopePostorderAll k ns ++ t.postOrderFrom fuel stack := by
  refine Node.forestInduction (fun n ih t i k fuel stack ht => ?_)
    (fun t i k fuel stack ht => ?_) (fun n ns ihn ihns t i k fuel stack ht => ?_)
  · by_cases h : n.isScopeForming
    · rw [Node.scopesFrom_forming i k h] at ht
      -- one step puts the scopes in it on the stack, the other lists it behind them
      have hfuel : 2 * n.scopeCount + fuel =
          (2 * Node.scopeCounts n.children + (fuel + 1)) + 1 := by
        rw [Node.scopeCount_forming h]; omega
      rw [hfuel, Node.outerScopes_forming k h, Node.scopePostorder_forming k h]
      show t.postOrderFrom _ ((k, false) :: stack) = _
      rw [postOrderFrom_expand ht.head, ih t k (k + 1) _ _ ht.tail, List.append_assoc]
      rfl
    · rw [Node.scopesFrom_plain i k h] at ht
      rw [Node.scopeCount_plain h, Node.outerScopes_plain k h, Node.scopePostorder_plain k h,
        ih t i k fuel stack ht]
  · simp [Node.scopeCounts, Node.outerScopesAll, Node.scopePostorderAll]
  · rw [Node.scopesFromAll] at ht
    have hns := ht.right
    rw [Node.length_scopesFrom] at hns
    have hfuel : 2 * Node.scopeCounts (n :: ns) + fuel =
        2 * n.scopeCount + (2 * Node.scopeCounts ns + fuel) := by
      rw [Node.scopeCounts]; omega
    rw [hfuel, Node.outerScopesAll, Node.scopePostorderAll, List.map_append, List.append_assoc,
      ihn t i k _ _ ht.left, ihns t i _ _ _ hns, List.append_assoc]

/-- **The stack lists the scopes in post-order**, the root's last. -/
theorem postOrder_ofProgram (p : Node) :
    (ofProgram p).postOrder = Node.scopePostorderAll 1 p.children ++ [0] := by
  have hsize : 2 * (ofProgram p).size = (2 * Node.scopeCounts p.children + 1) + 1 := by
    rw [ofProgram_eq, size, List.length_cons, Node.length_scopesFromAll]; omega
  rw [postOrder, hsize, postOrderFrom_expand (ofProgram_root p),
    postOrderFrom_outer_and.2 p.children _ 0 1 1 _ (ofProgram_hasFrom p)]
  rfl

end ScopeTree

end ExprScript
