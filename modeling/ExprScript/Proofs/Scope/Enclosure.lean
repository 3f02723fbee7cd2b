import ExprScript.Proofs.Scope.Places
import ExprScript.Proofs.Tree.Walk

set_option autoImplicit false

/-! # Scopes lie over the functions of a program

Scopes refer to each other by number. Here the numbers are traced back to addresses in the
program tree: the scope with a number was opened at the place with that number
(`Node.scopePlaces`).

The way from the numbers to the places is taken once, for all subtrees: `Node.Numbered` says
which numbers the scopes at and below an address have, and in which scope that address is. It
passes from a node to its children, whether these are in a scope of their own (`Numbered.inner`)
or not (`Numbered.same`), and so holds at every address (`exists_numbered`). The parent, the
children and the ancestors of a scope are then read off the address it was opened at
(`scopes_over_functions`).
-/

namespace ExprScript

namespace Node

/-! ## From numbers to places -/

/-- The scopes at and below the node `n`, which stands at the address `a` and in the scope number
`i`, have the numbers from `k` on. -/
structure Numbered (p : Node) (a : List Nat) (n : Node) (i k : Nat) : Prop where
  scopes : (ScopeTree.ofProgram p).HasFrom k (n.scopesFrom i k)
  places : n.functionPlaces.map (a ++ ·) <+: p.scopePlaces.drop k
  outer : n.outerScopes k ⊆ (ScopeTree.ofProgram p).childrenOf i

/-- The same of nodes one after the other, the first of which is the child number `j` of the node
at the address `a`. -/
structure NumberedFrom (p : Node) (a : List Nat) (j : Nat) (ns : List Node) (i k : Nat) :
    Prop where
  scopes : (ScopeTree.ofProgram p).HasFrom k (scopesFromAll i k ns)
  places : (functionPlacesFrom j ns).map (a ++ ·) <+: p.scopePlaces.drop k
  outer : outerScopesAll k ns ⊆ (ScopeTree.ofProgram p).childrenOf i

variable {p n c : Node} {ns : List Node} {a : List Nat} {i j k l : Nat}

theorem prefix_drop_of_append {α : Type} {xs ys zs : List α} (h : xs ++ ys <+: zs.drop k) :
    ys <+: zs.drop (k + xs.length) := by
  obtain ⟨ws, hws⟩ := h
  refine ⟨ws, ?_⟩
  rw [← List.drop_drop, ← hws, List.append_assoc, List.drop_left]

theorem getElem?_of_prefix_drop {α : Type} {x : α} {xs zs : List α}
    (h : x :: xs <+: zs.drop k) : zs[k]? = some x := by
  obtain ⟨ws, hws⟩ := h
  rw [← List.head?_drop, ← hws]
  rfl

theorem NumberedFrom.head (h : NumberedFrom p a j (n :: ns) i k) :
    Numbered p (a ++ [j]) n i k := by
  obtain ⟨hscopes, hplaces, houter⟩ := h
  refine ⟨hscopes.left, ?_, fun m hm => houter (List.mem_append_left _ hm)⟩
  rw [functionPlacesFrom, List.map_append, List.map_map] at hplaces
  have hfun : ((a ++ ·) ∘ (j :: ·) : List Nat → List Nat) = ((a ++ [j]) ++ ·) := by
    funext b
    simp
  rw [hfun] at hplaces
  exact (List.prefix_append _ _).trans hplaces

theorem NumberedFrom.tail (h : NumberedFrom p a j (n :: ns) i k) :
    NumberedFrom p a (j + 1) ns i (k + n.scopeCount) := by
  obtain ⟨hscopes, hplaces, houter⟩ := h
  refine ⟨?_, ?_, fun m hm => houter (List.mem_append_right _ hm)⟩
  · have hright := hscopes.right
    rwa [length_scopesFrom] at hright
  · rw [functionPlacesFrom, List.map_append] at hplaces
    have hright := prefix_drop_of_append hplaces
    rwa [List.length_map, List.length_map, length_functionPlaces_and.1] at hright

theorem NumberedFrom.nth (h : NumberedFrom p a j ns i k) (hc : ns[l]? = some c) :
    ∃ k', k ≤ k' ∧ Numbered p (a ++ [j + l]) c i k' := by
  induction ns generalizing j k l with
  | nil => simp at hc
  | cons n ns ih =>
      cases l with
      | zero =>
          obtain rfl : n = c := by simpa using hc
          exact ⟨k, Nat.le_refl k, h.head⟩
      | succ l =>
          obtain ⟨k', hk, hc'⟩ := ih h.tail (by simpa using hc)
          refine ⟨k', by omega, ?_⟩
          rwa [Nat.add_assoc, Nat.add_comm 1 l] at hc'

theorem numberedFrom_root (p : Node) : NumberedFrom p [] 0 p.children 0 1 := by
  refine ⟨ScopeTree.ofProgram_hasFrom p, ?_, ?_⟩
  · rw [scopePlaces, List.drop_one, List.tail_cons]
    simp
  · rw [ScopeTree.childrenOf, ScopeTree.ofProgram_root]
    exact fun m hm => hm

/-- A scope that a node opens has the first of the numbers. -/
theorem Numbered.scope (h : Numbered p a n i k) (hn : n.isScopeForming) :
    (ScopeTree.ofProgram p).get? k = some ⟨n, some i, outerScopesAll (k + 1) n.children⟩ := by
  have hscopes := h.scopes
  rw [scopesFrom_forming i k hn] at hscopes
  exact hscopes.head

theorem Numbered.place (h : Numbered p a n i k) (hn : n.isScopeForming) :
    p.scopePlaces[k]? = some a := by
  have hplaces := h.places
  rw [functionPlaces_forming hn, List.map_cons, List.append_nil] at hplaces
  exact getElem?_of_prefix_drop hplaces

/-- The children of a node that opens a scope are in that scope. -/
theorem Numbered.inner (h : Numbered p a n i k) (hn : n.isScopeForming) :
    NumberedFrom p a 0 n.children k (k + 1) := by
  have hscopes := h.scopes
  have hplaces := h.places
  rw [scopesFrom_forming i k hn] at hscopes
  rw [functionPlaces_forming hn, List.map_cons, ← List.singleton_append] at hplaces
  refine ⟨hscopes.tail, prefix_drop_of_append hplaces, ?_⟩
  rw [ScopeTree.childrenOf, h.scope hn]
  exact fun m hm => hm

/-- The children of any other node are in the scope the node is in. -/
theorem Numbered.same (h : Numbered p a n i k) (hn : ¬ n.isScopeForming) :
    NumberedFrom p a 0 n.children i k := by
  obtain ⟨hscopes, hplaces, houter⟩ := h
  rw [scopesFrom_plain i k hn] at hscopes
  rw [functionPlaces_plain hn] at hplaces
  rw [outerScopes_plain k hn] at houter
  exact ⟨hscopes, hplaces, houter⟩

/-- **Every address below the root is numbered**, in the scope opened at the innermost place
around it. -/
theorem exists_numbered (ha : a ≠ []) (hat : p.at? a = some n) :
    ∃ i k, Numbered p a n i k ∧ i < k ∧
      ∃ b, p.scopePlaces[i]? = some b ∧ IsNearest p.scopePlaces b a := by
  -- from the outside in: the induction takes the last step of the address off
  induction a using List.reverseRecOn generalizing n with
  | nil => exact absurd rfl ha
  | append_singleton a j ih =>
      obtain ⟨q, hq, hj⟩ := at?_append_eq_some.mp hat
      obtain ⟨c, hc, hcn⟩ := at?_cons_eq_some.mp hj
      obtain rfl : c = n := Option.some.inj hcn
      by_cases hroot : a = []
      · subst hroot
        obtain rfl : p = q := Option.some.inj hq
        obtain ⟨k, hk, hnumbered⟩ := (numberedFrom_root p).nth hc
        rw [Nat.zero_add] at hnumbered
        exact ⟨0, k, hnumbered, hk, [], rfl, isNearest_concat_self _ [] j⟩
      · obtain ⟨i, k, hnumbered, hik, b, hb, hnearest⟩ := ih hroot hq
        by_cases hforming : q.isScopeForming
        · obtain ⟨k', hk, hnumbered'⟩ := (hnumbered.inner hforming).nth hc
          rw [Nat.zero_add] at hnumbered'
          exact ⟨k, k', hnumbered', hk, a, hnumbered.place hforming,
            isNearest_concat_self _ a j⟩
        · have hnot : a ∉ p.scopePlaces := by
            rw [mem_scopePlaces, hq]
            simp [hroot, hforming]
          obtain ⟨k', hk, hnumbered'⟩ := (hnumbered.same hforming).nth hc
          rw [Nat.zero_add] at hnumbered'
          exact ⟨i, k', hnumbered', by omega, b, hb, hnearest.concat hnot j⟩

theorem length_scopePlaces (p : Node) :
    p.scopePlaces.length = (ScopeTree.ofProgram p).size := by
  rw [scopePlaces, ScopeTree.ofProgram_eq, ScopeTree.size, List.length_cons, List.length_cons,
    length_functionPlaces_and.2, length_scopesFromAll]

theorem eq_of_place {i k : Nat} (h : p.scopePlaces[i]? = some a)
    (h' : p.scopePlaces[k]? = some a) : i = k := by
  obtain ⟨hi, -⟩ := List.getElem?_eq_some_iff.mp h
  exact (List.getElem?_inj hi (nodup_scopePlaces p)).mp (h.trans h'.symm)

theorem eq_zero_of_place {i : Nat} (h : p.scopePlaces[i]? = some []) : i = 0 :=
  eq_of_place h (show p.scopePlaces[0]? = some [] from rfl)

/-- What is known of the scope opened at a place below the root. -/
theorem exists_numbered_of_place (ha : a ≠ []) (h : p.scopePlaces[k]? = some a) :
    ∃ n i, p.at? a = some n ∧ n.isScopeForming ∧ Numbered p a n i k ∧ i < k ∧
      ∃ b, p.scopePlaces[i]? = some b ∧ IsNearest p.scopePlaces b a := by
  rcases mem_scopePlaces.mp (List.mem_of_getElem? h) with hroot | ⟨n, hn, hforming⟩
  · exact absurd hroot ha
  · obtain ⟨i, k', hnumbered, hik, hb⟩ := exists_numbered ha hn
    obtain rfl := eq_of_place (hnumbered.place hforming) h
    exact ⟨n, i, hn, hforming, hnumbered, hik, hb⟩

/-! ## The scopes directly in a scope -/

/-- The outermost scopes at and below nodes are numbered in ascending order. -/
theorem sorted_outerScopes_and :
    (∀ (n : Node) (k : Nat), (n.outerScopes k).Pairwise (· < ·) ∧
      ∀ m ∈ n.outerScopes k, k ≤ m ∧ m < k + n.scopeCount) ∧
    ∀ (ns : List Node) (k : Nat), (outerScopesAll k ns).Pairwise (· < ·) ∧
      ∀ m ∈ outerScopesAll k ns, k ≤ m ∧ m < k + scopeCounts ns := by
  refine forestInduction (fun n ih k => ?_) (fun k => ⟨.nil, by simp [outerScopesAll]⟩)
    (fun n ns ihn ihns k => ?_)
  · by_cases h : n.isScopeForming
    · rw [outerScopes_forming k h, scopeCount_forming h]
      refine ⟨List.pairwise_singleton _ _, fun m hm => ?_⟩
      obtain rfl := List.mem_singleton.mp hm
      omega
    · rw [outerScopes_plain k h, scopeCount_plain h]
      exact ih k
  · obtain ⟨hsorted, hbounds⟩ := ihn k
    obtain ⟨hsorted', hbounds'⟩ := ihns (k + n.scopeCount)
    rw [outerScopesAll, scopeCounts, List.pairwise_append]
    refine ⟨⟨hsorted, hsorted', fun m hm m' hm' => ?_⟩, fun m hm => ?_⟩
    · have := hbounds m hm
      have := hbounds' m' hm'
      omega
    · rcases List.mem_append.mp hm with hm | hm
      · have := hbounds m hm
        omega
      · have := hbounds' m hm
        omega

/-- The outermost scopes at and below a node name the scope around it as their parent. -/
theorem parentOf?_of_mem_outerScopes_and {t : ScopeTree} :
    (∀ (n : Node) (i k : Nat), t.HasFrom k (n.scopesFrom i k) →
      ∀ m ∈ n.outerScopes k, t.parentOf? m = some i) ∧
    ∀ (ns : List Node) (i k : Nat), t.HasFrom k (scopesFromAll i k ns) →
      ∀ m ∈ outerScopesAll k ns, t.parentOf? m = some i := by
  refine forestInduction (fun n ih i k ht m hm => ?_)
    (fun i k ht m hm => absurd hm List.not_mem_nil) (fun n ns ihn ihns i k ht m hm => ?_)
  · by_cases h : n.isScopeForming
    · rw [scopesFrom_forming i k h] at ht
      rw [outerScopes_forming k h] at hm
      obtain rfl := List.mem_singleton.mp hm
      rw [ScopeTree.parentOf?, ht.head]
      rfl
    · rw [scopesFrom_plain i k h] at ht
      rw [outerScopes_plain k h] at hm
      exact ih i k ht m hm
  · rw [scopesFromAll] at ht
    have hns := ht.right
    rw [length_scopesFrom] at hns
    rcases List.mem_append.mp hm with hm | hm
    · exact ihn i k ht.left m hm
    · exact ihns i _ hns m hm

/-- The contexts of the scopes at and below a node are the functions a walk of it meets. -/
theorem contexts_and :
    (∀ (n : Node) (i k : Nat),
      (n.scopesFrom i k).map Scope.context = n.walk.filter isScopeForming) ∧
    ∀ (ns : List Node) (i k : Nat),
      (scopesFromAll i k ns).map Scope.context = (walkFrom ns).filter isScopeForming := by
  refine forestInduction (fun n ih i k => ?_) (fun i k => ?_) (fun n ns ihn ihns i k => ?_)
  · rw [walk_eq]
    by_cases h : n.isScopeForming
    · rw [scopesFrom_forming i k h, List.map_cons, ih, List.filter_cons_of_pos h]
    · rw [scopesFrom_plain i k h, ih, List.filter_cons_of_neg h]
  · rw [walkFrom_nil]
    rfl
  · rw [scopesFromAll, walkFrom_cons_eq, List.map_append, List.filter_append, ihn, ihns]

end Node

namespace ScopeTree

open Node

variable {p : Node} {a : List Nat} {i k : Nat}

theorem parentOf?_root (p : Node) : (ofProgram p).parentOf? 0 = none := by
  rw [parentOf?, ofProgram_root]
  rfl

theorem exists_place (h : i < (ofProgram p).size) : ∃ a, p.scopePlaces[i]? = some a := by
  rw [← length_scopePlaces] at h
  exact ⟨_, List.getElem?_eq_getElem h⟩

theorem lt_size_of_parentOf? {j : Nat} (h : (ofProgram p).parentOf? i = some j) :
    i < (ofProgram p).size := by
  obtain ⟨s, hs, -⟩ := Option.bind_eq_some_iff.mp h
  exact (List.getElem?_eq_some_iff.mp hs).1

/-- A scope with a parent was opened below the root, and the parent at the innermost place
around. -/
theorem exists_numbered_of_parentOf? {j : Nat} (h : (ofProgram p).parentOf? i = some j) :
    ∃ a n, p.scopePlaces[i]? = some a ∧ n.isScopeForming ∧ Numbered p a n j i ∧ j < i ∧
      ∃ b, p.scopePlaces[j]? = some b ∧ IsNearest p.scopePlaces b a := by
  obtain ⟨a, ha⟩ := exists_place (lt_size_of_parentOf? h)
  have hne : a ≠ [] := by
    rintro rfl
    obtain rfl := eq_zero_of_place ha
    rw [parentOf?_root] at h
    simp at h
  obtain ⟨n, j', -, hforming, hnumbered, hlt, hb⟩ := exists_numbered_of_place hne ha
  obtain rfl : j' = j := by
    rw [parentOf?, hnumbered.scope hforming] at h
    exact Option.some.inj h
  exact ⟨a, n, ha, hforming, hnumbered, hlt, hb⟩

theorem lt_of_parentOf? {j : Nat} (h : (ofProgram p).parentOf? i = some j) : j < i := by
  obtain ⟨-, -, -, -, -, hlt, -⟩ := exists_numbered_of_parentOf? h
  exact hlt

/-- Only the root has no scope around it. -/
theorem place_of_parentOf?_eq_none (h : p.scopePlaces[i]? = some a)
    (hparent : (ofProgram p).parentOf? i = none) : i = 0 ∧ a = [] := by
  by_cases hroot : a = []
  · subst hroot
    exact ⟨eq_zero_of_place h, rfl⟩
  · obtain ⟨n, j, -, hforming, hnumbered, -⟩ := exists_numbered_of_place hroot h
    rw [parentOf?, hnumbered.scope hforming] at hparent
    simp at hparent

/-- The children of a scope are the outermost scopes below its context. -/
theorem exists_childrenOf_eq (h : i < (ofProgram p).size) :
    ∃ ns k, (ofProgram p).childrenOf i = outerScopesAll k ns ∧
      (ofProgram p).HasFrom k (scopesFromAll i k ns) := by
  obtain ⟨a, ha⟩ := exists_place h
  by_cases hne : a = []
  · subst hne
    obtain rfl := eq_zero_of_place ha
    refine ⟨p.children, 1, ?_, ofProgram_hasFrom p⟩
    rw [childrenOf, ofProgram_root]
    rfl
  · obtain ⟨n, j, -, hforming, hnumbered, -⟩ := exists_numbered_of_place hne ha
    refine ⟨n.children, i + 1, ?_, (hnumbered.inner hforming).scopes⟩
    rw [childrenOf, hnumbered.scope hforming]
    rfl

theorem childrenOf_eq_nil (h : ¬ i < (ofProgram p).size) : (ofProgram p).childrenOf i = [] := by
  have hnone : (ofProgram p).get? i = none := List.getElem?_eq_none (Nat.le_of_not_lt h)
  rw [childrenOf, hnone]
  rfl

theorem mem_childrenOf_iff :
    k ∈ (ofProgram p).childrenOf i ↔ (ofProgram p).parentOf? k = some i := by
  constructor
  · intro hk
    by_cases hi : i < (ofProgram p).size
    · obtain ⟨ns, l, hchildren, hfrom⟩ := exists_childrenOf_eq hi
      rw [hchildren] at hk
      exact parentOf?_of_mem_outerScopes_and.2 ns i l hfrom k hk
    · rw [childrenOf_eq_nil hi] at hk
      exact absurd hk List.not_mem_nil
  · intro hk
    obtain ⟨a, n, -, hforming, hnumbered, -⟩ := exists_numbered_of_parentOf? hk
    refine hnumbered.outer ?_
    rw [outerScopes_forming k hforming]
    exact List.mem_singleton_self k

/-- **The children of a scope are the scopes that name it as their parent**, in ascending
order. -/
theorem childrenOf_eq (p : Node) (i : Nat) :
    (ofProgram p).childrenOf i =
      (List.range (ofProgram p).size).filter fun k => (ofProgram p).parentOf? k = some i := by
  have hsorted : ((ofProgram p).childrenOf i).Pairwise (· < ·) := by
    by_cases hi : i < (ofProgram p).size
    · obtain ⟨ns, l, hchildren, -⟩ := exists_childrenOf_eq hi
      rw [hchildren]
      exact (sorted_outerScopes_and.2 ns l).1
    · rw [childrenOf_eq_nil hi]
      exact .nil
  have hsorted' : ((List.range (ofProgram p).size).filter fun k =>
      (ofProgram p).parentOf? k = some i).Pairwise (· < ·) :=
    List.pairwise_lt_range.sublist List.filter_sublist
  -- two ascending lists with the same members are equal
  refine List.Perm.eq_of_pairwise (fun m m' _ _ h h' => absurd h h'.asymm) hsorted hsorted' ?_
  refine (List.perm_ext_iff_of_nodup (hsorted.imp Nat.ne_of_lt) (hsorted'.imp Nat.ne_of_lt)).mpr
    fun m => ?_
  rw [mem_childrenOf_iff, List.mem_filter, List.mem_range, decide_eq_true_eq]
  exact ⟨fun h => ⟨lt_size_of_parentOf? h, h⟩, And.right⟩

/-! ## The scopes around a scope -/

/-- The way from parent to parent ends only where there is none: each parent has a smaller
number, which is what `ancestors` asks for to go on. -/
theorem ancestors_eq (p : Node) (i : Nat) :
    (ofProgram p).ancestors i =
      i :: ((ofProgram p).parentOf? i).elim [] (ofProgram p).ancestors := by
  rw [ancestors]
  cases h : (ofProgram p).parentOf? i with
  | none => rfl
  | some j => simp only [if_pos (lt_of_parentOf? h), Option.elim_some]

/-- **The scopes around a scope are those opened at the places around its own**, from the inside
out. -/
theorem places_ancestors (h : p.scopePlaces[i]? = some a) :
    ((ofProgram p).ancestors i).map (p.scopePlaces[·]?) =
      ((p.scopePlaces.filter (·.isPrefixOf a)).reverse).map some := by
  induction i using Nat.strongRecOn generalizing a with
  | ind i ih =>
      rw [ancestors_eq]
      cases hparent : (ofProgram p).parentOf? i with
      | none =>
          obtain ⟨rfl, rfl⟩ := place_of_parentOf?_eq_none h hparent
          rw [filter_of_prefixes (sorted_scopePlaces p) h fun c hc =>
            List.isPrefixOf_iff_prefix.mp hc]
          rfl
      | some j =>
          obtain ⟨a', n, ha', -, -, hlt, b, hb, hnearest⟩ := exists_numbered_of_parentOf? hparent
          obtain rfl := Option.some.inj (h.symm.trans ha')
          rw [filter_isPrefixOf (sorted_scopePlaces p) h hnearest, List.reverse_append,
            List.map_append, ← ih j hlt hb]
          simp only [Option.elim_some, List.map_cons, h]
          rfl

theorem getLast?_ancestors (h : i < (ofProgram p).size) :
    ((ofProgram p).ancestors i).getLast? = some 0 := by
  induction i using Nat.strongRecOn with
  | ind i ih =>
      rw [ancestors_eq]
      cases hparent : (ofProgram p).parentOf? i with
      | none =>
          obtain ⟨a, ha⟩ := exists_place h
          obtain ⟨rfl, -⟩ := place_of_parentOf?_eq_none ha hparent
          rfl
      | some j =>
          have hlt := lt_of_parentOf? hparent
          have hlast := ih j hlt (by omega)
          rw [Option.elim_some, List.getLast?_cons, hlast]
          rfl

/-- The context of a scope stands at the place it was opened at. -/
theorem contexts_eq (p : Node) :
    (ofProgram p).scopes.map (fun s => some s.context) = p.scopePlaces.map p.at? := by
  refine List.ext_getElem (by rw [List.length_map, List.length_map, length_scopePlaces]; rfl) ?_
  intro i hi _
  rw [List.length_map] at hi
  obtain ⟨a, ha⟩ := exists_place hi
  obtain ⟨hi', hget⟩ := List.getElem?_eq_some_iff.mp ha
  have hscope : ∃ s, (ofProgram p).get? i = some s ∧ p.at? a = some s.context := by
    by_cases hroot : a = []
    · subst hroot
      obtain rfl := eq_zero_of_place ha
      exact ⟨_, ofProgram_root p, rfl⟩
    · obtain ⟨n, j, hn, hforming, hnumbered, -⟩ := exists_numbered_of_place hroot ha
      exact ⟨_, hnumbered.scope hforming, hn⟩
  obtain ⟨s, hs, hat⟩ := hscope
  obtain ⟨_, hs'⟩ := List.getElem?_eq_some_iff.mp hs
  rw [List.getElem_map, List.getElem_map, hs', hget, hat]

/-- The scopes of `t` lie over the program `p`: each of them was opened at the place with the
same number. -/
structure LiesOver (t : ScopeTree) (p : Node) (places : List (List Nat)) : Prop where
  /-- Scopes are opened at the root and at the functions below it, -/
  mem : ∀ a, a ∈ places ↔ a = [] ∨ ∃ n, p.at? a = some n ∧ n.isScopeForming
  /-- once at each of these places, and they are numbered in pre-order. -/
  order : places.Pairwise (List.Lex (· < ·))
  context : t.scopes.map (fun s => some s.context) = places.map p.at?
  /-- This is the order in which a walk of the program meets the contexts. -/
  walk : t.scopes.map Scope.context = p :: p.walk.tail.filter Node.isScopeForming
  root : t.parentOf? 0 = none
  /-- The parent of any other scope was opened at the innermost place around it, and before
  it. -/
  parent : ∀ i a, places[i]? = some a → a ≠ [] →
    ∃ j b, t.parentOf? i = some j ∧ j < i ∧ places[j]? = some b ∧ IsNearest places b a
  /-- The children of a scope are those that name it as their parent, in ascending order. -/
  children : ∀ i, t.childrenOf i = (List.range t.size).filter fun k => t.parentOf? k = some i
  /-- The ancestors of a scope are itself and those of its parent, -/
  chain : ∀ i, t.ancestors i = i :: (t.parentOf? i).elim [] t.ancestors
  /-- the last of them is the root's, -/
  last : ∀ i < t.size, (t.ancestors i).getLast? = some 0
  /-- and they were opened at the places on the way to its own, from the inside out. -/
  ancestors : ∀ i a, places[i]? = some a →
    (t.ancestors i).map (places[·]?) = ((places.filter (·.isPrefixOf a)).reverse).map some

/-- **The scopes of a program lie over its functions.** -/
theorem scopes_over_functions (p : Node) : ∃ places, (ofProgram p).LiesOver p places := by
  refine ⟨p.scopePlaces, fun a => mem_scopePlaces, sorted_scopePlaces p, contexts_eq p, ?_,
    parentOf?_root p, fun i a ha hne => ?_, childrenOf_eq p, ancestors_eq p,
    fun i hi => getLast?_ancestors hi, fun i a ha => places_ancestors ha⟩
  · rw [ofProgram_eq, walk_eq, List.map_cons, contexts_and.2]
    rfl
  · obtain ⟨n, j, -, hforming, hnumbered, hlt, b, hb, hnearest⟩ := exists_numbered_of_place hne ha
    refine ⟨j, b, ?_, hlt, hb, hnearest⟩
    rw [parentOf?, hnumbered.scope hforming]
    rfl

end ScopeTree

end ExprScript
