import ExprScript.Proofs.Check.Visits

set_option autoImplicit false

/-! # A check visits every node once

The check of a program goes through the visits `Node.visits` and no others, provided that ids are
distinct. The ids it remembers decide which subtrees it leaves out, so the argument is about
them. When the walk of a scope comes to a node, every function at or below that node has been
visited, and nothing else of it has (`visit_run_and`). This is so because the scopes further in
come first, and their visits are exactly the nodes of their functions that the walk does not
reach (`visitScope_run_and`).
-/

namespace ExprScript

def CheckState.after (rules : RuleSet) (t : ScopeTree) (st : CheckState) (vs : List Visit) :
    CheckState :=
  ⟨(vs.map fun v => v.node.id).reverse ++ st.visited, st.found ++ vs.flatMap (·.findings rules t)⟩

namespace RuleSet

variable (rules : RuleSet) (t : ScopeTree)

theorem after_nil (st : CheckState) : st.after rules t [] = st := by
  simp [CheckState.after]

theorem after_append (st : CheckState) (us vs : List Visit) :
    st.after rules t (us ++ vs) = (st.after rules t us).after rules t vs := by
  simp [CheckState.after]

theorem after_under (st : CheckState) (j : Nat) (vs : List Visit) :
    st.after rules t (vs.map (.under j)) = st.after rules t vs := by
  simp [CheckState.after, Function.comp_def, List.flatMap_map]

theorem mem_after_visited {st : CheckState} {vs : List Visit} {x : Nat} :
    x ∈ (st.after rules t vs).visited ↔ (∃ v ∈ vs, v.node.id = x) ∨ x ∈ st.visited := by
  simp [CheckState.after]

/-! ## One step -/

theorem visit_of_visited {i : Nat} {parent : Option Node} {st : CheckState} {n : Node}
    (h : n.id ∈ st.visited) : rules.visit t i parent st n = st := by
  cases n
  rw [visit, if_pos (List.contains_iff_mem.mpr h)]

/-- At a node that has not been visited, the children are walked, and then the rules run. -/
theorem visit_of_new {i : Nat} {parent : Option Node} {st : CheckState} {n : Node}
    (h : n.id ∉ st.visited) (a : List Nat) :
    rules.visit t i parent st n =
      (rules.visitAll t i n st n.children).after rules t [⟨a, n, i, parent⟩] := by
  cases n
  rw [visit, if_neg (fun hc => h (List.contains_iff_mem.mp hc))]
  simp [CheckState.after, Visit.findings]

/-! ## The walk of one scope -/

/-- The walk of a subtree in the scope around it makes the visits of that scope, when the
functions in the subtree have been visited and the other nodes have not. -/
theorem visit_run_and :
    (∀ (n : Node) (i : Nat) (parent : Node) (st : CheckState),
      (∀ m ∈ n.postorder, m.isScopeForming → m.id ∈ st.visited) →
      (∀ v ∈ Node.visitsIn i parent n, v.node.id ∉ st.visited) →
      ((Node.visitsIn i parent n).map fun v => v.node.id).Nodup →
      rules.visit t i (some parent) st n = st.after rules t (Node.visitsIn i parent n)) ∧
    ∀ (ns : List Node) (i j : Nat) (parent : Node) (st : CheckState),
      (∀ m ∈ ns.flatMap Node.postorder, m.isScopeForming → m.id ∈ st.visited) →
      (∀ v ∈ Node.visitsInAll i parent j ns, v.node.id ∉ st.visited) →
      ((Node.visitsInAll i parent j ns).map fun v => v.node.id).Nodup →
      rules.visitAll t i parent st ns = st.after rules t (Node.visitsInAll i parent j ns) := by
  refine Node.forestInduction (fun n ih i parent st hin hnew hnodup => ?_)
    (fun i j parent st hin hnew hnodup => ?_)
    (fun n ns ihn ihns i j parent st hin hnew hnodup => ?_)
  · by_cases hn : n.isScopeForming
    · -- a function has been visited with its own scope, and is passed over
      have hmem : n ∈ n.postorder := by rw [Node.postorder_eq]; simp
      rw [visit_of_visited rules t (hin n hmem hn), Node.visitsIn_forming i parent hn, after_nil]
    · rw [Node.visitsIn_plain i parent hn] at hnew hnodup ⊢
      rw [List.map_append, List.nodup_append] at hnodup
      have hin' : ∀ m ∈ n.children.flatMap Node.postorder, m.isScopeForming →
          m.id ∈ st.visited := by
        intro m hm
        exact hin m (by rw [Node.postorder_eq]; exact List.mem_append_left _ hm)
      rw [visit_of_new rules t (hnew ⟨[], n, i, some parent⟩ (by simp)) [], after_append,
        ih i 0 n st hin' (fun v hv => hnew v (List.mem_append_left _ hv)) hnodup.1]
  · rw [visitAll, Node.visitsInAll, after_nil]
  · rw [Node.visitsInAll] at hnew hnodup ⊢
    rw [List.map_append, List.nodup_append] at hnodup
    obtain ⟨hfirst, hrest, hapart⟩ := hnodup
    have hn : rules.visit t i (some parent) st n =
        st.after rules t (Node.visitsIn i parent n) := by
      refine ihn i parent st (fun m hm => hin m (by simp [hm])) (fun v hv => ?_) ?_
      · exact hnew (v.under j) (List.mem_append_left _ (List.mem_map_of_mem hv))
      · simpa [Function.comp_def] using hfirst
    rw [visitAll, hn, after_append, after_under]
    refine ihns i (j + 1) parent _ (fun m hm hf => ?_) (fun v hv hvisited => ?_) hrest
    · exact (mem_after_visited rules t).mpr (Or.inr (hin m (by simp [hm]) hf))
    · -- an id of the rest is neither of the first subtree nor visited before
      rcases (mem_after_visited rules t).mp hvisited with ⟨w, hw, hid⟩ | hold
      · refine hapart v.node.id ?_ v.node.id (List.mem_map_of_mem hv) rfl
        rw [← hid]
        exact List.mem_map.mpr ⟨w.under j, List.mem_map_of_mem hw, rfl⟩
      · exact hnew v (List.mem_append_right _ hv) hold

/-- No visit of a subtree in the scope around it is at a function. -/
theorem not_forming_of_mem_visitsInAll {i j : Nat} {parent : Node} {ns : List Node} {v : Visit}
    (h : v ∈ Node.visitsInAll i parent j ns) : ¬ v.node.isScopeForming := by
  obtain ⟨l, c, w, -, hw, rfl⟩ := Node.exists_of_mem_visitsInAll h
  obtain ⟨hat, -, hpath, -⟩ := Node.of_mem_visitsIn hw
  intro hforming
  have hmem : w.node ∈ c :: c.path w.place := by
    by_cases hp : w.place = []
    · rw [hp] at hat
      obtain rfl : c = w.node := Option.some.inj hat
      simp
    · exact List.mem_cons_of_mem _ (Node.mem_path_of_at? hat hp)
  have : w.node ∈ (c :: c.path w.place).filter Node.isScopeForming :=
    List.mem_filter.mpr ⟨hmem, hforming⟩
  rw [hpath] at this
  simp at this

/-- The walk of a scope from its context, after the walks of the scopes in it. -/
theorem visit_context {n : Node} {i k : Nat} {st : CheckState}
    (hids : (n.postorder.map Node.id).Nodup) (hnew : ∀ m ∈ n.postorder, m.id ∉ st.visited) :
    rules.visit t i none (st.after rules t (Node.visitsBelowAll k 0 n.children)) n =
      st.after rules t (Node.visitsBelowAll k 0 n.children ++ n.ownVisits i) := by
  have hperm := Node.visits_perm_and.2 n.children i k 0 n
  rw [Node.postorder_eq] at hids hnew
  rw [List.map_append, List.nodup_append] at hids
  obtain ⟨hbelow, -, hroot⟩ := hids
  have hsplit : ((Node.visitsBelowAll k 0 n.children).map fun v => v.node.id).Nodup ∧
      ((Node.visitsInAll i n 0 n.children).map fun v => v.node.id).Nodup ∧
      ∀ v ∈ Node.visitsBelowAll k 0 n.children, ∀ w ∈ Node.visitsInAll i n 0 n.children,
        v.node.id ≠ w.node.id := by
    have hnodup := (hperm.map Node.id).nodup_iff.mpr hbelow
    rw [List.map_map, List.map_append, List.nodup_append] at hnodup
    refine ⟨hnodup.1, hnodup.2.1, fun v hv w hw => ?_⟩
    exact hnodup.2.2 _ (List.mem_map_of_mem hv) _ (List.mem_map_of_mem hw)
  have hmem : ∀ v ∈ Node.visitsBelowAll k 0 n.children ++ Node.visitsInAll i n 0 n.children,
      v.node ∈ n.children.flatMap Node.postorder :=
    fun v hv => hperm.mem_iff.mp (List.mem_map_of_mem hv)
  have hn : n.id ∉ (st.after rules t (Node.visitsBelowAll k 0 n.children)).visited := by
    intro h
    rcases (mem_after_visited rules t).mp h with ⟨v, hv, hid⟩ | hold
    · exact hroot v.node.id (List.mem_map_of_mem (hmem v (List.mem_append_left _ hv))) n.id
        (by simp) hid
    · exact hnew n (by simp) hold
  rw [visit_of_new rules t hn [], Node.ownVisits, ← List.append_assoc, after_append _ _ st,
    after_append _ _ st]
  congr 1
  refine (visit_run_and rules t).2 n.children i 0 n _ (fun m hm hforming => ?_)
    (fun v hv hvisited => ?_) hsplit.2.1
  · -- a function below has been visited, since the walk of this scope does not visit it
    obtain ⟨v, hv, rfl⟩ := List.mem_map.mp (hperm.mem_iff.mpr hm)
    rcases List.mem_append.mp hv with hv | hv
    · exact (mem_after_visited rules t).mpr (Or.inl ⟨v, hv, rfl⟩)
    · exact absurd hforming (not_forming_of_mem_visitsInAll hv)
  · rcases (mem_after_visited rules t).mp hvisited with ⟨w, hw, hid⟩ | hold
    · exact hsplit.2.2 w hw v hv hid
    · exact hnew v.node (List.mem_append_left _ (hmem v (List.mem_append_right _ hv))) hold

/-! ## The walks of all scopes -/

/-- The walks of the scopes at and below a node, in post-order, make the visits of these
scopes. -/
theorem visitScope_run_and :
    (∀ (n : Node) (i k : Nat) (st : CheckState), t.HasFrom k (n.scopesFrom i k) →
      (n.postorder.map Node.id).Nodup → (∀ m ∈ n.postorder, m.id ∉ st.visited) →
      (n.scopePostorder k).foldl (rules.visitScope t) st = st.after rules t (n.visitsBelow k)) ∧
    ∀ (ns : List Node) (i k j : Nat) (st : CheckState),
      t.HasFrom k (Node.scopesFromAll i k ns) →
      ((ns.flatMap Node.postorder).map Node.id).Nodup →
      (∀ m ∈ ns.flatMap Node.postorder, m.id ∉ st.visited) →
      (Node.scopePostorderAll k ns).foldl (rules.visitScope t) st =
        st.after rules t (Node.visitsBelowAll k j ns) := by
  refine Node.forestInduction (fun n ih i k st ht hids hnew => ?_)
    (fun i k j st ht hids hnew => (after_nil rules t st).symm)
    (fun n ns ihn ihns i k j st ht hids hnew => ?_)
  · have hids' : ((n.children.flatMap Node.postorder).map Node.id).Nodup := by
      rw [Node.postorder_eq, List.map_append] at hids
      exact (List.nodup_append.mp hids).1
    have hnew' : ∀ m ∈ n.children.flatMap Node.postorder, m.id ∉ st.visited := by
      intro m hm
      exact hnew m (by rw [Node.postorder_eq]; exact List.mem_append_left _ hm)
    by_cases hn : n.isScopeForming
    · rw [Node.scopesFrom_forming i k hn] at ht
      rw [Node.scopePostorder_forming k hn, Node.visitsBelow_forming k hn, List.foldl_append,
        ih k (k + 1) 0 st ht.tail hids' hnew', ← visit_context rules t hids hnew]
      show rules.visitScope t _ k = _
      rw [visitScope, ht.head]
    · rw [Node.scopesFrom_plain i k hn] at ht
      rw [Node.scopePostorder_plain k hn, Node.visitsBelow_plain k hn, ih i k 0 st ht hids' hnew']
  · rw [Node.scopesFromAll] at ht
    have hns := ht.right
    rw [Node.length_scopesFrom] at hns
    rw [List.flatMap_cons] at hids hnew
    rw [List.map_append, List.nodup_append] at hids
    obtain ⟨hfirst, hrest, hapart⟩ := hids
    rw [Node.scopePostorderAll, Node.visitsBelowAll, List.foldl_append, after_append, after_under,
      ihn i k st ht.left hfirst fun m hm => hnew m (List.mem_append_left _ hm)]
    refine ihns i _ (j + 1) _ hns hrest fun m hm hvisited => ?_
    -- what has been visited in the first subtree has other ids than the rest
    rcases (mem_after_visited rules t).mp hvisited with ⟨v, hv, hid⟩ | hold
    · have hv' : v.node ∈ n.postorder :=
        (Node.visits_perm_and.1 n i k n).mem_iff.mp
          (List.mem_map_of_mem (List.mem_append_left _ hv))
      exact hapart v.node.id (List.mem_map_of_mem hv') m.id (List.mem_map_of_mem hm) hid
    · exact hnew m (List.mem_append_right _ hm) hold

/-- **A check of a program with distinct ids makes the visits `Node.visits`.** -/
theorem process_eq {p : Node} (h : p.DistinctIds) :
    rules.process (.ofProgram p) =
      p.visits.flatMap (·.findings rules (ScopeTree.ofProgram p)) := by
  have hids := h.nodup
  have hids' : ((p.children.flatMap Node.postorder).map Node.id).Nodup := by
    rw [Node.postorder_eq, List.map_append] at hids
    exact (List.nodup_append.mp hids).1
  rw [process, ScopeTree.postOrder_ofProgram, List.foldl_append,
    (visitScope_run_and rules _).2 p.children 0 1 0 _ (ScopeTree.ofProgram_hasFrom p) hids'
      (by simp)]
  show (rules.visitScope _ _ 0).found = _
  rw [visitScope, ScopeTree.ofProgram_root]
  show (rules.visit _ 0 none _ p).found = _
  rw [visit_context rules _ hids (by simp)]
  simp [CheckState.after, Node.visits]

end RuleSet

/-! ## Each node once, in its scope -/

namespace Node

theorem visits_nodup_ids {p : Node} (h : p.DistinctIds) :
    (p.visits.map fun v => v.node.id).Nodup := by
  have hnodup := ((visits_perm p).map id).nodup_iff.mpr h.nodup
  rwa [List.map_map] at hnodup

theorem visits_nodup_places {p : Node} (h : p.DistinctIds) :
    (p.visits.map Visit.place).Nodup := by
  refine List.Nodup.of_map (fun a => (p.at? a).map id) ?_
  have hids : (p.visits.map Visit.place).map (fun a => (p.at? a).map id) =
      (p.visits.map fun v => v.node.id).map some := by
    rw [List.map_map, List.map_map]
    refine List.map_congr_left fun v hv => ?_
    show (p.at? v.place).map id = some v.node.id
    rw [(of_mem_visits hv).1]
    rfl
  rw [hids]
  exact (visits_nodup_ids h).map fun x y hxy => Option.some.inj hxy

theorem mem_visits_places_iff {p : Node} (h : p.DistinctIds) {a : List Nat} :
    a ∈ p.visits.map Visit.place ↔ (p.at? a).isSome := by
  constructor
  · intro ha
    obtain ⟨v, hv, rfl⟩ := List.mem_map.mp ha
    rw [(of_mem_visits hv).1]
    rfl
  · intro ha
    obtain ⟨m, hm⟩ := Option.isSome_iff_exists.mp ha
    obtain ⟨v, hv, rfl⟩ :=
      List.mem_map.mp ((visits_perm p).mem_iff.mpr (mem_postorder_iff.mpr ⟨a, hm⟩))
    rw [h a v.place v.node v.node hm (of_mem_visits hv).1 rfl]
    exact List.mem_map_of_mem hv

/-- The visits are what a check of the program does: which nodes the rules see, in which order,
and what they are shown. -/
structure CheckedBy (p : Node) (visits : List Visit) : Prop where
  /-- At each visit the rules registered for the type of the node run in the order of their
  registration, and what they find is put together. -/
  found : ∀ rules : RuleSet, rules.process (.ofProgram p) =
    visits.flatMap fun v =>
      (rules.entries.filter (·.1 = v.node.type)).filterMap fun entry =>
        entry.2.check v.node ⟨.ofProgram p, v.scope, v.parent⟩
  /-- The scopes come in post-order, and each of them with its subtree from the leaves up, less
  the subtrees of the scopes further in. -/
  order : visits.map Visit.shown =
    (ScopeTree.ofProgram p).postOrder.flatMap fun i =>
      ((ScopeTree.ofProgram p).visitsOf i).map Visit.shown
  /-- No place is visited twice. -/
  once : (visits.map Visit.place).Nodup
  /-- Every place of the tree is visited. -/
  everywhere : ∀ a, a ∈ visits.map Visit.place ↔ (p.at? a).isSome
  /-- The node visited is the one at the address. -/
  node : ∀ v ∈ visits, p.at? v.place = some v.node
  /-- The scope shown is opened by the innermost region around the node. -/
  scope : ∀ v ∈ visits,
    ((ScopeTree.ofProgram p).get? v.scope).map Scope.context = (p.regions v.place).getLast?
  /-- The parent shown is the one in the tree, except at the nodes that open a scope. -/
  parent : ∀ v ∈ visits, v.parent =
    if v.place = [] ∨ v.node.isScopeForming then none else p.at? v.place.dropLast

/-- **A check sees every node of a program once**, in the innermost scope around it. -/
theorem checkedBy_some_visits {p : Node} (h : p.DistinctIds) : ∃ visits, p.CheckedBy visits := by
  refine ⟨p.visits, ?_, visits_shown p, visits_nodup_places h, fun a => mem_visits_places_iff h,
    fun v hv => (of_mem_visits hv).1, fun v hv => ?_, fun v hv => (of_mem_visits hv).2.2⟩
  · intro rules
    rw [RuleSet.process_eq rules h]
    simp only [Visit.findings, RuleSet.findings, RuleSet.forType, List.filterMap_map]
    rfl
  · rw [← ScopeTree.head?_contextsAround, (of_mem_visits hv).2.1, List.head?_reverse]

/-- A function in a function, and a call behind it. -/
def nestedFunctions : Node :=
  ⟨9, .program,
    [⟨5, .functionDeclaration "f",
      [⟨0, .parameters, [], .empty⟩,
        ⟨4, .returnExpression,
          [⟨3, .anonymousFunction, [⟨1, .parameters, [], .empty⟩, ⟨2, .void, [], .empty⟩],
            .empty⟩], .empty⟩], .empty⟩,
      ⟨8, .call, [⟨6, .identifier "f", [], .empty⟩, ⟨7, .arguments, [], .empty⟩], .empty⟩],
    .empty⟩

theorem checkedBy_nestedFunctions :
    nestedFunctions.DistinctIds ∧ ∃ visits, nestedFunctions.CheckedBy visits :=
  have h : nestedFunctions.DistinctIds := distinctIds_of_nodup (by decide)
  ⟨h, checkedBy_some_visits h⟩

end Node

end ExprScript
