import ExprScript.Check.Undefined
import ExprScript.Proofs.Check.Traversal
import ExprScript.Proofs.Tree.Build

set_option autoImplicit false

/-! # Undefined names are reported exactly

An identifier is *undefined* where it refers to something, and neither the globals nor a region
around it bind its name (`Node.UndefinedAt`). This is said about addresses in the program tree;
scope numbers, ids and the order of the walk do not occur in it.

The check of a built program reports every undefined identifier once and nothing else
(`analyze_reports_undefined`). The parts are the visits of a check (`of_mem_visits`), which say
what the rule is shown, and the rule itself, which tells name positions by ids and resolves names
through the numbered scopes.
-/

namespace ExprScript

namespace Node

/-- The node at the address is an identifier that refers to nothing. -/
structure UndefinedAt (globals : List String) (p : Node) (a : List Nat) (n : Node)
    (name : String) : Prop where
  here : p.at? a = some n
  identifier : n.kind = .identifier name
  /-- it is not the name of a property -/
  notProperty : ∀ b q, a = b ++ [1] → p.at? b = some q → q.type ≠ .propertyAccess
  /-- it is not the key of an object property -/
  notKey : ∀ b q, a = b ++ [0] → p.at? b = some q → q.type ≠ .objectProperty
  notGlobal : name ∉ globals
  unbound : ∀ r ∈ p.regions a, ¬ r.Binds name

/-- What is undefined does not stand at the root of a program. -/
theorem UndefinedAt.place_ne_nil {globals : List String} {p n : Node} {a : List Nat}
    {name : String} (h : p.UndefinedAt globals a n name) (hp : p.kind = .program) : a ≠ [] := by
  rintro rfl
  obtain rfl : p = n := Option.some.inj h.here
  cases hp.symm.trans h.identifier

end Node

/-! ## The rule at one visit -/

theorem undefinedRule_check_eq_some {globals : List String} {n : Node} {site : Site}
    {d : Diagnostic} :
    (undefinedRule globals).check n site = some d ↔
      ∃ name, n.kind = .identifier name ∧ isNamePosition n site.parent = false ∧
        name ∉ globals ∧ site.scopes.resolves site.scope name = false ∧
        d = undefinedName name n.span := by
  unfold undefinedRule
  dsimp only
  cases hname : n.identifierName? with
  | none =>
      simp only [reduceCtorEq, false_iff, not_exists, not_and]
      intro name hkind
      rw [Node.identifierName?_eq_some.mpr hkind] at hname
      simp at hname
  | some name =>
      have hkind := Node.identifierName?_eq_some.mp hname
      simp only [Option.ite_none_left_eq_some, Bool.or_eq_true, not_or, Bool.not_eq_true,
        List.contains_eq_mem, decide_eq_false_iff_not, Option.some.injEq]
      constructor
      · rintro ⟨⟨⟨hpos, hglobal⟩, hresolve⟩, rfl⟩
        exact ⟨name, hkind, hpos, hglobal, hresolve, rfl⟩
      · rintro ⟨name', hkind', hpos, hglobal, hresolve, rfl⟩
        obtain rfl : name = name' := by
          rw [hkind] at hkind'
          exact Kind.identifier.inj hkind'
        exact ⟨⟨⟨hpos, hglobal⟩, hresolve⟩, rfl⟩

/-- With distinct ids, comparing ids tells whether a node is the child with a given number. -/
theorem child_any_id_iff {p q n : Node} (h : p.DistinctIds) {b : List Nat} {j l : Nat}
    (hq : p.at? b = some q) (hn : p.at? (b ++ [j]) = some n) :
    q.children[l]?.any (·.id = n.id) = true ↔ j = l := by
  obtain ⟨q', hq', hj⟩ := Node.at?_append_eq_some.mp hn
  obtain rfl : q = q' := by
    rw [hq] at hq'
    exact Option.some.inj hq'
  obtain ⟨c, hc, hcn⟩ := Node.at?_cons_eq_some.mp hj
  obtain rfl : c = n := Option.some.inj hcn
  constructor
  · intro hany
    obtain ⟨m, hm, hid⟩ := Option.any_eq_true _ _ |>.mp hany
    have hm' : p.at? (b ++ [l]) = some m :=
      Node.at?_append_eq_some.mpr ⟨q, hq, Node.at?_cons_eq_some.mpr ⟨m, hm, rfl⟩⟩
    have hab := h (b ++ [l]) (b ++ [j]) m c hm' hn (by simpa using hid)
    have := List.append_cancel_left hab
    exact (List.cons.inj this).1.symm
  · rintro rfl
    rw [hc]
    simp

/-- The rule sees a name position exactly where the tree has one. -/
theorem isNamePosition_visit {p : Node} (h : p.DistinctIds) {v : Visit} (hv : v ∈ p.visits)
    (hplain : ¬ v.node.isScopeForming) :
    isNamePosition v.node v.parent = false ↔
      (∀ b q, v.place = b ++ [1] → p.at? b = some q → q.type ≠ .propertyAccess) ∧
        ∀ b q, v.place = b ++ [0] → p.at? b = some q → q.type ≠ .objectProperty := by
  obtain ⟨hat, -, hparent⟩ := Node.of_mem_visits hv
  rcases List.eq_nil_or_concat v.place with hp | ⟨b, j, hp⟩
  · rw [hparent, if_pos (Or.inl hp), hp]
    simp [isNamePosition]
  · rw [List.concat_eq_append] at hp
    rw [hp] at hat
    obtain ⟨q, hq, hj⟩ := Node.at?_append_eq_some.mp hat
    have hshown : v.parent = some q := by
      rw [hparent, if_neg (by rw [hp]; simp [hplain]), hp, List.dropLast_concat, hq]
    -- the rule knows a child by its id, which no other node has
    have hslot : ∀ l : Nat, q.children[l]?.any (·.id = v.node.id) = true ↔ j = l :=
      fun l => child_any_id_iff h hq hat
    rw [hshown, hp]
    constructor
    · intro hpos
      refine ⟨fun b' q' hb' hq' ht => ?_, fun b' q' hb' hq' ht => ?_⟩
      all_goals
        obtain ⟨rfl, hjl⟩ := List.append_inj' hb' rfl
        obtain rfl : q = q' := by
          rw [hq] at hq'
          exact Option.some.inj hq'
        rw [isNamePosition] at hpos
        simp only [ht] at hpos
        have := (hslot _).mpr (List.cons.inj hjl).1
        rw [this] at hpos
        simp at hpos
    · rintro ⟨hproperty, hkey⟩
      rw [isNamePosition]
      cases ht : q.type with
      | propertyAccess =>
          rw [Bool.eq_false_iff]
          intro hany
          exact hproperty b q (by rw [(hslot 1).mp hany]) hq ht
      | objectProperty =>
          rw [Bool.eq_false_iff]
          intro hany
          exact hkey b q (by rw [(hslot 0).mp hany]) hq ht
      | _ => rfl

/-- What the rule reports at a visit is said by the address of the node. -/
theorem undefinedRule_check_visit {p : Node} (h : p.DistinctIds) {globals : List String}
    {v : Visit} (hv : v ∈ p.visits) {d : Diagnostic} :
    (undefinedRule globals).check v.node ⟨.ofProgram p, v.scope, v.parent⟩ = some d ↔
      ∃ name, p.UndefinedAt globals v.place v.node name ∧ d = undefinedName name v.node.span := by
  obtain ⟨hat, hcontexts, -⟩ := Node.of_mem_visits hv
  have hresolve : ∀ name, (ScopeTree.ofProgram p).resolves v.scope name = false ↔
      ∀ r ∈ p.regions v.place, ¬ r.Binds name := by
    intro name
    rw [Bool.eq_false_iff, Ne, ScopeTree.resolves_iff, hcontexts]
    simp
  have hplain : ∀ name, v.node.kind = .identifier name → ¬ v.node.isScopeForming := by
    intro name hkind
    simp [Node.isScopeForming, Node.type, hkind, Kind.type, NodeType.isScopeForming]
  rw [undefinedRule_check_eq_some]
  constructor
  · rintro ⟨name, hkind, hpos, hglobal, hunresolved, rfl⟩
    obtain ⟨hproperty, hkey⟩ := (isNamePosition_visit h hv (hplain name hkind)).mp hpos
    exact ⟨name, ⟨hat, hkind, hproperty, hkey, hglobal, (hresolve name).mp hunresolved⟩, rfl⟩
  · rintro ⟨name, hundefined, rfl⟩
    have hpos := (isNamePosition_visit h hv (hplain name hundefined.identifier)).mpr
      ⟨hundefined.notProperty, hundefined.notKey⟩
    exact ⟨name, hundefined.identifier, hpos, hundefined.notGlobal,
      (hresolve name).mpr hundefined.unbound, rfl⟩

/-! ## The whole check -/

/-- With the default rules, a check reports what the rule for undefined names reports at each
visit. -/
theorem defaultRules_analyze {p : Node} (h : p.DistinctIds) (globals : List String) :
    (defaultRules globals).analyze p =
      p.visits.filterMap fun v =>
        (undefinedRule globals).check v.node ⟨.ofProgram p, v.scope, v.parent⟩ := by
  rw [RuleSet.analyze, RuleSet.process_eq _ h, List.filterMap_eq_flatMap_toList]
  refine List.flatMap_congr fun v _ => ?_
  show ((defaultRules globals).forType v.node.type).filterMap _ = _
  by_cases ht : v.node.type = .identifier
  · have hrules : (defaultRules globals).forType v.node.type = [undefinedRule globals] := by
      simp [defaultRules, RuleSet.forType, RuleSet.add, RuleSet.empty, ht]
    rw [hrules, List.filterMap_cons, List.filterMap_nil]
    cases (undefinedRule globals).check v.node ⟨.ofProgram p, v.scope, v.parent⟩ <;> rfl
  · have hrules : (defaultRules globals).forType v.node.type = [] := by
      simp [defaultRules, RuleSet.forType, RuleSet.add, RuleSet.empty, Ne.symm ht]
    have hnone : (undefinedRule globals).check v.node ⟨.ofProgram p, v.scope, v.parent⟩ = none := by
      rw [Option.eq_none_iff_forall_ne_some]
      intro d hd
      obtain ⟨name, hkind, -⟩ := undefinedRule_check_eq_some.mp hd
      exact ht (by rw [Node.type, hkind]; rfl)
    rw [hrules, hnone]
    rfl

/-- Every report is that of an undefined identifier, with its span. -/
theorem exists_undefinedAt_of_mem_analyze {p : Node} (h : p.DistinctIds) {globals : List String}
    {d : Diagnostic} (hd : d ∈ (defaultRules globals).analyze p) :
    ∃ a n name, p.UndefinedAt globals a n name ∧ d = undefinedName name n.span := by
  rw [defaultRules_analyze h, List.mem_filterMap] at hd
  obtain ⟨v, hv, hcheck⟩ := hd
  obtain ⟨name, hundefined, hreport⟩ := (undefinedRule_check_visit h hv).mp hcheck
  exact ⟨v.place, v.node, name, hundefined, hreport⟩

/-- The results of a partial function, beside the members of the list that have one. -/
theorem forall₂_filterMap {α β γ : Type} {R : γ → β → Prop} (f : α → Option β) (g : α → γ)
    (l : List α) (h : ∀ x ∈ l, ∀ y, f x = some y → R (g x) y) :
    List.Forall₂ R ((l.filter fun x => (f x).isSome).map g) (l.filterMap f) := by
  induction l with
  | nil => exact .nil
  | cons x l ih =>
      have hl := ih fun x hx => h x (List.mem_cons_of_mem _ hx)
      cases hx : f x with
      | none => simpa [hx] using hl
      | some y =>
          rw [List.filter_cons_of_pos (by simp [hx]), List.filterMap_cons_some hx, List.map_cons]
          exact .cons (h x (by simp) y hx) hl

/-- The reports are in step with a list of addresses that holds every undefined identifier of
the program once and nothing else. -/
def Node.UndefinedReportedBy (globals : List String) (p : Node) (reports : List Diagnostic) :
    Prop :=
  ∃ places : List (List Nat),
    places.Nodup ∧
    (∀ a, a ∈ places ↔ ∃ n name, p.UndefinedAt globals a n name) ∧
    List.Forall₂
      (fun a d => ∃ n name, p.UndefinedAt globals a n name ∧
        d = ⟨"undefined-identifier",
          "Error on line " ++ toString n.span.start.line ++ ": " ++ name ++ " is not defined",
          n.span⟩)
      places reports

/-- **Undefined names are reported exactly**: the check of a built tree reports each of them
once and nothing else, and so nothing at all when there is none. -/
theorem analyze_reports_undefined {raw : RawTree} {p : Node} (h : Node.buildTree raw = .ok p)
    (globals : List String) :
    p.UndefinedReportedBy globals ((defaultRules globals).analyze p) ∧
      ((defaultRules globals).analyze p = [] ↔
        ∀ a n name, ¬ p.UndefinedAt globals a n name) := by
  have hids := Node.buildTree_distinctIds h
  rw [defaultRules_analyze hids]
  set check := fun v : Visit =>
    (undefinedRule globals).check v.node ⟨.ofProgram p, v.scope, v.parent⟩ with hcheck
  have hiff : ∀ v ∈ p.visits, ∀ d, check v = some d ↔
      ∃ name, p.UndefinedAt globals v.place v.node name ∧ d = undefinedName name v.node.span :=
    fun v hv d => undefinedRule_check_visit hids hv
  -- an undefined identifier stands at a place, and every place is visited
  have hvisited : ∀ a n name, p.UndefinedAt globals a n name →
      ∃ v ∈ p.visits, v.place = a ∧ check v = some (undefinedName name n.span) := by
    intro a n name hundefined
    have ha : a ∈ p.visits.map Visit.place :=
      (Node.mem_visits_places_iff hids).mpr (by rw [hundefined.here]; rfl)
    obtain ⟨v, hv, rfl⟩ := List.mem_map.mp ha
    have hnode : v.node = n := by
      have := (Node.of_mem_visits hv).1
      rw [hundefined.here] at this
      exact (Option.some.inj this).symm
    subst hnode
    exact ⟨v, hv, rfl, (hiff v hv _).mpr ⟨name, hundefined, rfl⟩⟩
  refine ⟨⟨(p.visits.filter fun v => (check v).isSome).map Visit.place, ?_, ?_, ?_⟩, ?_⟩
  · exact (Node.visits_nodup_places hids).sublist (List.filter_sublist.map _)
  · intro a
    constructor
    · intro ha
      obtain ⟨v, hv, rfl⟩ := List.mem_map.mp ha
      obtain ⟨hmem, hsome⟩ := List.mem_filter.mp hv
      obtain ⟨d, hd⟩ := Option.isSome_iff_exists.mp hsome
      obtain ⟨name, hundefined, -⟩ := (hiff v hmem d).mp hd
      exact ⟨v.node, name, hundefined⟩
    · rintro ⟨n, name, hundefined⟩
      obtain ⟨v, hv, rfl, hd⟩ := hvisited a n name hundefined
      exact List.mem_map_of_mem (List.mem_filter.mpr ⟨hv, by rw [hd]; rfl⟩)
  · refine forall₂_filterMap check Visit.place p.visits fun v hv d hd => ?_
    obtain ⟨name, hundefined, rfl⟩ := (hiff v hv d).mp hd
    exact ⟨v.node, name, hundefined, rfl⟩
  · rw [List.filterMap_eq_nil_iff]
    constructor
    · intro hnone a n name hundefined
      obtain ⟨v, hv, -, hd⟩ := hvisited a n name hundefined
      rw [hnone v hv] at hd
      simp at hd
    · intro hnever v hv
      rw [Option.eq_none_iff_forall_ne_some]
      intro d hd
      obtain ⟨name, hundefined, -⟩ := (hiff v hv d).mp hd
      exact hnever v.place v.node name hundefined

/-- The statements `let f = (a) -> [a, b]` and `f.b`: the first `b` is undefined, the second is
the name of a property. -/
def lambdaAndAccess : RawTree :=
  .nodes
    [.ofType .namedFunction
      [name "f", .ofType .parameters [name "a"] .empty,
        .ofType .array [name "a", name "b"] .empty] .empty,
      .ofType .propertyAccess [name "f", name "b"] .empty]
where
  name (text : String) : RawNode :=
    { RawNode.ofType .identifier [] .empty with value := some (.string text) }

theorem analyze_lambdaAndAccess :
    ∃ p, Node.buildTree lambdaAndAccess = .ok p ∧
      p.UndefinedReportedBy ["std"] ((defaultRules ["std"]).analyze p) ∧
      ((defaultRules ["std"]).analyze p = [] ↔
        ∀ a n name, ¬ p.UndefinedAt ["std"] a n name) := by
  have h : ∃ p, Node.buildTree lambdaAndAccess = .ok p := ⟨_, rfl⟩
  obtain ⟨p, hp⟩ := h
  exact ⟨p, hp, analyze_reports_undefined hp ["std"]⟩

end ExprScript
