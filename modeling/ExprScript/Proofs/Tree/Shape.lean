import ExprScript.Proofs.Check.Undefined
import ExprScript.Proofs.Raw.Unplaced
import ExprScript.Proofs.Tree.WellFormed
import ExprScript.Script.Generator

set_option autoImplicit false

/-! # What depends on the shape of a tree only

The *shape* of a program tree is the tree without its ids and spans (`Node.shape`), and trees of
one shape are those that `Node.sameShape` tells equal (`sameShape_iff_shape`). The script of a tree
is the script of its shape (`generate?_shape`), and a check of two trees of one shape reports the
same nodes, in the same order (`reportedAlike_of_shape`). Raw trees that differ in their locations
only are built into trees of one shape (`build_of_unplaced`).
-/

namespace ExprScript

theorem forall₂_congr_of_mem {α β : Type} {R S : α → β → Prop} {as : List α} {bs : List β}
    (h : ∀ a ∈ as, ∀ b ∈ bs, (R a b ↔ S a b)) : List.Forall₂ R as bs ↔ List.Forall₂ S as bs := by
  rw [List.forall₂_iff_zip, List.forall₂_iff_zip]
  refine and_congr_right fun _ => forall_congr' fun a => forall_congr' fun b => ?_
  refine forall_congr' fun hab => ?_
  obtain ⟨ha, hb⟩ := List.of_mem_zip hab
  exact h a ha b hb

theorem RawNode.unplaced_children (raw : RawNode) :
    raw.unplaced.children = raw.children.map unplaced := by
  obtain ⟨tag, children, location, value, name, variableName, mutable, operator⟩ := raw
  exact unplaceds_eq_map children

namespace Node

/-! ## Shapes -/

mutual

def shape : Node → Node
  | ⟨_, kind, children, _⟩ => ⟨0, kind, shapes children, .empty⟩

def shapes : List Node → List Node
  | [] => []
  | n :: ns => n.shape :: shapes ns

end

theorem shapes_eq_map (ns : List Node) : shapes ns = ns.map shape := by
  induction ns with
  | nil => rfl
  | cons n ns ih => rw [shapes, List.map_cons, ih]

theorem shape_eq (n : Node) : n.shape = ⟨0, n.kind, n.children.map shape, .empty⟩ := by
  obtain ⟨id, kind, children, span⟩ := n
  rw [shape, shapes_eq_map]

@[simp] theorem shape_kind (n : Node) : n.shape.kind = n.kind := by
  rw [shape_eq]

@[simp] theorem shape_children (n : Node) : n.shape.children = n.children.map shape := by
  rw [shape_eq]

@[simp] theorem shape_type (n : Node) : n.shape.type = n.type := by
  rw [type, shape_kind, type]

@[simp] theorem shape_isScopeForming (n : Node) : n.shape.isScopeForming = n.isScopeForming := by
  rw [isScopeForming, shape_type, isScopeForming]

theorem sameShape_iff_shape {m n : Node} : sameShape m n = true ↔ m.shape = n.shape := by
  induction m using childrenInduction generalizing n with
  | step m ih =>
      have hchildren : List.Forall₂ (fun m n => sameShape m n = true) m.children n.children ↔
          m.children.map shape = n.children.map shape := by
        rw [← List.forall₂_eq_eq_eq, List.forall₂_map_left_iff, List.forall₂_map_right_iff]
        exact forall₂_congr_of_mem fun c hc d _ => ih c hc
      rw [sameShape_iff, hchildren, shape_eq m, shape_eq n]
      simp

/-! ## Building -/

theorem writtenIn_unplaced {kind : Kind} {raw : RawNode} :
    kind.WrittenIn raw.unplaced ↔ kind.WrittenIn raw := by
  obtain ⟨tag, children, location, value, name, variableName, mutable, operator⟩ := raw
  exact Iff.rfl

theorem kind_unplaced {kind : Kind} {raw : RawNode} :
    raw.unplaced.kind = .ok kind ↔ raw.kind = .ok kind := by
  constructor
  · intro h
    exact RawNode.kind_of_writtenIn (writtenIn_unplaced.1 (RawNode.writtenIn_of_kind h))
  · intro h
    exact RawNode.kind_of_writtenIn (writtenIn_unplaced.2 (RawNode.writtenIn_of_kind h))

theorem describes_unplaced {raw : RawNode} {n : Node} :
    raw.unplaced.Describes n ↔ raw.Describes n := by
  induction n using childrenInduction generalizing raw with
  | step n ih =>
      have hchildren : List.Forall₂ RawNode.Describes raw.unplaced.children n.children ↔
          List.Forall₂ RawNode.Describes raw.children n.children := by
        rw [RawNode.unplaced_children, List.forall₂_map_left_iff]
        exact forall₂_congr_of_mem fun _ _ c hc => ih c hc
      constructor
      · rintro ⟨hkind, hrest⟩
        exact ⟨kind_unplaced.1 hkind, hchildren.1 hrest⟩
      · rintro ⟨hkind, hrest⟩
        exact ⟨kind_unplaced.2 hkind, hchildren.2 hrest⟩

/-- **Raw trees that differ in locations only are built into trees of one shape.** -/
theorem build_of_unplaced {raw raw' : RawNode} {n : Node} (h : build raw = .ok n)
    (hraw : raw.unplaced = raw'.unplaced) : ∃ n', build raw' = .ok n' ∧ n'.shape = n.shape := by
  obtain ⟨hdescribes, hshaped⟩ := describes_of_ofRaw (show ofRaw 0 raw = (.ok n, _) from
    Prod.ext h rfl)
  have hdescribes' : raw'.Describes n := by
    rw [← describes_unplaced, ← hraw, describes_unplaced]
    exact hdescribes
  obtain ⟨n', hn', hsame⟩ := build_of_describes hdescribes' hshaped
  exact ⟨n', hn', sameShape_iff_shape.1 hsame⟩

/-! ## Scripts -/

theorem render?_shape_and (indent : String) :
    (∀ n : Node, n.shape.render? indent = n.render? indent) ∧
      ∀ ns : List Node, renderAll? indent (ns.map shape) = renderAll? indent ns := by
  refine forestInduction (fun n ih => ?_) rfl (fun n ns ihn ihns => ?_)
  · obtain ⟨id, kind, children, span⟩ := n
    rw [shape, shapes_eq_map, render?, render?, ih]
  · rw [List.map_cons, renderAll?, renderAll?, ihn, ihns]

/-- A generator writes the same for a tree and for its shape. -/
theorem generator_shape (g : Generator) (n : Node) : g.generate? n.shape = g.generate? n := by
  simp only [Generator.generate?, Generator.render?, (render?_shape_and g.indent).1]

/-- The script of a tree is that of its shape. -/
theorem generate?_shape (indent : String) (n : Node) :
    ExprScript.generate? indent n.shape = ExprScript.generate? indent n := by
  rw [ExprScript.generate?, generator_shape, ExprScript.generate?]

/-! ## Undefined names -/

theorem at?_shape (n : Node) (a : List Nat) : n.shape.at? a = (n.at? a).map shape := by
  induction a generalizing n with
  | nil => rfl
  | cons j a ih =>
      rw [at?, at?, shape_children, List.getElem?_map]
      cases n.children[j]? with
      | none => rfl
      | some c => exact ih c

theorem path_shape (n : Node) (a : List Nat) : n.shape.path a = (n.path a).map shape := by
  induction a generalizing n with
  | nil => rfl
  | cons j a ih =>
      rw [path, path, shape_children, List.getElem?_map]
      cases n.children[j]? with
      | none => rfl
      | some c => exact congrArg (c.shape :: ·) (ih c)

theorem regions_shape (n : Node) (a : List Nat) : n.shape.regions a = (n.regions a).map shape := by
  rw [regions, regions, path_shape, List.filter_map, List.map_cons]
  congr 3
  funext m
  exact shape_isScopeForming m

theorem isDeclarationOf_shape {d : Node} {name : String} :
    d.shape.IsDeclarationOf name ↔ d.IsDeclarationOf name := by
  simp [IsDeclarationOf]

theorem binds_shape {r : Node} {name : String} : r.shape.Binds name ↔ r.Binds name := by
  have hsame : (fun n : Node => decide (n.type = .parameters)) ∘ shape =
      fun n => decide (n.type = .parameters) := by
    funext n
    rw [Function.comp_apply, shape_type]
  have hparameters : (r.children.map shape).find? (·.type = .parameters) =
      (r.children.find? (·.type = .parameters)).map shape := by
    rw [List.find?_map, hsame]
  simp [Binds, isDeclarationOf_shape, hparameters]

/-- Whether an identifier is undefined is seen from the shape of the tree. -/
theorem exists_undefinedAt_shape {globals : List String} {p : Node} {a : List Nat}
    {name : String} :
    (∃ n, p.shape.UndefinedAt globals a n name) ↔ ∃ n, p.UndefinedAt globals a n name := by
  -- a tree and its shape have nodes at the same addresses
  have below {b : List Nat} {q : Node} (hq : p.at? b = some q) :
      p.shape.at? b = some q.shape := by
    rw [at?_shape, hq]
    rfl
  have above {b : List Nat} {q : Node} (hq : p.shape.at? b = some q) :
      ∃ m, p.at? b = some m ∧ m.shape = q := by
    rw [at?_shape] at hq
    exact Option.map_eq_some_iff.1 hq
  constructor
  · rintro ⟨_, hhere, hkind, hproperty, hkey, hglobal, hunbound⟩
    obtain ⟨n, hn, rfl⟩ := above hhere
    refine ⟨n, hn, by rwa [shape_kind] at hkind, ?_, ?_, hglobal, ?_⟩
    · intro b q hb hq
      rw [← shape_type]
      exact hproperty b q.shape hb (below hq)
    · intro b q hb hq
      rw [← shape_type]
      exact hkey b q.shape hb (below hq)
    · intro r hr hbinds
      rw [regions_shape] at hunbound
      exact hunbound r.shape (List.mem_map_of_mem hr) (binds_shape.2 hbinds)
  · rintro ⟨n, hhere, hkind, hproperty, hkey, hglobal, hunbound⟩
    refine ⟨n.shape, below hhere, by rwa [shape_kind], ?_, ?_, hglobal, ?_⟩
    · intro b q hb hq
      obtain ⟨m, hm, rfl⟩ := above hq
      rw [shape_type]
      exact hproperty b m hb hm
    · intro b q hb hq
      obtain ⟨m, hm, rfl⟩ := above hq
      rw [shape_type]
      exact hkey b m hb hm
    · intro r hr hbinds
      rw [regions_shape] at hr
      obtain ⟨m, hm, rfl⟩ := List.mem_map.1 hr
      exact hunbound m hm (binds_shape.1 hbinds)

theorem map_place_under (j : Nat) (vs : List Visit) :
    (vs.map (.under j)).map Visit.place = (vs.map Visit.place).map (j :: ·) := by
  simp [Function.comp_def]

/-- The places visited in and below a subtree, in order, are seen from its shape; the numbers of
scopes and the parents shown have no part in them. -/
theorem visits_shape_and :
    (∀ (n : Node) (i i' k k' : Nat) (q q' : Node),
      (visitsIn i q n.shape).map Visit.place = (visitsIn i' q' n).map Visit.place ∧
        (n.shape.visitsBelow k).map Visit.place = (n.visitsBelow k').map Visit.place) ∧
    ∀ (ns : List Node) (i i' k k' j : Nat) (q q' : Node),
      (visitsInAll i q j (ns.map shape)).map Visit.place =
          (visitsInAll i' q' j ns).map Visit.place ∧
        (visitsBelowAll k j (ns.map shape)).map Visit.place =
          (visitsBelowAll k' j ns).map Visit.place := by
  refine forestInduction (fun n ih i i' k k' q q' => ?_) (fun i i' k k' j q q' => ⟨rfl, rfl⟩)
    (fun n ns ihn ihns i i' k k' j q q' => ?_)
  · by_cases hn : n.isScopeForming
    · have hn' : n.shape.isScopeForming := by rwa [shape_isScopeForming]
      obtain ⟨hin, hbelow⟩ := ih k k' (k + 1) (k' + 1) 0 n.shape n
      rw [visitsIn_forming i q hn', visitsIn_forming i' q' hn, visitsBelow_forming k hn',
        visitsBelow_forming k' hn, shape_children, ownVisits, ownVisits, shape_children]
      refine ⟨rfl, ?_⟩
      simp only [List.map_append, hbelow, hin]
      rfl
    · have hn' : ¬ n.shape.isScopeForming := by rwa [shape_isScopeForming]
      obtain ⟨hin, hbelow⟩ := ih i i' k k' 0 n.shape n
      rw [visitsIn_plain i q hn', visitsIn_plain i' q' hn, visitsBelow_plain k hn',
        visitsBelow_plain k' hn, shape_children, List.map_append, List.map_append, hin]
      exact ⟨rfl, hbelow⟩
  · obtain ⟨hin, hbelow⟩ := ihn i i' k k' q q'
    obtain ⟨hins, hbelows⟩ :=
      ihns i i' (k + n.shape.scopeCount) (k' + n.scopeCount) (j + 1) q q'
    rw [List.map_cons, visitsInAll, visitsInAll, visitsBelowAll, visitsBelowAll]
    simp only [List.map_append, map_place_under, hin, hbelow, hins, hbelows, and_self]

theorem visits_shape (p : Node) : p.shape.visits.map Visit.place = p.visits.map Visit.place := by
  obtain ⟨hin, hbelow⟩ := visits_shape_and.2 p.children 0 0 1 1 0 p.shape p
  rw [visits, visits, ownVisits, ownVisits, shape_children]
  simp only [List.map_append, hin, hbelow]
  rfl

end Node

/-- The two reports are of one undefined name, each with the span of the node at one address in
its tree. -/
def ReportedAlike (globals : List String) (p q : Node) (d e : Diagnostic) : Prop :=
  ∃ a m n name, p.UndefinedAt globals a m name ∧ q.UndefinedAt globals a n name ∧
    d = undefinedName name m.span ∧ e = undefinedName name n.span

/-- The rules report alike at visits of one place in trees of one shape. -/
theorem check_alike_of_shape {p q : Node} (hp : p.DistinctIds) (hq : q.DistinctIds)
    (h : p.shape = q.shape) (globals : List String) {v w : Visit} (hv : v ∈ p.visits)
    (hw : w ∈ q.visits) (hplace : v.place = w.place) :
    Option.Rel (ReportedAlike globals p q)
      ((undefinedRule globals).check v.node ⟨.ofProgram p, v.scope, v.parent⟩)
      ((undefinedRule globals).check w.node ⟨.ofProgram q, w.scope, w.parent⟩) := by
  have hundefined : ∀ a name, (∃ n, p.UndefinedAt globals a n name) ↔
      ∃ n, q.UndefinedAt globals a n name := by
    intro a name
    rw [← Node.exists_undefinedAt_shape, h, Node.exists_undefinedAt_shape]
  -- what is undefined at a place is reported at the visit of that place
  have hreport {p : Node} (hp : p.DistinctIds) {v : Visit} (hv : v ∈ p.visits) {n : Node}
      {name : String} (hn : p.UndefinedAt globals v.place n name) :
      (undefinedRule globals).check v.node ⟨.ofProgram p, v.scope, v.parent⟩ =
        some (undefinedName name n.span) := by
    have hnode := (Node.of_mem_visits hv).1
    rw [hn.here] at hnode
    obtain rfl := Option.some.inj hnode
    exact (undefinedRule_check_visit hp hv).2 ⟨name, hn, rfl⟩
  have hnothing {p : Node} (hp : p.DistinctIds) {v : Visit} (hv : v ∈ p.visits)
      (hn : ∀ n name, ¬ p.UndefinedAt globals v.place n name) :
      (undefinedRule globals).check v.node ⟨.ofProgram p, v.scope, v.parent⟩ = none := by
    rw [Option.eq_none_iff_forall_ne_some]
    intro d hd
    obtain ⟨name, hname, -⟩ := (undefinedRule_check_visit hp hv).1 hd
    exact hn v.node name hname
  by_cases hname : ∃ name n, p.UndefinedAt globals v.place n name
  · obtain ⟨name, n, hn⟩ := hname
    obtain ⟨m, hm⟩ := (hundefined v.place name).1 ⟨n, hn⟩
    have hm' := hm
    rw [hplace] at hm'
    rw [hreport hp hv hn, hreport hq hw hm']
    exact .some ⟨v.place, n, m, name, hn, hm, rfl, rfl⟩
  · have hnone : ∀ n name, ¬ q.UndefinedAt globals w.place n name := by
      intro m name hm
      rw [← hplace] at hm
      obtain ⟨n, hn⟩ := (hundefined v.place name).2 ⟨m, hm⟩
      exact hname ⟨name, n, hn⟩
    rw [hnothing hp hv fun n name hn => hname ⟨name, n, hn⟩, hnothing hq hw hnone]
    exact .none

/-- **Checks of trees of one shape report the same nodes**, in the same order. -/
theorem reportedAlike_of_shape {p q : Node} (hp : p.DistinctIds) (hq : q.DistinctIds)
    (h : p.shape = q.shape) (globals : List String) :
    List.Forall₂ (ReportedAlike globals p q) ((defaultRules globals).analyze p)
      ((defaultRules globals).analyze q) := by
  have hplaces : p.visits.map Visit.place = q.visits.map Visit.place := by
    rw [← Node.visits_shape p, ← Node.visits_shape q, h]
  rw [← List.forall₂_eq_eq_eq, List.forall₂_map_left_iff, List.forall₂_map_right_iff] at hplaces
  have hvisits : List.Forall₂ (fun v w => v ∈ p.visits ∧ w ∈ q.visits ∧ v.place = w.place)
      p.visits q.visits :=
    (forall₂_congr_of_mem fun v hv w hw => by simp [hv, hw]).1 hplaces
  rw [defaultRules_analyze hp, defaultRules_analyze hq]
  refine List.rel_filterMap (fun v w hvw => ?_) hvisits
  exact check_alike_of_shape hp hq h globals hvw.1 hvw.2.1 hvw.2.2

/-- The reports are those of undefined names, and the names in them are these. -/
def ReportsNames (names : List String) (reports : List Diagnostic) : Prop :=
  List.Forall₂ (fun name d => d = undefinedName name d.span) names reports

/-- Checks of trees of one shape report the same names, in the same order. -/
theorem exists_names_of_shape {p q : Node} (hp : p.DistinctIds) (hq : q.DistinctIds)
    (h : p.shape = q.shape) (globals : List String) :
    ∃ names, ReportsNames names ((defaultRules globals).analyze p) ∧
      ReportsNames names ((defaultRules globals).analyze q) := by
  have halike := reportedAlike_of_shape hp hq h globals
  generalize (defaultRules globals).analyze p = ds at halike
  generalize (defaultRules globals).analyze q = es at halike
  induction halike with
  | nil => exact ⟨[], .nil, .nil⟩
  | cons hde _ ih =>
      obtain ⟨names, hds, hes⟩ := ih
      obtain ⟨-, m, n, name, -, -, rfl, rfl⟩ := hde
      exact ⟨name :: names, .cons rfl hds, .cons rfl hes⟩

end ExprScript
