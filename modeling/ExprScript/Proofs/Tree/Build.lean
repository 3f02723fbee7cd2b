import ExprScript.Proofs.Tree.Address
import ExprScript.Tree.Build

set_option autoImplicit false

/-! # What a build gives

A build of a raw tree succeeds in one way only: the raw node has a kind, its children are
built, and their types fit (`ofRaw_eq_ok_iff`). Everything else about built trees is derived
from this by induction over the raw tree.

The ids of a build are the numbers from the counter on, in post-order (`ofRaw_ids`), so a tree
that `Node.buildTree` returns has distinct ids.

Apart from ids and spans, what is built is written in the raw tree already: `raw.Describes n`
says that the kinds of `raw` and of the nodes below it are those of `n`. A raw tree is built
exactly when it describes a tree whose nodes all have the children their types call for
(`describes_of_ofRaw`, `ofRaw_of_describes`).
-/

namespace ExprScript

/-- Induction over a raw tree: what passes from the children of a node to the node holds of
every node. -/
theorem RawNode.childrenInduction {P : RawNode → Prop}
    (step : ∀ raw : RawNode, (∀ c ∈ raw.children, P c) → P raw) (raw : RawNode) : P raw := by
  obtain ⟨tag, children, location, value, name, variableName, isMutable, operator⟩ := raw
  refine step _ fun c hc => ?_
  have hlt := List.sizeOf_lt_of_mem hc
  exact RawNode.childrenInduction step c
termination_by sizeOf raw
decreasing_by
  simp only [RawNode.mk.sizeOf_spec] at *
  omega

/-- What holds of the node and of all nodes below it. -/
inductive RawNode.Throughout (P : RawNode → Prop) : RawNode → Prop where
  | intro {raw : RawNode} (own : P raw) (children : ∀ c ∈ raw.children, Throughout P c) :
      Throughout P raw

namespace Node

/-! ## The one way to succeed -/

theorem ofRaw_eq_ok_iff {next last : Nat} {raw : RawNode} {n : Node} :
    ofRaw next raw = (.ok n, last) ↔
      ∃ kind nodes own, raw.kind = .ok kind ∧ ofRaws next raw.children = (.ok nodes, own) ∧
        kind.type.shapeFault? (nodes.map type) = none ∧
        n = ⟨own, kind, nodes, raw.location⟩ ∧ last = own + 1 := by
  obtain ⟨tag, children, location, value, name, variableName, isMutable, operator⟩ := raw
  rw [ofRaw]
  constructor
  · intro h
    split at h
    · simp at h
    · rename_i kind hkind
      split at h
      · simp at h
      · rename_i nodes own hnodes
        split at h
        · simp at h
        · rename_i hshape
          obtain ⟨hn, hl⟩ := Prod.mk.inj h
          exact ⟨kind, nodes, own, hkind, hnodes, hshape, (Except.ok.inj hn).symm, hl.symm⟩
  · rintro ⟨kind, nodes, own, hkind, hnodes, hshape, rfl, rfl⟩
    simp only [hkind, hnodes, hshape]

theorem ofRaws_cons_eq_ok_iff {next last : Nat} {raw : RawNode} {raws : List RawNode}
    {ns : List Node} :
    ofRaws next (raw :: raws) = (.ok ns, last) ↔
      ∃ n mid rest, ofRaw next raw = (.ok n, mid) ∧ ofRaws mid raws = (.ok rest, last) ∧
        ns = n :: rest := by
  rw [ofRaws]
  constructor
  · intro h
    split at h
    · simp at h
    · rename_i n mid hn
      split at h
      · simp at h
      · rename_i rest last' hrest
        obtain ⟨hns, rfl⟩ := Prod.mk.inj h
        exact ⟨n, mid, rest, hn, hrest, (Except.ok.inj hns).symm⟩
  · rintro ⟨n, mid, rest, hn, hrest, rfl⟩
    simp only [hn, hrest]

/-! ## Ids -/

/-- What a build of several trees does to the counter follows from what a build of each of
them does. -/
theorem ofRaws_ids {raws : List RawNode}
    (each : ∀ raw ∈ raws, ∀ {next last : Nat} {n : Node}, ofRaw next raw = (.ok n, last) →
      n.postorder.map id = List.range' next n.postorder.length ∧
        last = next + n.postorder.length)
    {next last : Nat} {ns : List Node} (h : ofRaws next raws = (.ok ns, last)) :
    (ns.flatMap postorder).map id = List.range' next (ns.flatMap postorder).length ∧
      last = next + (ns.flatMap postorder).length := by
  induction raws generalizing next ns with
  | nil =>
      obtain ⟨hns, rfl⟩ := Prod.mk.inj h
      obtain rfl := Except.ok.inj hns
      exact ⟨rfl, rfl⟩
  | cons raw raws ih =>
      obtain ⟨n, mid, rest, hn, hrest, rfl⟩ := ofRaws_cons_eq_ok_iff.mp h
      obtain ⟨hids, rfl⟩ := each raw (by simp) hn
      obtain ⟨hids', rfl⟩ := ih (fun r hr => each r (by simp [hr])) hrest
      rw [List.flatMap_cons, List.map_append, List.length_append, hids, hids']
      exact ⟨List.range'_append_1, by omega⟩

/-- A build gives out the numbers from the counter on, in post-order. -/
theorem ofRaw_ids {raw : RawNode} {next last : Nat} {n : Node}
    (h : ofRaw next raw = (.ok n, last)) :
    n.postorder.map id = List.range' next n.postorder.length ∧
      last = next + n.postorder.length := by
  induction raw using RawNode.childrenInduction generalizing next last n with
  | step raw ih =>
      obtain ⟨kind, nodes, own, -, hnodes, -, rfl, rfl⟩ := ofRaw_eq_ok_iff.mp h
      obtain ⟨hids, rfl⟩ := ofRaws_ids (fun c hc => ih c hc) hnodes
      rw [postorder_eq, List.map_append, List.length_append]
      show (nodes.flatMap postorder).map id ++ [next + (nodes.flatMap postorder).length] = _ ∧ _
      rw [hids]
      exact ⟨by simp [List.range'_concat], by simp; omega⟩

/-- The ids of a tree built on its own, or of a program built from its statements, are the
numbers from zero on, in post-order. -/
theorem buildTree_ids {raw : RawTree} {p : Node} (h : buildTree raw = .ok p) :
    p.postorder.map id = List.range p.postorder.length := by
  rw [List.range_eq_range']
  cases raw with
  | node root =>
      have hroot : ofRaw 0 root = (.ok p, (ofRaw 0 root).2) := Prod.ext h rfl
      exact (ofRaw_ids hroot).1
  | nodes roots =>
      rw [buildTree, buildProgram] at h
      split at h
      · simp at h
      · rename_i nodes next hnodes
        obtain rfl := Except.ok.inj h
        obtain ⟨hids, rfl⟩ := ofRaws_ids (fun raw _ => ofRaw_ids) hnodes
        rw [postorder_eq, List.map_append, List.length_append, hids]
        simp [List.range'_concat]

theorem buildTree_distinctIds {raw : RawTree} {p : Node} (h : buildTree raw = .ok p) :
    p.DistinctIds := by
  refine distinctIds_of_nodup ?_
  rw [buildTree_ids h]
  exact List.nodup_range

end Node

/-! ## The raw trees that are built -/

/-- The raw tree has the kinds and children of the program tree, whatever ids and spans. -/
inductive RawNode.Describes : RawNode → Node → Prop where
  | intro {raw : RawNode} {n : Node} (kind : raw.kind = .ok n.kind)
      (children : List.Forall₂ RawNode.Describes raw.children n.children) : Describes raw n

namespace Node

/-- Every node has the children its type calls for. -/
inductive Shaped : Node → Prop where
  | intro {n : Node} (own : n.type.shapeFault? (n.children.map type) = none)
      (children : ∀ c ∈ n.children, Shaped c) : Shaped n

theorem Shaped.child {n c : Node} (h : n.Shaped) (hc : c ∈ n.children) : c.Shaped := by
  cases h with
  | intro _ children => exact children c hc

theorem sameShapes_iff {ms ns : List Node} :
    sameShapes ms ns = true ↔ List.Forall₂ (fun m n => sameShape m n = true) ms ns := by
  induction ms generalizing ns with
  | nil => cases ns <;> simp [sameShapes]
  | cons m ms ih => cases ns <;> simp [sameShapes, ih]

theorem sameShape_iff {m n : Node} :
    sameShape m n = true ↔
      m.kind = n.kind ∧ List.Forall₂ (fun m n => sameShape m n = true) m.children n.children := by
  obtain ⟨i, k, cs, s⟩ := m
  obtain ⟨j, l, ds, t⟩ := n
  simp [sameShape, sameShapes_iff]

/-- What is built has the kinds the raw tree gives, and the children they call for. -/
theorem describes_of_ofRaw {raw : RawNode} {next last : Nat} {n : Node}
    (h : ofRaw next raw = (.ok n, last)) : raw.Describes n ∧ n.Shaped := by
  induction raw using RawNode.childrenInduction generalizing next last n with
  | step raw ih =>
      obtain ⟨kind, nodes, own, hkind, hnodes, hshape, rfl, -⟩ := ofRaw_eq_ok_iff.mp h
      have hall : List.Forall₂ RawNode.Describes raw.children nodes ∧ ∀ c ∈ nodes, c.Shaped := by
        clear h hkind hshape
        generalize raw.children = raws at ih hnodes
        induction raws generalizing next nodes with
        | nil =>
            obtain rfl := Except.ok.inj (Prod.mk.inj hnodes).1
            exact ⟨.nil, by simp⟩
        | cons r raws ihl =>
            obtain ⟨n, mid, rest, hn, hrest, rfl⟩ := ofRaws_cons_eq_ok_iff.mp hnodes
            obtain ⟨hd, hs⟩ := ih r (by simp) hn
            obtain ⟨hds, hss⟩ := ihl rest (fun c hc => ih c (by simp [hc])) hrest
            exact ⟨.cons hd hds, List.forall_mem_cons.2 ⟨hs, hss⟩⟩
      exact ⟨.intro hkind hall.1, .intro hshape hall.2⟩

theorem map_type_of_sameShape {ms ns : List Node}
    (h : List.Forall₂ (fun m n => sameShape m n = true) ms ns) : ms.map type = ns.map type := by
  induction h with
  | nil => rfl
  | cons hmn _ ih =>
      have hkind := (sameShape_iff.1 hmn).1
      simp only [List.map_cons, ih, type, hkind]

/-- **A raw tree that describes a tree with the right children is built**, and gives that tree
up to ids and spans. -/
theorem ofRaw_of_describes {raw : RawNode} {n : Node} (h : raw.Describes n) (hn : n.Shaped)
    (next : Nat) : ∃ n' last, ofRaw next raw = (.ok n', last) ∧ sameShape n' n = true := by
  induction n using childrenInduction generalizing raw next with
  | step n ih =>
      obtain ⟨hkind, hchildren⟩ := h
      obtain ⟨hshape, hshaped⟩ := hn
      -- the children are built from any number on, since each moves the counter for the next
      have hall : ∀ next, ∃ ns last, ofRaws next raw.children = (.ok ns, last) ∧
          List.Forall₂ (fun m n => sameShape m n = true) ns n.children := by
        clear hshape hkind
        generalize raw.children = raws at hchildren
        generalize n.children = children at hchildren ih hshaped
        induction hchildren with
        | nil => exact fun next => ⟨[], next, rfl, .nil⟩
        | @cons r c raws children hd _ ihl =>
            intro next
            obtain ⟨m, mid, hm, hsame⟩ := ih c (by simp) hd (hshaped c (by simp)) next
            obtain ⟨ms, last, hms, hsames⟩ :=
              ihl (fun c hc => ih c (by simp [hc])) (fun c hc => hshaped c (by simp [hc])) mid
            exact ⟨m :: ms, last, ofRaws_cons_eq_ok_iff.2 ⟨m, mid, ms, hm, hms, rfl⟩,
              .cons hsame hsames⟩
      obtain ⟨ns, own, hns, hsames⟩ := hall next
      refine ⟨⟨own, n.kind, ns, raw.location⟩, own + 1, ofRaw_eq_ok_iff.2
        ⟨n.kind, ns, own, hkind, hns, ?_, rfl, rfl⟩, sameShape_iff.2 ⟨rfl, hsames⟩⟩
      rw [map_type_of_sameShape hsames]
      exact hshape

theorem build_of_describes {raw : RawNode} {n : Node} (h : raw.Describes n) (hn : n.Shaped) :
    ∃ n', build raw = .ok n' ∧ sameShape n' n = true := by
  obtain ⟨n', last, hn', hsame⟩ := ofRaw_of_describes h hn 0
  exact ⟨n', by rw [build, hn'], hsame⟩

end Node

end ExprScript
