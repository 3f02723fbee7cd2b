import ExprScript.Proofs.Script.Render
import Mathlib.Data.List.Forall2

set_option autoImplicit false

/-! # The raw trees that are built

A raw node is *well-formed* when its tag is one of the known ones, the fields hold what the tag
calls for (`Kind.WrittenIn`), and the tags of its children are as the tag allows
(`NodeType.Accepts`). This looks at one node and the tags below it, and not at what a build does.

A raw tree is built exactly when each of its nodes is well-formed, and what is built is a copy:
at every address stands a node in both trees or in neither, and the kind and the span of the one
are written in the other (`build_exact`). A child that a script takes by its position is
therefore always there (`Kind.positions`).
-/

namespace ExprScript

/-! ## Tags -/

namespace NodeType

theorem ofTag?_eq_some_iff {tag : String} {t : NodeType} : ofTag? tag = some t ↔ tag = t.tag := by
  constructor
  · intro h
    have htag : t.tag = tag := by simpa using List.find?_some h
    exact htag.symm
  · rintro rfl
    exact ofTag?_tag t

theorem tag_inj {t u : NodeType} : t.tag = u.tag ↔ t = u := by
  constructor
  · intro h
    have hu := ofTag?_tag u
    rw [← h, ofTag?_tag] at hu
    exact Option.some.inj hu
  · rintro rfl
    rfl

theorem map_tag_eq_cons_iff {ts : List NodeType} {t : NodeType} {tags : List String} :
    ts.map tag = t.tag :: tags ↔ ∃ us, ts = t :: us ∧ us.map tag = tags := by
  rw [List.map_eq_cons_iff]
  constructor
  · rintro ⟨u, us, rfl, hu, rfl⟩
    obtain rfl := tag_inj.1 hu
    exact ⟨us, rfl, rfl⟩
  · rintro ⟨us, rfl, rfl⟩
    exact ⟨t, us, rfl, rfl, rfl⟩

end NodeType

/-! ## Fields -/

/-- The raw node has the tag of the kind, and what the kind carries stands in its fields. -/
def Kind.WrittenIn (k : Kind) (raw : RawNode) : Prop :=
  raw.tag = k.type.tag ∧
    match k with
    | .integer value => raw.value = some (.integer value)
    | .string value => raw.value = some (.string value)
    | .boolean value => raw.value = some (.boolean value)
    | .identifier name =>
      raw.value = some (.string name) ∨ raw.value = none ∧ raw.name = some name
    | .variableDeclaration name isMutable =>
      raw.variableName.or raw.name = some name ∧ raw.mutable.getD false = isMutable
    | .functionDeclaration name => raw.name = some name
    | .binaryOperator operator => raw.operator = some operator
    | _ => True

namespace RawNode

theorem kind_of_writtenIn {raw : RawNode} {k : Kind} (h : k.WrittenIn raw) :
    raw.kind = .ok k := by
  obtain ⟨htag, hfields⟩ := h
  unfold RawNode.kind
  rw [NodeType.ofTag?_eq_some_iff.2 htag]
  cases k with
  | integer v | string v | boolean v => simp [Kind.type, hfields]
  | identifier name =>
      rcases hfields with hvalue | ⟨hvalue, hname⟩
      · simp [Kind.type, identifierName, hvalue, Except.map]
      · simp [Kind.type, identifierName, hvalue, hname, Except.map]
  | variableDeclaration name isMutable => simp [Kind.type, hfields]
  | functionDeclaration name => simp [Kind.type, hfields]
  | binaryOperator o => simp [Kind.type, hfields]
  | _ => rfl

theorem writtenIn_of_kind {raw : RawNode} {k : Kind} (h : raw.kind = .ok k) :
    k.WrittenIn raw := by
  unfold RawNode.kind at h
  cases ht : NodeType.ofTag? raw.tag with
  | none => simp [ht] at h
  | some t =>
      rw [ht] at h
      have htag := NodeType.ofTag?_eq_some_iff.1 ht
      cases t with
      | integer | string | boolean =>
          dsimp only at h
          split at h
          · rename_i value hvalue
            obtain rfl := Except.ok.inj h
            exact ⟨htag, hvalue⟩
          · cases h
          · cases h
      | identifier =>
          dsimp only [identifierName] at h
          split at h
          · rename_i name hvalue
            obtain rfl := Except.ok.inj h
            exact ⟨htag, .inl hvalue⟩
          · cases h
          · rename_i name hvalue hname
            obtain rfl := Except.ok.inj h
            exact ⟨htag, .inr ⟨hvalue, hname⟩⟩
          · cases h
      | variableDeclaration =>
          dsimp only at h
          split at h
          · rename_i name hname
            obtain rfl := Except.ok.inj h
            exact ⟨htag, hname, rfl⟩
          · cases h
      | functionDeclaration | binaryOperator =>
          dsimp only at h
          split at h
          · rename_i text htext
            obtain rfl := Except.ok.inj h
            exact ⟨htag, htext⟩
          · cases h
      | _ =>
          obtain rfl := Except.ok.inj h
          exact ⟨htag, trivial⟩

end RawNode

/-! ## Children -/

open NodeType in
/-- The tags of the children that a node of the given type can have. In a binary expression the
operators are the children with odd numbers, and an operand is first and last. -/
def NodeType.Accepts : NodeType → List String → Prop
  | .integer, tags | .string, tags | .boolean, tags | .void, tags | .identifier, tags
  | .binaryOperator, tags => tags = []
  | .program, _ | .array, _ | .arguments, _ => True
  | .object, tags => ∀ tag ∈ tags, tag = objectProperty.tag
  | .parameters, tags => ∀ tag ∈ tags, tag = identifier.tag
  | .variableDeclaration, tags | .returnExpression, tags => tags ≠ []
  | .objectProperty, tags => ∃ value, tags = [identifier.tag, value]
  | .call, tags => ∃ callee, tags = [callee, arguments.tag]
  | .propertyAccess, tags => ∃ target, tags = [target, identifier.tag]
  | .functionDeclaration, tags => ∃ body, tags = parameters.tag :: body
  | .anonymousFunction, tags => ∃ body, tags = parameters.tag :: body ∧ body ≠ []
  | .namedFunction, tags =>
    ∃ body, tags = identifier.tag :: parameters.tag :: body ∧ body ≠ []
  | .binaryExpression, tags =>
    3 ≤ tags.length ∧ tags.length % 2 = 1 ∧
      ∀ i tag, tags[i]? = some tag → (tag = binaryOperator.tag ↔ i % 2 = 1)

/-- Operands and operators take turns when the operators are the types with odd numbers and there
is one operand more. -/
theorem alternates_iff {ts : List NodeType} :
    alternates ts = true ↔
      ts.length % 2 = 1 ∧ ∀ i t, ts[i]? = some t → (t = .binaryOperator ↔ i % 2 = 1) := by
  induction ts using alternates.induct with
  | case1 => simp [alternates]
  | case2 t =>
      simp only [alternates, bne_iff_ne, List.length_singleton]
      constructor
      · intro ht
        refine ⟨trivial, fun i u hu => ?_⟩
        cases i with
        | zero =>
            obtain rfl := Option.some.inj hu
            simpa using ht
        | succ i => simp at hu
      · rintro ⟨-, h⟩
        simpa using h 0 t rfl
  | case3 t o ts ih =>
      -- the two types in front shift every number by two, which keeps it odd or even
      simp only [alternates, Bool.and_eq_true, bne_iff_ne, beq_iff_eq, ih, List.length_cons]
      constructor
      · rintro ⟨⟨ht, rfl⟩, hlen, hts⟩
        refine ⟨by omega, fun i u hu => ?_⟩
        match i with
        | 0 =>
            obtain rfl := Option.some.inj hu
            simpa using ht
        | 1 =>
            obtain rfl := Option.some.inj hu
            simp
        | i + 2 =>
            have hrest := hts i u (by simpa using hu)
            rw [hrest]
            omega
      · rintro ⟨hlen, h⟩
        have hfirst := h 0 t rfl
        have hsecond := h 1 o rfl
        refine ⟨⟨by simpa using hfirst, by simpa using hsecond⟩, by omega, fun i u hu => ?_⟩
        have hrest := h (i + 2) u (by simpa using hu)
        rw [hrest]
        omega

/-- **The check of the children follows the table.** -/
theorem NodeType.shapeFault?_eq_none_iff {t : NodeType} {ts : List NodeType} :
    t.shapeFault? ts = none ↔ t.Accepts (ts.map tag) := by
  cases t with
  | program | array | arguments => simp [shapeFault?, Accepts]
  | integer | string | boolean | void | identifier | binaryOperator =>
      simp [shapeFault?, Accepts]
  | object | parameters => simp [shapeFault?, Accepts, tag_inj]
  | variableDeclaration | returnExpression => simp [shapeFault?, Accepts]
  | binaryExpression => simp [shapeFault?, Accepts, alternates_iff, tag_inj]
  | objectProperty =>
      simp only [shapeFault?, Accepts]
      split
      · exact iff_of_true rfl ⟨_, rfl⟩
      · rename_i other
        refine iff_of_false (by simp) ?_
        rintro ⟨value, h⟩
        obtain ⟨us, rfl, hus⟩ := map_tag_eq_cons_iff.1 h
        obtain ⟨u, rfl, -⟩ := List.map_eq_singleton_iff.1 hus
        exact other u rfl
  | call | propertyAccess =>
      simp only [shapeFault?, Accepts]
      split
      · exact iff_of_true rfl ⟨_, rfl⟩
      · rename_i other
        refine iff_of_false (by simp) ?_
        rintro ⟨first, h⟩
        obtain ⟨u, us, rfl, -, hus⟩ := List.map_eq_cons_iff.1 h
        obtain ⟨vs, rfl, hvs⟩ := map_tag_eq_cons_iff.1 hus
        obtain rfl := List.map_eq_nil_iff.1 hvs
        exact other u rfl
  | functionDeclaration =>
      simp only [shapeFault?, Accepts]
      split
      · exact iff_of_true rfl ⟨_, rfl⟩
      · rename_i other
        refine iff_of_false (by simp) ?_
        rintro ⟨body, h⟩
        obtain ⟨us, rfl, -⟩ := map_tag_eq_cons_iff.1 h
        exact other us rfl
  | anonymousFunction =>
      simp only [shapeFault?, Accepts]
      split
      · exact iff_of_false (by simp) (by simp)
      · rename_i body hbody
        exact iff_of_true rfl ⟨_, rfl, by simpa using hbody⟩
      · rename_i other
        refine iff_of_false (by simp) ?_
        rintro ⟨body, h, -⟩
        obtain ⟨us, rfl, -⟩ := map_tag_eq_cons_iff.1 h
        exact other us rfl
  | namedFunction =>
      simp only [shapeFault?, Accepts]
      split
      · exact iff_of_true rfl ⟨_, rfl, by simp⟩
      · rename_i other
        refine iff_of_false (by simp) ?_
        rintro ⟨body, h, hbody⟩
        obtain ⟨us, rfl, hus⟩ := map_tag_eq_cons_iff.1 h
        obtain ⟨vs, rfl, rfl⟩ := map_tag_eq_cons_iff.1 hus
        obtain ⟨v, ws, rfl⟩ := List.exists_cons_of_ne_nil (by simpa using hbody)
        exact other v ws rfl

/-! ## Well-formed raw trees -/

namespace RawNode

/-- The tag of the node is known, what it calls for stands in the fields, and the children have
tags it allows. -/
def WellFormed (raw : RawNode) : Prop :=
  ∃ k : Kind, k.WrittenIn raw ∧ k.type.Accepts (raw.children.map (·.tag))

/-- The node reached by taking the child with each of the given numbers in turn. -/
def at? (raw : RawNode) : List Nat → Option RawNode
  | [] => some raw
  | j :: a =>
    match raw.children[j]? with
    | some c => c.at? a
    | none => none

theorem Throughout.at? {P : RawNode → Prop} {raw m : RawNode} {a : List Nat}
    (h : raw.Throughout P) (hm : raw.at? a = some m) : P m := by
  induction a generalizing raw with
  | nil =>
      obtain rfl := Option.some.inj hm
      cases h with
      | intro own _ => exact own
  | cons j a ih =>
      unfold RawNode.at? at hm
      cases hchild : raw.children[j]? with
      | none => simp [hchild] at hm
      | some child =>
          simp only [hchild] at hm
          cases h with
          | intro _ children => exact ih (children child (List.mem_of_getElem? hchild)) hm

/-- The program tree is what a build makes of the raw tree, whatever ids it gives out. -/
def Builds (raw : RawNode) (n : Node) : Prop :=
  ∃ next last, Node.ofRaw next raw = (.ok n, last)

theorem forall₂_builds {raws : List RawNode} {ns : List Node} {next last : Nat}
    (h : Node.ofRaws next raws = (.ok ns, last)) : List.Forall₂ Builds raws ns := by
  induction raws generalizing next ns with
  | nil =>
      obtain rfl := Except.ok.inj (Prod.mk.inj h).1
      exact .nil
  | cons raw raws ih =>
      obtain ⟨n, mid, rest, hn, hrest, rfl⟩ := Node.ofRaws_cons_eq_ok_iff.1 h
      exact .cons ⟨next, mid, hn⟩ (ih hrest)

/-- What one step of a build does. -/
theorem Builds.cases {raw : RawNode} {n : Node} (h : raw.Builds n) :
    n.kind.WrittenIn raw ∧ n.span = raw.location ∧
      n.type.shapeFault? (n.children.map Node.type) = none ∧
      List.Forall₂ Builds raw.children n.children := by
  obtain ⟨next, last, h⟩ := h
  obtain ⟨kind, nodes, own, hkind, hnodes, hshape, rfl, -⟩ := Node.ofRaw_eq_ok_iff.1 h
  exact ⟨writtenIn_of_kind hkind, rfl, hshape, forall₂_builds hnodes⟩

/-- Raw nodes and what is built from them have the same tags. -/
theorem map_tag_of_builds {raws : List RawNode} {ns : List Node}
    (h : List.Forall₂ Builds raws ns) : raws.map (·.tag) = (ns.map Node.type).map NodeType.tag := by
  induction h with
  | nil => rfl
  | @cons raw n _ _ hn _ ih =>
      have htag : raw.tag = n.type.tag := hn.cases.1.1
      rw [List.map_cons, List.map_cons, List.map_cons, ih, htag]

theorem Builds.wellFormed {raw : RawNode} {n : Node} (h : raw.Builds n) : raw.WellFormed := by
  obtain ⟨hkind, -, hshape, hchildren⟩ := h.cases
  refine ⟨n.kind, hkind, ?_⟩
  rw [map_tag_of_builds hchildren]
  exact NodeType.shapeFault?_eq_none_iff.1 hshape

end RawNode

theorem rel_getElem?_of_forall₂ {α β : Type} {R : α → β → Prop} {as : List α} {bs : List β}
    (h : List.Forall₂ R as bs) (j : Nat) : Option.Rel R as[j]? bs[j]? := by
  induction h generalizing j with
  | nil => exact .none
  | cons hab _ ih =>
      cases j with
      | zero => exact .some hab
      | succ j => exact ih j

theorem getElem?_of_forall₂ {α β : Type} {R : α → β → Prop} {as : List α} {bs : List β}
    (h : List.Forall₂ R as bs) {j : Nat} {a : α} (ha : as[j]? = some a) :
    ∃ b, bs[j]? = some b ∧ R a b := by
  have hrel := rel_getElem?_of_forall₂ h j
  rw [ha] at hrel
  generalize bs[j]? = o at hrel
  cases hrel with
  | some hab => exact ⟨_, rfl, hab⟩

namespace RawNode

/-- A build goes through the raw tree node by node: what stands at an address of the raw tree is
built, and the result stands at the same address. -/
theorem Builds.at? {raw : RawNode} {n : Node} (h : raw.Builds n) (a : List Nat) :
    Option.Rel Builds (raw.at? a) (n.at? a) := by
  induction a generalizing raw n with
  | nil => exact .some h
  | cons j a ih =>
      have hchild := rel_getElem?_of_forall₂ h.cases.2.2.2 j
      unfold RawNode.at? Node.at?
      generalize raw.children[j]? = r at hchild
      generalize n.children[j]? = m at hchild
      cases hchild with
      | some hbuilds => exact ih hbuilds
      | none => exact .none

/-- The build of a list fails at none of its members if each can be built from any number on. -/
theorem exists_ofRaws {raws : List RawNode}
    (each : ∀ raw ∈ raws, ∀ next, ∃ n last, Node.ofRaw next raw = (.ok n, last)) (next : Nat) :
    ∃ ns last, Node.ofRaws next raws = (.ok ns, last) := by
  induction raws generalizing next with
  | nil => exact ⟨[], next, rfl⟩
  | cons raw raws ih =>
      obtain ⟨n, mid, hn⟩ := each raw (by simp) next
      obtain ⟨ns, last, hns⟩ := ih (fun r hr => each r (by simp [hr])) mid
      exact ⟨n :: ns, last, Node.ofRaws_cons_eq_ok_iff.2 ⟨n, mid, ns, hn, hns, rfl⟩⟩

/-- **A raw tree of well-formed nodes is built.** -/
theorem exists_ofRaw_of_wellFormed {raw : RawNode}
    (h : ∀ a m, raw.at? a = some m → m.WellFormed) (next : Nat) :
    ∃ n last, Node.ofRaw next raw = (.ok n, last) := by
  induction raw using childrenInduction generalizing next with
  | step raw ih =>
      obtain ⟨kind, hkind, haccepts⟩ := h [] raw rfl
      have hchildren : ∀ c ∈ raw.children, ∀ next, ∃ n last,
          Node.ofRaw next c = (.ok n, last) := by
        intro c hc next
        obtain ⟨j, hj⟩ := List.mem_iff_getElem?.1 hc
        refine ih c hc (fun a m ha => h (j :: a) m ?_) next
        rw [RawNode.at?, hj]
        exact ha
      obtain ⟨ns, own, hns⟩ := exists_ofRaws hchildren next
      -- the table speaks of the tags in the raw tree, the check of the types of what is built
      rw [map_tag_of_builds (forall₂_builds hns)] at haccepts
      have hshape := NodeType.shapeFault?_eq_none_iff.2 haccepts
      exact ⟨_, _, Node.ofRaw_eq_ok_iff.2 ⟨kind, ns, own, kind_of_writtenIn hkind, hns, hshape,
        rfl, rfl⟩⟩

theorem builds_of_build {raw : RawNode} {n : Node} (h : Node.build raw = .ok n) : raw.Builds n :=
  ⟨0, (Node.ofRaw 0 raw).2, Prod.ext h rfl⟩

theorem exists_build_iff {raw : RawNode} :
    (∃ n, Node.build raw = .ok n) ↔ ∀ a m, raw.at? a = some m → m.WellFormed := by
  constructor
  · rintro ⟨n, hn⟩ a m hm
    have hat := (builds_of_build hn).at? a
    rw [hm] at hat
    generalize n.at? a = built at hat
    cases hat with
    | some hmbuilds => exact hmbuilds.wellFormed
  · intro h
    obtain ⟨n, last, hn⟩ := exists_ofRaw_of_wellFormed h 0
    exact ⟨n, by rw [Node.build, hn]⟩

/-- The program node is a copy of the raw node: its kind and its span are written there. -/
structure CopiedTo (raw : RawNode) (n : Node) : Prop where
  kind : n.kind.WrittenIn raw
  span : n.span = raw.location

theorem Builds.copiedTo {raw : RawNode} {n : Node} (h : raw.Builds n) : raw.CopiedTo n :=
  ⟨h.cases.1, h.cases.2.1⟩

end RawNode

/-! ## Built trees -/

namespace Node

theorem Shaped.at? {n m : Node} {a : List Nat} (h : n.Shaped) (hm : n.at? a = some m) :
    m.Shaped :=
  of_at? Shaped.child h hm

/-- Every tree that is built, on its own or from the statements of a program, has the right
children throughout. -/
theorem shaped_of_buildTree {tree : RawTree} {p : Node} (h : buildTree tree = .ok p) :
    p.Shaped := by
  cases tree with
  | node root =>
      have hroot : ofRaw 0 root = (.ok p, (ofRaw 0 root).2) := Prod.ext h rfl
      exact (describes_of_ofRaw hroot).2
  | nodes roots =>
      rw [buildTree, buildProgram] at h
      split at h
      · cases h
      · rename_i ns last hns
        obtain rfl := Except.ok.inj h
        refine .intro rfl fun c hc => ?_
        -- a statement is built from one of the raw nodes
        obtain ⟨j, hj⟩ := List.mem_iff_getElem?.1 hc
        obtain ⟨root, -, next, last, hroot⟩ :=
          getElem?_of_forall₂ (RawNode.forall₂_builds hns).flip hj
        exact (describes_of_ofRaw hroot).2

theorem Shaped.accepts {n : Node} (h : n.Shaped) :
    n.type.Accepts (n.children.map (·.type.tag)) := by
  obtain ⟨hshape, -⟩ := h
  have haccepts := NodeType.shapeFault?_eq_none_iff.1 hshape
  rwa [List.map_map] at haccepts

end Node

/-- How many children the script of a kind takes by their position: a key and its value, a
callee and its arguments, a target and the name of its property, a name and the parameters, or
the parameters alone. -/
def Kind.positions : Kind → Nat
  | .objectProperty | .call | .propertyAccess | .namedFunction => 2
  | .functionDeclaration _ | .anonymousFunction => 1
  | _ => 0

/-- A script can be put together exactly when there is a child at every position it takes. -/
theorem Kind.assemble?_isSome_iff {k : Kind} {indent : String} {ps : List Piece} :
    (k.assemble? indent ps).isSome ↔ k.positions ≤ ps.length := by
  cases k with
  | object => cases ps <;> simp [assemble?, positions]
  | objectProperty | call | propertyAccess | namedFunction =>
      match ps with
      | [] => simp [assemble?, positions]
      | [p] => simp [assemble?, positions]
      | p :: q :: ps => simp [assemble?, positions]
  | functionDeclaration name =>
      match ps with
      | [] => simp [assemble?, positions]
      | [p] => simp [assemble?, positions]
      | p :: q :: ps => simp [assemble?, positions]
  | anonymousFunction => cases ps <;> simp [assemble?, positions]
  | _ => simp [assemble?, positions]

theorem Node.Shaped.positions_le {n : Node} (h : n.Shaped) :
    n.kind.positions ≤ n.children.length := by
  obtain ⟨piece, hpiece⟩ := exists_render_of_shaped h ""
  obtain ⟨ps, text, hps, htext, -⟩ := render?_eq_some_iff.1 hpiece
  rw [hps.length_eq]
  exact Kind.assemble?_isSome_iff.1 (by rw [htext]; rfl)

/-- **A build accepts exactly the raw trees whose nodes are well-formed, and copies them.** The
copy has a node at an address exactly when the raw tree has one, with the kind and the span
written there. So the children of every node in a built tree are as its type calls for, none
that a script takes by its position is missing, and every node has a script. -/
theorem build_exact :
    (∀ raw : RawNode, (∃ n, Node.build raw = .ok n) ↔
      ∀ a m, raw.at? a = some m → m.WellFormed) ∧
    (∀ (raw : RawNode) (n : Node), Node.build raw = .ok n →
      ∀ a, Option.Rel RawNode.CopiedTo (raw.at? a) (n.at? a)) ∧
    ∀ (tree : RawTree) (p : Node), Node.buildTree tree = .ok p → ∀ a m, p.at? a = some m →
      m.type.Accepts (m.children.map (·.type.tag)) ∧
      m.kind.positions ≤ m.children.length ∧
      ∀ indent, ∃ piece, m.render? indent = some piece := by
  refine ⟨fun raw => RawNode.exists_build_iff, fun raw n hn a => ?_, fun tree p hp a m hm => ?_⟩
  · have hat := (RawNode.builds_of_build hn).at? a
    generalize raw.at? a = r at hat
    generalize n.at? a = m at hat
    cases hat with
    | some hm => exact .some hm.copiedTo
    | none => exact .none
  · have hshaped := (Node.shaped_of_buildTree hp).at? hm
    exact ⟨hshaped.accepts, hshaped.positions_le, Node.exists_render_of_shaped hshaped⟩

/-- A declaration and a name in it that are named in the second of two places. -/
def sumWithCall : RawNode :=
  { tag := NodeType.variableDeclaration.tag
    name := some "sum"
    children := [.ofType .binaryExpression [
      { tag := NodeType.identifier.tag, name := some "a" },
      { tag := NodeType.binaryOperator.tag, operator := some "+" },
      .ofType .call [
        { tag := NodeType.identifier.tag, value := some (.string "f") },
        .ofType .arguments [] .empty] .empty] .empty] }

theorem build_exact_sumWithCall :
    (∃ n, Node.build sumWithCall = .ok n ∧
      (∀ a, Option.Rel RawNode.CopiedTo (sumWithCall.at? a) (n.at? a)) ∧
      ∀ a m, n.at? a = some m →
        m.type.Accepts (m.children.map (·.type.tag)) ∧
        m.kind.positions ≤ m.children.length ∧
        ∀ indent, ∃ piece, m.render? indent = some piece) ∧
    (∀ a m, sumWithCall.at? a = some m → m.WellFormed) ∧
    ¬ ∀ a m, (RawNode.ofType .call [sumWithCall] .empty).at? a = some m → m.WellFormed := by
  obtain ⟨n, hn⟩ : ∃ n, Node.build sumWithCall = .ok n := ⟨_, rfl⟩
  refine ⟨⟨n, hn, build_exact.2.1 sumWithCall n hn, build_exact.2.2 (.node sumWithCall) n hn⟩,
    (build_exact.1 sumWithCall).1 ⟨n, hn⟩, fun hall => ?_⟩
  obtain ⟨m, hm⟩ := (build_exact.1 _).2 hall
  cases hm

end ExprScript
