import ExprScript.Proofs.Tree.Walk
import ExprScript.Proofs.Tree.WellFormed

set_option autoImplicit false

/-! # The counter of a build

A build looks at every raw node twice: at its tag and fields before the children are built, and
at the types of the children when they are. `RawNode.checks` lists these looks in the order of the
build, which goes depth first. A node has its id when the second look is over, so the counter of a
build moves by the number of second looks that it gets through (`follows_ofRaw`), whether it comes
to the end or stops at the first fault.

From this follows what one build does to the counter, and by induction over a list of builds that
no id is given out twice as long as the counter is handed on (`builds_count_on`).
-/

namespace ExprScript

/-- The two looks of a build at a raw node: at its tag and its fields, and at the types of its
children. -/
inductive Stage where
  | opening
  | closing
deriving DecidableEq

/-- One look of a build at the node at an address. -/
structure RawCheck where
  place : List Nat
  node : RawNode
  stage : Stage

namespace RawCheck

/-- The look, seen from a node with the tree that is looked at below it at the address `a`. -/
def below (a : List Nat) (c : RawCheck) : RawCheck := { c with place := a ++ c.place }

theorem map_below_nil (cs : List RawCheck) : cs.map (below []) = cs := List.map_id cs

end RawCheck

namespace RawNode

mutual

/-- The looks of a build at a raw node and at those below it, in the order of the build. -/
def checks : RawNode → List RawCheck
  | raw@⟨_, children, _, _, _, _, _, _⟩ =>
    ⟨[], raw, .opening⟩ :: (checksFrom 0 children ++ [⟨[], raw, .closing⟩])

def checksFrom (j : Nat) : List RawNode → List RawCheck
  | [] => []
  | raw :: raws => (checks raw).map (.below [j]) ++ checksFrom (j + 1) raws

end

mutual

/-- The addresses in a raw tree in post-order: each after those below it. -/
def postplaces : RawNode → List (List Nat)
  | ⟨_, children, _, _, _, _, _, _⟩ => postplacesFrom 0 children ++ [[]]

def postplacesFrom (j : Nat) : List RawNode → List (List Nat)
  | [] => []
  | raw :: raws => (postplaces raw).map (j :: ·) ++ postplacesFrom (j + 1) raws

end

/-- The error of a raw node at a look of the build. The types of the children are those of their
tags. -/
def FailsAt (raw : RawNode) : Stage → BuildError → Prop
  | .opening, e => raw.kind = .error e
  | .closing, e => ∃ kind fault, raw.kind = .ok kind ∧
      kind.type.shapeFault? (raw.children.filterMap fun c => NodeType.ofTag? c.tag) = some fault ∧
      e = raw.error (.shape fault)

theorem checks_eq (raw : RawNode) :
    raw.checks = ⟨[], raw, .opening⟩ :: (checksFrom 0 raw.children ++ [⟨[], raw, .closing⟩]) := by
  cases raw; rw [checks]

theorem postplaces_eq (raw : RawNode) :
    raw.postplaces = postplacesFrom 0 raw.children ++ [[]] := by
  cases raw; rw [postplaces]

end RawNode

namespace RawCheck

variable {α β : Type} {next last : Nat} {cs ds : List RawCheck} {e : BuildError}

def Fails (c : RawCheck) (e : BuildError) : Prop := c.node.FailsAt c.stage e

def Passes (c : RawCheck) : Prop := ∀ e, ¬ c.Fails e

/-- The addresses of the nodes that are complete after the given looks. -/
def completed (cs : List RawCheck) : List (List Nat) :=
  (cs.filter fun c => c.stage = .closing).map place

theorem completed_append (cs ds : List RawCheck) :
    completed (cs ++ ds) = completed cs ++ completed ds := by
  rw [completed, List.filter_append, List.map_append]
  rfl

theorem completed_below (a : List Nat) (cs : List RawCheck) :
    completed (cs.map (.below a)) = (completed cs).map (a ++ ·) := by
  rw [completed, List.filter_map, List.map_map, completed, List.map_map]
  rfl

theorem completed_checks_and :
    (∀ raw : RawNode, completed raw.checks = raw.postplaces) ∧
      ∀ (raws : List RawNode) (j : Nat),
        completed (RawNode.checksFrom j raws) = RawNode.postplacesFrom j raws := by
  have list : ∀ raws : List RawNode, (∀ raw ∈ raws, completed raw.checks = raw.postplaces) →
      ∀ j, completed (RawNode.checksFrom j raws) = RawNode.postplacesFrom j raws := by
    intro raws h
    induction raws with
    | nil => intro j; rfl
    | cons raw raws ih =>
        intro j
        rw [RawNode.checksFrom, RawNode.postplacesFrom, completed_append, completed_below,
          h raw (by simp), ih fun r hr => h r (by simp [hr])]
        rfl
  have each : ∀ raw : RawNode, completed raw.checks = raw.postplaces := by
    intro raw
    induction raw using RawNode.childrenInduction with
    | step raw ih =>
        rw [RawNode.checks_eq, RawNode.postplaces_eq, ← List.singleton_append, completed_append,
          completed_append, list raw.children ih]
        rfl
  exact ⟨each, fun raws => list raws fun raw _ => each raw⟩

/-! ## What a build comes to -/

/-- What a build still has to look at after the given first look at a node, up to the second look
at that node. -/
def inner (c : RawCheck) : List RawCheck :=
  (RawNode.checksFrom 0 c.node.children ++ [RawCheck.mk [] c.node .closing]).map
    (.below c.place)

/-- The outcome of a build that goes through the given looks, beginning with the counter `next`: a
value when none of them finds a fault, and otherwise the error of the first that does. The
counter has moved by the number of nodes completed until then. -/
inductive Follows (cs : List RawCheck) (next : Nat) : Except BuildError α × Nat → Prop where
  | done (a : α) (pass : ∀ c ∈ cs, c.Passes) :
      Follows cs next (.ok a, next + (completed cs).length)
  | stopped {e : BuildError} {before after : List RawCheck} {c : RawCheck}
      (split : cs = before ++ c :: after) (pass : ∀ d ∈ before, d.Passes) (fails : c.Fails e)
      (ahead : c.stage = .opening → ∃ rest, after = c.inner ++ rest) :
      Follows cs next (.error e, next + (completed before).length)

theorem inner_below (a : List Nat) (c : RawCheck) : (c.below a).inner = c.inner.map (.below a) := by
  rw [inner, inner, List.map_map]
  refine List.map_congr_left fun d _ => ?_
  simp [below]

/-- The nodes completed by the second look at a node are those at and below it. -/
theorem completed_inner (c : RawCheck) :
    completed c.inner = c.node.postplaces.map (c.place ++ ·) := by
  rw [inner, completed_below, completed_append, completed_checks_and.2, RawNode.postplaces_eq]
  rfl

theorem Follows.below {res : Except BuildError α × Nat} (h : Follows cs next res) (a : List Nat) :
    Follows (cs.map (.below a)) next res := by
  have same : ∀ ds : List RawCheck,
      (completed (ds.map (.below a))).length = (completed ds).length := fun ds => by
    rw [completed_below, List.length_map]
  cases h with
  | done value pass =>
      rw [← same]
      exact .done value (List.forall_mem_map.2 pass)
  | @stopped e before after c split pass fails ahead =>
      rw [← same]
      have split' : cs.map (.below a) =
          before.map (.below a) ++ c.below a :: after.map (.below a) := by simp [split]
      refine .stopped split' (List.forall_mem_map.2 pass) fails fun hc => ?_
      obtain ⟨rest, rfl⟩ := ahead hc
      exact ⟨rest.map (.below a), by rw [inner_below, List.map_append]⟩

theorem Follows.le {res : Except BuildError α × Nat} (h : Follows cs next res) :
    next ≤ res.2 ∧ res.2 ≤ next + (completed cs).length := by
  cases h with
  | done a pass => exact ⟨Nat.le_add_right .., Nat.le_refl _⟩
  | stopped split pass fails ahead =>
      rw [split, completed_append, List.length_append]
      exact ⟨Nat.le_add_right .., by simp only; omega⟩

/-- Looks that find nothing are followed by those that come next. -/
theorem Follows.after_pass {res : Except BuildError α × Nat} (pass : ∀ c ∈ cs, c.Passes)
    (h : Follows ds (next + (completed cs).length) res) : Follows (cs ++ ds) next res := by
  have len : ∀ es, next + (completed cs).length + (completed es).length =
      next + (completed (cs ++ es)).length := fun es => by
    rw [completed_append, List.length_append, Nat.add_assoc]
  cases h with
  | done a pass' =>
      rw [len]
      exact .done a fun c hc => (List.mem_append.1 hc).elim (pass c) (pass' c)
  | @stopped e before after c split pass' fails ahead =>
      rw [len]
      exact .stopped (by rw [split, List.append_assoc])
        (fun d hd => (List.mem_append.1 hd).elim (pass d) (pass' d)) fails ahead

/-- A build that has stopped does not look at what comes next. -/
theorem Follows.error_append (ds : List RawCheck)
    (h : Follows cs next ((.error e, last) : Except BuildError α × Nat)) :
    Follows (cs ++ ds) next ((.error e, last) : Except BuildError β × Nat) := by
  cases h with
  | stopped split pass fails ahead =>
      refine .stopped (by rw [split, List.append_assoc, List.cons_append]) pass fails fun hc => ?_
      obtain ⟨rest, rfl⟩ := ahead hc
      exact ⟨rest ++ ds, by rw [List.append_assoc]⟩

end RawCheck

namespace Node

open RawCheck

theorem follows_ofRaws {raws : List RawNode}
    (each : ∀ raw ∈ raws, ∀ next, Follows raw.checks next (ofRaw next raw)) (j next : Nat) :
    Follows (RawNode.checksFrom j raws) next (ofRaws next raws) := by
  induction raws generalizing j next with
  | nil => exact .done [] (by simp [RawNode.checksFrom])
  | cons raw raws ih =>
      have hraw := (each raw (by simp) next).below [j]
      have hrest := ih (fun r hr => each r (by simp [hr])) (j + 1)
      rw [RawNode.checksFrom]
      rcases h : ofRaw next raw with ⟨e | node, mid⟩
      · simp only [ofRaws, h]
        rw [h] at hraw
        exact hraw.error_append _
      · rw [h] at hraw
        cases hraw with
        | done _ pass =>
            refine .after_pass pass ?_
            specialize hrest (next + (completed (raw.checks.map (.below [j]))).length)
            simp only [ofRaws, h]
            generalize ofRaws _ raws = res at hrest
            cases hrest with
            | done nodes pass' => exact .done _ pass'
            | stopped split pass' fails ahead => exact .stopped split pass' fails ahead

/-- The types of what is built are those of the tags. -/
theorem map_type_of_ofRaws {raws : List RawNode} {next last : Nat} {nodes : List Node}
    (h : ofRaws next raws = (.ok nodes, last)) :
    raws.filterMap (fun c => NodeType.ofTag? c.tag) = nodes.map type := by
  have htags := RawNode.map_tag_of_builds (RawNode.forall₂_builds h)
  calc raws.filterMap (fun c => NodeType.ofTag? c.tag)
      = (raws.map (·.tag)).filterMap NodeType.ofTag? := by
        rw [List.filterMap_map]
        rfl
    _ = (nodes.map type).filterMap (fun t => NodeType.ofTag? t.tag) := by
        rw [htags, List.filterMap_map]
        rfl
    _ = nodes.map type := by simp [NodeType.ofTag?_tag]

/-- What one step of a build comes to. -/
theorem ofRaw_cases (next : Nat) (raw : RawNode) :
    (∃ e, raw.kind = .error e ∧ ofRaw next raw = (.error e, next)) ∨
    ∃ kind, raw.kind = .ok kind ∧
      ((∃ e own, ofRaws next raw.children = (.error e, own) ∧ ofRaw next raw = (.error e, own)) ∨
      ∃ nodes own, ofRaws next raw.children = (.ok nodes, own) ∧
        ((∃ fault, kind.type.shapeFault? (nodes.map type) = some fault ∧
          ofRaw next raw = (.error (raw.error (.shape fault)), own)) ∨
        (kind.type.shapeFault? (nodes.map type) = none ∧
          ofRaw next raw = (.ok ⟨own, kind, nodes, raw.location⟩, own + 1)))) := by
  obtain ⟨tag, children, location, value, name, variableName, isMutable, operator⟩ := raw
  rw [ofRaw]
  split
  · exact .inl ⟨_, ‹_›, rfl⟩
  · refine .inr ⟨_, ‹_›, ?_⟩
    dsimp only
    split
    · exact .inl ⟨_, _, ‹_›, rfl⟩
    · refine .inr ⟨_, _, ‹_›, ?_⟩
      split
      · exact .inl ⟨_, ‹_›, rfl⟩
      · exact .inr ⟨‹_›, rfl⟩

/-- **A build goes depth first and stops at the first fault.** -/
theorem follows_ofRaw (raw : RawNode) (next : Nat) : Follows raw.checks next (ofRaw next raw) := by
  induction raw using RawNode.childrenInduction generalizing next with
  | step raw ih =>
      have hchildren := follows_ofRaws ih 0 next
      rw [raw.checks_eq]
      -- the fields are checked before the children are built, and the types of the children after
      obtain ⟨e, hkind, hraw⟩ | ⟨kind, hkind, h⟩ := ofRaw_cases next raw
      · rw [hraw]
        refine .stopped (show _ = [] ++ RawCheck.mk [] raw .opening :: _ from rfl) (by simp) hkind
          fun _ => ⟨[], by rw [RawCheck.inner, map_below_nil, List.append_nil]⟩
      · have opening : ∀ c ∈ [RawCheck.mk [] raw .opening], c.Passes := by
          intro c hc e he
          obtain rfl := List.mem_singleton.1 hc
          cases hkind.symm.trans he
        refine .after_pass opening ?_
        obtain ⟨e, own, hnodes, hraw⟩ | ⟨nodes, own, hnodes, h⟩ := h
        · rw [hnodes] at hchildren
          rw [hraw]
          exact hchildren.error_append _
        · rw [hnodes] at hchildren
          have htypes := map_type_of_ofRaws hnodes
          cases hchildren with
          | done _ pass =>
              refine .after_pass pass ?_
              obtain ⟨fault, hshape, hraw⟩ | ⟨hshape, hraw⟩ := h
              · rw [hraw]
                exact .stopped (show _ = [] ++ RawCheck.mk [] raw .closing :: [] from rfl) (by simp)
                  ⟨kind, fault, hkind, htypes ▸ hshape, rfl⟩ (by simp)
              · rw [hraw]
                refine .done _ fun c hc e he => ?_
                obtain rfl := List.mem_singleton.1 hc
                obtain ⟨kind', fault, hkind', hfault, -⟩ := he
                obtain rfl := Except.ok.inj (hkind.symm.trans hkind')
                rw [htypes, hshape] at hfault
                cases hfault

end Node

/-! ## Where a failed build stops -/

namespace RawNode

theorem of_mem_checksFrom {raws : List RawNode} {j : Nat} {c : RawCheck}
    (h : c ∈ checksFrom j raws) :
    ∃ (l : Nat) (r : RawNode) (d : RawCheck),
      raws[l]? = some r ∧ d ∈ r.checks ∧ c = d.below [j + l] := by
  induction raws generalizing j with
  | nil => simp [checksFrom] at h
  | cons r raws ih =>
      rw [checksFrom, List.mem_append, List.mem_map] at h
      obtain ⟨d, hd, rfl⟩ | h := h
      · exact ⟨0, r, d, rfl, hd, rfl⟩
      · obtain ⟨l, r', d, hl, hd, rfl⟩ := ih h
        exact ⟨l + 1, r', d, hl, hd, by rw [Nat.add_assoc, Nat.add_comm 1 l]⟩

theorem at?_of_mem_checks {raw : RawNode} {c : RawCheck} (h : c ∈ raw.checks) :
    raw.at? c.place = some c.node := by
  induction raw using RawNode.childrenInduction generalizing c with
  | step raw ih =>
      rw [checks_eq, List.mem_cons, List.mem_append, List.mem_singleton] at h
      obtain rfl | h | rfl := h
      · rfl
      · obtain ⟨l, r, d, hl, hd, rfl⟩ := of_mem_checksFrom h
        have hplace : raw.at? (l :: d.place) = r.at? d.place := by rw [at?, hl]
        rw [Nat.zero_add]
        exact hplace.trans (ih r (List.mem_of_getElem? hl) hd)
      · rfl

/-- The error of a node is about the node. -/
theorem exists_fault_of_kind {raw : RawNode} {e : BuildError} (h : raw.kind = .error e) :
    ∃ fault, e = raw.error fault := by
  unfold RawNode.kind at h
  cases ht : NodeType.ofTag? raw.tag with
  | none =>
      rw [ht] at h
      exact ⟨_, (Except.error.inj h).symm⟩
  | some t =>
      rw [ht] at h
      cases t with
      | integer | string | boolean | variableDeclaration | functionDeclaration | binaryOperator =>
          dsimp only at h
          split at h <;> cases h <;> exact ⟨_, rfl⟩
      | identifier =>
          dsimp only [identifierName] at h
          split at h <;> cases h <;> exact ⟨_, rfl⟩
      | _ => cases h

theorem FailsAt.exists_fault {raw : RawNode} {stage : Stage} {e : BuildError}
    (h : raw.FailsAt stage e) : ∃ fault, e = raw.error fault := by
  cases stage with
  | opening => exact exists_fault_of_kind h
  | closing =>
      obtain ⟨kind, fault, -, -, rfl⟩ := h
      exact ⟨.shape fault, rfl⟩

/-- The build of the raw tree that begins with the counter `next` comes to its end at the given
look, with the error `e` and the counter `last`. The nodes completed by then are those before the
faulty one in post-order, without those below it if they have not been looked at. -/
structure StopsAt (raw : RawNode) (next : Nat) (c : RawCheck) (e : BuildError) (last : Nat) :
    Prop where
  stands : raw.at? c.place = some c.node
  first : ∃ before after, raw.checks = before ++ c :: after ∧ ∀ d ∈ before, d.Passes
  fails : c.Fails e
  tag : e.tag = c.node.tag
  span : e.span = c.node.location
  counter : ∃ before after, raw.postplaces = before ++ c.place :: after ∧
    last + (if c.stage = .opening then c.node.postplaces.length - 1 else 0) = next + before.length

theorem exists_stopsAt {raw : RawNode} {next last : Nat} {e : BuildError}
    (h : Node.ofRaw next raw = (.error e, last)) : ∃ c, raw.StopsAt next c e last := by
  have hfollows := Node.follows_ofRaw raw next
  rw [h] at hfollows
  cases hfollows with
  | @stopped _ before after c split pass fails ahead =>
      obtain ⟨fault, rfl⟩ := FailsAt.exists_fault fails
      have hplaces := RawCheck.completed_checks_and.1 raw
      rw [split, RawCheck.completed_append] at hplaces
      refine ⟨c, at?_of_mem_checks (by simp [split]), ⟨before, after, split, pass⟩, fails, rfl, rfl,
        ?_⟩
      obtain ⟨place, node, _ | _⟩ := c
      · obtain ⟨rest, rfl⟩ := ahead rfl
        rw [← List.singleton_append, RawCheck.completed_append, RawCheck.completed_append,
          RawCheck.completed_inner, postplaces_eq] at hplaces
        refine ⟨RawCheck.completed before ++ (postplacesFrom 0 node.children).map (place ++ ·),
          RawCheck.completed rest, ?_, ?_⟩
        · rw [← hplaces]
          simp [RawCheck.completed]
        · simp [postplaces_eq]
          omega
      · refine ⟨RawCheck.completed before, RawCheck.completed after, hplaces.symm, ?_⟩
        simp

end RawNode

/-! ## One build after the other -/

/-- A build: what is built, the counter it begins with, the outcome and the counter it leaves. -/
structure Building where
  raw : RawNode
  first : Nat
  result : Except BuildError Node
  last : Nat

/-- The builds of the given raw trees, one after the other with one counter, whether they
succeed or not. -/
def Node.ofEach (next : Nat) : List RawNode → List Building
  | [] => []
  | raw :: raws =>
    let built := ofRaw next raw
    ⟨raw, next, built.1, built.2⟩ :: ofEach built.2 raws

namespace Building

def returned (builds : List Building) : List Node := builds.filterMap (·.result.toOption)

/-- What a build does to the counter: it gives out the numbers from there on, in post-order, or
stops at the first fault. -/
structure Counts (b : Building) : Prop where
  success : ∀ n, b.result = .ok n →
    (∀ c ∈ b.raw.checks, c.Passes) ∧ n.postorder.map Node.id = List.range' b.first n.count ∧
      b.last = b.first + n.count
  failure : ∀ e, b.result = .error e → ∃ c, b.raw.StopsAt b.first c e b.last

end Building

namespace Node

open RawCheck Building

/-- What one build does to the counter. -/
theorem counts_of_ofRaw {next last : Nat} {raw : RawNode} {result : Except BuildError Node}
    (h : ofRaw next raw = (result, last)) : Counts ⟨raw, next, result, last⟩ := by
  constructor
  · rintro n rfl
    obtain ⟨hids, hlast⟩ := ofRaw_ids h
    have hfollows := follows_ofRaw raw next
    rw [h] at hfollows
    cases hfollows with
    | done _ pass =>
        rw [count_eq_length_postorder]
        exact ⟨pass, hids, hlast⟩
  · rintro e rfl
    exact RawNode.exists_stopsAt h

theorem counts_ofEach (next : Nat) (raws : List RawNode) : ∀ b ∈ ofEach next raws, b.Counts := by
  induction raws generalizing next with
  | nil => intro b hb; simp [ofEach] at hb
  | cons raw raws ih => exact List.forall_mem_cons.2 ⟨counts_of_ofRaw rfl, ih _⟩

/-- The counter never goes beyond the number of nodes that are to be built. -/
theorem last_le_of_mem_ofEach {next : Nat} {raws : List RawNode} {b : Building}
    (h : b ∈ ofEach next raws) : b.last ≤ next + (raws.flatMap RawNode.postplaces).length := by
  induction raws generalizing next with
  | nil => simp [ofEach] at h
  | cons raw raws ih =>
      have hle := (follows_ofRaw raw next).le.2
      rw [completed_checks_and.1] at hle
      rw [List.flatMap_cons, List.length_append]
      rw [ofEach, List.mem_cons] at h
      obtain rfl | h := h
      · simp only
        omega
      · have := ih h
        omega

/-- The ids of the trees that a run returns go up from the counter it begins with. -/
theorem sorted_ids_ofEach (next : Nat) (raws : List RawNode) :
    (((returned (ofEach next raws)).flatMap postorder).map id).Pairwise (· < ·) ∧
      ∀ i ∈ ((returned (ofEach next raws)).flatMap postorder).map id, next ≤ i := by
  induction raws generalizing next with
  | nil => exact ⟨.nil, by simp [ofEach, returned]⟩
  | cons raw raws ih =>
      have hle := (follows_ofRaw raw next).le.1
      obtain ⟨hsorted, hfrom⟩ := ih (ofRaw next raw).2
      rw [ofEach, returned, List.filterMap_cons]
      cases hresult : (ofRaw next raw).1 with
      | error e => exact ⟨hsorted, fun i hi => Nat.le_trans hle (hfrom i hi)⟩
      | ok n =>
          obtain ⟨hids, hlast⟩ := ofRaw_ids (Prod.ext hresult rfl)
          show ((n.postorder ++ (returned _).flatMap postorder).map id).Pairwise _ ∧
            ∀ i ∈ (n.postorder ++ (returned _).flatMap postorder).map id, next ≤ i
          rw [List.map_append, hids, List.pairwise_append]
          have hbelow : ∀ i ∈ List.range' next n.postorder.length,
              next ≤ i ∧ i < (ofRaw next raw).2 := by
            intro i hi
            rwa [List.mem_range'_1, ← hlast] at hi
          refine ⟨⟨List.pairwise_lt_range', hsorted, fun i hi k hk => ?_⟩, fun i hi => ?_⟩
          · exact Nat.lt_of_lt_of_le (hbelow i hi).2 (hfrom k hk)
          · exact (List.mem_append.1 hi).elim (fun hi => (hbelow i hi).1)
              fun hi => Nat.le_trans hle (hfrom i hi)

/-- The id of the root is the last that a build gives out. -/
theorem id_succ_of_build {raw : RawNode} {n : Node} (h : build raw = .ok n) :
    n.id + 1 = n.count := by
  have hraw : ofRaw 0 raw = (.ok n, (ofRaw 0 raw).2) := Prod.ext h rfl
  obtain ⟨-, hlast⟩ := ofRaw_ids hraw
  obtain ⟨kind, nodes, own, -, -, -, rfl, hown⟩ := ofRaw_eq_ok_iff.1 hraw
  rw [count_eq_length_postorder]
  show own + 1 = _
  omega

/-- **No id is given out twice over a run of builds with one counter**, whether they succeed or
not. Each build that succeeds gives out the numbers from its counter on, in post-order. Each that
fails does so at the first look that finds a fault, and leaves the counter behind the nodes
completed by then. The counter never goes beyond the number of nodes handed over, and the root of
a tree built on its own has the last id. -/
theorem builds_count_on (next : Nat) (raws : List RawNode) :
    (∀ b ∈ ofEach next raws, b.Counts) ∧
      (((returned (ofEach next raws)).flatMap postorder).map id).Nodup ∧
      (∀ b ∈ ofEach next raws, b.last ≤ next + (raws.flatMap RawNode.postplaces).length) ∧
      ∀ raw n, build raw = .ok n → n.id + 1 = n.count :=
  ⟨counts_ofEach next raws, (sorted_ids_ofEach next raws).1.imp Nat.ne_of_lt,
    fun _ => last_le_of_mem_ofEach, fun _ _ => id_succ_of_build⟩

/-- A tree, one in which it stands where it cannot, and the tree again: the second build fails at
its root, when all nodes below have their ids. -/
theorem builds_count_on_after_fault :
    let builds := ofEach 0 [sumWithCall, .ofType .call [sumWithCall] .empty, sumWithCall]
    builds.map (fun b => (b.first, b.last)) = [(0, 7), (7, 14), (14, 21)] ∧
      (returned builds).length = 2 ∧
      (((returned builds).flatMap postorder).map id).Nodup ∧
      ∃ n, build sumWithCall = .ok n ∧ n.id + 1 = n.count := by
  obtain ⟨n, hn⟩ : ∃ n, build sumWithCall = .ok n := ⟨_, rfl⟩
  exact ⟨rfl, rfl, (builds_count_on 0 _).2.1,
    n, hn, (builds_count_on 0 []).2.2.2 _ n hn⟩

end Node

end ExprScript
