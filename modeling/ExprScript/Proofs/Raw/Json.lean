import ExprScript.Proofs.Json.Reading
import ExprScript.Proofs.Tree.Build
import ExprScript.Raw.Json

set_option autoImplicit false

/-! # Raw trees in JSON

The JSON form of a raw tree stands for that tree, field for field, when the positions in it have
64 bits (`RawTree.ofJson?_toJson`). Each level of a tree is two levels of JSON, an object and the
array of its children, and the position in a location is one more level below a leaf
(`RawNode.nesting_toJson`).

No value stands for one node and for a list of nodes at once (`RawNode.ofJson?_or_ofList?`): a node
that is an array begins with its tag, and a tag is no node.
-/

namespace ExprScript

/-! ## Records -/

namespace Json

/-- The fields of an object that is written from keys and values, where values may be missing. -/
def written (entries : List (String × Option Json)) : List (String × Json) :=
  entries.flatMap fun e => optionalField e.1 e.2

theorem mem_optionalField {key : String} {o : Option Json} {f : String × Json} :
    f ∈ optionalField key o ↔ f.1 = key ∧ o = some f.2 := by
  obtain ⟨k, v⟩ := f
  cases o with
  | none => simp [optionalField]
  | some w => simp [optionalField, eq_comm]

theorem mem_written {entries : List (String × Option Json)} {f : String × Json} :
    f ∈ written entries ↔ (f.1, some f.2) ∈ entries := by
  simp only [written, List.mem_flatMap, mem_optionalField]
  constructor
  · rintro ⟨⟨k, o⟩, he, rfl, ho⟩
    rwa [← ho]
  · exact fun h => ⟨_, h, rfl, rfl⟩

/-- No key is written that is not given, and none more often than it is given. -/
theorem keys_written_sublist (entries : List (String × Option Json)) :
    ((written entries).map Prod.fst).Sublist (entries.map Prod.fst) := by
  induction entries with
  | nil => exact .slnil
  | cons e entries ih =>
      obtain ⟨k, o⟩ := e
      cases o with
      | none => exact ih.cons k
      | some v => exact ih.cons_cons k

theorem lookup_written {entries : List (String × Option Json)}
    (hkeys : (entries.map Prod.fst).Nodup) {key : String} {o : Option Json}
    (h : (key, o) ∈ entries) : (written entries).lookup key = o := by
  induction entries with
  | nil => cases h
  | cons e entries ih =>
      obtain ⟨k, p⟩ := e
      obtain ⟨hk, hrest⟩ := List.nodup_cons.1 hkeys
      rcases List.mem_cons.1 h with heq | hmem
      · obtain ⟨rfl, rfl⟩ := Prod.mk.inj heq
        cases o with
        | some v => exact List.lookup_cons_self
        | none =>
            -- the key is written nowhere else
            refine List.lookup_eq_none_iff.2 fun f hf => ?_
            have hf := (keys_written_sublist entries).subset (List.mem_map_of_mem hf)
            rw [bne_iff_ne]
            exact fun hkey => hk (hkey ▸ hf)
      · have hne : (key == k) = false := by
          rw [beq_eq_false_iff_ne]
          rintro rfl
          exact hk (List.mem_map.2 ⟨_, hmem, rfl⟩)
        cases p with
        | none => exact ih hrest hmem
        | some v =>
            show List.lookup key ((k, v) :: written entries) = o
            rw [List.lookup_cons, hne]
            exact ih hrest hmem

/-- **An object that is written from distinct keys is read with the same values.** -/
theorem record?_written (entries : List (String × Option Json))
    (hkeys : (entries.map Prod.fst).Nodup) :
    record? (entries.map Prod.fst) (.obj (written entries)) = some (entries.map Prod.snd) := by
  have honce : ∀ k, ((written entries).filter (·.1 == k)).length ≤ 1 := by
    intro k
    have hcount := List.nodup_iff_count_le_one.1 (hkeys.sublist (keys_written_sublist entries)) k
    rwa [List.count_eq_countP, List.countP_map, List.countP_eq_length_filter] at hcount
  have hvalues : (entries.map Prod.fst).map (fun k => (written entries).lookup k) =
      entries.map Prod.snd := by
    rw [List.map_map]
    exact List.map_congr_left fun e he => lookup_written hkeys he
  rw [record?, if_pos (List.all_eq_true.2 fun k _ => decide_eq_true (honce k)), hvalues]

theorem nat64?_int {n : Nat} (h : n < UInt64.size) : nat64? (.int n) = some n := by
  rw [nat64?, if_pos ⟨Int.natCast_nonneg n, by omega⟩, Int.toNat_natCast]

/-! ## How deep a record is -/

theorem nesting_obj_le_iff {fs : List (String × Json)} {n : Nat} :
    (obj fs).nesting ≤ n + 1 ↔ ∀ f ∈ fs, f.2.nesting ≤ n := by
  rw [nesting, Nat.add_le_add_iff_right]
  induction fs with
  | nil => simp [nestingOfFields]
  | cons f fs ih =>
      obtain ⟨k, v⟩ := f
      rw [nestingOfFields, Nat.max_le, ih, List.forall_mem_cons]

theorem nesting_arr_le_iff {xs : List Json} {n : Nat} :
    (arr xs).nesting ≤ n + 1 ↔ ∀ x ∈ xs, x.nesting ≤ n := by
  rw [nesting, Nat.add_le_add_iff_right]
  induction xs with
  | nil => simp [nestings]
  | cons x xs ih => rw [nestings, Nat.max_le, ih, List.forall_mem_cons]

end Json

/-! ## Positions and literals -/

/-- The numbers of the position have 64 bits. -/
structure Position.Fits (p : Position) : Prop where
  offset : p.offset < UInt64.size
  line : p.line < UInt64.size
  column : p.column < UInt64.size

structure Span.Fits (s : Span) : Prop where
  start : s.start.Fits
  stop : s.stop.Fits

theorem Position.ofJson?_toJson {p : Position} (h : p.Fits) :
    Position.ofJson? p.toJson = some p := by
  have hrecord : p.toJson.record? ["offset", "line", "column"] =
      some [some (.int p.offset), some (.int p.line), some (.int p.column)] :=
    Json.record?_written [("offset", some (.int p.offset)), ("line", some (.int p.line)),
      ("column", some (.int p.column))] (show ["offset", "line", "column"].Nodup by decide)
  rw [Position.ofJson?, hrecord]
  simp only [Json.nat64?_int h.offset, Json.nat64?_int h.line, Json.nat64?_int h.column]
  rfl

theorem Span.ofJson?_toJson {s : Span} (h : s.Fits) : Span.ofJson? s.toJson = some s := by
  have hrecord : s.toJson.record? ["start", "end"] =
      some [some s.start.toJson, some s.stop.toJson] :=
    Json.record?_written [("start", some s.start.toJson), ("end", some s.stop.toJson)]
      (show ["start", "end"].Nodup by decide)
  rw [Span.ofJson?, hrecord]
  simp only [Position.ofJson?_toJson h.start, Position.ofJson?_toJson h.stop]
  rfl

theorem RawValue.ofJson?_toJson (v : RawValue) : RawValue.ofJson? v.toJson = some v := by
  cases v with
  | boolean b => rfl
  | integer n => rw [toJson, ofJson?, Decimal.toInt64?_toInt, Option.map_some]
  | string s => rfl

theorem RawValue.optional?_map (o : Option RawValue) :
    Json.optional? RawValue.ofJson? (o.map toJson) = some o := by
  cases o with
  | none => rfl
  | some v =>
      rw [Option.map_some, Json.optional?, ofJson?_toJson, Option.map_some]
      cases v <;> simp [toJson]

theorem Position.plain_toJson {p : Position} (h : p.Fits) : p.toJson.Plain := by
  refine .obj ?_
  simp only [List.forall_mem_cons, List.not_mem_nil, false_imp_iff, implies_true, and_true]
  exact ⟨.int h.offset, .int h.line, .int h.column⟩

theorem Span.plain_toJson {s : Span} (h : s.Fits) : s.toJson.Plain := by
  refine .obj ?_
  simp only [List.forall_mem_cons, List.not_mem_nil, false_imp_iff, implies_true, and_true]
  exact ⟨Position.plain_toJson h.start, Position.plain_toJson h.stop⟩

theorem RawValue.plain_toJson (v : RawValue) : v.toJson.Plain := by
  cases v with
  | boolean b => exact .bool b
  | integer n =>
      have hlow := n.le_toInt
      have hhigh := n.toInt_lt
      refine .int ?_
      show n.toInt.natAbs < 18446744073709551616
      omega
  | string s => exact .str s

theorem RawValue.nesting_toJson (v : RawValue) : v.toJson.nesting = 0 := by
  cases v <;> rfl

/-! ## Nodes -/

namespace RawNode

/-- All positions of the tree have 64 bits. -/
def Fits : RawNode → Prop := Throughout fun raw => raw.location.Fits

mutual

def depth : RawNode → Nat
  | ⟨_, children, _, _, _, _, _, _⟩ => depths children + 1

def depths : List RawNode → Nat
  | [] => 0
  | raw :: raws => max (depth raw) (depths raws)

end

def entries (raw : RawNode) : List (String × Option Json) :=
  [("type", some (.str raw.tag)), ("children", some (.arr (toJsons raw.children))),
    ("location", some raw.location.toJson), ("value", raw.value.map RawValue.toJson),
    ("name", raw.name.map Json.str), ("variableName", raw.variableName.map Json.str),
    ("mutable", raw.mutable.map Json.bool), ("operator", raw.operator.map Json.str)]

theorem toJson_eq (raw : RawNode) : raw.toJson = .obj (Json.written raw.entries) := by
  obtain ⟨tag, children, location, value, name, variableName, isMutable, operator⟩ := raw
  rw [toJson]
  simp [Json.written, entries, optionalField]

/-- A node is read when its fields are. -/
theorem ofFields?_eq_some {tag children location : Json}
    {value name variableName isMutable operator : Option Json} {raw : RawNode}
    (htag : tag.text? = some raw.tag) (hlocation : Span.ofJson? location = some raw.location)
    (hvalue : Json.optional? RawValue.ofJson? value = some raw.value)
    (hname : Json.optional? Json.text? name = some raw.name)
    (hvariable : Json.optional? Json.text? variableName = some raw.variableName)
    (hmutable : Json.optional? Json.bool? isMutable = some raw.mutable)
    (hoperator : Json.optional? Json.text? operator = some raw.operator) :
    ofFields? [some tag, some children, some location, value, name, variableName, isMutable,
      operator] raw.children = some raw := by
  -- the fields stay variables here: unfolded, the bound on positions would be counted in steps
  rw [ofFields?, Option.elim_some, htag, hlocation, hvalue, hname, hvariable, hmutable, hoperator]
  cases raw
  rfl

theorem ofFields?_entries {raw : RawNode} (h : raw.location.Fits) :
    ofFields? (raw.entries.map Prod.snd) raw.children = some raw := by
  have htext (o : Option String) : Json.optional? Json.text? (o.map Json.str) = some o := by
    cases o <;> rfl
  have hbool (o : Option Bool) : Json.optional? Json.bool? (o.map Json.bool) = some o := by
    cases o <;> rfl
  exact ofFields?_eq_some rfl (Span.ofJson?_toJson h) (RawValue.optional?_map raw.value)
    (htext raw.name) (htext raw.variableName) (hbool raw.mutable) (htext raw.operator)

theorem toJsons_eq_map (raws : List RawNode) : toJsons raws = raws.map toJson := by
  induction raws with
  | nil => rfl
  | cons raw raws ih => rw [toJsons, ih, List.map_cons]

theorem ofItems?_toJsons {raws : List RawNode} (h : ∀ raw ∈ raws, ofJson? raw.toJson = some raw) :
    ofItems? (toJsons raws) = some raws := by
  induction raws with
  | nil => rw [toJsons, ofItems?]
  | cons raw raws ih =>
      obtain ⟨hraw, hraws⟩ := List.forall_mem_cons.1 h
      rw [toJsons, ofItems?, hraw, ih hraws]
      rfl

theorem keys_entries (raw : RawNode) : raw.entries.map Prod.fst = keys := rfl

theorem record?_entries (raw : RawNode) :
    Json.record? keys (.obj (Json.written raw.entries)) = some (raw.entries.map Prod.snd) := by
  have hkeys : (raw.entries.map Prod.fst).Nodup := by
    rw [keys_entries]
    decide
  rw [← keys_entries raw]
  exact Json.record?_written raw.entries hkeys

theorem childrenOfFields?_entries {raw : RawNode}
    (h : ofItems? (toJsons raw.children) = some raw.children) :
    childrenOfFields? (Json.written raw.entries) = some raw.children := by
  show childrenOfFields? (("type", _) :: ("children", .arr (toJsons raw.children)) :: _) = _
  rw [childrenOfFields?, if_neg (by decide), childrenOfFields?, if_pos rfl, ofList?, h]

theorem ofJson?_toJson {raw : RawNode} (h : raw.Fits) : ofJson? raw.toJson = some raw := by
  induction raw using childrenInduction with
  | step raw ih =>
      obtain ⟨hlocation, hchildren⟩ := h
      have hitems := ofItems?_toJsons fun c hc => ih c hc (hchildren c hc)
      have hrecord := record?_entries raw
      have hown := childrenOfFields?_entries hitems
      rw [toJson_eq, ofJson?]
      exact Option.bind_eq_some_iff.2 ⟨_, hrecord,
        Option.bind_eq_some_iff.2 ⟨_, hown, ofFields?_entries hlocation⟩⟩

/-! ## What is written of a node -/

theorem forall_written {raw : RawNode} {P : Json → Prop} (hstr : ∀ s, P (.str s))
    (hbool : ∀ b, P (.bool b)) (hvalue : ∀ v : RawValue, P v.toJson)
    (hlocation : P raw.location.toJson) (hchildren : P (.arr (toJsons raw.children))) :
    ∀ f ∈ Json.written raw.entries, P f.2 := by
  intro f hf
  have hf := Json.mem_written.1 hf
  generalize f.1 = k, f.2 = v at hf
  simp only [entries, List.mem_cons, Prod.mk.injEq, Option.some.injEq, List.not_mem_nil,
    or_false, eq_comm (a := some v), Option.map_eq_some_iff] at hf
  rcases hf with ⟨-, rfl⟩ | ⟨-, rfl⟩ | ⟨-, rfl⟩ | ⟨-, u, -, rfl⟩ | ⟨-, u, -, rfl⟩ |
    ⟨-, u, -, rfl⟩ | ⟨-, u, -, rfl⟩ | ⟨-, u, -, rfl⟩
  · exact hstr _
  · exact hchildren
  · exact hlocation
  · exact hvalue u
  · exact hstr u
  · exact hstr u
  · exact hbool u
  · exact hstr u

theorem plain_toJsons {raws : List RawNode} (h : ∀ raw ∈ raws, raw.toJson.Plain) :
    (Json.arr (toJsons raws)).Plain := by
  rw [toJsons_eq_map]
  exact .arr (List.forall_mem_map.2 h)

theorem plain_toJson {raw : RawNode} (h : raw.Fits) : raw.toJson.Plain := by
  induction raw using childrenInduction with
  | step raw ih =>
      obtain ⟨hlocation, hchildren⟩ := h
      rw [toJson_eq]
      exact .obj (forall_written .str .bool RawValue.plain_toJson (Span.plain_toJson hlocation)
        (plain_toJsons fun c hc => ih c hc (hchildren c hc)))

/-! ## How deep nodes are -/

theorem depths_le_iff {raws : List RawNode} {n : Nat} :
    depths raws ≤ n ↔ ∀ raw ∈ raws, raw.depth ≤ n := by
  induction raws with
  | nil => simp [depths]
  | cons raw raws ih => rw [depths, Nat.max_le, ih, List.forall_mem_cons]

theorem depth_eq (raw : RawNode) : raw.depth = depths raw.children + 1 := by
  cases raw
  rw [depth]

/-- The deepest values of a node are the positions of its location and those of its children. -/
theorem nesting_toJson_le_succ_iff {raw : RawNode} {n : Nat} :
    raw.toJson.nesting ≤ n + 1 ↔ 2 ≤ n ∧ (Json.arr (toJsons raw.children)).nesting ≤ n := by
  rw [toJson_eq, Json.nesting_obj_le_iff]
  constructor
  · intro h
    have hlocation := h ("location", raw.location.toJson) (Json.mem_written.2 (by simp [entries]))
    have hchildren := h ("children", .arr (toJsons raw.children))
      (Json.mem_written.2 (by simp [entries]))
    exact ⟨hlocation, hchildren⟩
  · rintro ⟨hn, hchildren⟩
    refine forall_written (P := fun v => v.nesting ≤ n) (fun _ => Nat.zero_le n)
      (fun _ => Nat.zero_le n) ?_ hn hchildren
    intro v
    rw [v.nesting_toJson]
    exact Nat.zero_le n

/-- **Each level of a tree is two levels of JSON**, and the positions of a leaf are one more. -/
theorem nesting_toJson_le_iff {raw : RawNode} {n : Nat} :
    raw.toJson.nesting ≤ n ↔ 2 * raw.depth < n := by
  induction raw using childrenInduction generalizing n with
  | step raw ih =>
      by_cases hn : n < 3
      · have hdeep : ¬raw.toJson.nesting ≤ 2 := by
          rw [nesting_toJson_le_succ_iff]
          omega
        have hpos := raw.depth_eq
        exact ⟨fun h => absurd (show raw.toJson.nesting ≤ 2 by omega) hdeep, fun h => by omega⟩
      · obtain ⟨m, rfl⟩ : ∃ m, n = m + 3 := ⟨n - 3, by omega⟩
        calc raw.toJson.nesting ≤ m + 3
            ↔ (Json.arr (toJsons raw.children)).nesting ≤ m + 2 := by
              rw [nesting_toJson_le_succ_iff]
              exact and_iff_right (by omega)
          _ ↔ ∀ c ∈ raw.children, c.toJson.nesting ≤ m + 1 := by
              rw [Json.nesting_arr_le_iff, toJsons_eq_map, List.forall_mem_map]
          _ ↔ ∀ c ∈ raw.children, c.depth ≤ m / 2 :=
              forall₂_congr fun c hc => by rw [ih c hc]; omega
          _ ↔ 2 * raw.depth < m + 3 := by
              rw [← depths_le_iff, depth_eq]
              omega

/-- A list of trees is one level of JSON more. -/
theorem nesting_toJsons_le_iff {raws : List RawNode} {n : Nat} :
    (Json.arr (toJsons raws)).nesting ≤ n + 1 ↔ ∀ raw ∈ raws, 2 * raw.depth < n := by
  rw [Json.nesting_arr_le_iff, toJsons_eq_map, List.forall_mem_map]
  exact forall₂_congr fun raw _ => nesting_toJson_le_iff

/-! ## One node or many -/

/-- An array that stands for a node begins with the tag. -/
theorem exists_tag_of_ofJson? {items : List Json} {raw : RawNode}
    (h : ofJson? (.arr items) = some raw) : ∃ tag rest, items = .str tag :: rest := by
  rw [ofJson?] at h
  obtain ⟨fields, hrecord, h⟩ := Option.bind_eq_some_iff.1 h
  obtain ⟨children, -, h⟩ := Option.bind_eq_some_iff.1 h
  rw [Json.record?] at hrecord
  split at hrecord
  · obtain rfl := Option.some.inj hrecord
    obtain _ | ⟨v, items⟩ := items
    · cases h
    · unfold ofFields? at h
      split at h
      · rename_i heq
        obtain ⟨rfl, -⟩ : v = _ ∧ _ := by simpa using heq
        obtain ⟨tag, htag, -⟩ := Option.bind_eq_some_iff.1 h
        cases v with
        | str s => exact ⟨s, items, rfl⟩
        | _ => cases htag
      · cases h
  · cases hrecord

/-- **No value stands for one node and for a list of nodes.** -/
theorem ofJson?_eq_none_or_ofList?_eq_none (v : Json) : ofJson? v = none ∨ ofList? v = none := by
  cases v with
  | null | bool b | int n | real literal | str s => exact .inl rfl
  | obj fields => exact .inr rfl
  | arr items =>
      cases hnode : ofJson? (.arr items) with
      | none => exact .inl rfl
      | some raw =>
          obtain ⟨tag, rest, rfl⟩ := exists_tag_of_ofJson? hnode
          exact .inr rfl

end RawNode

/-! ## Raw trees -/

namespace RawTree

inductive Fits : RawTree → Prop where
  | node {root : RawNode} (h : root.Fits) : Fits (.node root)
  | nodes {roots : List RawNode} (h : ∀ root ∈ roots, root.Fits) : Fits (.nodes roots)

theorem plain_toJson {tree : RawTree} (h : tree.Fits) : tree.toJson.Plain := by
  cases h with
  | node hroot => exact RawNode.plain_toJson hroot
  | nodes hroots =>
      exact RawNode.plain_toJsons fun root hroot => RawNode.plain_toJson (hroots root hroot)

/-- **The JSON form of a raw tree stands for that tree.** -/
theorem ofJson?_toJson {tree : RawTree} (h : tree.Fits) : ofJson? tree.toJson = some tree := by
  cases h with
  | node hroot =>
      rw [toJson, ofJson?, RawNode.ofJson?_toJson hroot, Option.map_some, Option.some_or]
  | @nodes roots hroots =>
      have hlist : RawNode.ofList? (.arr (RawNode.toJsons roots)) = some roots := by
        rw [RawNode.ofList?]
        exact RawNode.ofItems?_toJsons fun root hroot => RawNode.ofJson?_toJson (hroots root hroot)
      have hnode : RawNode.ofJson? (.arr (RawNode.toJsons roots)) = none :=
        (RawNode.ofJson?_eq_none_or_ofList?_eq_none _).resolve_right (by simp [hlist])
      rw [toJson, ofJson?, hnode, hlist, Option.map_none, Option.none_or, Option.map_some]

end RawTree

end ExprScript
