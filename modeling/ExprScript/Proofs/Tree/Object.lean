import ExprScript.Proofs.Source.Decimal
import ExprScript.Proofs.Tree.Shape
import ExprScript.Raw.Json
import ExprScript.Tree.Object

set_option autoImplicit false

/-! # What the JSON form of a tree tells

The JSON form of a program tree can be read again. `Node.ofObject?` looks the fields of an object up
by key, and what it gives back for the form of a tree is the shape of that tree
(`ofObject?_toObject`). So two trees have the same form exactly when they have the same shape.

JSON values are equal when they have the same keys with equal values, in whatever order these come
(`Json.SameValue`). The order is nothing that the reader sees (`ofObject?_congr`), so equal forms in
this sense belong to trees of one shape too. The main statement is `objects_tell_shapes`.
-/

namespace ExprScript

/-! ## Equality of JSON values -/

namespace Json

/-- The two values are equal, where the fields of an object are compared by key. -/
inductive SameValue : Json → Json → Prop
  | refl (v : Json) : SameValue v v
  | arr {xs ys : List Json} (length : xs.length = ys.length)
      (items : ∀ (i : Nat) (x y : Json), xs[i]? = some x → ys[i]? = some y → SameValue x y) :
      SameValue (.arr xs) (.arr ys)
  | obj {fs gs : List (String × Json)}
      (keys : ∀ key, (fs.lookup key).isSome = (gs.lookup key).isSome)
      (values : ∀ key v w, fs.lookup key = some v → gs.lookup key = some w → SameValue v w) :
      SameValue (.obj fs) (.obj gs)

/-- What is read from a value are neither its items nor its fields. -/
def ReadsScalars {α : Type} (read : Json → Option α) : Prop :=
  (∀ items, read (.arr items) = none) ∧ ∀ fields, read (.obj fields) = none

theorem SameValue.read_eq {α : Type} {read : Json → Option α} {v w : Json}
    (hread : ReadsScalars read) (h : SameValue v w) : read v = read w := by
  cases h with
  | refl => rfl
  | arr => rw [hread.1, hread.1]
  | obj => rw [hread.2, hread.2]

/-- Where both objects have a key or neither has, a field is read alike if its values are. -/
theorem bind_lookup_congr {α : Type} {read : Json → Option α} {fs gs : List (String × Json)}
    {key : String} (hkey : (fs.lookup key).isSome = (gs.lookup key).isSome)
    (hread : ∀ v w, fs.lookup key = some v → gs.lookup key = some w → read v = read w) :
    (fs.lookup key).bind read = (gs.lookup key).bind read := by
  cases hf : fs.lookup key with
  | none =>
      cases hg : gs.lookup key with
      | none => rfl
      | some w => simp [hf, hg] at hkey
  | some v =>
      cases hg : gs.lookup key with
      | none => simp [hf, hg] at hkey
      | some w => exact hread v w hf hg

def int? : Json → Option Int
  | .int n => some n
  | _ => none

theorem readsScalars_int : ReadsScalars int? := ⟨fun _ => rfl, fun _ => rfl⟩

theorem readsScalars_text : ReadsScalars text? := ⟨fun _ => rfl, fun _ => rfl⟩

theorem readsScalars_bool : ReadsScalars bool? := ⟨fun _ => rfl, fun _ => rfl⟩

end Json

/-! ## Reading a kind -/

namespace Kind

/-- The kind of a node of the given type, whose fields are found by `field`. -/
def ofFields? (type : NodeType) (field : String → Option Json) : Option Kind :=
  match type with
  | .integer => (((field "value").bind Json.int?).bind Decimal.toInt64?).map .integer
  | .string => ((field "value").bind Json.text?).map .string
  | .boolean => ((field "value").bind Json.bool?).map .boolean
  | .identifier => ((field "value").bind Json.text?).map .identifier
  | .binaryOperator => ((field "operator").bind Json.text?).map .binaryOperator
  | .variableDeclaration =>
    ((field "name").bind Json.text?).bind fun name =>
      ((field "mutable").bind Json.bool?).map (.variableDeclaration name)
  | .functionDeclaration => ((field "name").bind Json.text?).map .functionDeclaration
  | .program => some .program
  | .void => some .void
  | .array => some .array
  | .object => some .object
  | .objectProperty => some .objectProperty
  | .namedFunction => some .namedFunction
  | .anonymousFunction => some .anonymousFunction
  | .parameters => some .parameters
  | .arguments => some .arguments
  | .call => some .call
  | .binaryExpression => some .binaryExpression
  | .propertyAccess => some .propertyAccess
  | .returnExpression => some .returnExpression

/-- The fields of a kind tell it, among those that every node has. -/
theorem ofFields?_fields (k : Kind) (type children : Json) :
    ofFields? k.type
      (fun key => (("_type", type) :: ("children", children) :: k.fields).lookup key) = some k := by
  cases k <;>
    simp [ofFields?, Kind.type, fields, List.lookup_cons, Json.int?, Json.text?, Json.bool?,
      Decimal.toInt64?_toInt]

/-- A kind is told alike by fields with the same scalars. -/
theorem ofFields?_congr {f g : String → Option Json} (type : NodeType)
    (h : ∀ {α : Type} {read : Json → Option α}, Json.ReadsScalars read →
      ∀ key, (f key).bind read = (g key).bind read) : ofFields? type f = ofFields? type g := by
  have hint := h Json.readsScalars_int
  have htext := h Json.readsScalars_text
  have hbool := h Json.readsScalars_bool
  cases type <;> simp only [ofFields?, hint, htext, hbool]

end Kind

/-! ## Reading a tree -/

namespace Node

mutual

/-- The tree that the JSON form of a tree tells, without ids and spans. -/
def ofObject? : Json → Option Node
  | .obj fields => do
    let type ← ((fields.lookup "_type").bind Json.text?).bind NodeType.ofName?
    let kind ← Kind.ofFields? type fun key => fields.lookup key
    let children ← childrenIn? fields
    some ⟨0, kind, children, .empty⟩
  | _ => none

def childrenIn? : List (String × Json) → Option (List Node)
  | [] => none
  | (key, v) :: fields => if key = "children" then ofArray? v else childrenIn? fields

def ofArray? : Json → Option (List Node)
  | .arr items => ofObjects? items
  | _ => none

def ofObjects? : List Json → Option (List Node)
  | [] => some []
  | v :: vs => do
    let n ← ofObject? v
    let ns ← ofObjects? vs
    some (n :: ns)

end

theorem childrenIn?_eq (fields : List (String × Json)) :
    childrenIn? fields = (fields.lookup "children").bind ofArray? := by
  induction fields with
  | nil => rfl
  | cons f fields ih =>
      obtain ⟨key, v⟩ := f
      rw [childrenIn?, List.lookup_cons]
      by_cases hkey : key = "children"
      · simp [hkey]
      · have hne : ("children" == key) = false := by simpa using fun h => hkey h.symm
        rw [if_neg hkey, ih, hne]

theorem ofObject?_obj (fields : List (String × Json)) :
    ofObject? (.obj fields) =
      (((fields.lookup "_type").bind Json.text?).bind NodeType.ofName?).bind fun type =>
        (Kind.ofFields? type fun key => fields.lookup key).bind fun kind =>
          ((fields.lookup "children").bind ofArray?).bind fun children =>
            some ⟨0, kind, children, .empty⟩ := by
  rw [ofObject?, childrenIn?_eq]
  rfl

theorem toObjects_eq_map (ns : List Node) : toObjects ns = ns.map toObject := by
  induction ns with
  | nil => rfl
  | cons n ns ih => rw [toObjects, ih, List.map_cons]

theorem toObject_eq (n : Node) :
    n.toObject = .obj (("_type", .str n.kind.type.name) ::
      ("children", .arr (n.children.map toObject)) :: n.kind.fields) := by
  obtain ⟨id, kind, children, span⟩ := n
  rw [toObject, toObjects_eq_map]

theorem lookup_children (type children : Json) (fields : List (String × Json)) :
    (("_type", type) :: ("children", children) :: fields).lookup "children" = some children := by
  rw [List.lookup_cons, show ("children" == "_type") = false from rfl, List.lookup_cons_self]

theorem ofObject?_toObject_and :
    (∀ n : Node, ofObject? n.toObject = some n.shape) ∧
      ∀ ns : List Node, ofObjects? (ns.map toObject) = some (ns.map shape) := by
  refine forestInduction (fun n ih => ?_) rfl (fun n ns ihn ihns => ?_)
  · have hkind := n.kind.ofFields?_fields (.str n.kind.type.name) (.arr (n.children.map toObject))
    have hchildren : ofArray? (.arr (n.children.map toObject)) = some (n.children.map shape) := by
      rw [ofArray?, ih]
    rw [toObject_eq, ofObject?_obj, List.lookup_cons_self, lookup_children, Option.bind_some,
      Json.text?, Option.bind_some, NodeType.ofName?_name, Option.bind_some, hkind,
      Option.bind_some, Option.bind_some, hchildren, shape_eq]
    rfl
  · rw [List.map_cons, ofObjects?, ihn, ihns]
    rfl

/-- **The JSON form of a tree tells its shape.** -/
theorem ofObject?_toObject (n : Node) : ofObject? n.toObject = some n.shape :=
  ofObject?_toObject_and.1 n

theorem ofObjects?_congr {vs ws : List Json} (h : vs.map ofObject? = ws.map ofObject?) :
    ofObjects? vs = ofObjects? ws := by
  induction vs generalizing ws with
  | nil =>
      obtain rfl : ws = [] := by simpa using h
      rfl
  | cons v vs ih =>
      cases ws with
      | nil => simp at h
      | cons w ws =>
          rw [List.map_cons, List.map_cons] at h
          obtain ⟨hv, hvs⟩ := List.cons.inj h
          rw [ofObjects?, ofObjects?, hv, ih hvs]

/-- Equal values tell the same tree, and the same list of trees. -/
theorem ofObject?_congr {v w : Json} (h : Json.SameValue v w) :
    ofObject? v = ofObject? w ∧ ofArray? v = ofArray? w := by
  induction h with
  | refl v => exact ⟨rfl, rfl⟩
  | @arr xs ys hlength _ ih =>
      refine ⟨rfl, ofObjects?_congr ?_⟩
      apply List.ext_getElem
      · simpa using hlength
      · intro i hi hi'
        rw [List.length_map] at hi hi'
        rw [List.getElem_map, List.getElem_map]
        exact (ih i _ _ (List.getElem?_eq_getElem hi) (List.getElem?_eq_getElem hi')).1
  | @obj fs gs hkeys hvalues ih =>
      refine ⟨?_, rfl⟩
      have hscalar : ∀ {α : Type} {read : Json → Option α}, Json.ReadsScalars read →
          ∀ key, (fs.lookup key).bind read = (gs.lookup key).bind read := by
        intro α read hread key
        apply Json.bind_lookup_congr (hkeys key)
        intro v w hv hw
        exact (hvalues key v w hv hw).read_eq hread
      -- the children are no scalar: for them the two arrays have to be read alike
      have hchildren :
          (fs.lookup "children").bind ofArray? = (gs.lookup "children").bind ofArray? := by
        apply Json.bind_lookup_congr (hkeys "children")
        intro v w hv hw
        exact (ih "children" v w hv hw).2
      rw [ofObject?_obj, ofObject?_obj, hscalar Json.readsScalars_text "_type", hchildren]
      congr 1
      funext type
      rw [Kind.ofFields?_congr type hscalar]

/-! ## Comparing trees -/

theorem toObject_shape (n : Node) : n.shape.toObject = n.toObject := by
  induction n using childrenInduction with
  | step n ih =>
      rw [toObject_eq, toObject_eq, shape_children, shape_kind, List.map_map]
      congr 5
      exact List.map_congr_left ih

theorem toObject_eq_of_shape {a b : Node} (h : a.shape = b.shape) : a.toObject = b.toObject := by
  calc a.toObject
      = a.shape.toObject := (toObject_shape a).symm
    _ = b.shape.toObject := by rw [h]
    _ = b.toObject := toObject_shape b

theorem shape_eq_of_sameValue {a b : Node} (h : Json.SameValue a.toObject b.toObject) :
    a.shape = b.shape := by
  have hread := (ofObject?_congr h).1
  rw [ofObject?_toObject, ofObject?_toObject] at hread
  exact Option.some.inj hread

/-- **The JSON form of a tree tells its shape and nothing else.** Trees are of the same shape
exactly when their forms are equal, whether or not the order of fields counts. So to be of the same
shape is an equivalence, and a tree can be read back from its form but for its ids and spans. -/
theorem objects_tell_shapes :
    (∀ a b : Node, a.sameShape b = true ↔ a.toObject = b.toObject) ∧
      (∀ a b : Node, a.sameShape b = true ↔ Json.SameValue a.toObject b.toObject) ∧
      Equivalence (fun a b : Node => a.sameShape b = true) ∧
      ∀ n : Node, ofObject? n.toObject = some n.shape := by
  refine ⟨fun a b => ?_, fun a b => ?_, ⟨fun a => ?_, fun {a b} h => ?_, fun {a b c} h h' => ?_⟩,
    ofObject?_toObject⟩
  · rw [sameShape_iff_shape]
    constructor
    · exact toObject_eq_of_shape
    · intro h
      apply shape_eq_of_sameValue
      rw [h]
      exact .refl _
  · rw [sameShape_iff_shape]
    constructor
    · intro h
      rw [toObject_eq_of_shape h]
      exact .refl _
    · exact shape_eq_of_sameValue
  · exact sameShape_iff_shape.2 rfl
  · exact sameShape_iff_shape.2 (sameShape_iff_shape.1 h).symm
  · exact sameShape_iff_shape.2 ((sameShape_iff_shape.1 h).trans (sameShape_iff_shape.1 h'))

end Node

end ExprScript
