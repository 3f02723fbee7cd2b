import ExprScript.Proofs.Compile
import ExprScript.Proofs.Raw.Parse

set_option autoImplicit false

/-! # Scripts that are programs again

The script of an expression without functions and `void` is itself the text of a program. What
is read back from it is the same tree, but for the values of strings: between single quotes some
characters are written as escapes, and a value is kept as it is written (`Node.requote`).

The script of each node is read back by the rule for it, whatever follows (`ReadBack`). This
passes from the children of a node to the node: the induction is `readBack_of_render`.
-/

namespace ExprScript

open Grammar Rule

/-! ## Values as they are written between quotes -/

/-- What stands between the quotes of a quoted value. -/
def quotedContent (value : String) : String := String.ofList (quote value).toList.tail.dropLast

theorem quotedContent_eq (value : String) :
    quotedContent value = String.ofList (quoteChars value.toList) := by
  rw [quotedContent, quote, String.toList_ofList, List.cons_append, List.tail_cons,
    List.dropLast_concat]

/-- A string has the value that stands between the quotes of its script. -/
def Kind.requote : Kind → Kind
  | .string value => .string (quotedContent value)
  | kind => kind

namespace Node

mutual

/-- The tree in which every string has the value that stands between the quotes of its
script. -/
def requote : Node → Node
  | ⟨id, kind, children, span⟩ => ⟨id, kind.requote, requoteAll children, span⟩

def requoteAll : List Node → List Node
  | [] => []
  | n :: ns => requote n :: requoteAll ns

end

theorem requoteAll_eq_map (ns : List Node) : requoteAll ns = ns.map requote := by
  induction ns with
  | nil => rfl
  | cons n ns ih => rw [requoteAll, ih, List.map_cons]

theorem requote_mk (i : Nat) (kind : Kind) (ns : List Node) (span : Span) :
    requote ⟨i, kind, ns, span⟩ = ⟨i, kind.requote, ns.map requote, span⟩ := by
  rw [requote, requoteAll_eq_map]

@[simp] theorem requote_type (n : Node) : n.requote.type = n.type := by
  obtain ⟨i, kind, ns, span⟩ := n
  rw [requote]
  -- `rfl` would compare the two values of a string before it looks at the types
  cases kind <;> simp only [type, Kind.requote, Kind.type]

theorem requote_arguments {n : Node} (h : n.type = .arguments) :
    n.requote = ⟨n.id, .arguments, n.children.map requote, n.span⟩ := by
  obtain ⟨i, kind, ns, span⟩ := n
  cases kind <;> simp [type, Kind.type] at h
  rw [requote_mk]
  rfl

/-- New values change nothing about which children a node needs. -/
theorem Shaped.requote {n : Node} (h : n.Shaped) : n.requote.Shaped := by
  induction h with
  | @intro n own _ ih =>
      obtain ⟨i, kind, ns, span⟩ := n
      have htypes : (ns.map Node.requote).map type = ns.map type := by simp
      refine .intro ?_ ?_
      · rw [requote_type, requote_mk]
        show (Node.type ⟨i, kind, ns, span⟩).shapeFault? ((ns.map Node.requote).map type) = none
        rw [htypes]
        exact own
      · rw [requote_mk]
        intro c hc
        obtain ⟨c', hc', rfl⟩ := List.mem_map.1 hc
        exact ih c' hc'

end Node

/-! ## Scripts that are read back -/

/-- The script of a node is read back by the rule for nodes of its type. An expression is read
back also where it is an operand. -/
def ReadBack (n : Node) (p : Piece) : Prop :=
  match n.type with
  | .arguments => ReadsList .expression p.text.toList (n.children.map Node.requote)
  | .objectProperty => ReadsAs .objectProperty EndsExpression p.text.toList n.requote
  | t => t.isExpression = true →
      ReadsExpression p.text.toList n.requote ∧ ReadsOperand p.operand.toList n.requote

theorem readBack_iff_of_isExpression {n : Node} {p : Piece} (ht : n.type.isExpression = true) :
    ReadBack n p ↔
      ReadsExpression p.text.toList n.requote ∧ ReadsOperand p.operand.toList n.requote := by
  rw [ReadBack]
  split
  · rename_i htype
    rw [htype] at ht
    simp [NodeType.isExpression] at ht
  · rename_i htype
    rw [htype] at ht
    simp [NodeType.isExpression] at ht
  · exact ⟨fun h => h ht, fun h _ => h⟩

theorem ReadBack.expression {n : Node} {p : Piece} (h : ReadBack n p)
    (ht : n.type.isExpression = true) :
    ReadsExpression p.text.toList n.requote ∧ ReadsOperand p.operand.toList n.requote :=
  (readBack_iff_of_isExpression ht).1 h

theorem ReadBack.property {n : Node} {p : Piece} (h : ReadBack n p)
    (ht : n.type = .objectProperty) :
    ReadsAs .objectProperty EndsExpression p.text.toList n.requote := by
  rwa [ReadBack, ht] at h

theorem ReadBack.arguments {n : Node} {p : Piece} (h : ReadBack n p) (ht : n.type = .arguments) :
    ReadsList .expression p.text.toList (n.children.map Node.requote) := by
  rwa [ReadBack, ht] at h

/-- A child that the grammar allows, with its script, which is read back. -/
structure RendersBack (indent : String) (c : Node) (q : Piece) : Prop where
  render : c.render? indent = some q
  grammatical : c.Grammatical
  back : ReadBack c q

section

variable {indent : String} {c : Node} {q : Piece}

/-- The script of an identifier is its name. -/
theorem RendersBack.names (h : RendersBack indent c q) (ht : c.type = .identifier) :
    Names q.text c.requote := by
  obtain ⟨i, kind, ns, span⟩ := c
  cases kind <;> simp [Node.type, Kind.type] at ht
  case identifier name =>
    obtain ⟨hnil, hname⟩ := h.grammatical.fits
    obtain ⟨ps, text, -, htext, rfl⟩ := Node.render?_eq_some_iff.1 h.render
    obtain rfl := Option.some.inj htext
    obtain rfl := List.map_eq_nil_iff.1 hnil
    exact ⟨hname, rfl, rfl⟩

/-- The script of an operator is the operator. -/
theorem RendersBack.operator (h : RendersBack indent c q) (ht : c.type = .binaryOperator) :
    ∃ o ∈ operators, q.operand = o ∧ c.requote.kind = .binaryOperator o ∧
      c.requote.children = [] := by
  obtain ⟨i, kind, ns, span⟩ := c
  cases kind <;> simp [Node.type, Kind.type] at ht
  case binaryOperator o =>
    obtain ⟨hnil, ho⟩ := h.grammatical.fits
    obtain ⟨ps, text, -, htext, rfl⟩ := Node.render?_eq_some_iff.1 h.render
    obtain rfl := Option.some.inj htext
    obtain rfl := List.map_eq_nil_iff.1 hnil
    exact ⟨o, ho, rfl, rfl, rfl⟩

end

/-! ## Lists and operators -/

/-- Scripts of items with commas between them are a row of items. -/
theorem readsRow_joined {item : Rule} {sep : String} (pad : List Char)
    (hsep : sep.toList = ',' :: pad) (hpad : ∀ x ∈ pad, Layout.isSpace x = true)
    {cs : List Node} {ps : List Piece} {c : Node} {q : Piece}
    (h : ReadsAs item EndsExpression q.text.toList c.requote)
    (hs : List.Forall₂ (fun c q => ReadsAs item EndsExpression q.text.toList c.requote) cs ps) :
    ReadsRow item EndsExpression (.lit ",") (Piece.joined sep (q :: ps)).toList
      ((c :: cs).map Node.requote) := by
  induction hs generalizing c q with
  | nil =>
      rw [Piece.joined, List.map_singleton, String.intercalate_singleton]
      exact .last h
  | @cons c' q' cs ps h' _ ih =>
      have htext : (Piece.joined sep (q :: q' :: ps)).toList =
          q.text.toList ++ ((',' :: pad) ++ (Piece.joined sep (q' :: ps)).toList) := by
        rw [Piece.joined, List.map_cons, List.map_cons, String.intercalate_cons_cons,
          String.toList_append, String.toList_append, hsep, List.append_assoc]
        rfl
      rw [htext]
      exact .next h (readsMark_comma hpad) (ih h')

theorem readsList_joined {item : Rule} {sep : String} (pad : List Char)
    (hsep : sep.toList = ',' :: pad) (hpad : ∀ x ∈ pad, Layout.isSpace x = true)
    {cs : List Node} {ps : List Piece}
    (hs : List.Forall₂ (fun c q => ReadsAs item EndsExpression q.text.toList c.requote) cs ps) :
    ReadsList item (Piece.joined sep ps).toList (cs.map Node.requote) := by
  cases hs with
  | nil => exact .inl ⟨by simp [Piece.joined], rfl⟩
  | cons h hs => exact .inr (readsRow_joined pad hsep hpad h hs)

/-- What all children of a type are read as. -/
theorem forall_readsAs {indent : String} {item : Rule} {T : NodeType → Prop}
    (each : ∀ {c q}, RendersBack indent c q → T c.type →
      ReadsAs item EndsExpression q.text.toList c.requote)
    {cs : List Node} {ps : List Piece} (h : List.Forall₂ (RendersBack indent) cs ps)
    (ht : ∀ t ∈ cs.map Node.type, T t) :
    List.Forall₂ (fun c q => ReadsAs item EndsExpression q.text.toList c.requote) cs ps := by
  have htypes : ∀ c ∈ cs, T c.type := fun c hc => ht _ (List.mem_map_of_mem hc)
  exact ((List.forall₂_and_left cs ps).2 ⟨htypes, h⟩).imp fun c q ⟨hc, hq⟩ => each hq hc

/-- Scripts of operands and operators in turn are read back as they are. -/
theorem readsOperands_of_alternate {indent : String} {cs : List Node} {ps : List Piece}
    (h : List.Forall₂ (RendersBack indent) cs ps) (halt : NodeType.Alternate (cs.map Node.type)) :
    ReadsOperands (" ".intercalate (ps.map Piece.operand)).toList (cs.map Node.requote) := by
  match cs, ps, h, halt with
  | [c], [q], .cons hc .nil, halt =>
      rw [List.map_singleton, String.intercalate_singleton]
      exact .last (hc.back.expression halt).2.readsAs
  | c :: m :: cs, q :: r :: ps, .cons hc (.cons hm hcs), halt =>
      obtain ⟨hexpression, hoperator, hrest⟩ := halt
      have hne : ps.map Piece.operand ≠ [] := by
        intro hnil
        obtain rfl := List.map_eq_nil_iff.1 hnil
        cases hcs
        exact hrest
      -- between two operands stands an operator with a space on either side
      obtain ⟨o, ho, htext, hkind, hchildren⟩ := hm.operator hoperator
      rw [List.map_cons, List.map_cons, toList_intercalate_operand _ _ hne, htext]
      exact .next (hc.back.expression hexpression).2.readsAs
        (readsMark_operator ho hkind hchildren) (readsOperands_of_alternate hcs hrest)

theorem readsBinary_of_alternate {indent : String} {cs : List Node} {ps : List Piece}
    (h : List.Forall₂ (RendersBack indent) cs ps) (halt : NodeType.Alternate (cs.map Node.type))
    (hlen : 3 ≤ cs.length) :
    ReadsBinary (" ".intercalate (ps.map Piece.operand)).toList (cs.map Node.requote) := by
  refine ⟨readsOperands_of_alternate h halt, ?_, by rw [List.length_map]; omega⟩
  match cs, ps, h, halt with
  | [c], _, _, _ => simp at hlen
  | [c, m], _, _, _ => simp at hlen
  | c :: m :: c' :: cs, q :: r :: q' :: ps, .cons hc (.cons hm _), halt =>
      obtain ⟨o, ho, htext, -, -⟩ := hm.operator halt.2.1
      have hfirst := (hc.back.expression halt.1).2
      refine ⟨q.operand.toList, (" ".intercalate ((q' :: ps).map Piece.operand)).toList, o,
        hfirst.opens, hfirst.leads, ho, ?_⟩
      rw [List.map_cons, List.map_cons, toList_intercalate_operand _ _ (by simp), htext]
      simp

/-! ## Every node -/

/-- The scripts that are operands as they are. -/
theorem readBack_of_operand {n : Node} {p : Piece} (hp : p.isCompound = false)
    (h : ReadsOperand p.text.toList n.requote) (ht : n.type.isExpression = true) :
    ReadBack n p := by
  have hoperand : p.operand = p.text := by simp [Piece.operand, hp]
  rw [readBack_iff_of_isExpression ht, hoperand]
  exact ⟨h.expression, h⟩

/-- **The script of a node is read back when the scripts of its children are.** -/
theorem readBack_of_children {indent : String} {n : Node} (hg : n.Grammatical)
    (hvoid : n.type ≠ .void) (hfunction : n.type ≠ .anonymousFunction) {ps : List Piece}
    {text : String} (hps : List.Forall₂ (RendersBack indent) n.children ps)
    (htext : n.kind.assemble? indent ps = some text) (std : Bool) :
    ReadBack n ⟨n.kind, text, std⟩ := by
  obtain ⟨i, kind, ns, span⟩ := n
  have hfits := hg.fits
  have expressions (hall : ∀ t ∈ ns.map Node.type, t.isExpression = true) :
      List.Forall₂ (fun c q => ReadsAs .expression EndsExpression q.text.toList c.requote) ns ps :=
    forall_readsAs (fun hc ht => (hc.back.expression ht).1.toReadsAs) hps hall
  cases kind with
  | integer v =>
      obtain rfl := List.map_eq_nil_iff.1 hfits
      obtain rfl := Option.some.inj htext
      exact readBack_of_operand rfl (readsOperand_integer v) rfl
  | string v =>
      obtain rfl := List.map_eq_nil_iff.1 hfits.1
      obtain rfl := Option.some.inj htext
      refine readBack_of_operand rfl ?_ rfl
      rw [Node.requote_mk, Kind.requote, quotedContent_eq]
      exact readsOperand_string hfits.2
  | boolean v =>
      obtain rfl := List.map_eq_nil_iff.1 hfits
      obtain rfl := Option.some.inj htext
      exact readBack_of_operand rfl (readsOperand_boolean v) rfl
  | void => exact absurd rfl hvoid
  | identifier name =>
      obtain rfl := List.map_eq_nil_iff.1 hfits.1
      obtain rfl := Option.some.inj htext
      exact readBack_of_operand rfl (readsOperand_identifier hfits.2) rfl
  | anonymousFunction => exact absurd rfl hfunction
  | array =>
      obtain rfl := Option.some.inj htext
      refine readBack_of_operand rfl ?_ rfl
      rw [Node.requote_mk, String.toList_append, String.toList_append]
      exact readsOperand_array (readsList_joined [] rfl (by simp) (expressions hfits)) i span
  | object =>
      -- the braces of an empty object have no space between them
      refine readBack_of_operand rfl ?_ rfl
      rw [Node.requote_mk]
      cases hps with
      | nil =>
          obtain rfl := Option.some.inj htext
          have hobject := readsOperand_object [] (by simp) (.inl ⟨rfl, rfl⟩) i span
          simpa [Kind.requote] using hobject
      | @cons c q cs qs hc hcs =>
          obtain rfl := Option.some.inj htext
          have hlist : ReadsList .objectProperty (Piece.joined ", " (q :: qs)).toList
              ((c :: cs).map Node.requote) :=
            readsList_joined [' '] rfl (List.forall_mem_singleton.2 rfl)
              (forall_readsAs (fun hc ht => hc.back.property ht) (.cons hc hcs) hfits)
          have hobject := readsOperand_object [' '] (List.forall_mem_singleton.2 rfl) hlist i span
          simpa [Kind.requote, String.toList_append] using hobject
  | objectProperty =>
      obtain ⟨t, htypes, ht⟩ := hfits
      obtain ⟨c, c', q, q', rfl, rfl, hc, hc', hname, rfl⟩ := exists_pair htypes hps
      obtain rfl := Option.some.inj htext
      have hproperty := (hc'.back.expression ht).1.property (hc.names hname) i span
      show ReadsAs .objectProperty EndsExpression _ (Node.requote _)
      rw [Node.requote_mk]
      simpa [Kind.requote, String.toList_append] using hproperty
  | arguments =>
      obtain rfl := Option.some.inj htext
      exact readsList_joined [' '] rfl (List.forall_mem_singleton.2 rfl) (expressions hfits)
  | call =>
      obtain ⟨t, htypes, ht⟩ := hfits
      obtain ⟨c, c', q, q', rfl, rfl, hc, hc', rfl, harguments⟩ := exists_pair htypes hps
      obtain rfl := Option.some.inj htext
      refine readBack_of_operand rfl ?_ rfl
      have hcall := (hc.back.expression ht).2.call (hc'.back.arguments harguments) i c'.id span
        c'.span
      rw [← Node.requote_arguments harguments] at hcall
      rw [Node.requote_mk]
      simpa [Kind.requote, String.toList_append] using hcall
  | binaryExpression =>
      -- the one kind whose script is not an operand as it is
      obtain rfl := Option.some.inj htext
      obtain ⟨hlen, halt⟩ := hfits
      have hbinary := readsBinary_of_alternate hps halt (by rwa [List.length_map] at hlen)
      intro _
      rw [Node.requote_mk]
      refine ⟨hbinary.expression i span, ?_⟩
      have hoperand := hbinary.operand i span
      show ReadsOperand ("(" ++ " ".intercalate (ps.map Piece.operand) ++ ")").toList _
      rw [String.toList_append, String.toList_append]
      exact hoperand
  | propertyAccess =>
      obtain ⟨t, htypes, ht⟩ := hfits
      obtain ⟨c, c', q, q', rfl, rfl, hc, hc', rfl, hname⟩ := exists_pair htypes hps
      obtain rfl := Option.some.inj htext
      refine readBack_of_operand rfl ?_ rfl
      have haccess := (hc.back.expression ht).2.access (hc'.names hname) i span
      rw [Node.requote_mk]
      simpa [Kind.requote, String.toList_append] using haccess
  | program => nofun
  | variableDeclaration name isMutable => nofun
  | functionDeclaration name => nofun
  | namedFunction => nofun
  | parameters => nofun
  | binaryOperator o => nofun
  | returnExpression => nofun

/-- Every node of the tree is something that source and script write alike. -/
def Node.isShared (n : Node) : Bool :=
  n.postorder.all fun m => m.type != .void && m.type != .anonymousFunction

/-- **The script of every node is read back.** -/
theorem readBack_of_render {indent : String} {n : Node} {p : Piece} (hg : n.Grammatical)
    (hshared : n.isShared = true) (h : n.render? indent = some p) : ReadBack n p := by
  induction n using Node.childrenInduction generalizing p with
  | step n ih =>
      obtain ⟨ps, text, hps, htext, rfl⟩ := Node.render?_eq_some_iff.1 h
      rw [Node.isShared, Node.postorder_eq, List.all_append, List.all_flatMap,
        Bool.and_eq_true] at hshared
      obtain ⟨hbelow, hself⟩ := hshared
      -- each script stands next to the child it is the script of
      have hchildren : List.Forall₂ (RendersBack indent) n.children ps := by
        have hmem := (List.forall₂_and_left n.children ps).2 ⟨fun c hc => hc, hps⟩
        refine hmem.imp fun c q ⟨hc, hq⟩ => ?_
        exact ⟨hq, hg.child hc, ih c hc (hg.child hc) (List.all_eq_true.1 hbelow c hc) hq⟩
      have hkinds : n.type ≠ .void ∧ n.type ≠ .anonymousFunction := by simpa using hself
      exact readBack_of_children hg hkinds.1 hkinds.2 hchildren htext _

/-- The script of a program of one statement is the script of that statement. -/
theorem Generator.exists_render_program {g : Generator} {e : Node} {piece : Piece}
    (h : e.render? g.indent = some piece) (i : Nat) (span : Span) :
    ∃ g', g.render? ⟨i, .program, [e], span⟩ = some (piece.text, g') := by
  have hprogram : Node.render? g.indent ⟨i, .program, [e], span⟩ =
      some ⟨.program, piece.text, false || [piece].any (·.usesStd)⟩ :=
    Node.render?_eq_some_iff.2 ⟨[piece], piece.text, .cons h .nil, rfl, rfl⟩
  rw [Generator.render?, hprogram]
  exact ⟨_, rfl⟩

/-- Programs of one statement, an expression that source and script write alike: there is no
function and no void in it. -/
def Node.isSharedExpression (p : Node) : Bool :=
  match p.children with
  | [e] => e.type.isExpression && e.isShared
  | _ => false

/-- **Generation is undone by parsing** where the program is one expression without functions and
`void`: the script is parsed and built, and gives the tree of the program up to ids and spans,
with each string as its value is written between the quotes of the script. -/
theorem build_parse_script {source : String} {raw : RawNode} {p : Node}
    (hparse : parse source = .ok raw) (hbuild : Node.build raw = .ok p)
    (hshared : p.isSharedExpression = true) (g : Generator) :
    ∃ text g' raw' p', g.render? p = some (text, g') ∧ parse text = .ok raw' ∧
      Node.build raw' = .ok p' ∧ p'.sameShape p.requote = true := by
  obtain ⟨hg, hshaped, hkind⟩ := grammatical_of_parse hparse hbuild
  obtain ⟨i, kind, ns, span⟩ := p
  obtain rfl : kind = .program := hkind
  match ns, hshared with
  | [e], hshared =>
      obtain ⟨he, hall⟩ := Bool.and_eq_true_iff.1 hshared
      have hmem : e ∈ [e] := List.mem_singleton_self e
      obtain ⟨piece, hpiece⟩ := Node.exists_render_of_shaped (hshaped.child hmem) g.indent
      have hback := readBack_of_render (hg.child hmem) hall hpiece
      obtain ⟨g', hrender⟩ := Generator.exists_render_program hpiece i span
      obtain ⟨raw', hraw', hdescribes⟩ := parse_of_readsExpression (hback.expression he).1 i span
      obtain ⟨p', hp', hsame⟩ := Node.build_of_describes hdescribes hshaped.requote
      exact ⟨piece.text, g', raw', p', hrender, hraw', hp', hsame⟩

/-- An expression with a group, a negative literal, a chain of suffixes, an array, two objects and
a quote within a string. -/
def nestedExpression : String := "\x7b a: (f - -1) * [x.y(2, \"it's\")(), true], b: \x7b\x7d \x7d.a"

theorem build_parse_script_nestedExpression :
    ∃ raw p, parse nestedExpression = .ok raw ∧ Node.build raw = .ok p ∧
      p.isSharedExpression = true ∧
      ∃ text g' raw' p', Generator.render? {} p = some (text, g') ∧ parse text = .ok raw' ∧
        Node.build raw' = .ok p' ∧ p'.sameShape p.requote = true := by
  have h : ((parse nestedExpression).toOption.bind fun raw => (Node.build raw).toOption).any
      Node.isSharedExpression = true := by decide +kernel
  cases hparse : parse nestedExpression with
  | error e => simp [hparse, Except.toOption] at h
  | ok raw =>
      cases hbuild : Node.build raw with
      | error e => simp [hparse, hbuild, Except.toOption] at h
      | ok p =>
          have hshared : p.isSharedExpression = true := by
            simpa [hparse, hbuild, Except.toOption] using h
          exact ⟨raw, p, rfl, hbuild, hshared, build_parse_script hparse hbuild hshared {}⟩

end ExprScript
