import ExprScript.Proofs.Json.Literals

set_option autoImplicit false

/-! # JSON texts with any spacing

`Json.spell` is the text of a value, where a `Spacing` says what stands at each line break and
behind each colon. The printer spaces its texts in one way (`toList_pretty`), and texts without any
space are another. A value is *plain* when its numbers are integers of 64 bits (`Json.Plain`).
-/

namespace ExprScript.Json

/-! ## Values and their parts -/

/-- The values inside a value. -/
def parts : Json → List Json
  | .arr items => items
  | .obj fields => fields.map Prod.snd
  | .null | .bool _ | .int _ | .real _ | .str _ => []

/-- Induction over a value: what passes from the values inside it to the value holds of every
value. -/
theorem partsInduction {P : Json → Prop} (step : ∀ v : Json, (∀ x ∈ v.parts, P x) → P v)
    (v : Json) : P v := by
  refine step v fun x hx => ?_
  have hlt : sizeOf x < sizeOf v := by
    cases v with
    | arr items =>
        have hitem := List.sizeOf_lt_of_mem (show x ∈ items from hx)
        simp only [arr.sizeOf_spec]
        omega
    | obj fields =>
        obtain ⟨⟨key, y⟩, hmem, rfl⟩ := List.mem_map.1 (show x ∈ fields.map Prod.snd from hx)
        have hfield := List.sizeOf_lt_of_mem hmem
        simp only [obj.sizeOf_spec, Prod.mk.sizeOf_spec] at hfield ⊢
        omega
    | _ => cases hx
  exact partsInduction step x
termination_by sizeOf v

/-- Every number in the value is an integer of 64 bits. -/
inductive Plain : Json → Prop where
  | null : Plain .null
  | bool (b : Bool) : Plain (.bool b)
  | int {n : Int} (h : n.natAbs < UInt64.size) : Plain (.int n)
  | str (s : String) : Plain (.str s)
  | arr {xs : List Json} (h : ∀ x ∈ xs, Plain x) : Plain (.arr xs)
  | obj {fs : List (String × Json)} (h : ∀ f ∈ fs, Plain f.2) : Plain (.obj fs)

mutual

/-- How deep arrays and objects are nested in a value. -/
def nesting : Json → Nat
  | .arr items => nestings items + 1
  | .obj fields => nestingOfFields fields + 1
  | .null | .bool _ | .int _ | .real _ | .str _ => 0

def nestings : List Json → Nat
  | [] => 0
  | x :: xs => max (nesting x) (nestings xs)

def nestingOfFields : List (String × Json) → Nat
  | [] => 0
  | (_, x) :: fs => max (nesting x) (nestingOfFields fs)

end

/-! ## Texts -/

/-- What stands between the words of a text: at a line break at each level, and behind a colon. -/
structure Spacing where
  line : Nat → List Char
  colon : List Char
  line_space : ∀ level, ∀ c ∈ line level, isSpace c = true
  colon_space : ∀ c ∈ colon, isSpace c = true

namespace Spacing

def compact : Spacing := ⟨fun _ => [], [], by simp, by simp⟩

def indented : Spacing where
  line level := (newline level).toList
  colon := [' ']
  line_space level c hc := by
    rw [newline, String.toList_append, String.toList_join, List.mem_append, List.mem_flatMap] at hc
    rcases hc with hc | ⟨t, ht, hc⟩
    · obtain rfl : c = '\n' := by simpa using hc
      rfl
    · obtain rfl := List.eq_of_mem_replicate ht
      obtain rfl : c = ' ' := by simpa using hc
      rfl
  colon_space c hc := by
    obtain rfl := List.mem_singleton.1 hc
    rfl

end Spacing

mutual

/-- The text of a value that begins at the given level. -/
def spell (sp : Spacing) (level : Nat) : Json → List Char
  | .null => "null".toList
  | .bool b => (if b then "true" else "false").toList
  | .int n => (toString n).toList
  | .real literal => literal.toList
  | .str s => (quote s).toList
  | .arr [] => ['[', ']']
  | .arr (x :: xs) =>
    '[' :: (sp.line (level + 1) ++ (spell sp (level + 1) x ++ (spellItems sp (level + 1) xs ++
      (sp.line level ++ [']']))))
  | .obj [] => ['\x7b', '\x7d']
  | .obj ((k, x) :: fs) =>
    '\x7b' :: (sp.line (level + 1) ++ ((quote k).toList ++ (':' :: (sp.colon ++
      (spell sp (level + 1) x ++ (spellFields sp (level + 1) fs ++ (sp.line level ++ ['\x7d'])))))))

def spellItems (sp : Spacing) (level : Nat) : List Json → List Char
  | [] => []
  | x :: xs => ',' :: (sp.line level ++ (spell sp level x ++ spellItems sp level xs))

def spellFields (sp : Spacing) (level : Nat) : List (String × Json) → List Char
  | [] => []
  | (k, x) :: fs =>
    ',' :: (sp.line level ++ ((quote k).toList ++ (':' :: (sp.colon ++
      (spell sp level x ++ spellFields sp level fs)))))

end

/-! ## The printer -/

/-- The printer writes the value with indented lines. -/
def PrintsIndented (v : Json) : Prop :=
  ∀ level, (prettyAt level v).toList = spell .indented level v

theorem toList_prettyItems {xs : List Json} (h : ∀ x ∈ xs, PrintsIndented x) (level : Nat) :
    (prettyItems level xs).toList = spellItems .indented level xs := by
  induction xs with
  | nil => rfl
  | cons x xs ih =>
      obtain ⟨hx, hxs⟩ := List.forall_mem_cons.1 h
      simp only [prettyItems, spellItems, String.toList_append, hx level, ih hxs,
        List.append_assoc]
      rfl

theorem toList_prettyFields {fs : List (String × Json)} (h : ∀ f ∈ fs, PrintsIndented f.2)
    (level : Nat) : (prettyFields level fs).toList = spellFields .indented level fs := by
  induction fs with
  | nil => rfl
  | cons f fs ih =>
      obtain ⟨k, x⟩ := f
      obtain ⟨hx, hfs⟩ := List.forall_mem_cons.1 h
      have hvalue : (prettyAt level x).toList = spell .indented level x := hx level
      simp only [prettyFields, spellFields, String.toList_append, hvalue, ih hfs,
        List.append_assoc]
      rfl

theorem printsIndented (v : Json) : PrintsIndented v := by
  induction v using partsInduction with
  | step v ih =>
      intro level
      cases v with
      | null | bool b | int n | real literal | str s => rfl
      | arr items =>
          obtain _ | ⟨x, xs⟩ := items
          · rw [prettyAt, spell]
            rfl
          · obtain ⟨hx, hxs⟩ := List.forall_mem_cons.1 ih
            simp only [prettyAt, spell, String.toList_append, hx (level + 1),
              toList_prettyItems hxs (level + 1), List.append_assoc]
            rfl
      | obj fields =>
          obtain _ | ⟨⟨k, x⟩, fs⟩ := fields
          · rw [prettyAt, spell]
            rfl
          · obtain ⟨hx, hfs⟩ := List.forall_mem_cons.1 ih
            have hvalues : ∀ f ∈ fs, PrintsIndented f.2 :=
              fun f hf => hfs f.2 (List.mem_map_of_mem hf)
            simp only [prettyAt, spell, String.toList_append, hx (level + 1),
              toList_prettyFields hvalues (level + 1), List.append_assoc]
            rfl

theorem toList_pretty (v : Json) : v.pretty.toList = spell .indented 0 v := printsIndented v 0

end ExprScript.Json
