import ExprScript.Proofs.Json.Spelling

set_option autoImplicit false

/-! # Spelled values are read back

The reader takes the text of a plain value, in any spacing, and gives that value with the text
behind it, if arrays and objects are nested no deeper than allowed, and nothing otherwise
(`readsBack`). Two units of fuel for each character of the text are enough. So a text is read as
its value exactly if the value is nested no deeper than `maxDepth` (`read?_spell`).
-/

namespace ExprScript.Json

variable {sp : Spacing} {v x : Json} {c : Char} {cs ds pad rest : List Char} {n depth level : Nat}

/-! ## Space and first characters -/

theorem skipSpace_append (hpad : ∀ c ∈ pad, isSpace c = true) (cs : List Char) :
    skipSpace (pad ++ cs) = skipSpace cs :=
  List.dropWhile_append_of_pos hpad

theorem skipSpace_cons (hc : isSpace c = false) (cs : List Char) :
    skipSpace (c :: cs) = c :: cs :=
  List.dropWhile_cons_of_neg (by simp [hc])

theorem ne_of_isDigit (hc : c.isDigit = true) {d : Char} (hd : d.isDigit = false) : c ≠ d := by
  rintro rfl
  rw [hc] at hd
  cases hd

/-- The text begins with a character that neither is a space nor closes an array or object. -/
def Opens (cs : List Char) : Prop :=
  ∃ c ds, cs = c :: ds ∧ isSpace c = false ∧ c ≠ ']' ∧ c ≠ '\x7d'

theorem Opens.append (h : Opens cs) (ds : List Char) : Opens (cs ++ ds) := by
  obtain ⟨c, cs, rfl, hc⟩ := h
  exact ⟨c, cs ++ ds, rfl, hc⟩

theorem Opens.skipSpace_append (h : Opens cs) (hpad : ∀ c ∈ pad, isSpace c = true) :
    skipSpace (pad ++ cs) = cs := by
  obtain ⟨c, cs, rfl, hc, -⟩ := h
  rw [Json.skipSpace_append hpad, skipSpace_cons hc]

theorem opens_of_isDigit (hc : c.isDigit = true) (cs : List Char) : Opens (c :: cs) := by
  have hspace : isSpace c = false := by
    simp only [isSpace, Bool.or_eq_false_iff, beq_eq_false_iff_ne]
    exact ⟨⟨⟨ne_of_isDigit hc rfl, ne_of_isDigit hc rfl⟩, ne_of_isDigit hc rfl⟩,
      ne_of_isDigit hc rfl⟩
  exact ⟨c, cs, rfl, hspace, ne_of_isDigit hc rfl, ne_of_isDigit hc rfl⟩

theorem Plain.opens (hv : Plain v) (sp : Spacing) (level : Nat) : Opens (spell sp level v) := by
  cases hv with
  | null => exact ⟨_, _, rfl, rfl, by decide, by decide⟩
  | bool b => cases b <;> exact ⟨_, _, rfl, rfl, by decide, by decide⟩
  | str s => exact ⟨'"', _, by rw [spell, toList_quote], rfl, by decide, by decide⟩
  | @int i _ =>
      obtain ⟨sign, digits, htext, hsign, hne, hdigits, -⟩ := Decimal.exists_sign_digits i
      rw [spell, htext, hsign]
      split
      · exact ⟨'-', digits, rfl, rfl, by decide, by decide⟩
      · obtain ⟨d, ds, rfl⟩ := List.exists_cons_of_ne_nil hne
        exact opens_of_isDigit (hdigits d (by simp)) ds
  | @arr xs _ => cases xs <;> exact ⟨_, _, by rw [spell], rfl, by decide, by decide⟩
  | @obj fs _ =>
      obtain _ | ⟨⟨k, x⟩, fs⟩ := fs <;> exact ⟨_, _, by rw [spell], rfl, by decide, by decide⟩

/-! ## One step of the reader -/

theorem value_quote :
    value (n + 1) depth ('"' :: cs) =
      (stringContent cs).map fun p => (.str (String.ofList p.1), p.2) := rfl

theorem value_minus : value (n + 1) depth ('-' :: cs) = number? true cs := rfl

/-- At the depth limit a bracket itself is refused. -/
theorem value_arr_limit : value (n + 1) 0 ('[' :: cs) = none := rfl

theorem value_obj_limit : value (n + 1) 0 ('\x7b' :: cs) = none := rfl

theorem value_digit (hc : c.isDigit = true) :
    value (n + 1) depth (c :: cs) = number? false (c :: cs) := by
  rw [value]
  all_goals
    intro rest heq
    exact ne_of_isDigit hc (by decide) (List.cons.inj heq).1

theorem value_toString {i : Int} (hi : i.natAbs < UInt64.size) (hrest : EndsNumber rest) :
    value (n + 1) depth ((toString i).toList ++ rest) = some (.int i, rest) := by
  cases i with
  | ofNat k =>
      have htext : (toString (Int.ofNat k)).toList = Nat.toDigits 10 k := Nat.toList_repr
      have hnumber := number?_digits false hi (by simp) hrest
      obtain ⟨d, ds, hds⟩ := List.exists_cons_of_ne_nil (Nat.toDigits_ne_nil (b := 10) (n := k))
      have hd : d.isDigit = true := Decimal.isDigit_of_mem_toDigits (n := k) (by simp [hds])
      rw [htext, hds, List.cons_append, value_digit hd, ← List.cons_append, ← hds]
      exact hnumber
  | negSucc k =>
      have htext : (toString (Int.negSucc k)).toList = '-' :: Nat.toDigits 10 (k + 1) := by
        show ("-" ++ Nat.repr (k + 1)).toList = _
        rw [String.toList_append, Nat.toList_repr]
        rfl
      rw [htext, List.cons_append, value_minus]
      exact number?_digits true hi (by simp) hrest

/-- An array that is not empty. -/
theorem value_arr (h : Opens cs) (hpad : ∀ c ∈ pad, isSpace c = true) :
    value (n + 1) (depth + 1) ('[' :: (pad ++ cs)) =
      (items n depth cs).map fun p => (.arr p.1, p.2) := by
  rw [value, h.skipSpace_append hpad]
  obtain ⟨c, cs, rfl, -, hc, -⟩ := h
  split
  · rename_i heq
    exact absurd (List.cons.inj heq).1 hc
  · rfl

/-- An object that is not empty. -/
theorem value_obj (h : Opens cs) (hpad : ∀ c ∈ pad, isSpace c = true) :
    value (n + 1) (depth + 1) ('\x7b' :: (pad ++ cs)) =
      (fields n depth cs).map fun p => (.obj p.1, p.2) := by
  rw [value, h.skipSpace_append hpad]
  obtain ⟨c, cs, rfl, -, -, hc⟩ := h
  split
  · rename_i heq
    exact absurd (List.cons.inj heq).1 hc
  · rfl

/-! ## Values in a text -/

/-- Wherever the text of the value stands, the reader takes it off, if the value is not nested too
deep. -/
def ReadsBack (sp : Spacing) (v : Json) : Prop :=
  ∀ level n depth rest, 2 * (spell sp level v).length ≤ n → EndsNumber rest →
    value n depth (spell sp level v ++ rest) =
      if v.nesting ≤ depth then some (v, rest) else none

theorem endsNumber_of_ne (hc : c.isDigit = false ∧ c ≠ '.' ∧ c ≠ 'e' ∧ c ≠ 'E')
    (cs : List Char) : EndsNumber (c :: cs) := by
  intro d hd
  obtain rfl : c = d := by simpa using hd
  exact hc

theorem endsNumber_of_space (hc : isSpace c = true) (cs : List Char) : EndsNumber (c :: cs) := by
  refine endsNumber_of_ne ?_ cs
  simp only [isSpace, Bool.or_eq_true, beq_iff_eq] at hc
  rcases hc with ((rfl | rfl) | rfl) | rfl <;> decide

/-- What stands behind the last value in an array or object. -/
theorem endsNumber_of_close (hpad : ∀ c ∈ pad, isSpace c = true)
    (hc : c.isDigit = false ∧ c ≠ '.' ∧ c ≠ 'e' ∧ c ≠ 'E') : EndsNumber (pad ++ c :: cs) := by
  obtain _ | ⟨d, pad⟩ := pad
  · exact endsNumber_of_ne hc cs
  · exact endsNumber_of_space (hpad d List.mem_cons_self) _

/-- Space before the value changes nothing. -/
theorem ReadsBack.padded (h : ReadsBack sp v) (hv : Plain v) (hpad : ∀ c ∈ pad, isSpace c = true)
    (hn : 2 * (spell sp level v).length ≤ n) (hrest : EndsNumber rest) :
    value n depth (skipSpace (pad ++ (spell sp level v ++ rest))) =
      if v.nesting ≤ depth then some (v, rest) else none := by
  rw [((hv.opens sp level).append rest).skipSpace_append hpad]
  exact h level n depth rest hn hrest

theorem skipSpace_close (hpad : ∀ c ∈ pad, isSpace c = true) (hc : isSpace c = false) :
    skipSpace (pad ++ c :: cs) = c :: cs := by
  rw [skipSpace_append hpad, skipSpace_cons hc]

/-- The items of an array, up to its bracket. -/
theorem items_spell {xs : List Json} {close : List Char} (hplain : ∀ y ∈ x :: xs, Plain y)
    (h : ∀ y ∈ x :: xs, ReadsBack sp y) (hpad : ∀ c ∈ pad, isSpace c = true)
    (hclose : ∀ c ∈ close, isSpace c = true)
    (hn : 2 * (spell sp level x ++ spellItems sp level xs).length < n) :
    items n depth (pad ++ (spell sp level x ++ (spellItems sp level xs ++
        (close ++ ']' :: rest)))) =
      if nestings (x :: xs) ≤ depth then some (x :: xs, rest) else none := by
  induction xs generalizing x n pad with
  | nil =>
      obtain _ | n := n
      · omega
      obtain ⟨hx, -⟩ := List.forall_mem_cons.1 h
      obtain ⟨hpx, -⟩ := List.forall_mem_cons.1 hplain
      have hends : EndsNumber (close ++ ']' :: rest) :=
        endsNumber_of_close hclose (by decide)
      simp only [spellItems, List.append_nil] at hn
      rw [spellItems, List.nil_append, items, hx.padded hpx hpad (by omega) hends, nestings,
        nestings, Nat.max_zero]
      by_cases hdeep : x.nesting ≤ depth
      · simp only [if_pos hdeep, skipSpace_close hclose (c := ']') rfl]
      · simp only [if_neg hdeep]
  | cons y ys ih =>
      obtain _ | n := n
      · omega
      obtain ⟨hx, hys⟩ := List.forall_mem_cons.1 h
      obtain ⟨hpx, hpys⟩ := List.forall_mem_cons.1 hplain
      have hends := endsNumber_of_ne (c := ',') (by decide)
      simp only [spellItems, List.length_append, List.length_cons] at hn ih
      -- the comma between the two items is worth more fuel than the step over the first one
      have hmore := ih hpys hys (sp.line_space level) (n := n) (by omega)
      simp only [spellItems, List.cons_append, List.append_assoc]
      rw [items, hx.padded hpx hpad (by omega) (hends _), nestings]
      by_cases hdeep : x.nesting ≤ depth
      · have hmax : max x.nesting (nestings (y :: ys)) ≤ depth ↔ nestings (y :: ys) ≤ depth := by
          omega
        simp only [if_pos hdeep, hmax, skipSpace_cons (c := ',') rfl, hmore,
          apply_ite (Option.map _), Option.map_some, Option.map_none]
      · have hmax : ¬max x.nesting (nestings (y :: ys)) ≤ depth := by omega
        simp only [if_neg hdeep, if_neg hmax]

theorem string?_quote (k : String) (hpad : ∀ c ∈ pad, isSpace c = true) :
    string? (skipSpace (pad ++ ((quote k).toList ++ cs))) = some (k, cs) := by
  rw [toList_quote, List.cons_append, List.append_assoc, skipSpace_close hpad rfl,
    List.singleton_append, string?, stringContent_escapes]
  show some (String.ofList k.toList, cs) = _
  rw [String.ofList_toList]

/-- The fields of an object, up to its brace. -/
theorem fields_spell {k : String} {fs : List (String × Json)} {close : List Char}
    (hplain : ∀ f ∈ (k, x) :: fs, Plain f.2) (h : ∀ f ∈ (k, x) :: fs, ReadsBack sp f.2)
    (hpad : ∀ c ∈ pad, isSpace c = true) (hclose : ∀ c ∈ close, isSpace c = true)
    (hn : 2 * (spell sp level x ++ spellFields sp level fs).length < n) :
    fields n depth (pad ++ ((quote k).toList ++ (':' :: (sp.colon ++ (spell sp level x ++
        (spellFields sp level fs ++ (close ++ '\x7d' :: rest))))))) =
      if nestingOfFields ((k, x) :: fs) ≤ depth then some ((k, x) :: fs, rest) else none := by
  induction fs generalizing k x n pad with
  | nil =>
      obtain _ | n := n
      · omega
      have hx : ReadsBack sp x := h _ (List.mem_singleton_self (k, x))
      have hpx : Plain x := hplain _ (List.mem_singleton_self (k, x))
      have hends : EndsNumber (close ++ '\x7d' :: rest) :=
        endsNumber_of_close hclose (by decide)
      simp only [spellFields, List.append_nil] at hn
      rw [spellFields, List.nil_append, fields, string?_quote k hpad]
      simp only [skipSpace_cons (c := ':') rfl]
      rw [hx.padded hpx sp.colon_space (by omega) hends, nestingOfFields, nestingOfFields,
        Nat.max_zero]
      by_cases hdeep : x.nesting ≤ depth
      · simp only [if_pos hdeep, skipSpace_close hclose (c := '\x7d') rfl]
      · simp only [if_neg hdeep]
  | cons f fs ih =>
      obtain ⟨l, y⟩ := f
      obtain _ | n := n
      · omega
      have hx : ReadsBack sp x := h _ List.mem_cons_self
      have hpx : Plain x := hplain _ List.mem_cons_self
      have hfs := (List.forall_mem_cons.1 h).2
      have hpfs := (List.forall_mem_cons.1 hplain).2
      have hends := endsNumber_of_ne (c := ',') (by decide)
      simp only [spellFields, List.length_append, List.length_cons] at hn ih
      have hmore := ih hpfs hfs (sp.line_space level) (n := n) (by omega)
      simp only [spellFields, List.cons_append, List.append_assoc]
      rw [fields, string?_quote k hpad]
      simp only [skipSpace_cons (c := ':') rfl]
      rw [hx.padded hpx sp.colon_space (by omega) (hends _), nestingOfFields]
      -- a first value that is too deep refuses the object; otherwise the rest decides
      by_cases hdeep : x.nesting ≤ depth
      · have hmax : max x.nesting (nestingOfFields ((l, y) :: fs)) ≤ depth ↔
            nestingOfFields ((l, y) :: fs) ≤ depth := by omega
        simp only [if_pos hdeep, hmax, skipSpace_cons (c := ',') rfl, hmore,
          apply_ite (Option.map _), Option.map_some, Option.map_none]
      · have hmax : ¬max x.nesting (nestingOfFields ((l, y) :: fs)) ≤ depth := by omega
        simp only [if_neg hdeep, if_neg hmax]

/-! ## Whole texts -/

/-- A value without parts is read at every depth. -/
theorem readsBack_of_nesting_eq_zero (hv : Plain v) (hzero : v.nesting = 0)
    (h : ∀ level n depth rest, EndsNumber rest →
      value (n + 1) depth (spell sp level v ++ rest) = some (v, rest)) : ReadsBack sp v := by
  intro level n depth rest hn hrest
  obtain _ | n := n
  · obtain ⟨c, cs, heq, -⟩ := hv.opens sp level
    rw [heq, List.length_cons] at hn
    omega
  · rw [if_pos (by omega)]
    exact h level n depth rest hrest

theorem readsBack_arr {xs : List Json} (hplain : ∀ x ∈ xs, Plain x)
    (h : ∀ x ∈ xs, ReadsBack sp x) : ReadsBack sp (.arr xs) := by
  intro level n depth rest hn hrest
  obtain _ | ⟨x, xs⟩ := xs
  · obtain _ | n := n
    · simp [spell] at hn
    rw [spell]
    cases depth <;> rfl
  · obtain _ | n := n
    · simp [spell] at hn
    rw [spell, List.cons_append]
    simp only [spell, List.length_cons, List.length_append] at hn
    obtain _ | depth := depth
    · rw [value_arr_limit]
      rfl
    have hopens := (hplain x List.mem_cons_self).opens sp (level + 1)
    have hitems : items n depth ([] ++ (spell sp (level + 1) x ++
        (spellItems sp (level + 1) xs ++ (sp.line level ++ ']' :: rest)))) = _ :=
      items_spell hplain h (by simp) (sp.line_space level) (by rw [List.length_append]; omega)
    simp only [List.append_assoc, List.cons_append, List.nil_append] at hitems ⊢
    rw [value_arr (hopens.append _) (sp.line_space (level + 1)), hitems]
    by_cases hdeep : nestings (x :: xs) ≤ depth
    · have hle : nesting (.arr (x :: xs)) ≤ depth + 1 := by rw [nesting]; omega
      rw [if_pos hdeep, if_pos hle]
      rfl
    · have hnot : ¬nesting (.arr (x :: xs)) ≤ depth + 1 := by rw [nesting]; omega
      rw [if_neg hdeep, if_neg hnot]
      rfl

theorem readsBack_obj {fs : List (String × Json)} (hplain : ∀ f ∈ fs, Plain f.2)
    (h : ∀ f ∈ fs, ReadsBack sp f.2) : ReadsBack sp (.obj fs) := by
  intro level n depth rest hn hrest
  obtain _ | ⟨⟨k, x⟩, fs⟩ := fs
  · obtain _ | n := n
    · simp [spell] at hn
    rw [spell]
    cases depth <;> rfl
  · obtain _ | n := n
    · simp [spell] at hn
    rw [spell, List.cons_append]
    simp only [spell, List.length_cons, List.length_append] at hn
    obtain _ | depth := depth
    · rw [value_obj_limit]
      rfl
    have hopens : Opens (quote k).toList :=
      ⟨'"', _, toList_quote k, rfl, by decide, by decide⟩
    have hfields : fields n depth ([] ++ ((quote k).toList ++ (':' :: (sp.colon ++
        (spell sp (level + 1) x ++ (spellFields sp (level + 1) fs ++
          (sp.line level ++ '\x7d' :: rest))))))) = _ :=
      fields_spell hplain h (by simp) (sp.line_space level) (by rw [List.length_append]; omega)
    simp only [List.append_assoc, List.cons_append, List.nil_append] at hfields ⊢
    rw [value_obj (hopens.append _) (sp.line_space (level + 1)), hfields]
    by_cases hdeep : nestingOfFields ((k, x) :: fs) ≤ depth
    · have hle : nesting (.obj ((k, x) :: fs)) ≤ depth + 1 := by rw [nesting]; omega
      rw [if_pos hdeep, if_pos hle]
      rfl
    · have hnot : ¬nesting (.obj ((k, x) :: fs)) ≤ depth + 1 := by rw [nesting]; omega
      rw [if_neg hdeep, if_neg hnot]
      rfl

/-- **Every plain value is read back from its text.** -/
theorem readsBack (hv : Plain v) (sp : Spacing) : ReadsBack sp v := by
  induction v using partsInduction with
  | step v ih =>
      cases hv with
      | arr hxs => exact readsBack_arr hxs fun x hx => ih x hx (hxs x hx)
      | obj hfs => exact readsBack_obj hfs fun f hf => ih f.2 (List.mem_map_of_mem hf) (hfs f hf)
      | null => exact readsBack_of_nesting_eq_zero .null rfl fun _ _ _ _ _ => rfl
      | bool b =>
          refine readsBack_of_nesting_eq_zero (.bool b) rfl fun _ _ _ _ _ => ?_
          cases b <;> rfl
      | int hi =>
          refine readsBack_of_nesting_eq_zero (.int hi) rfl fun level n depth rest hrest => ?_
          rw [spell]
          exact value_toString hi hrest
      | str s =>
          refine readsBack_of_nesting_eq_zero (.str s) rfl fun level n depth rest _ => ?_
          rw [spell, toList_quote, List.cons_append, List.append_assoc, List.singleton_append,
            value_quote, stringContent_escapes]
          show some (Json.str (String.ofList s.toList), rest) = _
          rw [String.ofList_toList]

/-- **A text is read as its value, unless that is nested too deep.** Only space may stand behind
the value. -/
theorem read?_spell (sp : Spacing) (hv : Plain v) {after : List Char}
    (hafter : ∀ c ∈ after, isSpace c = true) :
    read? (String.ofList (spell sp 0 v ++ after)) =
      if v.nesting ≤ maxDepth then some v else none := by
  have hends : EndsNumber after := by
    obtain _ | ⟨c, cs⟩ := after
    · simp [EndsNumber]
    · exact endsNumber_of_space (hafter c List.mem_cons_self) cs
  have hvalue : value (2 * (spell sp 0 v ++ after).length + 2) maxDepth
      (skipSpace ([] ++ (spell sp 0 v ++ after))) = _ :=
    (readsBack hv sp).padded hv (by simp) (by rw [List.length_append]; omega) hends
  rw [List.nil_append] at hvalue
  unfold read?
  simp only [String.toList_ofList, hvalue]
  by_cases hdeep : v.nesting ≤ maxDepth
  · have hskip : skipSpace after = [] := by
      rw [← List.append_nil after, skipSpace_append hafter]
      rfl
    simp only [if_pos hdeep, hskip, List.isEmpty_nil, if_true]
  · simp only [if_neg hdeep]

end ExprScript.Json
