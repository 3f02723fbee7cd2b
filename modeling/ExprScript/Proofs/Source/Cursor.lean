import ExprScript.Source.Cursor

set_option autoImplicit false

/-! # Reading characters

`c.Reads cs d` says that reading the characters `cs` leads from the cursor `c` to the cursor
`d`. The two ways to advance a cursor, over a given text and over one character of a class, are
instances of it, and so is every way of putting them together.
-/

namespace ExprScript.Cursor

/-- Reading `cs` leads from `c` to `d`. -/
structure Reads (c : Cursor) (cs : List Char) (d : Cursor) : Prop where
  rest : c.rest = cs ++ d.rest
  pos : d.pos = c.pos.after cs

namespace Reads

variable {c d e : Cursor} {cs ds : List Char}

theorem refl (c : Cursor) : c.Reads [] c := ⟨rfl, rfl⟩

theorem trans (h : c.Reads cs d) (h' : d.Reads ds e) : c.Reads (cs ++ ds) e :=
  ⟨by rw [h.rest, h'.rest, List.append_assoc], by rw [h'.pos, h.pos, Position.after_append]⟩

theorem length_eq (h : c.Reads cs d) : c.rest.length = cs.length + d.rest.length := by
  rw [h.rest, List.length_append]

/-- What has been read is the text between the two cursors. -/
theorem upTo_eq (h : c.Reads cs d) : c.upTo d = cs := by
  have hlen : c.rest.length - d.rest.length = cs.length := by
    have := h.length_eq
    omega
  rw [upTo, hlen, h.rest, List.take_left]

/-- Where a reading leads is fixed by the characters read. -/
theorem stop_eq {p : Position} (cs k : List Char) (h : Reads ⟨p, cs ++ k⟩ cs d) :
    d = ⟨p.after cs, k⟩ := by
  obtain ⟨q, rest⟩ := d
  have hrest : k = rest := List.append_cancel_left h.rest
  have hpos : q = p.after cs := h.pos
  rw [hrest, hpos]

theorem start_eq (h : c.Reads cs d) : c = ⟨c.pos, cs ++ d.rest⟩ := by
  rw [← h.rest]

end Reads

/-- Reading stops behind what it has read. -/
theorem reads_append (p : Position) (cs k : List Char) :
    Reads ⟨p, cs ++ k⟩ cs ⟨p.after cs, k⟩ := ⟨rfl, rfl⟩

theorem strip?_eq_some_iff {t : List Char} {c d : Cursor} :
    c.strip? t = some d ↔ c.Reads t d := by
  induction t generalizing c with
  | nil =>
      constructor
      · intro h
        obtain rfl := Option.some.inj h
        exact .refl c
      · intro h
        obtain ⟨p, cs⟩ := c
        have hd := Reads.stop_eq [] cs h
        rw [hd]
        rfl
  | cons x t ih =>
      obtain ⟨p, cs⟩ := c
      cases cs with
      | nil =>
          constructor
          · intro h
            simp [strip?] at h
          · intro h
            have := h.rest
            simp at this
      | cons y cs =>
          rw [strip?]
          split
          · rename_i hxy
            subst hxy
            rw [ih]
            constructor
            · intro h
              exact (reads_append p [x] cs).trans h
            · intro h
              exact ⟨List.tail_eq_of_cons_eq h.rest, h.pos⟩
          · rename_i hxy
            constructor
            · intro h
              simp at h
            · intro h
              exact absurd (List.head_eq_of_cons_eq h.rest).symm hxy

theorem strip?_append (p : Position) (t k : List Char) :
    strip? t ⟨p, t ++ k⟩ = some ⟨p.after t, k⟩ :=
  strip?_eq_some_iff.2 (reads_append p t k)

/-- A text cannot be read exactly where it is not what comes next. -/
theorem strip?_eq_none_iff {t : List Char} {c : Cursor} :
    c.strip? t = none ↔ ¬ t <+: c.rest := by
  constructor
  · rintro h ⟨k, hk⟩
    obtain ⟨p, cs⟩ := c
    obtain rfl : t ++ k = cs := hk
    rw [strip?_append] at h
    exact Option.some_ne_none _ h
  · intro h
    rw [Option.eq_none_iff_forall_ne_some]
    intro d hd
    have hr := (strip?_eq_some_iff.1 hd).rest
    exact h ⟨d.rest, hr.symm⟩

theorem step?_eq_some_iff {p : Char → Bool} {c d : Cursor} :
    c.step? p = some d ↔ ∃ x, p x ∧ c.Reads [x] d := by
  obtain ⟨q, cs⟩ := c
  cases cs with
  | nil =>
      constructor
      · intro h
        simp [step?] at h
      · rintro ⟨x, -, h⟩
        have := h.rest
        simp at this
  | cons y cs =>
      rw [step?]
      constructor
      · intro h
        split at h
        · rename_i hy
          obtain rfl := Option.some.inj h
          exact ⟨y, hy, reads_append q [y] cs⟩
        · simp at h
      · rintro ⟨x, hx, h⟩
        obtain rfl : y = x := List.head_eq_of_cons_eq h.rest
        rw [if_pos hx, Reads.stop_eq [y] cs h]
        rfl

/-- No character of the class comes next. -/
theorem step?_eq_none_iff {p : Char → Bool} {c : Cursor} :
    c.step? p = none ↔ ∀ x, c.rest.head? = some x → p x = false := by
  obtain ⟨q, cs⟩ := c
  cases cs with
  | nil => simp [step?]
  | cons y cs => cases hy : p y <;> simp [step?, hy]

end ExprScript.Cursor
