import ExprScript.Grammar.Layout
import ExprScript.Proofs.Source.Cursor

set_option autoImplicit false

/-! # Passing over layout

`Layout.skip` reads a stretch of the text (`exists_reads_skip`), and no layout is left where it
stops (`free_skip`). Where no layout stands it stays in place (`skip_of_free`), so it makes no
difference how often it is done (`skip_skip`).
-/

namespace ExprScript.Layout

/-- No layout stands at the front: neither a space nor the beginning of a comment. -/
def Free : List Char → Prop
  | [] => True
  | c :: cs => isSpace c = false ∧ ¬ (c = '/' ∧ cs.head? = some '/')

theorem skipFrom_space {x : Char} (hx : isSpace x = true) (p : Position) (cs : List Char) :
    skipFrom p (x :: cs) = skipFrom (p.advance x) cs := by
  rw [skipFrom.eq_def]
  exact if_pos hx

theorem skipFrom_comment (p : Position) (cs : List Char) :
    skipFrom p ('/' :: '/' :: cs) = skipComment ((p.advance '/').advance '/') cs := by
  rw [skipFrom, if_neg (by decide)]

theorem skipFrom_of_free {cs : List Char} (h : Free cs) (p : Position) :
    skipFrom p cs = ⟨p, cs⟩ := by
  cases cs with
  | nil => rfl
  | cons c cs =>
      have hno : ∀ ds, c = '/' → cs = '/' :: ds → False := by
        rintro ds rfl rfl
        exact h.2 ⟨rfl, rfl⟩
      rw [skipFrom, if_neg (by simp [h.1])]
      exact hno

/-- Either no layout is at the front, or it begins in one of two ways. -/
theorem free_or_layout (cs : List Char) :
    Free cs ∨ (∃ x ds, cs = x :: ds ∧ isSpace x = true) ∨ ∃ ds, cs = '/' :: '/' :: ds := by
  cases cs with
  | nil => exact .inl trivial
  | cons c cs =>
      by_cases hc : isSpace c = true
      · exact .inr (.inl ⟨c, cs, rfl, hc⟩)
      · by_cases h : c = '/' ∧ cs.head? = some '/'
        · obtain ⟨rfl, hh⟩ := h
          obtain ⟨ds, rfl⟩ := List.head?_eq_some_iff.1 hh
          exact .inr (.inr ⟨ds, rfl⟩)
        · exact .inl ⟨by simpa using hc, h⟩

/-- What passing over layout, or over the rest of a comment, does in any text of at most `n`
characters: the induction goes through both at once, since each leads to the other. -/
theorem reads_and_free (n : Nat) :
    ∀ (p : Position) (cs : List Char), cs.length ≤ n →
      ((∃ ds, Cursor.Reads ⟨p, cs⟩ ds (skipFrom p cs)) ∧ Free (skipFrom p cs).rest) ∧
        ((∃ ds, Cursor.Reads ⟨p, cs⟩ ds (skipComment p cs)) ∧ Free (skipComment p cs).rest) := by
  have step {p : Position} {x : Char} {cs : List Char} {d : Cursor}
      (h : ∃ ds, Cursor.Reads ⟨p.advance x, cs⟩ ds d) :
      ∃ ds, Cursor.Reads ⟨p, x :: cs⟩ ds d := by
    obtain ⟨ds, hds⟩ := h
    exact ⟨_, (Cursor.reads_append p [x] cs).trans hds⟩
  induction n with
  | zero =>
      intro p cs hcs
      obtain rfl := List.eq_nil_of_length_eq_zero (Nat.le_zero.1 hcs)
      exact ⟨⟨⟨[], .refl _⟩, trivial⟩, ⟨⟨[], .refl _⟩, trivial⟩⟩
  | succ n ih =>
      intro p cs hcs
      refine ⟨?_, ?_⟩
      · rcases free_or_layout cs with hfree | ⟨x, ds, rfl, hx⟩ | ⟨ds, rfl⟩
        · rw [skipFrom_of_free hfree]
          exact ⟨⟨[], .refl _⟩, hfree⟩
        · rw [skipFrom_space hx]
          have h := (ih (p.advance x) ds (by simpa using hcs)).1
          exact ⟨step h.1, h.2⟩
        · rw [skipFrom_comment]
          have h := (ih ((p.advance '/').advance '/') ds
            (by simp only [List.length_cons] at hcs; omega)).2
          exact ⟨step (step h.1), h.2⟩
      · cases cs with
        | nil => exact ⟨⟨[], .refl _⟩, trivial⟩
        | cons x cs =>
            have h := ih (p.advance x) cs (by simpa using hcs)
            rw [skipComment]
            split
            · exact ⟨step h.1.1, h.1.2⟩
            · exact ⟨step h.2.1, h.2.2⟩

theorem exists_reads_skip (c : Cursor) : ∃ cs, c.Reads cs (skip c) :=
  (reads_and_free c.rest.length c.pos c.rest (Nat.le_refl _)).1.1

/-- No layout is left behind layout. -/
theorem free_skip (c : Cursor) : Free (skip c).rest :=
  (reads_and_free c.rest.length c.pos c.rest (Nat.le_refl _)).1.2

theorem skip_of_free {c : Cursor} (h : Free c.rest) : skip c = c := skipFrom_of_free h c.pos

@[simp] theorem skip_skip (c : Cursor) : skip (skip c) = skip c := skip_of_free (free_skip c)

/-- Spaces are passed over. -/
theorem skip_append (pad : List Char) (hpad : ∀ x ∈ pad, isSpace x = true) (p : Position)
    (cs : List Char) : skip ⟨p, pad ++ cs⟩ = skip ⟨p.after pad, cs⟩ := by
  induction pad generalizing p with
  | nil => rfl
  | cons x pad ih =>
      obtain ⟨hx, hrest⟩ := List.forall_mem_cons.1 hpad
      exact (skipFrom_space hx p _).trans (ih hrest _)

end ExprScript.Layout
