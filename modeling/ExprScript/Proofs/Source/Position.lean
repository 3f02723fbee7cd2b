import ExprScript.Source.Position
import Mathlib.Data.List.Infix
import Mathlib.Data.Prod.Lex
import Mathlib.Tactic.Basic

set_option autoImplicit false

/-! # What a position says

A position is reached by advancing over characters. `Position.Marks` says what its numbers mean
without reference to that: the bytes, the line feeds and the characters of the last line of the
text before it. Advancing keeps the meaning (`marks_after`).

The positions of one text are in the same order by offset and by line and column
(`Position.In.offset_lt_iff`), because one more character makes all of them larger
(`before_after`).
-/

namespace ExprScript.Position

/-- `p` is the position behind the text `before`: as many bytes lie before it as the text has, it
is on the line behind the last line feed, and its column is behind the characters of that line. -/
structure Marks (before : List Char) (p : Position) : Prop where
  offset : p.offset = (String.ofList before).utf8ByteSize
  line : p.line = before.count '\n' + 1
  column : p.column = (before.reverse.takeWhile (· != '\n')).length + 1

/-- `p` is a position of the text `cs`: it stands between two of its characters, or at an end. -/
def In (cs : List Char) (p : Position) : Prop :=
  ∃ before, before <+: cs ∧ Marks before p

/-! ## Advancing -/

/-- One more character is one more in front of the position. -/
theorem Marks.advance {before : List Char} {p : Position} (h : Marks before p) (c : Char) :
    Marks (before ++ [c]) (p.advance c) := by
  have hsize : (String.ofList (before ++ [c])).utf8ByteSize =
      (String.ofList before).utf8ByteSize + c.utf8Size := by
    rw [String.ofList_append, String.utf8ByteSize_append, ← String.singleton_eq_ofList,
      String.utf8ByteSize_singleton]
  unfold Position.advance
  by_cases hc : c = '\n'
  · subst hc
    rw [if_pos rfl]
    exact ⟨by rw [hsize, h.offset], by simp [h.line], by simp⟩
  · rw [if_neg hc]
    exact ⟨by rw [hsize, h.offset], by simp [h.line, hc], by simp [h.column, hc]⟩

/-- **Advancing over a text leads to the position behind it.** -/
theorem marks_after (cs : List Char) : Marks cs (Position.first.after cs) := by
  induction cs using List.reverseRecOn with
  | nil => exact ⟨rfl, rfl, rfl⟩
  | append_singleton cs c ih =>
      rw [after_append]
      exact ih.advance c

/-- A text has only one position behind it. -/
theorem Marks.eq_after {before : List Char} {p : Position} (h : Marks before p) :
    p = Position.first.after before := by
  have h' := marks_after before
  obtain ⟨offset, line, column⟩ := p
  have hoffset : offset = _ := h.offset.trans h'.offset.symm
  have hline : line = _ := h.line.trans h'.line.symm
  have hcolumn : column = _ := h.column.trans h'.column.symm
  rw [hoffset, hline, hcolumn]

/-- No position of a text lies behind its last byte. -/
theorem In.offset_le {cs : List Char} {p : Position} (h : In cs p) :
    p.offset ≤ (String.ofList cs).utf8ByteSize := by
  obtain ⟨before, ⟨behind, rfl⟩, hp⟩ := h
  rw [hp.offset, String.ofList_append, String.utf8ByteSize_append]
  exact Nat.le_add_right _ _

/-! ## The order of positions -/

/-- `p` stands before `q` by the count of bytes, and by line and column. -/
structure Before (p q : Position) : Prop where
  offset : p.offset < q.offset
  place : toLex (p.line, p.column) < toLex (q.line, q.column)

theorem Before.trans {p q r : Position} (h : Before p q) (h' : Before q r) : Before p r :=
  ⟨h.offset.trans h'.offset, h.place.trans h'.place⟩

theorem before_advance (p : Position) (c : Char) : Before p (p.advance c) := by
  have hsize : 0 < c.utf8Size := c.utf8Size_pos
  unfold Position.advance
  split
  · exact ⟨Nat.lt_add_of_pos_right hsize, Prod.Lex.toLex_lt_toLex.2 (.inl (Nat.lt_succ_self _))⟩
  · exact ⟨Nat.lt_add_of_pos_right hsize,
      Prod.Lex.toLex_lt_toLex.2 (.inr ⟨rfl, Nat.lt_succ_self _⟩)⟩

/-- Any character at all makes the position larger, in both orders. -/
theorem before_after (p : Position) {cs : List Char} (hcs : cs ≠ []) : Before p (p.after cs) := by
  induction cs generalizing p with
  | nil => exact absurd rfl hcs
  | cons c cs ih =>
      rw [after_cons]
      by_cases hne : cs = []
      · rw [hne]
        exact before_advance p c
      · exact (before_advance p c).trans (ih (p.advance c) hne)

theorem offset_le_after (p : Position) (cs : List Char) : p.offset ≤ (p.after cs).offset := by
  by_cases hcs : cs = []
  · rw [hcs]
    exact Nat.le_refl _
  · exact (before_after p hcs).offset.le

/-- Of two positions of a text, one stands before the other unless they are the same. -/
theorem In.trichotomy {cs : List Char} {p q : Position} (hp : In cs p) (hq : In cs q) :
    Before p q ∨ p = q ∨ Before q p := by
  obtain ⟨us, hus, hp⟩ := hp
  obtain ⟨vs, hvs, hq⟩ := hq
  rw [hp.eq_after, hq.eq_after]
  rcases List.prefix_or_prefix_of_prefix hus hvs with ⟨ws, rfl⟩ | ⟨ws, rfl⟩
  · rw [after_append]
    by_cases hws : ws = []
    · exact .inr (.inl (by rw [hws, after_nil]))
    · exact .inl (before_after _ hws)
  · rw [after_append]
    by_cases hws : ws = []
    · exact .inr (.inl (by rw [hws, after_nil]))
    · exact .inr (.inr (before_after _ hws))

/-- **Offsets, and lines with columns, increase together.** -/
theorem In.offset_lt_iff {cs : List Char} {p q : Position} (hp : In cs p) (hq : In cs q) :
    p.offset < q.offset ↔ toLex (p.line, p.column) < toLex (q.line, q.column) := by
  rcases hp.trichotomy hq with h | rfl | h
  · exact iff_of_true h.offset h.place
  · exact iff_of_false (Nat.lt_irrefl _) (lt_irrefl _)
  · exact iff_of_false h.offset.asymm h.place.asymm

end ExprScript.Position
