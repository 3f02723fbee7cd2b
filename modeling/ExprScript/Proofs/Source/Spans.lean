import ExprScript.Proofs.Source.Cursor
import ExprScript.Proofs.Source.Position

set_option autoImplicit false

/-! # Trees over a text

`Nested` says that trees lie over a text as their spans tell: one behind the other between two
cursors, and the children of each of them in the same way between its own two ends. It is built
up along the reading of the text, and what spans have in common is read off it: they are inside
the stretch they were read in (`Nested.exists_of_mem`), and in the order of the trees
(`Nested.pairwise`).

Trees of any type will do, given the span and the children of each. That the span of a tree is
where its text stands is said by `Span.Spells`.
-/

namespace ExprScript

namespace Cursor

theorem Reads.offset_le {c d : Cursor} {cs : List Char} (h : c.Reads cs d) :
    c.pos.offset ≤ d.pos.offset := by
  rw [h.pos]
  exact c.pos.offset_le_after cs

/-- A cursor that is reached from the start of a text stands at a position of that text. -/
theorem Reads.pos_in {text cs : List Char} {c : Cursor} (h : (Cursor.start text).Reads cs c) :
    c.pos.In text := by
  have htext : text = cs ++ c.rest := h.rest
  have hpos : c.pos = Position.first.after cs := h.pos
  refine ⟨cs, ⟨c.rest, htext.symm⟩, ?_⟩
  rw [hpos]
  exact Position.marks_after cs

/-- Of the cursors that are reached from the start of a text, no two stand behind the same number
of bytes. -/
theorem Reads.eq_of_offset {text us vs : List Char} {c d : Cursor}
    (hc : (Cursor.start text).Reads us c) (hd : (Cursor.start text).Reads vs d)
    (h : c.pos.offset = d.pos.offset) : c = d := by
  -- a reading that goes on from the other one and reads anything leads further
  have shorter : ∀ {us vs : List Char} {c d : Cursor}, (Cursor.start text).Reads us c →
      (Cursor.start text).Reads vs d → us <+: vs → c.pos.offset = d.pos.offset → c = d := by
    rintro us _ c d hc hd ⟨ws, rfl⟩ h
    have hrest : text = us ++ c.rest := hc.rest
    have hws : ws = [] := by
      by_contra hne
      have hbefore := Position.before_after (Position.first.after us) hne
      have hlt : (Position.first.after us).offset < (Position.first.after (us ++ ws)).offset := by
        rw [Position.after_append]
        exact hbefore.offset
      have hpos : c.pos = Position.first.after us := hc.pos
      have hpos' : d.pos = Position.first.after (us ++ ws) := hd.pos
      rw [hpos, hpos'] at h
      omega
    subst hws
    rw [List.append_nil] at hd
    have hd' := Reads.stop_eq us c.rest (show Reads ⟨.first, us ++ c.rest⟩ us d from hrest ▸ hd)
    have hc' := Reads.stop_eq us c.rest (show Reads ⟨.first, us ++ c.rest⟩ us c from hrest ▸ hc)
    exact hc'.trans hd'.symm
  have hus : us <+: text := ⟨c.rest, hc.rest.symm⟩
  have hvs : vs <+: text := ⟨d.rest, hd.rest.symm⟩
  rcases List.prefix_or_prefix_of_prefix hus hvs with hle | hle
  · exact shorter hc hd hle h
  · exact (shorter hd hc hle h.symm).symm

end Cursor

namespace Span

/-- The span lies in the text `cs`: its ends are positions of the text, in order. -/
structure LiesIn (cs : List Char) (s : Span) : Prop where
  start : s.start.In cs
  stop : s.stop.In cs
  ordered : s.start.offset ≤ s.stop.offset

/-- The span lies in the text `cs` where `part` stands. -/
def Spells (cs part : List Char) (s : Span) : Prop :=
  ∃ before behind, cs = before ++ part ++ behind ∧ Position.Marks before s.start ∧
    Position.Marks (before ++ part) s.stop

/-- What is read from a cursor on stands where the reading begins and ends. -/
theorem spells_of_reads {cs us part : List Char} {c d : Cursor}
    (hc : (Cursor.start cs).Reads us c) (hd : c.Reads part d) : Spells cs part ⟨c.pos, d.pos⟩ := by
  have hall := hc.trans hd
  have hstart : c.pos = Position.first.after us := hc.pos
  have hstop : d.pos = Position.first.after (us ++ part) := hall.pos
  refine ⟨us, d.rest, hall.rest, ?_, ?_⟩
  · rw [hstart]
    exact Position.marks_after us
  · rw [hstop]
    exact Position.marks_after (us ++ part)

theorem Spells.liesIn {cs part : List Char} {s : Span} (h : s.Spells cs part) : s.LiesIn cs := by
  obtain ⟨before, behind, rfl, hstart, hstop⟩ := h
  refine ⟨⟨before, ?_, hstart⟩, ⟨before ++ part, ⟨behind, rfl⟩, hstop⟩, ?_⟩
  · exact ⟨part ++ behind, (List.append_assoc ..).symm⟩
  · rw [hstart.eq_after, hstop.eq_after, Position.after_append]
    exact Position.offset_le_after _ part

end Span

/-- The trees `xs` lie one behind the other between `c` and `d`, each over the stretch of its
span, and the children of each of them lie so within that stretch. -/
inductive Nested {α : Type} (span : α → Span) (children : α → List α) :
    Cursor → Cursor → List α → Prop where
  | nil {c d : Cursor} {cs : List Char} (h : c.Reads cs d) : Nested span children c d []
  | cons {c c₁ d₁ d : Cursor} {cs : List Char} {x : α} {xs : List α} (hbefore : c.Reads cs c₁)
      (hspan : span x = ⟨c₁.pos, d₁.pos⟩) (hchildren : Nested span children c₁ d₁ (children x))
      (hrest : Nested span children d₁ d xs) : Nested span children c d (x :: xs)

namespace Nested

variable {α : Type} {span : α → Span} {children : α → List α} {c c₁ d : Cursor} {x : α}
  {xs ys : List α}

/-- The two cursors are the ends of a stretch of the text. -/
theorem exists_reads (h : Nested span children c d xs) : ∃ cs, c.Reads cs d := by
  induction h with
  | nil h => exact ⟨_, h⟩
  | cons hbefore _ _ _ ihchildren ihrest =>
      obtain ⟨cs, hcs⟩ := ihchildren
      obtain ⟨ds, hds⟩ := ihrest
      exact ⟨_, (hbefore.trans hcs).trans hds⟩

/-- The stretch may begin earlier. -/
theorem of_reads {cs : List Char} (hc : c.Reads cs c₁) (h : Nested span children c₁ d xs) :
    Nested span children c d xs := by
  cases h with
  | nil h => exact .nil (hc.trans h)
  | cons hbefore hspan hchildren hrest => exact .cons (hc.trans hbefore) hspan hchildren hrest

theorem append (h : Nested span children c c₁ xs) (h' : Nested span children c₁ d ys) :
    Nested span children c d (xs ++ ys) := by
  induction h with
  | nil h => exact h'.of_reads h
  | cons hbefore hspan hchildren _ _ ihrest => exact .cons hbefore hspan hchildren (ihrest h')

/-- The stretch may end later. -/
theorem to_reads {e : Cursor} {ds : List Char} (h : Nested span children c d xs)
    (hd : d.Reads ds e) : Nested span children c e xs := by
  have happend := h.append (.nil hd)
  rwa [List.append_nil] at happend

theorem tail (h : Nested span children c d (x :: xs)) : Nested span children c d xs := by
  cases h with
  | cons hbefore _ hchildren hrest =>
      obtain ⟨cs, hcs⟩ := hchildren.exists_reads
      exact hrest.of_reads (hbefore.trans hcs)

/-- The first tree and the others divide the stretch between them. -/
theorem cons_iff :
    Nested span children c d (x :: xs) ↔
      ∃ e, Nested span children c e [x] ∧ Nested span children e d xs := by
  constructor
  · intro h
    cases h with
    | @cons _ _ d₁ _ _ _ _ hbefore hspan hchildren hrest =>
        exact ⟨d₁, .cons hbefore hspan hchildren (.nil (.refl d₁)), hrest⟩
  · rintro ⟨e, hx, hxs⟩
    exact hx.append hxs

/-- Trees may be left out. -/
theorem sublist (h : Nested span children c d xs) (hys : ys.Sublist xs) :
    Nested span children c d ys := by
  induction hys generalizing c with
  | slnil => exact h
  | cons x _ ih => exact ih h.tail
  | cons_cons x _ ih =>
      cases h with
      | cons hbefore hspan hchildren hrest => exact .cons hbefore hspan hchildren (ih hrest)

/-- One tree spans a stretch between the two cursors. -/
theorem exists_of_mem (h : Nested span children c d xs) (hx : x ∈ xs) :
    ∃ c₁ d₁ cs ds, c.Reads cs c₁ ∧ span x = ⟨c₁.pos, d₁.pos⟩ ∧
      Nested span children c₁ d₁ (children x) ∧ d₁.Reads ds d := by
  induction h with
  | nil => exact absurd hx List.not_mem_nil
  | cons hbefore hspan hchildren hrest _ ihrest =>
      rcases List.mem_cons.1 hx with rfl | hin
      · obtain ⟨ds, hds⟩ := hrest.exists_reads
        exact ⟨_, _, _, ds, hbefore, hspan, hchildren, hds⟩
      · obtain ⟨c₂, d₂, cs, ds, hcs, hspan₂, hchildren₂, hds⟩ := ihrest hin
        obtain ⟨us, hus⟩ := hchildren.exists_reads
        exact ⟨c₂, d₂, _, ds, (hbefore.trans hus).trans hcs, hspan₂, hchildren₂, hds⟩

/-- A single tree may be put in place of another that spans the same stretch. -/
theorem singleton {c₁ d₁ : Cursor} {cs ds : List Char} (hcs : c.Reads cs c₁)
    (hspan : span x = ⟨c₁.pos, d₁.pos⟩) (hchildren : Nested span children c₁ d₁ (children x))
    (hds : d₁.Reads ds d) : Nested span children c d [x] :=
  .cons hcs hspan hchildren (.nil hds)

theorem offsets_of_mem (h : Nested span children c d xs) (hx : x ∈ xs) :
    c.pos.offset ≤ (span x).start.offset ∧ (span x).start.offset ≤ (span x).stop.offset ∧
      (span x).stop.offset ≤ d.pos.offset := by
  obtain ⟨c₁, d₁, cs, ds, hcs, hspan, hchildren, hds⟩ := h.exists_of_mem hx
  obtain ⟨us, hus⟩ := hchildren.exists_reads
  rw [hspan]
  exact ⟨hcs.offset_le, hus.offset_le, hds.offset_le⟩

/-- **Trees that follow each other do not overlap.** -/
theorem pairwise (h : Nested span children c d xs) :
    xs.Pairwise fun x y => (span x).stop.offset ≤ (span y).start.offset := by
  induction h with
  | nil => exact .nil
  | cons _ hspan _ hrest _ ihrest =>
      refine .cons (fun y hy => ?_) ihrest
      rw [hspan]
      exact (hrest.offsets_of_mem hy).1

end Nested

end ExprScript
