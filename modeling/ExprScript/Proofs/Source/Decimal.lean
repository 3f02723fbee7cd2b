import ExprScript.Source.Decimal
import Mathlib.Data.List.Induction
import Mathlib.Data.Nat.Digits.Defs

set_option autoImplicit false

/-! # Written integers are read back

The text of an integer is an optional minus sign and digits (`exists_sign_digits`), and the
number it denotes is that integer. What digits denote is their value to the base ten
(`ofDigits_eq`).
-/

namespace ExprScript.Decimal

theorem ofDigits_toDigits (n : Nat) : ofDigits (Nat.toDigits 10 n) = n :=
  Nat.ofDigitChars_toDigits (b := 10) (by decide) (by decide)

theorem isDigit_of_mem_toDigits {n : Nat} {x : Char} (h : x ∈ Nat.toDigits 10 n) :
    x.isDigit = true :=
  Nat.isDigit_of_mem_toDigits (by decide) (by decide) h

/-- The text of an integer: a minus sign if it is negative, and then digits. -/
theorem exists_sign_digits (i : Int) :
    ∃ sign ds, (toString i).toList = sign ++ ds ∧ sign = (if i < 0 then ['-'] else []) ∧ ds ≠ [] ∧
      (∀ x ∈ ds, x.isDigit = true) ∧ ofSigned (sign ++ ds) = i := by
  have positive {n : Nat} : ofSigned (Nat.toDigits 10 n) = n := by
    have hne : ∀ ds, Nat.toDigits 10 n ≠ '-' :: ds := by
      intro ds hds
      have hminus := isDigit_of_mem_toDigits (n := n) (x := '-') (by rw [hds]; simp)
      exact absurd hminus (by decide)
    rw [ofSigned, ofDigits_toDigits]
    exact hne
  cases i with
  | ofNat n =>
      refine ⟨[], Nat.toDigits 10 n, ?_, by simp, Nat.toDigits_ne_nil,
        fun x => isDigit_of_mem_toDigits, positive⟩
      show (Nat.repr n).toList = _
      rw [Nat.toList_repr]
      rfl
  | negSucc n =>
      refine ⟨['-'], Nat.toDigits 10 (n + 1), ?_, by simp [Int.negSucc_lt_zero],
        Nat.toDigits_ne_nil, fun x => isDigit_of_mem_toDigits, ?_⟩
      · show ("-" ++ Nat.repr (n + 1)).toList = _
        rw [String.toList_append, Nat.toList_repr]
        rfl
      · show -(ofDigits (Nat.toDigits 10 (n + 1)) : Int) = _
        rw [ofDigits_toDigits]
        rfl

theorem ofDigits_eq (ds : List Char) :
    ofDigits ds = Nat.ofDigits 10 (ds.reverse.map digitValue) := by
  induction ds using List.reverseRecOn with
  | nil => rfl
  | append_singleton ds d ih =>
      rw [List.reverse_append, List.reverse_singleton, List.singleton_append, List.map_cons,
        Nat.ofDigits_cons, ← ih, ofDigits, List.foldl_append, Nat.add_comm]
      rfl

/-- The number that a sign and digits denote. -/
theorem ofSigned_eq {sign ds : List Char} (hsign : sign = [] ∨ sign = ['-'])
    (hds : ∀ x ∈ ds, x.isDigit = true) :
    ofSigned (sign ++ ds) =
      (if sign = [] then 1 else -1) * (Nat.ofDigits 10 (ds.reverse.map digitValue) : Nat) := by
  rw [← ofDigits_eq]
  rcases hsign with rfl | rfl
  · have hminus : ∀ xs, ds ≠ '-' :: xs := by
      rintro xs rfl
      exact absurd (hds '-' (by simp)) (by decide)
    rw [List.nil_append, ofSigned, if_pos rfl, Int.one_mul]
    exact hminus
  · show -(ofDigits ds : Int) = _
    rw [if_neg (by simp), Int.neg_one_mul]

theorem toInt_of_toInt64? {n : Int} {v : Int64} (h : toInt64? n = some v) : v.toInt = n := by
  rw [toInt64?] at h
  split at h
  · rename_i hrange
    obtain rfl := Option.some.inj h
    exact Int64.toInt_ofInt_of_le hrange.1 (Int.lt_add_one_of_le hrange.2)
  · cases h

/-- A 64-bit integer is one. -/
theorem toInt64?_toInt (v : Int64) : toInt64? v.toInt = some v := by
  rw [toInt64?, if_pos ⟨v.minValue_le_toInt, v.toInt_le⟩, Int64.ofInt_toInt]

end ExprScript.Decimal
