import ExprScript.Json.Printer
import ExprScript.Json.Reader
import ExprScript.Proofs.Source.Decimal
import Mathlib.Data.List.Basic

set_option autoImplicit false

/-! # JSON strings and numbers are read back

What the printer writes for a string or for an integer of 64 bits, the reader reads as that string
(`stringContent_escapes`) or that integer (`number?_digits`).
-/

namespace ExprScript.Json

/-! ## Strings -/

section

variable {c x : Char} {cs s rest : List Char}

theorem hexDigit?_hexDigit {n : Nat} (h : n < 16) : hexDigit? (hexDigit n) = some n := by
  have hall : ∀ n < 16, hexDigit? (hexDigit n) = some n := by decide
  exact hall n h

/-- A backslash and a letter. -/
theorem stringContent_pair (hx : escaped? x = some c) (h : stringContent cs = some (s, rest)) :
    stringContent ('\\' :: x :: cs) = some (c :: s, rest) := by
  rw [stringContent, hx, h]
  · rfl
  · rintro a b d e ds rfl
    cases hx

/-- A backslash and the code of a character below the space. -/
theorem stringContent_code (hc : c.toNat < 0x20) (h : stringContent cs = some (s, rest)) :
    stringContent ('\\' :: 'u' :: '0' :: '0' :: hexDigit (c.toNat / 16) ::
      hexDigit (c.toNat % 16) :: cs) = some (c :: s, rest) := by
  have hcode : hex4? '0' '0' (hexDigit (c.toNat / 16)) (hexDigit (c.toNat % 16)) =
      some c.toNat := by
    have hdigits : ((0 * 16 + 0) * 16 + c.toNat / 16) * 16 + c.toNat % 16 = c.toNat := by omega
    unfold hex4?
    rw [hexDigit?_hexDigit (by omega), hexDigit?_hexDigit (by omega)]
    exact congrArg some hdigits
  have hlow : isLowSurrogate c.toNat = false := by
    unfold isLowSurrogate
    simp only [Bool.and_eq_false_iff, decide_eq_false_iff_not]
    omega
  have hhigh : isHighSurrogate c.toNat = false := by
    unfold isHighSurrogate
    simp only [Bool.and_eq_false_iff, decide_eq_false_iff_not]
    omega
  rw [stringContent, hcode]
  simp only [hlow, hhigh, h, Bool.false_eq_true, if_false, Char.ofNat_toNat, Option.map_some]

/-- A character that stands for itself. -/
theorem stringContent_plain (hquote : c ≠ '"') (hback : c ≠ '\\') (hc : 0x20 ≤ c.toNat)
    (h : stringContent cs = some (s, rest)) :
    stringContent (c :: cs) = some (c :: s, rest) := by
  have hplain : (c == '\\' || decide (c.toNat < 0x20)) = false := by
    simp only [Bool.or_eq_false_iff, beq_eq_false_iff_ne, decide_eq_false_iff_not]
    exact ⟨hback, by omega⟩
  rw [stringContent, hplain, h]
  · rfl
  · exact fun heq => hquote heq
  · exact fun _ _ _ _ _ heq => absurd heq hback
  · exact fun _ _ heq => absurd heq hback

/-- A character in a string is read as it is written. -/
theorem stringContent_escape (c : Char) (h : stringContent cs = some (s, rest)) :
    stringContent (escape c ++ cs) = some (c :: s, rest) := by
  unfold escape
  split
  case h_8 hquote hback _ _ _ _ _ =>
    split
    · rename_i hcontrol
      exact stringContent_code hcontrol h
    · rename_i hplain
      exact stringContent_plain hquote hback (by omega) h
  all_goals exact stringContent_pair rfl h

theorem stringContent_escapes (t rest : List Char) :
    stringContent (t.flatMap escape ++ '"' :: rest) = some (t, rest) := by
  induction t with
  | nil => rw [List.flatMap_nil, List.nil_append, stringContent]
  | cons c t ih =>
      rw [List.flatMap_cons, List.append_assoc]
      exact stringContent_escape c ih

/-- The text of a string. -/
theorem toList_quote (t : String) :
    (quote t).toList = '"' :: (t.toList.flatMap escape ++ ['"']) := by
  simp only [quote, String.toList_append, String.toList_ofList]
  rfl

end

/-! ## The range of numbers -/

theorem roundDouble_le (n : Nat) : roundDouble n ≤ 2 * n := by
  have hunit : n ≠ 0 → Nat.pow 2 (n.log2 + 1 - precision) ≤ n := by
    intro hn
    calc Nat.pow 2 (n.log2 + 1 - precision)
        ≤ Nat.pow 2 n.log2 := Nat.pow_le_pow_right (by decide) (by unfold precision; omega)
      _ ≤ n := Nat.log2_self_le hn
  unfold roundDouble
  by_cases hn : n = 0
  · subst hn
    decide
  · have hle := hunit hn
    generalize Nat.pow 2 (n.log2 + 1 - precision) = unit at hle
    have hdiv : n / unit * unit ≤ n := Nat.div_mul_le_self n unit
    dsimp only
    split
    · omega
    · rw [Nat.add_mul]
      omega

/-- An integer of 64 bits is in range. -/
theorem productOverflows_zero {n : Nat} (h : n < UInt64.size) : productOverflows n 0 = false := by
  have hone : roundDouble (Nat.pow 10 0) = 1 := by decide
  have hproduct : roundDouble (roundDouble n * 1) < doubleLimit := by
    have houter := roundDouble_le (roundDouble n * 1)
    have hinner := roundDouble_le n
    have hlimit : 4 * UInt64.size < doubleLimit := by
      unfold doubleLimit
      -- the power is not to be computed
      generalize hk : 1024 = k
      calc 4 * UInt64.size = Nat.pow 2 66 := by decide
        _ < Nat.pow 2 k := Nat.pow_lt_pow_right (by decide) (by omega)
    omega
  show (decide (n ≠ 0) && (decide (maxPower < 0) ||
    decide (doubleLimit ≤ roundDouble (roundDouble n * roundDouble (Nat.pow 10 0))))) = false
  rw [hone, decide_eq_false (Nat.not_le.2 hproduct), decide_eq_false (by decide : ¬ maxPower < 0)]
  exact Bool.and_false _

/-- The number that digits behind the number `m` make. -/
def digitsFrom (m : Nat) (ds : List Char) : Nat :=
  ds.foldl (fun n d => 10 * n + Decimal.digitValue d) m

theorem le_digitsFrom (m : Nat) (ds : List Char) : m ≤ digitsFrom m ds := by
  induction ds generalizing m with
  | nil => exact Nat.le_refl m
  | cons d ds ih =>
      calc m ≤ 10 * m + Decimal.digitValue d := by omega
        _ ≤ digitsFrom (10 * m + Decimal.digitValue d) ds := ih _

/-- All digits are taken as long as 64 bits hold the number. -/
theorem absorb_eq {m : Nat} {ds : List Char} (h : digitsFrom m ds < UInt64.size) :
    absorb m ds = (digitsFrom m ds, []) := by
  induction ds generalizing m with
  | nil => rfl
  | cons d ds ih =>
      have hnext : m * 10 + Decimal.ofDigits [d] = 10 * m + Decimal.digitValue d := by
        show m * 10 + (10 * 0 + Decimal.digitValue d) = _
        omega
      have hlt : 10 * m + Decimal.digitValue d < UInt64.size :=
        Nat.lt_of_le_of_lt (le_digitsFrom _ ds) h
      rw [absorb, hnext, if_pos hlt, ih h]
      rfl

/-! ## Integers -/

/-- The text behind a number does not go on with it. -/
def EndsNumber (cs : List Char) : Prop :=
  ∀ c, cs.head? = some c → c.isDigit = false ∧ c ≠ '.' ∧ c ≠ 'e' ∧ c ≠ 'E'

/-- The digits of a number begin with a zero only if that is all. -/
theorem head?_toDigits {n : Nat} (hn : n ≠ 0) : (Nat.toDigits 10 n).head? ≠ some '0' := by
  induction n using Nat.strongRecOn with
  | ind n ih =>
      by_cases hlt : n < 10
      · have hall : ∀ n < 10, n ≠ 0 → some n.digitChar ≠ some '0' := by decide
        rw [Nat.toDigits_of_lt_base hlt]
        exact hall n hlt hn
      · have hdiv := ih (n / 10) (by omega) (by omega)
        rw [Nat.toDigits_of_base_le (by decide) (by omega),
          List.head?_append_of_ne_nil _ Nat.toDigits_ne_nil]
        exact hdiv

theorem integerDigits?_toDigits (n : Nat) {rest : List Char} (hrest : EndsNumber rest) :
    integerDigits? (Nat.toDigits 10 n ++ rest) = some (Nat.toDigits 10 n, rest) := by
  by_cases hn : n = 0
  · subst hn
    rfl
  · have hdigits : ∀ x ∈ Nat.toDigits 10 n, x.isDigit = true :=
      fun x => Decimal.isDigit_of_mem_toDigits
    have hend : rest.takeWhile Char.isDigit = [] ∧ rest.dropWhile Char.isDigit = rest := by
      obtain _ | ⟨c, cs⟩ := rest
      · exact ⟨rfl, rfl⟩
      · have hc := (hrest c rfl).1
        exact ⟨List.takeWhile_cons_of_neg (by simp [hc]), List.dropWhile_cons_of_neg (by simp [hc])⟩
    have hplain : integerDigits? (Nat.toDigits 10 n ++ rest) =
        digits? (Nat.toDigits 10 n ++ rest) := by
      obtain ⟨d, ds, hds⟩ := List.exists_cons_of_ne_nil (Nat.toDigits_ne_nil (n := n) (b := 10))
      have hhead := head?_toDigits hn
      rw [hds] at hhead ⊢
      rw [List.cons_append, integerDigits?]
      rintro ds' heq
      exact hhead (congrArg some (List.cons.inj heq).1)
    rw [hplain, digits?, List.takeWhile_append_of_pos hdigits, hend.1, List.append_nil,
      List.dropWhile_append_of_pos hdigits, hend.2]
    obtain ⟨d, ds, hds⟩ := List.exists_cons_of_ne_nil (Nat.toDigits_ne_nil (n := n) (b := 10))
    rw [hds]

theorem fraction?_of_endsNumber {rest : List Char} (hrest : EndsNumber rest) :
    fraction? rest = some ([], rest) := by
  rw [fraction?]
  rintro cs rfl
  exact absurd rfl (hrest '.' rfl).2.1

theorem exponent?_of_endsNumber {rest : List Char} (hrest : EndsNumber rest) :
    exponent? rest = some ([], 0, rest) := by
  obtain _ | ⟨c, cs⟩ := rest
  · rfl
  · obtain ⟨-, -, hlower, hupper⟩ := hrest c rfl
    unfold exponent?
    exact if_neg (by simp [hlower, hupper])

/-- **An integer of 64 bits is read as it is written**, but for its sign. -/
theorem number?_digits (negative : Bool) {n : Nat} (hn : n < UInt64.size)
    (hsign : negative = true → n ≠ 0) {rest : List Char} (hrest : EndsNumber rest) :
    number? negative (Nat.toDigits 10 n ++ rest) =
      some (.int (if negative then -(n : Int) else n), rest) := by
  have hvalue : digitsFrom 0 (Nat.toDigits 10 n) = n := Decimal.ofDigits_toDigits n
  have hrange : outOfRange (Nat.toDigits 10 n) [] 0 = false := by
    unfold outOfRange
    rw [absorb_eq (by rwa [hvalue]), hvalue]
    exact productOverflows_zero hn
  unfold number?
  rw [integerDigits?_toDigits n hrest]
  simp only [Option.bind_eq_bind, Option.bind_some]
  rw [fraction?_of_endsNumber hrest]
  simp only [Option.bind_some]
  rw [exponent?_of_endsNumber hrest]
  simp only [Option.bind_some]
  have hinteger : (!(negative && n == 0)) = true := by
    cases negative with
    | false => rfl
    | true => simp [hsign rfl]
  rw [hrange, Decimal.ofDigits_toDigits, hinteger]
  rfl

end ExprScript.Json
