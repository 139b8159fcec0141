import Mathlib.Algebra.Group.Int.Defs
import Mathlib.Algebra.Group.Nat.Defs
import Mathlib.Data.List.TakeWhile
import Mathlib.Data.Nat.Notation
import Mathlib.Tactic.Common

/-! # Decimal texts

What `printf` makes of an integer, and what a decimal text says. Nothing here mentions a program.

* `decimal`, `blankPadded`, `zeroPadded`: the conversions `%d`, `%2d` and `%09d`;
* `readDigits`, `readFixed`: the number that a text of digits, or a text with a decimal point, says;
* `blankPadded_eq_iff`: blanks appear exactly where the number is too short;
* `blankPadded_injective`: two numbers are never printed alike;
* `readFixed_print`: a whole part and a fraction printed next to each other, and read as one number.
-/

namespace LinuxAppSamp.Decimal
set_option autoImplicit false
set_option maxHeartbeats 250000

/-! ## Printing -/

def sign (z : ℤ) : List Char := if z < 0 then ['-'] else []

/-- `%d` -/
def decimal (z : ℤ) : List Char := sign z ++ Nat.toDigits 10 z.natAbs

/-- `%2d` for `width = 2`. -/
def blankPadded (width : ℕ) (z : ℤ) : List Char :=
  List.replicate (width - (decimal z).length) ' ' ++ decimal z

/-- `%09d` for `width = 9`. -/
def zeroPadded (width : ℕ) (z : ℤ) : List Char :=
  sign z ++ List.replicate (width - (decimal z).length) '0' ++ Nat.toDigits 10 z.natAbs

/-! ## Reading -/

def readDigits (l : List Char) : Option ℕ :=
  if l ≠ [] ∧ l.all Char.isDigit then some (Nat.ofDigitChars 10 l 0) else none

/-- The decimal fraction `unscaled / 10 ^ scale`. -/
structure Fixed where
  unscaled : ℤ
  scale : ℕ
  deriving DecidableEq, Repr

def readUnsigned (t : List Char) : Option Fixed := do
  let whole ← readDigits (t.takeWhile (· ≠ '.'))
  let frac := (t.dropWhile (· ≠ '.')).drop 1
  let part ← readDigits frac
  some ⟨whole * 10 ^ frac.length + part, frac.length⟩

def readFixed : List Char → Option Fixed
  | '-' :: t => (readUnsigned t).map fun f => ⟨-f.unscaled, f.scale⟩
  | t => readUnsigned t

/-! ## Digits -/

theorem isDigit_toDigits (n : ℕ) (c : Char) (h : c ∈ Nat.toDigits 10 n) : c.isDigit :=
  Nat.isDigit_of_mem_toDigits (by decide) (by decide) h

theorem toDigits_injective (m n : ℕ) (h : Nat.toDigits 10 m = Nat.toDigits 10 n) : m = n := by
  rw [← Nat.ofDigitChars_ten_toDigits (n := m), h, Nat.ofDigitChars_ten_toDigits]

theorem length_toDigits_le (n k : ℕ) (hk : 0 < k) (h : n < 10 ^ k) :
    (Nat.toDigits 10 n).length ≤ k :=
  (Nat.length_toDigits_le_iff (by decide) hk).mpr h

theorem readDigits_toDigits (n : ℕ) : readDigits (Nat.toDigits 10 n) = some n := by
  have hdigits : (Nat.toDigits 10 n).all Char.isDigit = true :=
    List.all_eq_true.mpr (isDigit_toDigits n)
  rw [readDigits, if_pos ⟨Nat.toDigits_ne_nil, hdigits⟩, Nat.ofDigitChars_ten_toDigits]

@[simp] theorem decimal_natCast (n : ℕ) : decimal n = Nat.toDigits 10 n := by
  rw [decimal, sign, if_neg (by omega), List.nil_append, Int.natAbs_natCast]

theorem length_decimal_le (z : ℤ) (k : ℕ) (hk : 0 < k) (h : z.natAbs < 10 ^ k) :
    (decimal z).length ≤ k + 1 := by
  have hdigits := length_toDigits_le z.natAbs k hk h
  have hsign : (sign z).length ≤ 1 := by
    unfold sign
    split <;> decide
  rw [decimal, List.length_append]
  omega

theorem toNat_decimal (z : ℤ) (c : Char) (h : c ∈ decimal z) :
    c.toNat = 45 ∨ 48 ≤ c.toNat ∧ c.toNat ≤ 57 := by
  obtain h | h := List.mem_append.mp h
  · unfold sign at h
    split at h
    · rw [List.mem_singleton.mp h]
      exact Or.inl rfl
    · exact absurd h List.not_mem_nil
  · exact Or.inr (Char.isDigit_iff_toNat.mp (isDigit_toDigits z.natAbs c h))

/-! ## Blanks -/

theorem toNat_blankPadded (width : ℕ) (z : ℤ) (c : Char) (h : c ∈ blankPadded width z) :
    c.toNat = 32 ∨ c.toNat = 45 ∨ 48 ≤ c.toNat ∧ c.toNat ≤ 57 := by
  obtain h | h := List.mem_append.mp h
  · rw [List.eq_of_mem_replicate h]
    exact Or.inl rfl
  · exact Or.inr (toNat_decimal z c h)

theorem blankPadded_eq_iff (width : ℕ) (z : ℤ) :
    blankPadded width z = decimal z ↔ width ≤ (decimal z).length := by
  constructor
  · intro h
    have hlen := congrArg List.length h
    rw [blankPadded, List.length_append, List.length_replicate] at hlen
    omega
  · intro h
    rw [blankPadded, Nat.sub_eq_zero_of_le h, List.replicate_zero, List.nil_append]

theorem length_blankPadded (width : ℕ) (z : ℤ) :
    (blankPadded width z).length = max width (decimal z).length := by
  rw [blankPadded, List.length_append, List.length_replicate]
  omega

/-- The blanks can be taken off again. -/
theorem dropWhile_blankPadded (width n : ℕ) :
    (blankPadded width n).dropWhile (· = ' ') = Nat.toDigits 10 n := by
  rw [blankPadded, decimal_natCast, List.dropWhile_append_of_pos]
  · apply List.dropWhile_eq_self_iff.mpr
    intro hpos
    have hdigit := isDigit_toDigits n _ (List.getElem_mem hpos)
    simp only [decide_eq_true_eq]
    intro hblank
    rw [hblank] at hdigit
    exact absurd hdigit (by decide)
  · intro c hc
    rw [List.eq_of_mem_replicate hc]
    rfl

theorem blankPadded_injective (width m n : ℕ)
    (h : blankPadded width m = blankPadded width n) : m = n := by
  apply toDigits_injective
  rw [← dropWhile_blankPadded width m, h, dropWhile_blankPadded]

/-! ## Fractions -/

theorem zeroPadded_natCast (width n : ℕ) :
    zeroPadded width n =
      List.replicate (width - (Nat.toDigits 10 n).length) '0' ++ Nat.toDigits 10 n := by
  rw [zeroPadded, decimal_natCast, sign, if_neg (by omega), List.nil_append, Int.natAbs_natCast]

theorem length_zeroPadded (width n : ℕ) (hw : 0 < width) (h : n < 10 ^ width) :
    (zeroPadded width n).length = width := by
  have hlen := length_toDigits_le n width hw h
  rw [zeroPadded_natCast, List.length_append, List.length_replicate]
  omega

theorem isDigit_zeroPadded (width n : ℕ) (c : Char) (h : c ∈ zeroPadded width n) : c.isDigit := by
  rw [zeroPadded_natCast] at h
  obtain h | h := List.mem_append.mp h
  · rw [List.eq_of_mem_replicate h]
    rfl
  · exact isDigit_toDigits n c h

theorem readDigits_zeroPadded (width n : ℕ) (hw : 0 < width) (h : n < 10 ^ width) :
    readDigits (zeroPadded width n) = some n := by
  have hne : zeroPadded width n ≠ [] := by
    apply List.length_pos_iff.mp
    rw [length_zeroPadded width n hw h]
    exact hw
  have hdigits : (zeroPadded width n).all Char.isDigit = true :=
    List.all_eq_true.mpr (isDigit_zeroPadded width n)
  rw [readDigits, if_pos ⟨hne, hdigits⟩, zeroPadded_natCast,
    Nat.ofDigitChars_append, Nat.ofDigitChars_replicate_zero, Nat.mul_zero,
    Nat.ofDigitChars_ten_toDigits]

theorem readUnsigned_print (whole width frac : ℕ) (hw : 0 < width) (h : frac < 10 ^ width) :
    readUnsigned (Nat.toDigits 10 whole ++ '.' :: zeroPadded width frac) =
      some ⟨whole * 10 ^ width + frac, width⟩ := by
  have hdigit : ∀ c ∈ Nat.toDigits 10 whole, decide (c ≠ '.') = true := by
    intro c hc
    have hc := isDigit_toDigits whole c hc
    apply decide_eq_true
    intro hpoint
    rw [hpoint] at hc
    exact absurd hc (by decide)
  have htake : (Nat.toDigits 10 whole ++ '.' :: zeroPadded width frac).takeWhile (· ≠ '.') =
      Nat.toDigits 10 whole := by
    rw [List.takeWhile_append_of_pos hdigit, List.takeWhile_cons_of_neg (by decide),
      List.append_nil]
  have hdrop : (Nat.toDigits 10 whole ++ '.' :: zeroPadded width frac).dropWhile (· ≠ '.') =
      '.' :: zeroPadded width frac := by
    rw [List.dropWhile_append_of_pos hdigit, List.dropWhile_cons_of_neg (by decide)]
  rw [readUnsigned, htake, hdrop, readDigits_toDigits]
  show ((readDigits (zeroPadded width frac)).bind fun part =>
    some (⟨whole * 10 ^ (zeroPadded width frac).length + part, (zeroPadded width frac).length⟩ :
      Fixed)) = _
  rw [readDigits_zeroPadded width frac hw h, length_zeroPadded width frac hw h, Option.bind_some]

/-- A negative whole part takes the fraction with it to the negative side. -/
theorem readFixed_print (z : ℤ) (width frac : ℕ) (hw : 0 < width) (h : frac < 10 ^ width) :
    readFixed (decimal z ++ '.' :: zeroPadded width frac) =
      some ⟨if z < 0 then z * 10 ^ width - frac else z * 10 ^ width + frac, width⟩ := by
  have hread := readUnsigned_print z.natAbs width frac hw h
  by_cases hz : z < 0
  · have habs : (z.natAbs : ℤ) = -z := by omega
    rw [decimal, sign, if_pos hz, if_pos hz]
    show (readUnsigned (Nat.toDigits 10 z.natAbs ++ '.' :: zeroPadded width frac)).map _ = _
    rw [hread, Option.map_some, habs]
    congr 2
    rw [Int.neg_mul, Int.neg_add, Int.neg_neg, Int.sub_eq_add_neg]
  · have habs : (z.natAbs : ℤ) = z := by omega
    rw [decimal, sign, if_neg hz, if_neg hz, List.nil_append, ← habs, ← hread, habs]
    cases hdigits : Nat.toDigits 10 z.natAbs with
    | nil => exact absurd hdigits Nat.toDigits_ne_nil
    | cons c cs =>
      have hc : c.isDigit := by
        apply isDigit_toDigits z.natAbs
        rw [hdigits]
        exact List.mem_cons_self
      rw [List.cons_append, readFixed]
      intro t ht
      cases ht
      exact absurd hc (by decide)

end LinuxAppSamp.Decimal
