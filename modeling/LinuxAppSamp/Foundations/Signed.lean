import LinuxAppSamp.Foundations.Buffer

/-! # Signed arithmetic of a fixed width

C leaves the overflow of a signed operation undefined. `checked w z` is the value `z` of an operation
at width `w`, or a fault; `toInt` is the same for an `int` that is never negative. `wrap w z` is what
a machine that wraps around leaves. Nothing here mentions a program.
-/

namespace LinuxAppSamp.Signed
open Memory
set_option autoImplicit false
set_option maxHeartbeats 250000

/-- The widths of `long`. -/
inductive Width
  | w32
  | w64
  deriving DecidableEq, Repr

def Width.limit : Width → ℤ
  | .w32 => 2147483648
  | .w64 => 9223372036854775808

def InRange (w : Width) (z : ℤ) : Prop := -w.limit ≤ z ∧ z < w.limit

instance (w : Width) (z : ℤ) : Decidable (InRange w z) := by
  unfold InRange
  infer_instance

def checked (w : Width) (z : ℤ) : Except Fault ℤ :=
  if InRange w z then .ok z else .error .intRange

theorem checked_ok {w : Width} {z : ℤ} (h : InRange w z) : checked w z = .ok z := if_pos h

/-- What comes after a check sees a value in range. -/
theorem checked_bind {α : Type} {w : Width} {z : ℤ} {f : ℤ → Except Fault α} {a : α}
    (h : checked w z >>= f = .ok a) : InRange w z ∧ f z = .ok a := by
  by_cases hz : InRange w z
  · rw [checked_ok hz, ok_bind] at h
    exact ⟨hz, h⟩
  · rw [checked, if_neg hz, error_bind] at h
    cases h

/-- Between two values that fit, every value fits. -/
theorem inRange_of_between {w : Width} {a z b : ℤ} (ha : InRange w a) (hb : InRange w b)
    (haz : a ≤ z) (hzb : z ≤ b) : InRange w z := by
  obtain ⟨ha, -⟩ := ha
  obtain ⟨-, hb⟩ := hb
  exact ⟨by omega, by omega⟩

/-- What fits in 32 bits fits in every width. -/
theorem inRange_of_w32 (w : Width) {z : ℤ} (h : InRange .w32 z) : InRange w z := by
  cases w with
  | w32 => exact h
  | w64 =>
    obtain ⟨hl, hu⟩ := h
    simp only [Width.limit] at hl hu
    constructor <;> simp only [Width.limit] <;> omega

/-! ## Values of an `int` that are never negative -/

def intMax : ℕ := 2147483647

def toInt (n : ℕ) : Except Fault ℕ := if n ≤ intMax then .ok n else .error .intRange

theorem toInt_ok (n : ℕ) (h : n ≤ intMax) : toInt n = .ok n := if_pos h

theorem inRange_of_le_intMax {n : ℕ} (h : n ≤ intMax) : InRange .w32 n := by
  unfold intMax at h
  constructor <;> simp only [Width.limit] <;> omega

/-! ## Wrapping around -/

/-- The number of values of the width. -/
def Width.size : Width → ℕ
  | .w32 => 4294967296
  | .w64 => 18446744073709551616

def wrap (w : Width) (z : ℤ) : ℤ := z.bmod w.size

theorem wrap_of_inRange {w : Width} {z : ℤ} (h : InRange w z) : wrap w z = z := by
  obtain ⟨hl, hu⟩ := h
  apply Int.bmod_eq_of_le_mul_two
  all_goals
    cases w
    all_goals
      simp only [Width.limit, Width.size] at *
      omega

theorem inRange_wrap (w : Width) (z : ℤ) : InRange w (wrap w z) := by
  have hpos : 0 < w.size := by cases w <;> decide
  have hl : -((w.size / 2 : ℕ) : ℤ) ≤ wrap w z := Int.le_bmod hpos
  have hu : wrap w z < ((w.size + 1) / 2 : ℕ) := Int.bmod_lt hpos
  constructor
  all_goals
    cases w
    all_goals
      simp only [Width.limit, Width.size] at *
      omega

/-- One more than a value that has wrapped around. -/
theorem wrap_wrap_succ (w : Width) (z : ℤ) : wrap w (wrap w z + 1) = wrap w (z + 1) :=
  Int.bmod_add_bmod

end LinuxAppSamp.Signed
