import LinuxAppSamp.Clock.Elapsed
import LinuxAppSamp.Foundations.Decimal

/-! # The printed time: `time_nanosecond.c`

`disp_elapsed` joins the seconds and the nanoseconds with a point. The clock may be set back between
the readings, and then the seconds carry a sign that the fraction does not. `read_printed` says
which number the text denotes, and `printed_denotes_iff` when it is the difference.
-/

namespace LinuxAppSamp.Clock
open Memory Signed Decimal
set_option autoImplicit false
set_option maxHeartbeats 250000

/-- `%ld.%09ld` -/
def Nanosecond.printed (e : Nanosecond.Elapsed) : List Char :=
  decimal e.dsec ++ '.' :: zeroPadded 9 e.dnsec

section
variable {w : Width} (tp1 tp2 : Timespec w)

/-- The function gets through, prints nine digits of fraction, and its text denotes the difference
in seconds. -/
def Denotes : Prop :=
  ∃ e f, Nanosecond.dispElapsed tp1 tp2 = .ok e ∧ 0 ≤ e.dnsec ∧ e.dnsec < 1000000000 ∧
    (zeroPadded 9 e.dnsec).length = 9 ∧ (∀ c ∈ zeroPadded 9 e.dnsec, c.isDigit) ∧
    readFixed (Nanosecond.printed e) = some f ∧
    f.unscaled * 1000000000 = (tp2.nanos - tp1.nanos) * 10 ^ f.scale

/-! ## The number in the text -/

/-- Behind negative seconds the fraction counts downwards. -/
theorem read_printed (e : Nanosecond.Elapsed) (h0 : 0 ≤ e.dnsec) (h1 : e.dnsec < 1000000000) :
    readFixed (Nanosecond.printed e) =
      some ⟨if e.dsec < 0 then e.dsec * 10 ^ 9 - e.dnsec else e.dsec * 10 ^ 9 + e.dnsec, 9⟩ := by
  have hnat : (e.dnsec.toNat : ℤ) = e.dnsec := Int.toNat_of_nonneg h0
  have hread := readFixed_print e.dsec 9 e.dnsec.toNat (by decide) (by omega)
  rw [hnat] at hread
  exact hread

theorem nine_digits (e : Nanosecond.Elapsed) (h0 : 0 ≤ e.dnsec) (h1 : e.dnsec < 1000000000) :
    (zeroPadded 9 e.dnsec).length = 9 ∧ ∀ c ∈ zeroPadded 9 e.dnsec, c.isDigit := by
  have hnat : (e.dnsec.toNat : ℤ) = e.dnsec := Int.toNat_of_nonneg h0
  have hlen := length_zeroPadded 9 e.dnsec.toNat (by decide) (by omega)
  have hdigit := isDigit_zeroPadded 9 e.dnsec.toNat
  rw [hnat] at hlen hdigit
  exact ⟨hlen, hdigit⟩

/-- The text denotes the pair that it is printed from, unless the seconds are negative and the
fraction is not zero. -/
theorem read_printed_iff (e : Nanosecond.Elapsed) (h0 : 0 ≤ e.dnsec) (h1 : e.dnsec < 1000000000)
    (d : ℤ) (hd : e.dsec * 1000000000 + e.dnsec = d) :
    (∃ f, readFixed (Nanosecond.printed e) = some f ∧
      f.unscaled * 1000000000 = d * 10 ^ f.scale) ↔ 0 ≤ e.dsec ∨ e.dnsec = 0 := by
  rw [read_printed e h0 h1]
  constructor
  · rintro ⟨f, hf, heq⟩
    rw [← Option.some.inj hf] at heq
    by_cases hneg : e.dsec < 0
    · simp only [if_pos hneg] at heq
      omega
    · exact Or.inl (Int.not_lt.mp hneg)
  · intro h
    refine ⟨_, rfl, ?_⟩
    by_cases hneg : e.dsec < 0
    · simp only [if_pos hneg]
      omega
    · simp only [if_neg hneg]
      omega

/-! ## Readings in either order -/

theorem borrow_inv {e : Nanosecond.Elapsed} (h : Nanosecond.dispElapsed tp1 tp2 = .ok e) :
    InRange w (tp2.sec - tp1.sec) ∧
      (tp2.nsec < tp1.nsec → InRange w (tp2.sec - tp1.sec - 1)) := by
  obtain ⟨hsec, h⟩ := checked_bind h
  obtain ⟨-, h⟩ := checked_bind h
  refine ⟨hsec, fun hlt => ?_⟩
  rw [if_pos (by omega)] at h
  exact (checked_bind h).1

/-- **The text denotes the difference exactly when the seconds fit and the clock went forward, or
back by whole seconds.** -/
theorem printed_denotes_iff :
    Denotes tp1 tp2 ↔
      InRange w (tp2.sec - tp1.sec) ∧ (tp1.nanos ≤ tp2.nanos ∨ tp1.nsec = tp2.nsec) := by
  have hdiff := nanos_sub tp1 tp2
  obtain ⟨h1, h1'⟩ := tp1.normal
  obtain ⟨h2, h2'⟩ := tp2.normal
  constructor
  · rintro ⟨e, f, he, h0, hlt, -, -, hread, heq⟩
    obtain ⟨hsec, hborrow⟩ := borrow_inv tp1 tp2 he
    obtain ⟨e', he', hnanos, -⟩ := borrow_spec tp1 tp2 hsec hborrow
    cases he.symm.trans he'
    have hcase := (read_printed_iff e h0 hlt _ hnanos).mp ⟨f, hread, heq⟩
    refine ⟨hsec, ?_⟩
    omega
  · rintro ⟨hsec, hcase⟩
    have hborrow : tp2.nsec < tp1.nsec → InRange w (tp2.sec - tp1.sec - 1) := by
      intro hlt
      exact borrow_fits tp1 tp2 (by omega) hsec hlt
    obtain ⟨e, he, hnanos, h0, hlt⟩ := borrow_spec tp1 tp2 hsec hborrow
    obtain ⟨hlen, hdigit⟩ := nine_digits e h0 hlt
    obtain ⟨f, hread, heq⟩ := (read_printed_iff e h0 hlt _ hnanos).mpr (by omega)
    exact ⟨e, f, he, h0, hlt, hlen, hdigit, hread, heq⟩

end

def atTen : Timespec .w64 := wholeSeconds .w64 10 (by decide)

def atNineAndHalf : Timespec .w64 := reading .w64 9 500000000 (by decide) (by decide)

/-- Half a second back is printed as `-1.500000000`. -/
theorem printed_wrong :
    ¬ ∀ (w : Width) (tp1 tp2 : Timespec w), Denotes tp1 tp2 := by
  intro h
  obtain ⟨e, f, he, h0, hlt, -, -, hread, heq⟩ := h .w64 atTen atNineAndHalf
  have hpair : Nanosecond.dispElapsed atTen atNineAndHalf = .ok ⟨-1, 500000000⟩ := by decide
  cases hpair.symm.trans he
  rw [read_printed _ h0 hlt] at hread
  rw [← Option.some.inj hread] at heq
  exact absurd heq (by decide)

end LinuxAppSamp.Clock
