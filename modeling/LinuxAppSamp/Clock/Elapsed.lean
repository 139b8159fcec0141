import LinuxAppSamp.Foundations.Signed

/-! # Elapsed times: `time_nanosecond.c` and `app_03timeOfCalc.c`

Both programs read `CLOCK_REALTIME` twice. `time_nanosecond.c` subtracts the fields and borrows a
second; `app_03timeOfCalc.c` multiplies the seconds out into one `long` of nanoseconds.
`borrow_spec` and `figures_spec` say when each function gets through its signed arithmetic and with
which values; `elapsed_exact_iff` puts them together.
-/

namespace LinuxAppSamp.Clock
open Memory Signed
set_option autoImplicit false
set_option maxHeartbeats 250000

/-- A normalised `struct timespec`; `time_t` is as wide as `long`. -/
structure Timespec (w : Width) where
  sec : ℤ
  nsec : ℤ
  secFits : InRange w sec
  normal : 0 ≤ nsec ∧ nsec < 1000000000
  deriving DecidableEq, Repr

/-- The instant that a reading stands for, in nanoseconds. -/
def Timespec.nanos {w : Width} (tp : Timespec w) : ℤ := tp.sec * 1000000000 + tp.nsec

/-! ## `disp_elapsed` of `time_nanosecond.c` -/

namespace Nanosecond

structure Elapsed where
  dsec : ℤ
  dnsec : ℤ
  deriving DecidableEq, Repr

def dispElapsed {w : Width} (tp1 tp2 : Timespec w) : Except Fault Elapsed := do
  let dsec ← checked w (tp2.sec - tp1.sec)
  let dnsec ← checked w (tp2.nsec - tp1.nsec)
  if dnsec < 0 then do
    let dsec ← checked w (dsec - 1)
    -- `dnsec += 1e9L` is computed in `long double`, where this sum is exact
    let dnsec ← checked w (dnsec + 1000000000)
    .ok ⟨dsec, dnsec⟩
  else .ok ⟨dsec, dnsec⟩

end Nanosecond

/-! ## `disp_elapsed` of `app_03timeOfCalc.c` -/

namespace TimeOfCalc

/-- The three figures that are printed. -/
structure Figures where
  nsec : ℤ
  usec : ℤ
  msec : ℤ
  deriving DecidableEq, Repr

def dispElapsed {w : Width} (tp1 tp2 : Timespec w) : Except Fault Figures := do
  let dsec ← checked w (tp2.sec - tp1.sec)
  let dnsec ← checked w (tp2.nsec - tp1.nsec)
  let product ← checked w (dsec * 1000000000)
  let dnsec ← checked w (dnsec + product)
  .ok ⟨dnsec, dnsec.tdiv 1000, (dnsec.tdiv 1000).tdiv 1000⟩

end TimeOfCalc

/-! ## What the functions compute -/

section
variable {w : Width} (tp1 tp2 : Timespec w)

theorem nanos_sub :
    tp2.nanos - tp1.nanos = (tp2.sec - tp1.sec) * 1000000000 + (tp2.nsec - tp1.nsec) := by
  unfold Timespec.nanos
  omega

/-- Nanosecond fields fit in every `long`, and so do their differences. -/
theorem nsec_fits : InRange w (tp2.nsec - tp1.nsec) := by
  obtain ⟨h1, h1'⟩ := tp1.normal
  obtain ⟨h2, h2'⟩ := tp2.normal
  apply inRange_of_w32
  constructor <;> simp only [Width.limit] <;> omega

/-- The pair of `time_nanosecond.c`, where the seconds leave room for the borrow. -/
theorem borrow_spec (hsec : InRange w (tp2.sec - tp1.sec))
    (hborrow : tp2.nsec < tp1.nsec → InRange w (tp2.sec - tp1.sec - 1)) :
    ∃ e, Nanosecond.dispElapsed tp1 tp2 = .ok e ∧
      e.dsec * 1000000000 + e.dnsec = tp2.nanos - tp1.nanos ∧
      0 ≤ e.dnsec ∧ e.dnsec < 1000000000 := by
  obtain ⟨h1, h1'⟩ := tp1.normal
  obtain ⟨h2, h2'⟩ := tp2.normal
  have hdiff := nanos_sub tp1 tp2
  rw [Nanosecond.dispElapsed, checked_ok hsec, ok_bind, checked_ok (nsec_fits tp1 tp2), ok_bind]
  by_cases hneg : tp2.nsec - tp1.nsec < 0
  · have hfits : InRange w (tp2.nsec - tp1.nsec + 1000000000) := by
      apply inRange_of_w32
      constructor <;> simp only [Width.limit] <;> omega
    rw [if_pos hneg, checked_ok (hborrow (by omega)), ok_bind, checked_ok hfits, ok_bind]
    refine ⟨_, rfl, ?_, ?_, ?_⟩
    · show (tp2.sec - tp1.sec - 1) * 1000000000 + (tp2.nsec - tp1.nsec + 1000000000) = _
      omega
    · show 0 ≤ tp2.nsec - tp1.nsec + 1000000000
      omega
    · show tp2.nsec - tp1.nsec + 1000000000 < 1000000000
      omega
  · rw [if_neg hneg]
    refine ⟨_, rfl, hdiff.symm, ?_, ?_⟩
    · show 0 ≤ tp2.nsec - tp1.nsec
      omega
    · show tp2.nsec - tp1.nsec < 1000000000
      omega

/-- The function gets through when the product and the sum fit; the figures are then the quotients
of the true difference. -/
theorem figures_spec (f : TimeOfCalc.Figures) :
    TimeOfCalc.dispElapsed tp1 tp2 = .ok f ↔
      InRange w (tp2.sec - tp1.sec) ∧ InRange w ((tp2.sec - tp1.sec) * 1000000000) ∧
      InRange w (tp2.nanos - tp1.nanos) ∧
      f = ⟨tp2.nanos - tp1.nanos, (tp2.nanos - tp1.nanos).tdiv 1000,
        ((tp2.nanos - tp1.nanos).tdiv 1000).tdiv 1000⟩ := by
  have hdiff : tp2.nsec - tp1.nsec + (tp2.sec - tp1.sec) * 1000000000 = tp2.nanos - tp1.nanos := by
    rw [nanos_sub, Int.add_comm]
  rw [TimeOfCalc.dispElapsed, ← hdiff]
  constructor
  · intro h
    obtain ⟨hsec, h⟩ := checked_bind h
    obtain ⟨-, h⟩ := checked_bind h
    obtain ⟨hproduct, h⟩ := checked_bind h
    obtain ⟨hsum, h⟩ := checked_bind h
    exact ⟨hsec, hproduct, hsum, (Except.ok.inj h).symm⟩
  · rintro ⟨hsec, hproduct, hsum, rfl⟩
    rw [checked_ok hsec, ok_bind, checked_ok (nsec_fits tp1 tp2), ok_bind, checked_ok hproduct,
      ok_bind, checked_ok hsum, ok_bind]

/-- Forward in time there is a second to borrow. -/
theorem borrow_fits (h : tp1.nanos ≤ tp2.nanos) (hsec : InRange w (tp2.sec - tp1.sec))
    (hlt : tp2.nsec < tp1.nsec) : InRange w (tp2.sec - tp1.sec - 1) := by
  have hdiff := nanos_sub tp1 tp2
  have hzero : InRange w 0 := inRange_of_w32 w (by decide)
  exact inRange_of_between hzero hsec (by omega) (by omega)

/-! ## Both against the true difference -/

/-- Both functions get through and agree on the true difference, and the coarser figures are its
floors. -/
def Exact : Prop :=
  ∃ f e, TimeOfCalc.dispElapsed tp1 tp2 = .ok f ∧ Nanosecond.dispElapsed tp1 tp2 = .ok e ∧
    f.nsec = tp2.nanos - tp1.nanos ∧ f.nsec = e.dsec * 1000000000 + e.dnsec ∧
    f.usec = (tp2.nanos - tp1.nanos) / 1000 ∧ f.msec = (tp2.nanos - tp1.nanos) / 1000000

/-- Forward in time, only the seconds and the two results of the multiplying function count. -/
theorem exact_iff_fits (h : tp1.nanos ≤ tp2.nanos) :
    Exact tp1 tp2 ↔
      InRange w (tp2.sec - tp1.sec) ∧ InRange w ((tp2.sec - tp1.sec) * 1000000000) ∧
      InRange w (tp2.nanos - tp1.nanos) := by
  constructor
  · rintro ⟨f, e, hf, -⟩
    obtain ⟨hsec, hproduct, hsum, -⟩ := (figures_spec tp1 tp2 f).mp hf
    exact ⟨hsec, hproduct, hsum⟩
  · rintro ⟨hsec, hproduct, hsum⟩
    obtain ⟨e, he, hnanos, -⟩ := borrow_spec tp1 tp2 hsec (borrow_fits tp1 tp2 h hsec)
    refine ⟨_, e, (figures_spec tp1 tp2 _).mpr ⟨hsec, hproduct, hsum, rfl⟩, he, rfl, hnanos.symm,
      ?_, ?_⟩
    · exact Int.tdiv_eq_ediv_of_nonneg (by omega)
    · show ((tp2.nanos - tp1.nanos).tdiv 1000).tdiv 1000 = _
      have hmicro : (tp2.nanos - tp1.nanos).tdiv 1000 = (tp2.nanos - tp1.nanos) / 1000 :=
        Int.tdiv_eq_ediv_of_nonneg (by omega)
      rw [hmicro, Int.tdiv_eq_ediv_of_nonneg (by omega)]
      omega

/-- **A `long` of 64 bits holds every difference; one of 32 bits holds no product of 3 seconds and
no sum beyond its 2147483647 nanoseconds.** -/
theorem elapsed_exact_iff (h : tp1.nanos ≤ tp2.nanos)
    (hfit : (tp2.nanos - tp1.nanos) / 1000000000 ≤ 2147483647) :
    Exact tp1 tp2 ↔
      w = .w64 ∨ tp2.sec - tp1.sec ≤ 2 ∧ tp2.nanos - tp1.nanos ≤ 2147483647 := by
  have hdiff := nanos_sub tp1 tp2
  obtain ⟨h1, h1'⟩ := tp1.normal
  obtain ⟨h2, h2'⟩ := tp2.normal
  rw [exact_iff_fits tp1 tp2 h]
  cases w with
  | w32 =>
    have hw : ¬ (Width.w32 = .w64) := by decide
    simp only [InRange, Width.limit, hw, false_or]
    omega
  | w64 =>
    simp only [InRange, Width.limit, true_or, iff_true]
    omega

end

theorem natCast_fits (w : Width) (sec : ℕ) (hs : sec < 2147483648) : InRange w sec := by
  apply inRange_of_w32
  constructor <;> simp only [Width.limit] <;> omega

theorem natCast_normal (nsec : ℕ) (hn : nsec < 1000000000) :
    0 ≤ (nsec : ℤ) ∧ (nsec : ℤ) < 1000000000 := by
  omega

def reading (w : Width) (sec nsec : ℕ) (hs : sec < 2147483648) (hn : nsec < 1000000000) :
    Timespec w :=
  ⟨sec, nsec, natCast_fits w sec hs, natCast_normal nsec hn⟩

def wholeSeconds (w : Width) (sec : ℕ) (hs : sec < 2147483648) : Timespec w :=
  reading w sec 0 hs (Nat.succ_pos _)

def atNineTenths : Timespec .w32 := reading .w32 0 900000000 (by decide) (by decide)

def atThree : Timespec .w32 := wholeSeconds .w32 3 (by decide)

theorem elapsed_exact_atThree :
    Exact atNineTenths atThree ↔
      Width.w32 = .w64 ∨ atThree.sec - atNineTenths.sec ≤ 2 ∧
        atThree.nanos - atNineTenths.nanos ≤ 2147483647 :=
  elapsed_exact_iff atNineTenths atThree (by decide) (by decide)

/-- Three seconds are too much for the product on the target, not for the difference. -/
theorem elapsed_overflows :
    ¬ ∀ (w : Width) (tp1 tp2 : Timespec w), tp1.nanos ≤ tp2.nanos →
      (tp2.nanos - tp1.nanos) / 1000000000 ≤ 2147483647 → Exact tp1 tp2 := by
  intro h
  obtain ⟨f, e, hf, -⟩ := h .w32 atNineTenths atThree (by decide) (by decide)
  have hfault : TimeOfCalc.dispElapsed atNineTenths atThree = .error .intRange := by decide
  rw [hfault] at hf
  cases hf

end LinuxAppSamp.Clock
