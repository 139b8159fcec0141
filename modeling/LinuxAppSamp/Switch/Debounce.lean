import Mathlib.Data.Int.Notation
import Mathlib.Data.List.Basic
import Mathlib.Tactic.Common

/-! # The switch task: `gpio_ledTask_swTask.c` and `app_01timerOut.c`

Both files hold the same `gpio_get_hiLow` and `swTask`. The sampling loop keeps the last three
levels and inverts `s_bfStart` on the window low, low, high, high. `inversions_eq_pressCount`
states that over whole runs; `inversions_bouncedPress` counts the inversions of a bouncing press
and release.
-/

namespace LinuxAppSamp.Switch
set_option autoImplicit false
set_option maxHeartbeats 250000

/-! ## The functions -/

/-- What reading the value file gives: a negative descriptor of `open`, or the byte `code` (any
byte where `read` fails and leaves it as it was). -/
inductive GpioRead
  | openFails (fd : ℤ) (h : fd < 0)
  | code (c : UInt8)
  deriving DecidableEq, Repr

/-- `return fd` converts the descriptor to `bool`. -/
def gpioGetHiLow : GpioRead → Bool
  | .openFails fd _ => fd ≠ 0
  | .code c => c = 49

/-- The locals of `swTask` (`hist` old to new) and `s_bfStart`. -/
structure SwState where
  hist0 : Bool
  hist1 : Bool
  hist2 : Bool
  pos : ℕ
  bfStart : Bool
  deriving DecidableEq, Repr

def swInit : SwState := ⟨false, false, false, 0, false⟩

/-- One turn of the `while (1)` of `swTask`. -/
def swStep (s : SwState) (r : GpioRead) : SwState :=
  let now := gpioGetHiLow r
  if s.pos < 3 then ⟨s.hist1, s.hist2, now, s.pos + 1, s.bfStart⟩
  else
    let bfStart :=
      if !s.hist0 && !s.hist1 && s.hist2 && now then !s.bfStart else s.bfStart
    ⟨s.hist1, s.hist2, now, s.pos, bfStart⟩

def swRun (s : SwState) (rs : List GpioRead) : SwState := rs.foldl swStep s

/-- How often a run inverts `s_bfStart`. -/
def inversions (s : SwState) : List GpioRead → ℕ
  | [] => 0
  | r :: rs => (if (swStep s r).bfStart = s.bfStart then 0 else 1) + inversions (swStep s r) rs

theorem inversions_append (s : SwState) (as bs : List GpioRead) :
    inversions s (as ++ bs) = inversions s as + inversions (swRun s as) bs := by
  induction as generalizing s with
  | nil => simp [inversions, swRun]
  | cons r as ih =>
    rw [List.cons_append, inversions, inversions, ih, Nat.add_assoc]
    rfl

/-! ## Windows of levels -/

/-- The number of windows low, low, high, high. -/
def pressCount : List Bool → ℕ
  | a :: b :: c :: d :: l => (if !a && !b && c && d then 1 else 0) + pressCount (b :: c :: d :: l)
  | _ => 0

theorem pressCount_window (a b c d : Bool) (l : List Bool) :
    pressCount (a :: b :: c :: d :: l) =
      (if !a && !b && c && d then 1 else 0) + pressCount (b :: c :: d :: l) := rfl

theorem pressCount_high (l : List Bool) : pressCount (true :: l) = pressCount l := by
  match l with
  | [] | [_] | [_, _] => rfl
  | b :: c :: d :: l => simp [pressCount]

theorem pressCount_low_high (l : List Bool) :
    pressCount (false :: true :: l) = pressCount l := by
  rw [← pressCount_high l]
  match l with
  | [] | [_] => rfl
  | c :: d :: l => simp [pressCount]

theorem pressCount_highs (k : ℕ) (l : List Bool) :
    pressCount (List.replicate k true ++ l) = pressCount l := by
  induction k with
  | zero => rfl
  | succ k ih => rw [List.replicate_succ, List.cons_append, pressCount_high, ih]

theorem pressCount_lows (q : ℕ) : pressCount (List.replicate q false) = 0 := by
  induction q with
  | zero => rfl
  | succ q ih =>
    match q with
    | 0 | 1 | 2 => rfl
    | q + 3 =>
      show 0 + pressCount (List.replicate (q + 3) false) = 0
      rw [ih]

/-- From the fourth sample on, the task inverts exactly at the windows. -/
theorem inversions_eq_pressCount (s : SwState) (rs : List GpioRead) (hs : 3 ≤ s.pos) :
    inversions s rs = pressCount (s.hist0 :: s.hist1 :: s.hist2 :: rs.map gpioGetHiLow) := by
  induction rs generalizing s with
  | nil => rfl
  | cons r rs ih =>
    have hstep : swStep s r = ⟨s.hist1, s.hist2, gpioGetHiLow r, s.pos,
        if !s.hist0 && !s.hist1 && s.hist2 && gpioGetHiLow r then !s.bfStart else s.bfStart⟩ := by
      rw [swStep, if_neg (by omega)]
    rw [inversions, ih (swStep s r) (by rw [hstep]; exact hs), hstep, List.map_cons,
      pressCount_window]
    congr 1
    split <;> simp

/-! ## Bouncing contacts -/

/-- `j` pairs high, low. -/
def pressBounce : ℕ → List Bool
  | 0 => []
  | j + 1 => true :: false :: pressBounce j

/-- `p` pairs low, high. -/
def releaseBounce : ℕ → List Bool
  | 0 => []
  | p + 1 => false :: true :: releaseBounce p

def pressLevels (m j k : ℕ) : List Bool :=
  List.replicate m false ++ (pressBounce j ++ List.replicate k true)

def releaseLevels (p q : ℕ) : List Bool := releaseBounce p ++ List.replicate q false

theorem pressCount_release (p q : ℕ) : pressCount (releaseLevels p q) = 0 := by
  induction p with
  | zero => exact pressCount_lows q
  | succ p ih =>
    show pressCount (false :: true :: releaseLevels p q) = 0
    rw [pressCount_low_high, ih]

/-- Once the contact has bounced, the window before the steady level holds a high sample. -/
theorem pressCount_bounced (j k : ℕ) (l : List Bool) (hk : 1 ≤ k) :
    pressCount (false :: (pressBounce j ++ List.replicate k true ++ l)) = pressCount l := by
  induction j with
  | zero =>
    obtain ⟨k, rfl⟩ := Nat.exists_eq_add_of_le' hk
    show pressCount (false :: true :: (List.replicate k true ++ l)) = _
    rw [pressCount_low_high, pressCount_highs]
  | succ j ih =>
    show pressCount (false :: true :: false :: (pressBounce j ++ List.replicate k true ++ l)) = _
    rw [pressCount_low_high, ih]

theorem pressCount_press (j k : ℕ) (l : List Bool) (hk : 2 ≤ k) :
    pressCount (false :: false :: false :: (pressBounce j ++ List.replicate k true ++ l)) =
      (if j = 0 then 1 else 0) + pressCount l := by
  obtain ⟨k, rfl⟩ := Nat.exists_eq_add_of_le' hk
  cases j with
  | zero =>
    show 0 + (1 + pressCount (false :: true :: true :: (List.replicate k true ++ l))) = _
    rw [pressCount_low_high, pressCount_high, pressCount_highs, if_pos rfl]
    omega
  | succ j =>
    have hb := pressCount_bounced j (k + 2) l (by omega)
    show 0 + (0 + pressCount (false :: true :: false ::
      (pressBounce j ++ List.replicate (k + 2) true ++ l))) = _
    rw [pressCount_low_high, hb, if_neg (by omega)]
    omega

theorem swStep_low (s : SwState) (r : GpioRead) (h : gpioGetHiLow r = false) :
    swStep s r = ⟨s.hist1, s.hist2, false, if s.pos < 3 then s.pos + 1 else s.pos, s.bfStart⟩ := by
  unfold swStep
  split <;> simp [h]

theorem inversions_lows (s : SwState) (rs : List GpioRead) (h : ∀ r ∈ rs, gpioGetHiLow r = false) :
    inversions s rs = 0 := by
  induction rs generalizing s with
  | nil => rfl
  | cons r rs ih =>
    rw [inversions, swStep_low s r (h r List.mem_cons_self), if_pos rfl,
      ih _ fun x hx => h x (List.mem_cons_of_mem r hx)]

theorem swRun_lows (s : SwState) (rs : List GpioRead) (h : ∀ r ∈ rs, gpioGetHiLow r = false)
    (hlen : 3 ≤ rs.length) :
    (swRun s rs).hist0 = false ∧ (swRun s rs).hist1 = false ∧ (swRun s rs).hist2 = false ∧
      3 ≤ (swRun s rs).pos := by
  induction rs generalizing s with
  | nil => simp at hlen
  | cons r rs ih =>
    by_cases hr : 3 ≤ rs.length
    · exact ih (swStep s r) (fun x hx => h x (List.mem_cons_of_mem r hx)) hr
    · obtain ⟨r2, r3, rfl⟩ := List.length_eq_two.mp (by simp at hlen; omega : rs.length = 2)
      have h1 := swStep_low s r (h r (by simp))
      have h2 := swStep_low (swStep s r) r2 (h r2 (by simp))
      have h3 := swStep_low (swStep (swStep s r) r2) r3 (h r3 (by simp))
      have hrun : swRun s [r, r2, r3] = swStep (swStep (swStep s r) r2) r3 := rfl
      rw [hrun, h3, h2, h1]
      refine ⟨rfl, rfl, rfl, ?_⟩
      grind

theorem inversions_press (s : SwState) (rs : List GpioRead) (m j k : ℕ) (l : List Bool)
    (hm : 3 ≤ m) (hk : 2 ≤ k) (hrs : rs.map gpioGetHiLow = pressLevels m j k ++ l) :
    inversions s rs = (if j = 0 then 1 else 0) + pressCount l := by
  rw [pressLevels, List.append_assoc] at hrs
  obtain ⟨lows, rest, rfl, hlows, hrest⟩ := List.map_eq_append_iff.mp hrs
  have hlow : ∀ r ∈ lows, gpioGetHiLow r = false := by
    intro r hr
    have hmem := List.mem_map_of_mem (f := gpioGetHiLow) hr
    rw [hlows] at hmem
    exact List.eq_of_mem_replicate hmem
  have hlen : lows.length = m := by simpa using congrArg List.length hlows
  obtain ⟨h0, h1, h2, hpos⟩ := swRun_lows s lows hlow (by omega)
  rw [inversions_append, inversions_lows s lows hlow, inversions_eq_pressCount _ rest hpos, h0, h1,
    h2, hrest, pressCount_press j k l hk, Nat.zero_add]

/-- **A press inverts once when it does not bounce, never when it does**; a release never. -/
theorem inversions_bouncedPress (s : SwState) (press release : List GpioRead) (m j k p q : ℕ)
    (hm : 3 ≤ m) (hk : 2 ≤ k) (hpress : press.map gpioGetHiLow = pressLevels m j k)
    (hrelease : release.map gpioGetHiLow = releaseLevels p q) :
    inversions s (press ++ release) = (if j = 0 then 1 else 0) ∧
      inversions (swRun s press) release = 0 := by
  have hall := inversions_press s (press ++ release) m j k (releaseLevels p q) hm hk
    (by rw [List.map_append, hpress, hrelease])
  have hfirst := inversions_press s press m j k [] hm hk (by rw [hpress, List.append_nil])
  have hsplit := inversions_append s press release
  rw [pressCount_release, Nat.add_zero] at hall
  rw [pressCount, Nat.add_zero] at hfirst
  · refine ⟨hall, ?_⟩
    omega
  · simp

def reads (levels : List Bool) : List GpioRead :=
  levels.map fun level => .code (if level then 49 else 48)

/-- A clean press, and after its release one that bounces on both edges. -/
theorem inversions_bouncedPress_two :
    (inversions swInit (reads (pressLevels 3 0 2) ++ reads (releaseLevels 0 4)) = 1 ∧
      inversions (swRun swInit (reads (pressLevels 3 0 2))) (reads (releaseLevels 0 4)) = 0) ∧
    (inversions (swRun swInit (reads (pressLevels 3 0 2) ++ reads (releaseLevels 0 4)))
        (reads (pressLevels 3 2 4) ++ reads (releaseLevels 3 1)) = 0 ∧
      inversions (swRun (swRun swInit (reads (pressLevels 3 0 2) ++ reads (releaseLevels 0 4)))
        (reads (pressLevels 3 2 4))) (reads (releaseLevels 3 1)) = 0) := by
  constructor
  · exact inversions_bouncedPress swInit (reads (pressLevels 3 0 2)) (reads (releaseLevels 0 4))
      3 0 2 0 4 (by decide) (by decide) (by decide) (by decide)
  · exact inversions_bouncedPress _ (reads (pressLevels 3 2 4)) (reads (releaseLevels 3 1))
      3 2 4 3 1 (by decide) (by decide) (by decide) (by decide)

/-- One bounce loses the press. -/
theorem bounced_press_lost :
    ¬ ∀ (rs : List GpioRead) (m j k p q : ℕ), 3 ≤ m → 2 ≤ k →
      rs.map gpioGetHiLow = pressLevels m j k ++ releaseLevels p q → inversions swInit rs = 1 := by
  intro h
  have hone := h (reads (pressLevels 3 1 2)) 3 1 2 0 0 (by decide) (by decide) (by decide)
  exact absurd hone (by decide)

end LinuxAppSamp.Switch
