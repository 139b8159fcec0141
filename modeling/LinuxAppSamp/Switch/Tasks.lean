import Mathlib.Data.List.Range
import LinuxAppSamp.Messages.Reply
import LinuxAppSamp.Switch.Windows

/-! # The three tasks of `app_01timerOut.c`

`swTask` writes `s_bfStart`; `ledTask` and `mainTask` read it. Every list of loop iterations is a
run of the three threads. `bfStart_parity` gives the flag after any run from its samples alone,
`outGpio_latest` and `printed_step` give what the two readers put out.
-/

namespace LinuxAppSamp.Switch
open Messages
set_option autoImplicit false
set_option maxHeartbeats 250000

/-! ## The tasks -/

/-- One loop iteration: `swTask` reads the byte `code`, `ledTask` opens the value file of
`OUT_GPIO` or fails to, `mainTask` has `date` from `getDateTimeStr` (empty where that failed). -/
inductive Iteration
  | swTask (code : UInt8)
  | ledTask (opened : Bool)
  | mainTask (date : List UInt8)
  deriving DecidableEq, Repr

/-- `outGpio` is the value last written to `OUT_GPIO`. -/
structure TimerOut where
  sw : SwState
  outGpio : Option ℕ
  printed : List (List UInt8)
  deriving DecidableEq, Repr

def timerInit : TimerOut := ⟨swInit, none, []⟩

def gpioSetValue (out : Option ℕ) (opened : Bool) (hi : ℕ) : Option ℕ :=
  if opened then some hi else out

def timerStep (s : TimerOut) : Iteration → TimerOut
  | .swTask code => { s with sw := swStep s.sw (.code code) }
  | .ledTask opened =>
    if s.sw.bfStart then { s with outGpio := gpioSetValue s.outGpio opened 1 }
    else { s with outGpio := gpioSetValue s.outGpio opened 0 }
  | .mainTask date =>
    if s.sw.bfStart then
      if date.length > 0 then { s with printed := s.printed ++ [date ++ [lf]] } else s
    else s

def timerRun (its : List Iteration) : TimerOut := its.foldl timerStep timerInit

/-- The readings of `swTask` in a run. -/
def samples (its : List Iteration) : List GpioRead :=
  its.filterMap fun
    | .swTask code => some (.code code)
    | _ => none

/-! ## Presses in the samples -/

/-- The number of positions at which the levels have just been low, low, high, high. -/
def pressesIn (ls : List Bool) : ℕ := (List.range ls.length).countP fun n => PressAt ls n

theorem pressesIn_snoc (ls : List Bool) (b : Bool) :
    pressesIn (ls ++ [b]) = pressesIn ls + if PressAt (ls ++ [b]) ls.length then 1 else 0 := by
  have hold : (List.range ls.length).countP (fun n => PressAt (ls ++ [b]) n) = pressesIn ls := by
    apply List.countP_congr
    intro n hn
    have hiff := pressAt_append ls [b] n (List.mem_range.mp hn)
    rw [decide_eq_true_iff, decide_eq_true_iff, hiff]
  rw [pressesIn, List.length_append, List.length_singleton, List.range_succ, List.countP_append,
    hold, List.countP_singleton]
  simp only [decide_eq_true_eq]

theorem swRun_parity (rs : List GpioRead) :
    (swRun swInit rs).bfStart = decide (pressesIn (levels rs) % 2 = 1) := by
  induction rs using List.reverseRecOn with
  | nil => rfl
  | append_singleton rs r ih =>
    rw [swRun_snoc, swStep_bfStart _ _ r (swRun_history rs), levels_snoc, pressesIn_snoc, ih]
    split
    · rw [← decide_not]
      apply decide_eq_decide.mpr
      omega
    · rfl

theorem pressAt_apart (ls : List Bool) (n m : ℕ) (hn : PressAt ls n) (hm : PressAt ls m)
    (hlt : n < m) : n + 4 ≤ m := by
  obtain ⟨_, _, _, hx, hy⟩ := hn
  obtain ⟨_, ha, hb, _, _⟩ := hm
  by_contra hnear
  obtain h | h | h : m = n + 1 ∨ m = n + 2 ∨ m = n + 3 := by omega
  · rw [h, show n + 1 - 2 = n - 1 by omega, hx] at hb
    exact absurd hb (by decide)
  · rw [h, Nat.add_sub_cancel, hy] at hb
    exact absurd hb (by decide)
  · rw [h, Nat.add_sub_cancel, hy] at ha
    exact absurd ha (by decide)

/-! ## Runs of the three tasks -/

theorem timerRun_snoc (its : List Iteration) (it : Iteration) :
    timerRun (its ++ [it]) = timerStep (timerRun its) it := by
  rw [timerRun, List.foldl_append]
  rfl

theorem timerStep_led (s : TimerOut) (opened : Bool) :
    timerStep s (.ledTask opened) =
      { s with outGpio := gpioSetValue s.outGpio opened (if s.sw.bfStart then 1 else 0) } := by
  show (if s.sw.bfStart then _ else _) = _
  split <;> rfl

theorem timerStep_main (s : TimerOut) (date : List UInt8) :
    timerStep s (.mainTask date) =
      { s with printed := s.printed ++
          if s.sw.bfStart && decide (date ≠ []) then [date ++ [lf]] else [] } := by
  show (if s.sw.bfStart then _ else _) = _
  cases hflag : s.sw.bfStart
  · simp
  · cases date <;> simp

theorem timerRun_sw (its : List Iteration) : (timerRun its).sw = swRun swInit (samples its) := by
  induction its using List.reverseRecOn with
  | nil => rfl
  | append_singleton its it ih =>
    rw [timerRun_snoc, samples, List.filterMap_append]
    cases it with
    | swTask code =>
      show swStep (timerRun its).sw (.code code) = swRun swInit (samples its ++ [.code code])
      rw [swRun_snoc, ih]
    | ledTask opened =>
      show _ = swRun swInit (samples its ++ [])
      rw [timerStep_led, List.append_nil, ih]
    | mainTask date =>
      show _ = swRun swInit (samples its ++ [])
      rw [timerStep_main, List.append_nil, ih]

/-- The parity of the presses among the samples taken so far. -/
def pressed (its : List Iteration) : Bool := decide (pressesIn (levels (samples its)) % 2 = 1)

theorem bfStart_parity (its : List Iteration) : (timerRun its).sw.bfStart = pressed its := by
  rw [timerRun_sw, swRun_parity]
  rfl

theorem outGpio_kept (s : TimerOut) (its : List Iteration) (h : .ledTask true ∉ its) :
    (its.foldl timerStep s).outGpio = s.outGpio := by
  induction its generalizing s with
  | nil => rfl
  | cons it its ih =>
    obtain ⟨hit, hits⟩ := not_or.mp (fun hm => h (List.mem_cons.mpr hm))
    rw [List.foldl_cons, ih _ hits]
    cases it with
    | swTask code => rfl
    | ledTask opened =>
      have hopened : opened = false := by
        cases opened
        · rfl
        · exact absurd rfl hit
      rw [timerStep_led, hopened]
      rfl
    | mainTask date => rw [timerStep_main]

theorem outGpio_latest (before after : List Iteration) (h : .ledTask true ∉ after) :
    (timerRun (before ++ .ledTask true :: after)).outGpio =
      some (if pressed before then 1 else 0) := by
  have hrun : timerRun (before ++ .ledTask true :: after) =
      after.foldl timerStep (timerStep (timerRun before) (.ledTask true)) := by
    rw [timerRun, List.foldl_append]
    rfl
  rw [hrun, outGpio_kept _ _ h, ← bfStart_parity, timerStep_led]
  rfl

/-- What an iteration prints after the run `its`. -/
def lineDue (its : List Iteration) : Iteration → List (List UInt8)
  | .mainTask date => if pressed its && decide (date ≠ []) then [date ++ [lf]] else []
  | _ => []

theorem printed_step (its : List Iteration) (it : Iteration) :
    (timerRun (its ++ [it])).printed = (timerRun its).printed ++ lineDue its it := by
  rw [timerRun_snoc]
  cases it with
  | swTask code => exact (List.append_nil _).symm
  | ledTask opened =>
    rw [timerStep_led]
    exact (List.append_nil _).symm
  | mainTask date =>
    rw [timerStep_main, bfStart_parity]
    rfl

/-- **Switch, LED and clock agree in every run**: the flag is the parity of the presses,
inversions are four samples apart, `OUT_GPIO` has the flag of the latest LED iteration that wrote,
and a date is printed in exactly the clock iterations that see the flag set. -/
theorem tasks_agree (its : List Iteration) :
    (timerRun its).sw.bfStart = decide (pressesIn (levels (samples its)) % 2 = 1) ∧
      (∀ n m, n < m → InvertsAt (samples its) n → InvertsAt (samples its) m → n + 4 ≤ m) ∧
      (∀ before after, its = before ++ .ledTask true :: after → .ledTask true ∉ after →
        (timerRun its).outGpio = some (if (timerRun before).sw.bfStart then 1 else 0)) ∧
      (∀ before it after, its = before ++ it :: after →
        (timerRun (before ++ [it])).printed = (timerRun before).printed ++ lineDue before it) := by
  refine ⟨bfStart_parity its, ?_, ?_, ?_⟩
  · intro n m hlt hn hm
    exact pressAt_apart _ n m ((invertsAt_iff _ n).mp hn) ((invertsAt_iff _ m).mp hm) hlt
  · intro before after hits hafter
    rw [hits, outGpio_latest before after hafter, bfStart_parity]
  · intro before it after _
    exact printed_step before it

end LinuxAppSamp.Switch
