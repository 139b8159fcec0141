import Mathlib.Data.List.Induction
import LinuxAppSamp.Switch.Debounce

/-! # The switch window and failed reads

The history of `swTask` is the last three levels (`swRun_history`), so an inversion is a window
low, low, high, high that ends at the sample (`invertsAt_iff`). A failed `open` returns a negative
descriptor, which the `bool` result turns into a high level: `truePresses_iff` gives the sequences
in which every inversion still is a press.
-/

namespace LinuxAppSamp.Switch
set_option autoImplicit false
set_option maxHeartbeats 250000

/-! ## The history -/

def levels (rs : List GpioRead) : List Bool := rs.map gpioGetHiLow

/-- Levels `n - 3` to `n` are low, low, high, high. -/
def PressAt (ls : List Bool) (n : ℕ) : Prop :=
  3 ≤ n ∧ ls[n - 3]? = some false ∧ ls[n - 2]? = some false ∧ ls[n - 1]? = some true ∧
    ls[n]? = some true

instance (ls : List Bool) (n : ℕ) : Decidable (PressAt ls n) := by
  unfold PressAt
  infer_instance

theorem pressAt_append (ls more : List Bool) (n : ℕ) (hn : n < ls.length) :
    PressAt (ls ++ more) n ↔ PressAt ls n := by
  unfold PressAt
  rw [List.getElem?_append_left hn, List.getElem?_append_left (by omega : n - 1 < ls.length),
    List.getElem?_append_left (by omega : n - 2 < ls.length),
    List.getElem?_append_left (by omega : n - 3 < ls.length)]

theorem pressAt_lt (ls : List Bool) (n : ℕ) (h : PressAt ls n) : n < ls.length :=
  (List.getElem?_eq_some_iff.mp h.2.2.2.2).1

theorem levels_snoc (rs : List GpioRead) (r : GpioRead) :
    levels (rs ++ [r]) = levels rs ++ [gpioGetHiLow r] := by
  rw [levels, List.map_append]
  rfl

theorem swRun_snoc (s : SwState) (rs : List GpioRead) (r : GpioRead) :
    swRun s (rs ++ [r]) = swStep (swRun s rs) r := by
  rw [swRun, List.foldl_append]
  rfl

theorem swStep_history (s : SwState) (r : GpioRead) :
    (swStep s r).hist0 = s.hist1 ∧ (swStep s r).hist1 = s.hist2 ∧
      (swStep s r).hist2 = gpioGetHiLow r ∧
      (swStep s r).pos = if s.pos < 3 then s.pos + 1 else s.pos := by
  unfold swStep
  split <;> exact ⟨rfl, rfl, rfl, rfl⟩

/-- `hist` holds the last three levels, as far as there are so many. -/
structure History (ls : List Bool) (s : SwState) : Prop where
  pos : s.pos = min ls.length 3
  hist2 : 1 ≤ ls.length → ls[ls.length - 1]? = some s.hist2
  hist1 : 2 ≤ ls.length → ls[ls.length - 2]? = some s.hist1
  hist0 : 3 ≤ ls.length → ls[ls.length - 3]? = some s.hist0

theorem history_snoc (ls : List Bool) (s : SwState) (r : GpioRead) (h : History ls s) :
    History (ls ++ [gpioGetHiLow r]) (swStep s r) := by
  obtain ⟨h0, h1, h2, hpos⟩ := swStep_history s r
  have hlen : (ls ++ [gpioGetHiLow r]).length = ls.length + 1 := List.length_append
  refine ⟨?_, ?_, ?_, ?_⟩
  · rw [hpos, h.pos, hlen]
    split <;> omega
  · intro _
    rw [hlen, Nat.add_sub_cancel, h2, List.getElem?_concat_length]
  · intro hn
    rw [hlen] at hn ⊢
    rw [h1, show ls.length + 1 - 2 = ls.length - 1 by omega,
      List.getElem?_append_left (by omega), h.hist2 (by omega)]
  · intro hn
    rw [hlen] at hn ⊢
    rw [h0, show ls.length + 1 - 3 = ls.length - 2 by omega,
      List.getElem?_append_left (by omega), h.hist1 (by omega)]

theorem swRun_history (rs : List GpioRead) : History (levels rs) (swRun swInit rs) := by
  induction rs using List.reverseRecOn with
  | nil =>
    refine ⟨rfl, ?_, ?_, ?_⟩ <;> intro h <;> exact absurd h (by decide)
  | append_singleton rs r ih =>
    rw [levels_snoc, swRun_snoc]
    exact history_snoc _ _ r ih

/-- A sample inverts `s_bfStart` when it ends a window low, low, high, high. -/
theorem swStep_bfStart (ls : List Bool) (s : SwState) (r : GpioRead) (h : History ls s) :
    (swStep s r).bfStart =
      if PressAt (ls ++ [gpioGetHiLow r]) ls.length then !s.bfStart else s.bfStart := by
  have hlast : (ls ++ [gpioGetHiLow r])[ls.length]? = some (gpioGetHiLow r) :=
    List.getElem?_concat_length
  by_cases hlen : 3 ≤ ls.length
  · have hpos : ¬ s.pos < 3 := by
      rw [h.pos]
      omega
    have hiff : PressAt (ls ++ [gpioGetHiLow r]) ls.length ↔
        (!s.hist0 && !s.hist1 && s.hist2 && gpioGetHiLow r) = true := by
      unfold PressAt
      rw [hlast, List.getElem?_append_left (by omega), List.getElem?_append_left (by omega),
        List.getElem?_append_left (by omega), h.hist0 hlen, h.hist1 (by omega),
        h.hist2 (by omega)]
      simp [hlen, and_assoc]
    unfold swStep
    rw [if_neg hpos]
    by_cases hp : PressAt (ls ++ [gpioGetHiLow r]) ls.length
    · rw [if_pos hp, if_pos (hiff.mp hp)]
    · rw [if_neg hp, if_neg fun hw => hp (hiff.mpr hw)]
  · have hpos : s.pos < 3 := by
      rw [h.pos]
      omega
    have hno : ¬ PressAt (ls ++ [gpioGetHiLow r]) ls.length := fun hp => hlen hp.1
    unfold swStep
    rw [if_pos hpos, if_neg hno]

/-! ## Inversions -/

/-- Sample `n` of a run from the start inverts `s_bfStart`. -/
def InvertsAt (rs : List GpioRead) (n : ℕ) : Prop :=
  n < rs.length ∧
    (swRun swInit (rs.take (n + 1))).bfStart ≠ (swRun swInit (rs.take n)).bfStart

theorem invertsAt_iff (rs : List GpioRead) (n : ℕ) : InvertsAt rs n ↔ PressAt (levels rs) n := by
  by_cases hn : n < rs.length
  · obtain ⟨r, hr⟩ : ∃ r, rs[n]? = some r := ⟨rs[n], List.getElem?_eq_getElem hn⟩
    have htake : rs.take (n + 1) = rs.take n ++ [r] := by
      rw [List.take_add_one, hr]
      rfl
    have hlen : (levels (rs.take n)).length = n := by
      rw [levels, List.length_map, List.length_take]
      omega
    have hstep := swStep_bfStart _ _ r (swRun_history (rs.take n))
    rw [hlen, ← levels_snoc, ← htake] at hstep
    have hsame : PressAt (levels (rs.take (n + 1))) n ↔ PressAt (levels rs) n := by
      have hsplit : levels rs = levels (rs.take (n + 1)) ++ levels (rs.drop (n + 1)) := by
        rw [levels, levels, levels, ← List.map_append, List.take_append_drop]
      rw [hsplit]
      refine (pressAt_append _ _ n ?_).symm
      rw [levels, List.length_map, List.length_take]
      omega
    rw [InvertsAt, htake, swRun_snoc, hstep, ← hsame]
    by_cases hp : PressAt (levels (rs.take (n + 1))) n
    · rw [if_pos hp]
      exact iff_of_true ⟨hn, by simp⟩ hp
    · rw [if_neg hp]
      exact iff_of_false (fun h => h.2 rfl) hp
  · have hno : ¬ PressAt (levels rs) n := by
      intro hp
      have hlt := pressAt_lt _ _ hp
      rw [levels, List.length_map] at hlt
      exact hn hlt
    exact iff_of_false (fun h => hn h.1) hno

/-! ## Failed opens -/

def GpioRead.failed : GpioRead → Prop
  | .openFails _ _ => True
  | .code _ => False

/-- A reading other than `'1'`. -/
def GpioRead.low : GpioRead → Prop
  | .openFails _ _ => False
  | .code c => c ≠ 49

/-- Sample `n` and the one before it are readings of a high level, the two before those are not. -/
def PressedAt (rs : List GpioRead) (n : ℕ) : Prop :=
  3 ≤ n ∧ rs[n]? = some (.code 49) ∧ rs[n - 1]? = some (.code 49) ∧
    rs[n - 2]? ≠ some (.code 49) ∧ rs[n - 3]? ≠ some (.code 49)

def TruePresses (rs : List GpioRead) : Prop := ∀ n, InvertsAt rs n → PressedAt rs n

/-- No failed `open` gives a high level. -/
def FailuresLow (rs : List GpioRead) : Prop := ∀ r ∈ rs, r.failed → gpioGetHiLow r = false

/-- Two low readings, then two samples of which none is low and one or both are failures. -/
def FailureWindow (rs : List GpioRead) (n : ℕ) : Prop :=
  3 ≤ n ∧ ∃ a b x y, rs[n - 3]? = some a ∧ rs[n - 2]? = some b ∧ rs[n - 1]? = some x ∧
    rs[n]? = some y ∧ a.low ∧ b.low ∧ ¬ x.low ∧ ¬ y.low ∧ (x.failed ∨ y.failed)

theorem gpioGetHiLow_low (r : GpioRead) : gpioGetHiLow r = false ↔ r.low := by
  cases r with
  | openFails fd h =>
    have hne : gpioGetHiLow (.openFails fd h) = true := decide_eq_true (by omega)
    rw [hne]
    exact iff_of_false (by decide) fun hl => hl
  | code c =>
    show decide (c = 49) = false ↔ c ≠ 49
    exact decide_eq_false_iff_not

theorem gpioGetHiLow_high (r : GpioRead) : gpioGetHiLow r = true ↔ ¬ r.low := by
  rw [← gpioGetHiLow_low, Bool.not_eq_false]

theorem failed_not_low (r : GpioRead) (h : r.failed) : ¬ r.low := by
  cases r with
  | openFails fd hfd => exact fun hl => hl
  | code c => exact fun _ => h

theorem high_or_failed (r : GpioRead) (h : ¬ r.low) : r = .code 49 ∨ r.failed := by
  cases r with
  | openFails fd hfd => exact Or.inr trivial
  | code c =>
    refine Or.inl ?_
    by_contra hc
    exact h fun he => hc (by rw [he])

theorem levels_low (rs : List GpioRead) (n : ℕ) :
    (levels rs)[n]? = some false ↔ ∃ r, rs[n]? = some r ∧ r.low := by
  rw [levels, List.getElem?_map, Option.map_eq_some_iff]
  simp only [gpioGetHiLow_low]

theorem levels_high (rs : List GpioRead) (n : ℕ) :
    (levels rs)[n]? = some true ↔ ∃ r, rs[n]? = some r ∧ ¬ r.low := by
  rw [levels, List.getElem?_map, Option.map_eq_some_iff]
  simp only [gpioGetHiLow_high]

/-- An inversion is a press or a window with a failure, and each such window inverts. -/
theorem invertsAt_cases (rs : List GpioRead) (n : ℕ) :
    InvertsAt rs n → PressedAt rs n ∨ FailureWindow rs n := by
  intro h
  obtain ⟨hn, ha, hb, hx, hy⟩ := (invertsAt_iff rs n).mp h
  obtain ⟨a, hra, hla⟩ := (levels_low rs _).mp ha
  obtain ⟨b, hrb, hlb⟩ := (levels_low rs _).mp hb
  obtain ⟨x, hrx, hlx⟩ := (levels_high rs _).mp hx
  obtain ⟨y, hry, hly⟩ := (levels_high rs _).mp hy
  by_cases hfail : x.failed ∨ y.failed
  · exact Or.inr ⟨hn, a, b, x, y, hra, hrb, hrx, hry, hla, hlb, hlx, hly, hfail⟩
  · refine Or.inl ⟨hn, ?_, ?_, ?_, ?_⟩
    · rw [hry, (high_or_failed y hly).resolve_right fun hf => hfail (Or.inr hf)]
    · rw [hrx, (high_or_failed x hlx).resolve_right fun hf => hfail (Or.inl hf)]
    · intro he
      rw [hrb, Option.some.injEq] at he
      rw [he] at hlb
      exact hlb rfl
    · intro he
      rw [hra, Option.some.injEq] at he
      rw [he] at hla
      exact hla rfl

theorem failureWindow_inverts (rs : List GpioRead) (n : ℕ) (h : FailureWindow rs n) :
    InvertsAt rs n ∧ ¬ PressedAt rs n := by
  obtain ⟨hn, a, b, x, y, hra, hrb, hrx, hry, hla, hlb, hlx, hly, hfail⟩ := h
  refine ⟨(invertsAt_iff rs n).mpr ⟨hn, (levels_low rs _).mpr ⟨a, hra, hla⟩,
    (levels_low rs _).mpr ⟨b, hrb, hlb⟩, (levels_high rs _).mpr ⟨x, hrx, hlx⟩,
    (levels_high rs _).mpr ⟨y, hry, hly⟩⟩, ?_⟩
  intro hp
  have hx : x = .code 49 := Option.some.inj (hrx.symm.trans hp.2.2.1)
  have hy : y = .code 49 := Option.some.inj (hry.symm.trans hp.2.1)
  rw [hx, hy] at hfail
  exact hfail.elim id id

theorem failuresLow_iff (rs : List GpioRead) : FailuresLow rs ↔ ∀ r ∈ rs, ¬ r.failed := by
  refine ⟨fun h r hr hf => ?_, fun h r hr hf => absurd hf (h r hr)⟩
  exact failed_not_low r hf ((gpioGetHiLow_low r).mp (h r hr hf))

theorem truePresses_of_noWindow (rs : List GpioRead) :
    TruePresses rs ↔ ∀ n, ¬ FailureWindow rs n := by
  constructor
  · intro h n hw
    obtain ⟨hinv, hno⟩ := failureWindow_inverts rs n hw
    exact hno (h n hinv)
  · intro h n hinv
    exact (invertsAt_cases rs n hinv).resolve_right (h n)

theorem failureWindow_failed (rs : List GpioRead) (n : ℕ) (h : FailureWindow rs n) :
    ∃ r ∈ rs, r.failed := by
  obtain ⟨_, _, _, x, y, _, _, hx, hy, _, _, _, _, hfail⟩ := h
  obtain hf | hf := hfail
  · exact ⟨x, List.mem_of_getElem? hx, hf⟩
  · exact ⟨y, List.mem_of_getElem? hy, hf⟩

/-- **An unreadable input is never taken for a press exactly when no `open` fails**; the
inversions alone are presses exactly when no failure completes a window. -/
theorem truePresses_iff (rs : List GpioRead) :
    ((TruePresses rs ∧ FailuresLow rs) ↔ ∀ r ∈ rs, ¬ r.failed) ∧
      (TruePresses rs ↔ ∀ n, ¬ FailureWindow rs n) := by
  refine ⟨?_, truePresses_of_noWindow rs⟩
  rw [failuresLow_iff]
  refine ⟨fun h => h.2, fun h => ⟨?_, h⟩⟩
  rw [truePresses_of_noWindow]
  intro n hw
  obtain ⟨r, hr, hf⟩ := failureWindow_failed rs n hw
  exact h r hr hf

/-- Two low readings and two failed opens start the LED. -/
theorem failedOpens_pressed : ¬ ∀ rs : List GpioRead, TruePresses rs ∧ FailuresLow rs := by
  intro h
  have hwindow : FailureWindow
      [.code 48, .code 48, .openFails (-1) (by decide), .openFails (-1) (by decide)] 3 :=
    ⟨by decide, _, _, _, _, rfl, rfl, rfl, rfl, by unfold GpioRead.low; decide,
      by unfold GpioRead.low; decide, id, id, Or.inl trivial⟩
  obtain ⟨hinv, hno⟩ := failureWindow_inverts _ 3 hwindow
  exact hno ((h _).1 3 hinv)

end LinuxAppSamp.Switch
