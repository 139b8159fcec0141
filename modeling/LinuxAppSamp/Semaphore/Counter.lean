import LinuxAppSamp.Foundations.Signed
import LinuxAppSamp.Foundations.Steps
import LinuxAppSamp.Foundations.Tally

/-! # The counter under a semaphore: `semaphore_named.c` and `semaphore_named_blocked.c`

`N` threads run `testFunc`, each `M` times around its loop; the second file also reports a value
of 0 before it waits (`checks`). An action is one atomic step of one thread, or the creation of
the next thread by `main`. `Sound` is the invariant: the semaphore's value and the threads inside
add up to one, and what was printed is what the threads have done. `counter_loses_nothing` holds it
against what an `int` can count.
-/

namespace LinuxAppSamp.Semaphore
open Execution Signed
set_option autoImplicit false
set_option maxHeartbeats 250000

/-! ## The threads -/

/-- Where a thread is; `blocked` is inside `sem_wait`, on a value of 0. -/
inductive Pc
  | getvalue | report | wait | blocked | load | store | print | post | finished
  deriving DecidableEq, Repr

/-- The locals of `testFunc`; `tmp` is the value of `g_cnt` that `g_cnt++` has loaded. -/
structure Thr where
  pc : Pc
  thrIdx : ℕ
  loop : ℕ
  tmp : ℤ
  semval : ℕ
  deriving DecidableEq, Repr

inductive Line
  | blocked
  | gCnt (thrIdx : ℕ) (cnt : ℤ)
  deriving DecidableEq, Repr

/-- What one step of a thread leaves: the semaphore, `g_cnt`, the thread, its output. -/
structure Moved where
  value : ℕ
  gCnt : ℤ
  thr : Thr
  out : List Line
  deriving DecidableEq, Repr

/-- The head of the `for` loop. -/
def atLoop (checks : Bool) (M : ℕ) (t : Thr) (loop : ℕ) : Thr :=
  { t with
    loop := loop
    pc := if loop < M then if checks then .getvalue else .wait else .finished }

/-- C leaves `g_cnt++` above `INT_MAX` undefined; it wraps around here, as it does on the machine. -/
def threadStep (checks : Bool) (M value : ℕ) (gCnt : ℤ) (t : Thr) : Option Moved :=
  match t.pc with
  | .getvalue => some ⟨value, gCnt, { t with pc := .report, semval := value }, []⟩
  | .report =>
    some ⟨value, gCnt, { t with pc := .wait }, if t.semval = 0 then [.blocked] else []⟩
  | .wait =>
    if 0 < value then some ⟨value - 1, gCnt, { t with pc := .load }, []⟩
    else some ⟨value, gCnt, { t with pc := .blocked }, []⟩
  | .blocked => if 0 < value then some ⟨value - 1, gCnt, { t with pc := .load }, []⟩ else none
  | .load => some ⟨value, gCnt, { t with pc := .store, tmp := gCnt }, []⟩
  | .store => some ⟨value, wrap .w32 (t.tmp + 1), { t with pc := .print }, []⟩
  | .print => some ⟨value, gCnt, { t with pc := .post }, [.gCnt t.thrIdx gCnt]⟩
  | .post => some ⟨value + 1, gCnt, atLoop checks M t (t.loop + 1), []⟩
  | .finished => none

/-! ## The program -/

structure SemState where
  value : ℕ
  gCnt : ℤ
  threads : List Thr
  out : List Line
  deriving DecidableEq, Repr

/-- `handOff i j`: the `sem_post` of thread `i` lets the waiting thread `j` return at once. -/
inductive Act
  | create
  | thread (i : ℕ)
  | handOff (i j : ℕ)
  deriving DecidableEq, Repr

/-- `main` creates the semaphore with the value 1. -/
def semInit : SemState := ⟨1, 0, [], []⟩

/-- The argument of a thread is a cell of its own that holds `loop` of `main`. -/
def created (checks : Bool) (M thrIdx : ℕ) : Thr := atLoop checks M ⟨.finished, thrIdx, 0, 0, 0⟩ 0

def semStep (checks : Bool) (N M : ℕ) (s : SemState) : Act → Option SemState
  | .create =>
    if s.threads.length < N then
      some { s with threads := s.threads ++ [created checks M s.threads.length] }
    else none
  | .thread i => do
    let t ← s.threads[i]?
    let r ← threadStep checks M s.value s.gCnt t
    some ⟨r.value, r.gCnt, s.threads.set i r.thr, s.out ++ r.out⟩
  | .handOff i j => do
    let t ← s.threads[i]?
    let u ← s.threads[j]?
    if t.pc = .post ∧ u.pc = .blocked then
      some { s with
        threads := (s.threads.set i (atLoop checks M t (t.loop + 1))).set j { u with pc := .load } }
    else none

/-! ## What a step can do -/

theorem semStep_thread {checks : Bool} {N M i : ℕ} {s s' : SemState}
    (h : semStep checks N M s (.thread i) = some s') :
    ∃ t r, s.threads[i]? = some t ∧ threadStep checks M s.value s.gCnt t = some r ∧
      s' = ⟨r.value, r.gCnt, s.threads.set i r.thr, s.out ++ r.out⟩ := by
  obtain ⟨t, ht, h⟩ := Option.bind_eq_some_iff.mp h
  obtain ⟨r, hr, h⟩ := Option.bind_eq_some_iff.mp h
  exact ⟨t, r, ht, hr, (Option.some.inj h).symm⟩

theorem semStep_thread_eq {checks : Bool} {N M i : ℕ} {s : SemState} {t : Thr} {r : Moved}
    (ht : s.threads[i]? = some t) (hr : threadStep checks M s.value s.gCnt t = some r) :
    semStep checks N M s (.thread i) =
      some ⟨r.value, r.gCnt, s.threads.set i r.thr, s.out ++ r.out⟩ := by
  show (s.threads[i]?).bind _ = _
  rw [ht, Option.bind_some]
  show (threadStep checks M s.value s.gCnt t).bind _ = _
  rw [hr, Option.bind_some]

theorem semStep_create {checks : Bool} {N M : ℕ} {s s' : SemState}
    (h : semStep checks N M s .create = some s') :
    s.threads.length < N ∧
      s' = { s with threads := s.threads ++ [created checks M s.threads.length] } := by
  obtain ⟨hN, hs'⟩ := guarded_inv h
  exact ⟨hN, hs'.symm⟩

theorem threadStep_post (checks : Bool) (M value : ℕ) (gCnt : ℤ) (t : Thr) (h : t.pc = .post) :
    threadStep checks M value gCnt t =
      some ⟨value + 1, gCnt, atLoop checks M t (t.loop + 1), []⟩ := by
  rw [threadStep, h]

theorem threadStep_blocked (checks : Bool) (M value : ℕ) (gCnt : ℤ) (t : Thr) (h : t.pc = .blocked)
    (hv : 0 < value) :
    threadStep checks M value gCnt t = some ⟨value - 1, gCnt, { t with pc := .load }, []⟩ := by
  rw [threadStep, h]
  exact if_pos hv

/-- A hand-over does what the post and then the return of the waiting thread do. -/
theorem semStep_handOff {checks : Bool} {N M i j : ℕ} {s s' : SemState}
    (h : semStep checks N M s (.handOff i j) = some s') :
    ∃ t u m, s.threads[i]? = some t ∧ t.pc = .post ∧ s.threads[j]? = some u ∧ u.pc = .blocked ∧
      semStep checks N M s (.thread i) = some m ∧ m.threads[j]? = some u ∧ 0 < m.value ∧
      semStep checks N M m (.thread j) = some s' := by
  obtain ⟨t, ht, h⟩ := Option.bind_eq_some_iff.mp h
  obtain ⟨u, hu, h⟩ := Option.bind_eq_some_iff.mp h
  obtain ⟨⟨hpost, hblocked⟩, rfl⟩ := guarded_inv h
  have hne : i ≠ j := by
    intro he
    rw [he, hu, Option.some.injEq] at ht
    rw [ht, hpost] at hblocked
    cases hblocked
  have hm := semStep_thread_eq (N := N) ht (threadStep_post checks M s.value s.gCnt t hpost)
  have hum : (s.threads.set i (atLoop checks M t (t.loop + 1)))[j]? = some u := by
    rw [List.getElem?_set_ne hne, hu]
  refine ⟨t, u, _, ht, hpost, hu, hblocked, hm, hum, Nat.succ_pos _, ?_⟩
  have hj := semStep_thread_eq (N := N)
    (s := ⟨s.value + 1, s.gCnt, s.threads.set i (atLoop checks M t (t.loop + 1)), s.out ++ []⟩)
    hum (threadStep_blocked checks M (s.value + 1) s.gCnt u hblocked (Nat.succ_pos _))
  rw [hj, List.append_nil, List.append_nil, Nat.add_sub_cancel]

/-- What the creation of a thread and the steps of single threads keep, every step keeps. -/
theorem semStep_keeps {checks : Bool} {N M : ℕ} (I : SemState → Prop)
    (hcreate : ∀ s, s.threads.length < N → I s →
      I { s with threads := s.threads ++ [created checks M s.threads.length] })
    (hthread : ∀ i s t r, s.threads[i]? = some t → threadStep checks M s.value s.gCnt t = some r →
      I s → I ⟨r.value, r.gCnt, s.threads.set i r.thr, s.out ++ r.out⟩)
    (s : SemState) (a : Act) (s' : SemState) (h : I s) (hs : semStep checks N M s a = some s') :
    I s' := by
  have hmove : ∀ i s s', I s → semStep checks N M s (.thread i) = some s' → I s' := by
    intro i s s' h hs
    obtain ⟨t, r, ht, hr, rfl⟩ := semStep_thread hs
    exact hthread i s t r ht hr h
  cases a with
  | create =>
    obtain ⟨hN, rfl⟩ := semStep_create hs
    exact hcreate s hN h
  | thread i => exact hmove i s s' h hs
  | handOff i j =>
    obtain ⟨_, _, m, _, _, _, _, hm, _, _, hs'⟩ := semStep_handOff hs
    exact hmove j m s' (hmove i s m h hm) hs'

/-! ## The invariant -/

/-- One for a thread between its `sem_wait` and its `sem_post`. -/
def inside (t : Thr) : ℕ :=
  if t.pc = .load ∨ t.pc = .store ∨ t.pc = .print ∨ t.pc = .post then 1 else 0

/-- One for a thread whose store is not printed yet. -/
def unprinted (t : Thr) : ℕ := if t.pc = .print then 1 else 0

/-- The number of values that a thread has printed. -/
def progress (t : Thr) : ℕ := t.loop + if t.pc = .post then 1 else 0

/-- What `g_cnt` holds after `n` increments. -/
def counted (n : ℕ) : ℤ := wrap .w32 n

def printedValues (out : List Line) : List ℤ :=
  out.filterMap fun
    | .gCnt _ cnt => some cnt
    | .blocked => none

/-- How often the index `i` was printed. -/
def printsOf (i : ℕ) (out : List Line) : ℕ :=
  out.countP fun
    | .gCnt thrIdx _ => thrIdx = i
    | .blocked => false

/-- The loop counter is below `M` until the thread is finished. -/
def LoopOk (M : ℕ) (t : Thr) : Prop := t.loop ≤ M ∧ (t.pc = .finished ↔ t.loop = M)

structure Sound (M : ℕ) (s : SemState) : Prop where
  one : s.value + tally inside s.threads = 1
  printed : printedValues s.out = (List.range (tally progress s.threads)).map fun k => counted (k + 1)
  gCnt : s.gCnt = counted (tally progress s.threads + tally unprinted s.threads)
  tmp : ∀ t ∈ s.threads, t.pc = .store → t.tmp = s.gCnt
  thread : ∀ i t, s.threads[i]? = some t →
    t.thrIdx = i ∧ printsOf i s.out = progress t ∧ LoopOk M t
  later : ∀ i, s.threads.length ≤ i → printsOf i s.out = 0

theorem counted_succ (n : ℕ) : wrap .w32 (counted n + 1) = counted (n + 1) := by
  rw [counted, wrap_wrap_succ, counted, Int.natCast_succ]

theorem counted_of_le {n : ℕ} (h : n ≤ intMax) : counted n = n :=
  wrap_of_inRange (inRange_of_le_intMax h)

theorem unprinted_le_inside (t : Thr) : unprinted t ≤ inside t := by
  unfold unprinted inside
  split
  · next h => rw [if_pos (Or.inr (Or.inr (Or.inl h)))]
  · exact Nat.zero_le _

theorem printedValues_append (out more : List Line) :
    printedValues (out ++ more) = printedValues out ++ printedValues more :=
  List.filterMap_append

theorem printsOf_append (i : ℕ) (out more : List Line) :
    printsOf i (out ++ more) = printsOf i out + printsOf i more :=
  List.countP_append

theorem atLoop_loopOk (checks : Bool) (M : ℕ) (t : Thr) (loop : ℕ) (h : loop ≤ M) :
    LoopOk M (atLoop checks M t loop) := by
  refine ⟨h, ?_⟩
  unfold atLoop
  by_cases hlt : loop < M
  · simp only [if_pos hlt]
    refine iff_of_false ?_ (by omega)
    cases checks <;> decide
  · simp only [if_neg hlt]
    exact iff_of_true trivial (by omega)

theorem atLoop_weights (checks : Bool) (M : ℕ) (t : Thr) (loop : ℕ) :
    inside (atLoop checks M t loop) = 0 ∧ unprinted (atLoop checks M t loop) = 0 ∧
      progress (atLoop checks M t loop) = loop ∧ (atLoop checks M t loop).pc ≠ .store := by
  unfold atLoop inside unprinted progress
  by_cases hlt : loop < M <;> cases checks <;> simp [hlt]

theorem sound_init (M : ℕ) : Sound M semInit where
  one := rfl
  printed := rfl
  gCnt := (counted_of_le (Nat.zero_le intMax)).symm
  tmp := fun t ht => absurd ht List.not_mem_nil
  thread := fun i t ht => by cases ht
  later := fun _ _ => rfl

theorem sound_create (checks : Bool) (M : ℕ) (s : SemState) (h : Sound M s) :
    Sound M { s with threads := s.threads ++ [created checks M s.threads.length] } := by
  obtain ⟨hin, hun, hpr, hst⟩ := atLoop_weights checks M ⟨.finished, s.threads.length, 0, 0, 0⟩ 0
  refine ⟨?_, ?_, ?_, ?_, ?_, ?_⟩
  · rw [tally_snoc, created, hin]
    exact h.one
  · rw [tally_snoc, created, hpr]
    exact h.printed
  · rw [tally_snoc, tally_snoc, created, hpr, hun]
    exact h.gCnt
  · intro t ht
    obtain ht | ht := List.mem_append.mp ht
    · exact h.tmp t ht
    · cases List.mem_singleton.mp ht
      exact fun hpc => absurd hpc hst
  · intro i t ht
    obtain ⟨-, ht⟩ | ⟨hi, rfl⟩ := entry_snoc_cases ht
    · exact h.thread i t ht
    · refine ⟨hi.symm, ?_, atLoop_loopOk checks M _ 0 (Nat.zero_le M)⟩
      rw [h.later i (by omega), created, hpr]
  · intro i hi
    rw [List.length_append] at hi
    exact h.later i (by omega)

/-- A move that prints no value leaves the counter alone, or is a store from inside the section. -/
def CountKept (gCnt : ℤ) (t : Thr) (r : Moved) : Prop :=
  r.gCnt = gCnt ∧ unprinted r.thr = unprinted t ∨
    inside t = 1 ∧ r.gCnt = wrap .w32 (gCnt + 1) ∧ unprinted r.thr = unprinted t + 1

/-- A move that prints no value: it keeps the sums and the rules for the thread that moves. -/
theorem sound_silent {M i : ℕ} {s : SemState} {t : Thr} {r : Moved} (h : Sound M s)
    (ht : s.threads[i]? = some t) (hvalue : r.value + inside r.thr = s.value + inside t)
    (hidx : r.thr.thrIdx = t.thrIdx) (hprogress : progress r.thr = progress t)
    (hloop : LoopOk M r.thr) (hgCnt : CountKept s.gCnt t r)
    (htmp : r.thr.pc = .store → r.thr.tmp = r.gCnt)
    (hout : printedValues r.out = [] ∧ ∀ k, printsOf k r.out = 0) :
    Sound M ⟨r.value, r.gCnt, s.threads.set i r.thr, s.out ++ r.out⟩ := by
  have hone := tally_set inside s.threads i t r.thr ht
  have hprog := tally_set progress s.threads i t r.thr ht
  have hunp := tally_set unprinted s.threads i t r.thr ht
  have hsum := h.one
  refine ⟨?_, ?_, ?_, ?_, ?_, ?_⟩
  · show r.value + tally inside (s.threads.set i r.thr) = 1
    omega
  · have hsame : tally progress (s.threads.set i r.thr) = tally progress s.threads := by omega
    rw [printedValues_append, hout.1, List.append_nil, hsame]
    exact h.printed
  · show r.gCnt = counted (tally progress (s.threads.set i r.thr) + tally unprinted (s.threads.set i r.thr))
    obtain ⟨hg, hun⟩ | ⟨-, hg, hun⟩ := hgCnt
    · rw [hg, h.gCnt]
      congr 1
      omega
    · rw [hg, h.gCnt, counted_succ]
      congr 1
      omega
  · intro u hu hpc
    obtain ⟨k, hk⟩ := List.mem_iff_getElem?.mp hu
    obtain ⟨-, rfl⟩ | ⟨hki, hk⟩ := entry_set_cases hk
    · exact htmp hpc
    · have hinside : inside u = 1 := by rw [inside, if_pos (Or.inr (Or.inl hpc))]
      -- a store of the moving thread excludes every other thread from the section
      obtain ⟨hg, -⟩ | ⟨hin, -⟩ := hgCnt
      · rw [hg]
        exact h.tmp u (List.mem_of_getElem? hk) hpc
      · have := add_le_tally inside s.threads k i u t hk ht hki
        omega
  · intro k u hu
    rw [printsOf_append, hout.2, Nat.add_zero]
    obtain ⟨hki, rfl⟩ | ⟨-, hu⟩ := entry_set_cases hu
    · obtain ⟨hti, htp, -⟩ := h.thread i t ht
      rw [hki]
      exact ⟨hidx.trans hti, htp.trans hprogress.symm, hloop⟩
    · exact h.thread k u hu
  · intro k hk
    rw [List.length_set] at hk
    rw [printsOf_append, hout.2, Nat.add_zero]
    exact h.later k hk

theorem printsOf_own (k i : ℕ) (cnt : ℤ) :
    printsOf k [.gCnt i cnt] = if i = k then 1 else 0 := by
  rw [printsOf, List.countP_singleton]
  simp only [decide_eq_true_eq]

theorem sound_print {M i : ℕ} {s : SemState} {t : Thr} (h : Sound M s)
    (ht : s.threads[i]? = some t) (hpc : t.pc = .print) :
    Sound M ⟨s.value, s.gCnt, s.threads.set i { t with pc := .post },
      s.out ++ [.gCnt t.thrIdx s.gCnt]⟩ := by
  obtain ⟨hti, htp, hloop⟩ := h.thread i t ht
  have hprint : progress t = t.loop ∧ progress { t with pc := .post } = t.loop + 1 := by
    unfold progress
    simp [hpc]
  have hw : inside t = 1 ∧ inside { t with pc := .post } = 1 ∧ unprinted t = 1 ∧
      unprinted { t with pc := .post } = 0 := by
    unfold inside unprinted
    simp [hpc]
  have hone := tally_set inside s.threads i t { t with pc := .post } ht
  have hprog := tally_set progress s.threads i t { t with pc := .post } ht
  have hunp := tally_set unprinted s.threads i t { t with pc := .post } ht
  have hle := tally_mono unprinted inside s.threads unprinted_le_inside
  have hge := le_tally unprinted s.threads t (List.mem_of_getElem? ht)
  have hsum := h.one
  have hnext : tally progress (s.threads.set i { t with pc := .post }) =
      tally progress s.threads + 1 := by omega
  refine ⟨?_, ?_, ?_, ?_, ?_, ?_⟩
  · show s.value + tally inside (s.threads.set i { t with pc := .post }) = 1
    omega
  · have hval : s.gCnt = counted (tally progress s.threads + 1) := by
      rw [h.gCnt]
      congr 1
      omega
    rw [printedValues_append, h.printed, hnext, List.range_succ, List.map_append, hval]
    rfl
  · show s.gCnt = counted (tally progress (s.threads.set i { t with pc := .post }) +
      tally unprinted (s.threads.set i { t with pc := .post }))
    rw [h.gCnt]
    congr 1
    omega
  · intro u hu hst
    obtain ⟨k, hk⟩ := List.mem_iff_getElem?.mp hu
    obtain ⟨-, rfl⟩ | ⟨-, hk⟩ := entry_set_cases hk
    · cases hst
    · exact h.tmp u (List.mem_of_getElem? hk) hst
  · intro k u hu
    rw [printsOf_append, printsOf_own, hti]
    obtain ⟨hki, rfl⟩ | ⟨hki, hu⟩ := entry_set_cases hu
    · rw [hki, if_pos rfl]
      have hne : t.loop ≠ M := by
        intro he
        have := hloop.2.mpr he
        rw [hpc] at this
        cases this
      refine ⟨hti, by omega, hloop.1, iff_of_false (fun hf => by cases hf) hne⟩
    · rw [if_neg (Ne.symm hki), Nat.add_zero]
      exact h.thread k u hu
  · intro k hk
    rw [List.length_set] at hk
    have hi := (List.getElem?_eq_some_iff.mp ht).1
    rw [printsOf_append, printsOf_own, hti, if_neg (by omega), Nat.add_zero]
    exact h.later k hk

/-- Neither the first nor the last step of a turn of the loop. -/
def midLoop (pc : Pc) : Prop := pc ≠ .post ∧ pc ≠ .finished

theorem sound_midLoop {M i : ℕ} {s : SemState} {t : Thr} {r : Moved} (h : Sound M s)
    (ht : s.threads[i]? = some t) (hvalue : r.value + inside r.thr = s.value + inside t)
    (hthr : r.thr.thrIdx = t.thrIdx ∧ r.thr.loop = t.loop) (hpc : midLoop t.pc)
    (hpc' : midLoop r.thr.pc) (hgCnt : CountKept s.gCnt t r)
    (htmp : r.thr.pc = .store → r.thr.tmp = r.gCnt)
    (hout : printedValues r.out = [] ∧ ∀ k, printsOf k r.out = 0) :
    Sound M ⟨r.value, r.gCnt, s.threads.set i r.thr, s.out ++ r.out⟩ := by
  obtain ⟨-, -, hle, hfin⟩ := h.thread i t ht
  refine sound_silent h ht hvalue hthr.1 ?_ ⟨?_, ?_⟩ hgCnt htmp hout
  · rw [progress, progress, if_neg hpc.1, if_neg hpc'.1, hthr.2]
  · rw [hthr.2]
    exact hle
  · rw [hthr.2]
    exact iff_of_false hpc'.2 fun he => hpc.2 (hfin.mpr he)

theorem silent_nil : printedValues [] = [] ∧ ∀ k, printsOf k [] = 0 := ⟨rfl, fun _ => rfl⟩

theorem silent_blocked : printedValues [.blocked] = [] ∧ ∀ k, printsOf k [.blocked] = 0 :=
  ⟨rfl, fun _ => rfl⟩

/-- A `sem_post` ends a turn of the loop, which `print` has counted before. -/
theorem sound_post {checks : Bool} {M i : ℕ} {s : SemState} {t : Thr} (h : Sound M s)
    (ht : s.threads[i]? = some t) (hpc : t.pc = .post) :
    Sound M ⟨s.value + 1, s.gCnt, s.threads.set i (atLoop checks M t (t.loop + 1)),
      s.out ++ []⟩ := by
  obtain ⟨-, -, hle, hfin⟩ := h.thread i t ht
  have hlt : t.loop < M := by
    have hne : t.loop ≠ M := fun he => by cases hpc.symm.trans (hfin.mpr he)
    omega
  obtain ⟨hin, hun, hpr, hst⟩ := atLoop_weights checks M t (t.loop + 1)
  have hvalue : s.value + 1 + inside (atLoop checks M t (t.loop + 1)) = s.value + inside t := by
    rw [hin]
    simp [inside, hpc]
  have hprogress : progress (atLoop checks M t (t.loop + 1)) = progress t := by
    rw [hpr]
    simp [progress, hpc]
  have hsame : unprinted (atLoop checks M t (t.loop + 1)) = unprinted t := by
    rw [hun]
    simp [unprinted, hpc]
  exact sound_silent h ht (r := ⟨s.value + 1, s.gCnt, atLoop checks M t (t.loop + 1), []⟩) hvalue
    rfl hprogress (atLoop_loopOk checks M t (t.loop + 1) hlt) (Or.inl ⟨rfl, hsame⟩)
    (fun he => absurd he hst) silent_nil

theorem sound_threadStep {checks : Bool} {M i : ℕ} {s : SemState} {t : Thr} {r : Moved}
    (h : Sound M s) (ht : s.threads[i]? = some t)
    (hr : threadStep checks M s.value s.gCnt t = some r) :
    Sound M ⟨r.value, r.gCnt, s.threads.set i r.thr, s.out ++ r.out⟩ := by
  unfold threadStep at hr
  cases hpc : t.pc with
  | getvalue =>
    rw [hpc] at hr
    cases Option.some.inj hr
    apply sound_midLoop h ht
    all_goals simp [CountKept, inside, unprinted, midLoop, hpc, silent_nil]
  | report =>
    rw [hpc] at hr
    cases Option.some.inj hr
    apply sound_midLoop h ht
    case hout =>
      show printedValues (if t.semval = 0 then [.blocked] else []) = [] ∧ _
      split
      · exact silent_blocked
      · exact silent_nil
    all_goals simp [CountKept, inside, unprinted, midLoop, hpc]
  | wait =>
    rw [hpc] at hr
    by_cases hv : 0 < s.value
    · cases Option.some.inj ((if_pos hv).symm.trans hr)
      apply sound_midLoop h ht
      all_goals simp [CountKept, inside, unprinted, midLoop, hpc, silent_nil]
      omega
    · cases Option.some.inj ((if_neg hv).symm.trans hr)
      apply sound_midLoop h ht
      all_goals simp [CountKept, inside, unprinted, midLoop, hpc, silent_nil]
  | blocked =>
    rw [hpc] at hr
    obtain ⟨hv, rfl⟩ := guarded_inv hr
    apply sound_midLoop h ht
    all_goals simp [CountKept, inside, unprinted, midLoop, hpc, silent_nil]
    omega
  | load =>
    rw [hpc] at hr
    cases Option.some.inj hr
    apply sound_midLoop h ht
    all_goals simp [CountKept, inside, unprinted, midLoop, hpc, silent_nil]
  | store =>
    rw [hpc] at hr
    have htmp := h.tmp t (List.mem_of_getElem? ht) hpc
    cases Option.some.inj hr
    apply sound_midLoop h ht
    all_goals simp [CountKept, inside, unprinted, midLoop, hpc, htmp, silent_nil]
  | print =>
    rw [hpc] at hr
    cases Option.some.inj hr
    exact sound_print h ht hpc
  | post =>
    rw [hpc] at hr
    cases Option.some.inj hr
    exact sound_post h ht hpc
  | finished =>
    rw [hpc] at hr
    cases hr

theorem sound_semStep (checks : Bool) (N M : ℕ) (s : SemState) (a : Act) (s' : SemState)
    (h : Sound M s) (hs : semStep checks N M s a = some s') : Sound M s' := by
  refine semStep_keeps (Sound M) ?_ ?_ s a s' h hs
  · exact fun s _ h => sound_create checks M s h
  · exact fun i s t r ht hr h => sound_threadStep h ht hr

theorem semStep_length (checks : Bool) (N M : ℕ) (s : SemState) (a : Act) (s' : SemState)
    (h : s.threads.length ≤ N) (hs : semStep checks N M s a = some s') : s'.threads.length ≤ N := by
  refine semStep_keeps (fun s => s.threads.length ≤ N) ?_ ?_ s a s' h hs
  · intro s hN _
    show (s.threads ++ [_]).length ≤ N
    rw [List.length_append]
    exact hN
  · intro i s t r _ _ h
    show (s.threads.set i r.thr).length ≤ N
    rw [List.length_set]
    exact h

theorem sound_of_run {checks : Bool} {N M : ℕ} {as : List Act} {s : SemState}
    (h : exec (semStep checks N M) semInit as = some s) : Sound M s :=
  exec_invariant (Sound M) (sound_semStep checks N M) h (sound_init M)

/-! ## No update is lost -/

def AllFinished (N : ℕ) (s : SemState) : Prop :=
  s.threads.length = N ∧ ∀ t ∈ s.threads, t.pc = .finished

/-- No thread is at a store that `int` cannot hold. -/
def StoresDefined (s : SemState) : Prop := ∀ t ∈ s.threads, t.pc = .store → InRange .w32 (t.tmp + 1)

/-- At most one thread is inside, 1, 2, 3, ... is printed, and at the end all is counted. -/
structure LosesNothing (N M : ℕ) (s : SemState) : Prop where
  one : s.value + tally inside s.threads = 1
  printed : ∃ k, printedValues s.out = (List.range k).map fun j : ℕ => (j : ℤ) + 1
  finished : AllFinished N s → s.gCnt = N * M ∧ s.value = 1 ∧ ∀ i < N, printsOf i s.out = M

theorem progress_le (M : ℕ) (s : SemState) (h : Sound M s) (t : Thr) (ht : t ∈ s.threads) :
    progress t ≤ M ∧ (t.pc = .store ∨ t.pc = .print → progress t < M) := by
  obtain ⟨i, hi⟩ := List.mem_iff_getElem?.mp ht
  obtain ⟨-, -, hle, hfin⟩ := h.thread i t hi
  unfold progress
  constructor
  · split
    · next hpost =>
      have hne : t.loop ≠ M := fun he => by cases hpost.symm.trans (hfin.mpr he)
      omega
    · exact hle
  · intro hst
    have hne : t.loop ≠ M := by
      intro he
      rw [hfin.mpr he] at hst
      obtain hst | hst := hst <;> cases hst
    rw [if_neg (by obtain hst | hst := hst <;> rw [hst] <;> decide)]
    omega

/-- A thread that is about to store is alone in its section, so nothing is unprinted. -/
theorem unprinted_of_store (M : ℕ) (s : SemState) (h : Sound M s) (t : Thr) (ht : t ∈ s.threads)
    (hpc : t.pc = .store) : tally unprinted s.threads = 0 := by
  have hsum := h.one
  have ht1 : inside t = 1 := by rw [inside, if_pos (Or.inr (Or.inl hpc))]
  obtain ⟨i, hi⟩ := List.mem_iff_getElem?.mp ht
  rw [tally_const unprinted 0 s.threads, Nat.mul_zero]
  intro u hu
  obtain ⟨k, hk⟩ := List.mem_iff_getElem?.mp hu
  by_cases hki : k = i
  · rw [hki, hi, Option.some.injEq] at hk
    rw [← hk, unprinted, hpc]
    rfl
  · have hpair := add_le_tally inside s.threads k i u t hk hi hki
    have hle := unprinted_le_inside u
    omega

theorem progress_lt_of_store (N M : ℕ) (s : SemState) (h : Sound M s) (hN : s.threads.length ≤ N)
    (t : Thr) (ht : t ∈ s.threads) (hpc : t.pc = .store) : tally progress s.threads < N * M :=
  calc tally progress s.threads < s.threads.length * M :=
        tally_lt progress M s.threads (fun u hu => (progress_le M s h u hu).1) t ht
          ((progress_le M s h t ht).2 (Or.inl hpc))
    _ ≤ N * M := Nat.mul_le_mul_right M hN

theorem storesDefined_of_sound (N M : ℕ) (s : SemState) (h : Sound M s)
    (hN : s.threads.length ≤ N) (hint : N * M ≤ intMax) : StoresDefined s := by
  intro t ht hpc
  have hlt := progress_lt_of_store N M s h hN t ht hpc
  have hcount : s.gCnt = (tally progress s.threads : ℤ) := by
    rw [h.gCnt, unprinted_of_store M s h t ht hpc, Nat.add_zero, counted_of_le (by omega)]
  rw [h.tmp t ht hpc, hcount, ← Int.natCast_succ]
  exact inRange_of_le_intMax (by omega)

theorem finished_weights (M : ℕ) (s : SemState) (h : Sound M s) (t : Thr) (ht : t ∈ s.threads)
    (hpc : t.pc = .finished) : inside t = 0 ∧ unprinted t = 0 ∧ progress t = M := by
  obtain ⟨i, hi⟩ := List.mem_iff_getElem?.mp ht
  obtain ⟨-, -, -, hfin⟩ := h.thread i t hi
  unfold inside unprinted progress
  simp [hpc, hfin.mp hpc]

theorem sound_finished (N M : ℕ) (s : SemState) (h : Sound M s) (hfin : AllFinished N s) :
    s.gCnt = counted (N * M) ∧ s.value = 1 ∧ ∀ i < N, printsOf i s.out = M := by
  obtain ⟨hlen, hall⟩ := hfin
  have hw : ∀ t ∈ s.threads, inside t = 0 ∧ unprinted t = 0 ∧ progress t = M :=
    fun t ht => finished_weights M s h t ht (hall t ht)
  have hin := tally_const inside 0 s.threads fun t ht => (hw t ht).1
  have hun := tally_const unprinted 0 s.threads fun t ht => (hw t ht).2.1
  have hpr := tally_const progress M s.threads fun t ht => (hw t ht).2.2
  have hsum := h.one
  rw [hlen] at hpr
  refine ⟨?_, by omega, ?_⟩
  · rw [h.gCnt, hun, Nat.mul_zero, Nat.add_zero, hpr]
  · intro i hi
    rw [← hlen] at hi
    have hget := List.getElem?_eq_getElem hi
    obtain ⟨-, hprints, -⟩ := h.thread i _ hget
    rw [hprints]
    exact (hw _ (List.getElem_mem hi)).2.2

theorem losesNothing_of_sound (N M : ℕ) (s : SemState) (h : Sound M s) (hN : s.threads.length ≤ N)
    (hint : N * M ≤ intMax) : LosesNothing N M s := by
  have hle : tally progress s.threads ≤ intMax :=
    calc tally progress s.threads ≤ s.threads.length * M :=
          tally_le progress M s.threads fun t ht => (progress_le M s h t ht).1
      _ ≤ N * M := Nat.mul_le_mul_right M hN
      _ ≤ intMax := hint
  refine ⟨h.one, ⟨tally progress s.threads, ?_⟩, fun hfin => ?_⟩
  · rw [h.printed]
    refine List.map_congr_left fun k hk => ?_
    have hlt := List.mem_range.mp hk
    rw [counted_of_le (by omega), Int.natCast_succ]
  · obtain ⟨hg, hrest⟩ := sound_finished N M s h hfin
    rw [counted_of_le hint, Int.natCast_mul] at hg
    exact ⟨hg, hrest⟩

/-! ## Every thread can finish -/

theorem semStep_last {checks : Bool} {N M value : ℕ} {gCnt : ℤ} {l : List Thr} {t : Thr}
    {out : List Line} {r : Moved} (h : threadStep checks M value gCnt t = some r) :
    semStep checks N M ⟨value, gCnt, l ++ [t], out⟩ (.thread l.length) =
      some ⟨r.value, r.gCnt, l ++ [r.thr], out ++ r.out⟩ := by
  rw [semStep_thread_eq (List.getElem?_concat_length) h, List.set_append_right _ _ (Nat.le_refl _),
    Nat.sub_self, List.set_cons_zero]

/-- From its `sem_wait` on, the last thread comes to the head of the loop again. -/
theorem waiting_turn (checks : Bool) (N M : ℕ) (gCnt : ℤ) (l : List Thr) (t : Thr) (out : List Line)
    (hpc : t.pc = .wait) :
    ∃ as gCnt' out' t', exec (semStep checks N M) ⟨1, gCnt, l ++ [t], out⟩ as =
      some ⟨1, gCnt', l ++ [atLoop checks M t' (t.loop + 1)], out'⟩ := by
  obtain ⟨pc, thrIdx, loop, tmp, semval⟩ := t
  cases hpc
  let a := Act.thread l.length
  refine ⟨[a, a, a, a, a], wrap .w32 (gCnt + 1),
    out ++ [] ++ [] ++ [] ++ [.gCnt thrIdx (wrap .w32 (gCnt + 1))] ++ [],
    ⟨.post, thrIdx, loop, gCnt, semval⟩, ?_⟩
  rw [exec_cons_eq (semStep_last rfl), exec_cons_eq (semStep_last rfl),
    exec_cons_eq (semStep_last rfl), exec_cons_eq (semStep_last rfl), exec_cons_eq (semStep_last rfl)]
  rfl

theorem turn (checks : Bool) (N M : ℕ) (gCnt : ℤ) (l : List Thr) (t : Thr) (out : List Line)
    (loop : ℕ) (hlt : loop < M) :
    ∃ as gCnt' out' t', exec (semStep checks N M) ⟨1, gCnt, l ++ [atLoop checks M t loop], out⟩ as =
      some ⟨1, gCnt', l ++ [atLoop checks M t' (loop + 1)], out'⟩ := by
  rw [atLoop, if_pos hlt]
  cases checks with
  | false => exact waiting_turn false N M gCnt l { t with loop := loop, pc := .wait } out rfl
  | true =>
    obtain ⟨as, gCnt', out', t', h⟩ := waiting_turn true N M gCnt l
      { t with loop := loop, pc := .wait, semval := 1 } (out ++ [] ++ []) rfl
    refine ⟨.thread l.length :: .thread l.length :: as, gCnt', out', t', ?_⟩
    rw [exec_cons_eq (semStep_last rfl), exec_cons_eq (semStep_last rfl)]
    exact h

theorem finishes (checks : Bool) (N M left : ℕ) (gCnt : ℤ) (l : List Thr) (t : Thr)
    (out : List Line) (loop : ℕ) (h : loop + left = M) :
    ∃ as gCnt' out' t', exec (semStep checks N M) ⟨1, gCnt, l ++ [atLoop checks M t loop], out⟩ as =
      some ⟨1, gCnt', l ++ [t'], out'⟩ ∧ t'.pc = .finished := by
  induction left generalizing gCnt t out loop with
  | zero => exact ⟨[], gCnt, out, _, rfl, if_neg (by omega)⟩
  | succ left ih =>
    obtain ⟨as, gCnt', out', t', hturn⟩ := turn checks N M gCnt l t out loop (by omega)
    obtain ⟨bs, gCnt'', out'', t'', hrest, hpc⟩ := ih gCnt' t' out' (loop + 1) (by omega)
    exact ⟨as ++ bs, gCnt'', out'', t'', by rw [exec_append, hturn, Option.bind_some, hrest], hpc⟩

/-- One thread after the other. -/
theorem exists_finished (checks : Bool) (N M n : ℕ) (hn : n ≤ N) :
    ∃ as s, exec (semStep checks N M) semInit as = some s ∧ s.value = 1 ∧ AllFinished n s := by
  induction n with
  | zero => exact ⟨[], semInit, rfl, rfl, rfl, fun t ht => absurd ht List.not_mem_nil⟩
  | succ n ih =>
    obtain ⟨as, s, hrun, hvalue, hlen, hfin⟩ := ih (by omega)
    obtain ⟨bs, gCnt, out, t, hlast, hpc⟩ := finishes checks N M M s.gCnt s.threads
      ⟨.finished, s.threads.length, 0, 0, 0⟩ s.out 0 (Nat.zero_add M)
    have hcreate : semStep checks N M s .create =
        some ⟨1, s.gCnt, s.threads ++ [created checks M s.threads.length], s.out⟩ := by
      rw [← hvalue]
      exact if_pos (by omega)
    refine ⟨as ++ .create :: bs, ⟨1, gCnt, s.threads ++ [t], out⟩, ?_, rfl, ?_, fun u hu => ?_⟩
    · rw [exec_append, hrun, Option.bind_some, exec_cons_eq hcreate]
      exact hlast
    · rw [List.length_append, hlen, List.length_singleton]
    · obtain hu | hu := List.mem_append.mp hu
      · exact hfin u hu
      · rw [List.mem_singleton.mp hu, hpc]

/-- A counter that has wrapped around does not hold what was counted. -/
theorem not_losesNothing (checks : Bool) (N M : ℕ) (h : intMax < N * M) :
    ∃ as s, exec (semStep checks N M) semInit as = some s ∧ ¬ LosesNothing N M s := by
  obtain ⟨as, s, hrun, -, hfin⟩ := exists_finished checks N M N (Nat.le_refl N)
  refine ⟨as, s, hrun, fun hnone => ?_⟩
  have hcount := (hnone.finished hfin).1
  obtain ⟨-, hlt⟩ := inRange_wrap .w32 ((N * M : ℕ) : ℤ)
  rw [(sound_finished N M s (sound_of_run hrun) hfin).1] at hcount
  rw [← counted, hcount, ← Int.natCast_mul] at hlt
  simp only [Width.limit] at hlt
  unfold intMax at h
  omega

/-- **The counter loses no update**, in every state of every interleaving of both programs, exactly if
`int` can count to `N * M`; no store then overflows. -/
theorem counter_loses_nothing (checks : Bool) (N M : ℕ) :
    (∀ as s, exec (semStep checks N M) semInit as = some s →
      LosesNothing N M s ∧ StoresDefined s) ↔ N * M ≤ intMax := by
  constructor
  · intro h
    by_contra hint
    obtain ⟨as, s, hrun, hloses⟩ := not_losesNothing checks N M (Nat.lt_of_not_le hint)
    exact hloses (h as s hrun).1
  · intro hint as s hrun
    have hsound := sound_of_run hrun
    have hlen : s.threads.length ≤ N :=
      exec_invariant (fun s => s.threads.length ≤ N) (semStep_length checks N M) hrun (Nat.zero_le N)
    exact ⟨losesNothing_of_sound N M s hsound hlen hint, storesDefined_of_sound N M s hsound hlen hint⟩

/-- Thread 1 reports and is blocked while thread 0 is inside, and then takes over from it. -/
def turnsOverlap : List Act :=
  [.create, .create] ++ List.replicate 3 (.thread 0) ++ List.replicate 3 (.thread 1) ++
    List.replicate 3 (.thread 0) ++ [.handOff 0 1] ++ List.replicate 4 (.thread 1)

def afterTurns : SemState :=
  ⟨1, 2, [⟨.finished, 0, 1, 0, 1⟩, ⟨.finished, 1, 1, 1, 0⟩], [.blocked, .gCnt 0 1, .gCnt 1 2]⟩

theorem counter_loses_nothing_turns : LosesNothing 2 1 afterTurns ∧ StoresDefined afterTurns :=
  (counter_loses_nothing true 2 1).mpr (by decide) turnsOverlap afterTurns (by decide)

/-- Two threads that count as far as their `loop` can. -/
theorem counter_overflows :
    ¬ ∀ (checks : Bool) (N M : ℕ), N ≤ intMax → M ≤ intMax → ∀ as s,
      exec (semStep checks N M) semInit as = some s → LosesNothing N M s := by
  intro h
  obtain ⟨as, s, hrun, hloses⟩ := not_losesNothing false 2 intMax (by decide)
  exact hloses (h false 2 intMax (by decide) (Nat.le_refl intMax) as s hrun)

end LinuxAppSamp.Semaphore
