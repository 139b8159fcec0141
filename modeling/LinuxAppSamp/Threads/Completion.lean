import LinuxAppSamp.Foundations.Mutex
import LinuxAppSamp.Foundations.Progress
import LinuxAppSamp.Threads.Fifo

/-! # Starting together and coming to an end: `posix_thread_4fifo.c`

Two things that no wakeup spoils, spurious or not:

* `counts_together`: no thread counts before `main` has created them all and given `s_m2` back;
* `always_exits`: the program never deadlocks, a run is at most `21 * N + 12` steps long and one
  more for each spurious wakeup, and at its end every thread has been joined.
-/

namespace LinuxAppSamp.Threads
open Execution
set_option autoImplicit false
set_option maxHeartbeats 250000

/-! ## Ranks -/

def pcRank : ThreadPc → ℕ
  | .read => 7
  | .lock1 => 6
  | .signal => 5
  | .unlock1 => 4
  | .lock2 => 3
  | .unlock2 => 2
  | .count => 1
  | .finished => 0

/-- The steps behind a `for` loop. -/
def behindRank (N : ℕ) : For → ℕ
  | .create => 9 * N + 8
  | .join => 6 * N + 4
  | .report => 3 * N + 2
  | .free => 0

/-- A turn of the first loop takes five steps of `main` and the seven of the new thread. -/
def mainRank (N loop : ℕ) : MainPc → ℕ
  | .lock2 => 21 * N + 12
  | .lock1 => 21 * N + 11
  | .init .create => 21 * N + 10
  | .test .create => 12 * (N - loop) + 9 * N + 9
  | .body .create => 12 * (N - loop) + 9 * N + 8
  | .wait => 12 * (N - loop - 1) + 9 * N + 12
  | .waiting | .relock => 12 * (N - loop - 1) + 9 * N + 11
  | .incr .create => 12 * (N - loop - 1) + 9 * N + 10
  | .unlock1 => 9 * N + 8
  | .unlock2 => 9 * N + 7
  | .init f => 3 * N + 2 + behindRank N f
  | .test f => 3 * (N - loop) + 1 + behindRank N f
  | .body f => 3 * (N - loop) + behindRank N f
  | .incr f => 3 * (N - loop - 1) + 2 + behindRank N f
  | .exited => 0

def fifoRank (N : ℕ) (s : FifoState) : ℕ :=
  mainRank N s.loop s.main + tally (fun t => pcRank t.pc) s.threads

def fifoWeight : FifoAct → ℕ
  | .spurious => 1
  | _ => 0

/-! ## One step of a thread -/

def nextPc : ThreadPc → ThreadPc
  | .read => .lock1
  | .lock1 => .signal
  | .signal => .unlock1
  | .unlock1 => .lock2
  | .lock2 => .unlock2
  | .unlock2 => .count
  | .count | .finished => .finished

/-- `s'` is `s` after the step of thread `i` that brings it from `t` to `t'`. -/
structure ThreadStepped (s s' : FifoState) (i : ℕ) (t t' : FifoThread) : Prop where
  before : s.threads[i]? = some t
  threads : s'.threads = s.threads.set i t'
  loop : s'.loop = s.loop
  running : t.pc ≠ .finished
  next : t'.pc = nextPc t.pc
  main : s'.main = s.main ∨ t.pc = .signal ∧ s.main = .waiting ∧ s'.main = .relock
  signal : t.pc = .signal → s'.main ≠ .waiting
  lock1 : t.pc = .lock1 → s.m1 = none ∧ s'.m1 = some (.thread i)
  unlock1 : t.pc = .unlock1 → s'.m1 = none
  m1 : t.pc ≠ .lock1 → t.pc ≠ .unlock1 → s'.m1 = s.m1
  lock2 : t.pc = .lock2 → s.m2 = none ∧ s'.m2 = some (.thread i)
  unlock2 : t.pc = .unlock2 → s'.m2 = none
  m2 : t.pc ≠ .lock2 → t.pc ≠ .unlock2 → s'.m2 = s.m2
  awake : s.main ≠ .exited

theorem threadStepped_of_step {N i : ℕ} {s s' : FifoState}
    (h : fifoStep N s (.thread i) = some s') : ∃ t t', ThreadStepped s s' i t t' := by
  by_cases hx : s.main = .exited
  · cases (if_pos hx).symm.trans h
  · have hbind := (if_neg hx).symm.trans h
    obtain ⟨t, ht, hstep⟩ := Option.bind_eq_some_iff.mp hbind
    unfold threadStep at hstep
    cases hpc : t.pc <;> rw [hpc] at hstep
    case lock1 | lock2 =>
      obtain ⟨hfree, rfl⟩ := guarded_inv hstep
      refine ⟨t, _, ht, rfl, rfl, by simp [hpc], by simp [hpc, nextPc], Or.inl rfl, ?_, ?_, ?_, ?_, ?_,
        ?_, ?_, hx⟩ <;> simp [hpc, hfree]
    case signal =>
      cases Option.some.inj hstep
      by_cases hw : s.main = .waiting
      · refine ⟨t, _, ht, rfl, rfl, by simp [hpc], by simp [hpc, nextPc], Or.inr ⟨hpc, hw, if_pos hw⟩, ?_,
          ?_, ?_, ?_, ?_, ?_, ?_, hx⟩ <;> simp [hpc, hw]
      · refine ⟨t, _, ht, rfl, rfl, by simp [hpc], by simp [hpc, nextPc], Or.inl (if_neg hw), ?_, ?_, ?_,
          ?_, ?_, ?_, ?_, hx⟩ <;> simp [hpc, hw]
    case finished => cases hstep
    all_goals
      cases Option.some.inj hstep
      refine ⟨t, _, ht, rfl, rfl, by simp [hpc], by simp [hpc, nextPc], Or.inl rfl, ?_, ?_, ?_, ?_, ?_, ?_,
        ?_, hx⟩ <;> simp [hpc]

/-! ## The two mutexes -/

/-- Who is inside the section with the points `K` of `main` and `C` of the threads. -/
def inside (K : MainPc → Prop) (C : ThreadPc → Prop) (s : FifoState) : Owner → Prop
  | .main => K s.main
  | .thread i => At (fun t => C t.pc) s.threads i

def MainInM1 : MainPc → Prop
  | .init .create | .test .create | .body .create | .incr .create | .wait | .unlock1 => True
  | _ => False

def InM1 (pc : ThreadPc) : Prop := pc = .signal ∨ pc = .unlock1

def MainInM2 : MainPc → Prop
  | .lock1 | .init .create | .test .create | .body .create | .incr .create => True
  | .wait | .waiting | .relock | .unlock1 | .unlock2 => True
  | _ => False

def InM2 (pc : ThreadPc) : Prop := pc = .unlock2

section
variable {K : MainPc → Prop} {C : ThreadPc → Prop} {owner owner' : Option Owner} {s s' : FifoState}

theorem guards_thread {i : ℕ} {t t' : FifoThread} (h : Guards owner (inside K C s))
    (hstep : ThreadStepped s s' i t t') (hK : K s'.main ↔ K s.main)
    (henter : ¬ C t.pc → C (nextPc t.pc) → owner = none ∧ owner' = some (.thread i))
    (hleave : C t.pc → ¬ C (nextPc t.pc) → owner' = none)
    (hstay : (C t.pc ↔ C (nextPc t.pc)) → owner' = owner) : Guards owner' (inside K C s') := by
  have hnow : inside K C s' (.thread i) ↔ C (nextPc t.pc) := by
    rw [← hstep.next]
    show At _ s'.threads i ↔ _
    rw [hstep.threads]
    exact at_set_self _ t' hstep.before
  have hwas : inside K C s (.thread i) ↔ C t.pc := at_iff hstep.before
  apply h.move (.thread i)
  · intro o ho
    cases o with
    | main => exact hK
    | thread j =>
      show At _ s'.threads j ↔ _
      rw [hstep.threads]
      exact at_set_ne _ _ t' fun hj => ho (by rw [hj])
  · rw [hwas, hnow]
    exact henter
  · rw [hwas, hnow]
    exact hleave
  · rw [hwas, hnow]
    exact hstay

theorem guards_main (h : Guards owner (inside K C s))
    (hthreads : ∀ i, At (fun t => C t.pc) s'.threads i ↔ At (fun t => C t.pc) s.threads i)
    (henter : ¬ K s.main → K s'.main → owner = none ∧ owner' = some .main)
    (hleave : K s.main → ¬ K s'.main → owner' = none)
    (hstay : (K s.main ↔ K s'.main) → owner' = owner) : Guards owner' (inside K C s') := by
  refine h.move (Q := inside K C s') .main ?_ henter hleave hstay
  intro o ho
  cases o with
  | main => exact absurd rfl ho
  | thread i => exact hthreads i
end

/-! ## What holds until `main` has returned -/

/-- Behind its first loop `main` has created all the threads. -/
def Full (N : ℕ) (main : MainPc) (loop n : ℕ) : Prop :=
  match main with
  | .unlock1 | .unlock2 | .init .join | .init .report | .init .free => n = N
  | .test .join | .test .report | .test .free => n = N
  | .body .join | .body .report | .body .free => n = N ∧ loop < N
  | .incr .join | .incr .report | .incr .free => n = N ∧ loop < N
  | _ => True

/-- The threads that have been through `s_m2`. -/
def Through (pc : ThreadPc) : Prop := pc = .unlock2 ∨ pc = .count ∨ pc = .finished

/-- The newest thread has not woken `main`. -/
def Expected (main : MainPc) (pc : ThreadPc) : Prop :=
  match main with
  | .wait => pc = .read ∨ pc = .lock1
  | .waiting => pc = .read ∨ pc = .lock1 ∨ pc = .signal
  | _ => True

structure Sound (N : ℕ) (s : FifoState) : Prop where
  counted : Counted N s.main s.loop s.threads.length
  full : Full N s.main s.loop s.threads.length
  m1 : Guards s.m1 (inside MainInM1 InM1 s)
  m2 : Guards s.m2 (inside MainInM2 InM2 s)
  expected : ∀ t, s.threads[s.threads.length - 1]? = some t → Expected s.main t.pc
  closed : MainInM2 s.main → ∀ i, ¬ At (fun t => Through t.pc) s.threads i

theorem sound_init (N loop : ℕ) : Sound N (fifoInit loop) where
  counted := rfl
  full := trivial
  m1 := by
    intro o
    refine iff_of_false (by simp [fifoInit]) ?_
    cases o with
    | main => exact id
    | thread i => exact fun ⟨t, ht, _⟩ => by cases ht
  m2 := by
    intro o
    refine iff_of_false (by simp [fifoInit]) ?_
    cases o with
    | main => exact id
    | thread i => exact fun ⟨t, ht, _⟩ => by cases ht
  expected := fun t ht => by cases ht
  closed := fun h => h.elim

theorem through_next {pc : ThreadPc} (h : Through (nextPc pc)) : pc = .lock2 ∨ Through pc := by
  cases pc <;> simp_all [Through, nextPc]

theorem enters_m1 {pc : ThreadPc} (h : ¬ InM1 pc) (h' : InM1 (nextPc pc)) : pc = .lock1 := by
  cases pc <;> simp_all [InM1, nextPc]

theorem leaves_m1 {pc : ThreadPc} (h : InM1 pc) (h' : ¬ InM1 (nextPc pc)) : pc = .unlock1 := by
  cases pc <;> simp_all [InM1, nextPc]

theorem stays_m1 {pc : ThreadPc} (h : InM1 pc ↔ InM1 (nextPc pc)) : pc ≠ .lock1 ∧ pc ≠ .unlock1 := by
  cases pc <;> simp_all [InM1, nextPc]

theorem enters_m2 {pc : ThreadPc} (h : ¬ InM2 pc) (h' : InM2 (nextPc pc)) : pc = .lock2 := by
  cases pc <;> simp_all [InM2, nextPc]

theorem leaves_m2 {pc : ThreadPc} (h : InM2 pc) : pc = .unlock2 := h

theorem stays_m2 {pc : ThreadPc} (h : InM2 pc ↔ InM2 (nextPc pc)) : pc ≠ .lock2 ∧ pc ≠ .unlock2 := by
  cases pc <;> simp_all [InM2, nextPc]

theorem expected_thread {N i : ℕ} {s s' : FifoState} {t t' : FifoThread} (h : Sound N s)
    (hstep : ThreadStepped s s' i t t') {u : FifoThread}
    (hu : s'.threads[s'.threads.length - 1]? = some u) : Expected s'.main u.pc := by
  obtain hm | ⟨-, -, hr⟩ := hstep.main
  · rw [hstep.threads, List.length_set] at hu
    rw [hm]
    obtain ⟨hi, rfl⟩ | ⟨-, hu⟩ := entry_set_cases hu
    · have hbefore := h.expected t (by rw [hi]; exact hstep.before)
      rw [hstep.next]
      have hlock : s.main = .wait → t.pc ≠ .lock1 := by
        intro hw hpc
        have howner : s.m1 = some .main := (h.m1 .main).mpr (show MainInM1 s.main by rw [hw]; trivial)
        cases howner.symm.trans (hstep.lock1 hpc).1
      have hsignal : s.main = .waiting → t.pc ≠ .signal := fun hw hpc =>
        hstep.signal hpc (hm.trans hw)
      cases hmain : s.main <;> rw [hmain] at hbefore hlock hsignal <;> try trivial
      · obtain hpc | hpc := hbefore
        · exact Or.inr (by rw [hpc]; rfl)
        · exact absurd hpc (hlock rfl)
      · obtain hpc | hpc | hpc := hbefore
        · exact Or.inr (Or.inl (by rw [hpc]; rfl))
        · exact Or.inr (Or.inr (by rw [hpc]; rfl))
        · exact absurd hpc (hsignal rfl)
    · exact h.expected u hu
  · rw [hr]
    trivial

theorem closed_thread {N i : ℕ} {s s' : FifoState} {t t' : FifoThread} (h : Sound N s)
    (hstep : ThreadStepped s s' i t t') (hm : MainInM2 s.main) (j : ℕ) :
    ¬ At (fun t => Through t.pc) s'.threads j := by
  rw [hstep.threads]
  by_cases hj : j = i
  · rw [hj, at_set_self _ t' hstep.before, hstep.next]
    intro hthrough
    obtain hpc | hpc := through_next hthrough
    · cases ((h.m2 .main).mpr hm).symm.trans (hstep.lock2 hpc).1
    · exact h.closed hm i ⟨t, hstep.before, hpc⟩
  · rw [at_set_ne _ _ t' hj]
    exact h.closed hm j

theorem sound_thread {N i : ℕ} {s s' : FifoState} {t t' : FifoThread} (h : Sound N s)
    (hstep : ThreadStepped s s' i t t') : Sound N s' := by
  have hlen : s'.threads.length = s.threads.length := by rw [hstep.threads, List.length_set]
  obtain ⟨hcounted, hfull, hm1, hm2, -, -⟩ := id h
  have hK1 : MainInM1 s'.main ↔ MainInM1 s.main := by
    obtain hm | ⟨-, hw, hr⟩ := hstep.main
    · rw [hm]
    · rw [hw, hr]
      exact Iff.rfl
  have hK2 : MainInM2 s'.main ↔ MainInM2 s.main := by
    obtain hm | ⟨-, hw, hr⟩ := hstep.main
    · rw [hm]
    · rw [hw, hr]
      exact Iff.rfl
  refine ⟨?_, ?_, ?_, ?_, ?_, ?_⟩
  · rw [hlen, hstep.loop]
    obtain hm | ⟨-, hw, hr⟩ := hstep.main
    · rw [hm]
      exact hcounted
    · rw [hw] at hcounted
      rw [hr]
      exact hcounted
  · rw [hlen, hstep.loop]
    obtain hm | ⟨-, -, hr⟩ := hstep.main
    · rw [hm]
      exact hfull
    · rw [hr]
      trivial
  · apply guards_thread hm1 hstep hK1
    · exact fun h h' => hstep.lock1 (enters_m1 h h')
    · exact fun h h' => hstep.unlock1 (leaves_m1 h h')
    · exact fun h => hstep.m1 (stays_m1 h).1 (stays_m1 h).2
  · apply guards_thread hm2 hstep hK2
    · exact fun h h' => hstep.lock2 (enters_m2 h h')
    · exact fun h _ => hstep.unlock2 (leaves_m2 h)
    · exact fun h => hstep.m2 (stays_m2 h).1 (stays_m2 h).2
  · exact fun u hu => expected_thread h hstep hu
  · exact fun hm => closed_thread h hstep (hK2.mp hm)

/-- What is left to show of a step of `main` that creates no thread. -/
theorem sound_moved {N : ℕ} {s s' : FifoState} (h : Sound N s) (hmoved : MainMoved N s s')
    (hfull : Full N s'.main s'.loop s.threads.length)
    (henter1 : ¬ MainInM1 s.main → MainInM1 s'.main → s.m1 = none ∧ s'.m1 = some .main)
    (hleave1 : MainInM1 s.main → ¬ MainInM1 s'.main → s'.m1 = none)
    (hstay1 : (MainInM1 s.main ↔ MainInM1 s'.main) → s'.m1 = s.m1)
    (henter2 : ¬ MainInM2 s.main → MainInM2 s'.main → s.m2 = none ∧ s'.m2 = some .main)
    (hleave2 : MainInM2 s.main → ¬ MainInM2 s'.main → s'.m2 = none)
    (hstay2 : (MainInM2 s.main ↔ MainInM2 s'.main) → s'.m2 = s.m2)
    (hexpected : ∀ pc, Expected s.main pc → Expected s'.main pc)
    (hclosed : MainInM2 s'.main → MainInM2 s.main ∨ s.threads = []) : Sound N s' := by
  refine ⟨?_, by rw [hmoved.threads]; exact hfull, ?_, ?_, ?_, ?_⟩
  · rw [hmoved.threads]
    exact hmoved.counted _ h.counted
  · refine guards_main h.m1 (fun i => ?_) henter1 hleave1 hstay1
    rw [hmoved.threads]
  · refine guards_main h.m2 (fun i => ?_) henter2 hleave2 hstay2
    rw [hmoved.threads]
  · intro t ht
    rw [hmoved.threads] at ht
    exact hexpected _ (h.expected t ht)
  · intro hm i
    rw [hmoved.threads]
    obtain hin | hnil := hclosed hm
    · exact h.closed hin i
    · rw [hnil]
      rintro ⟨t, ht, -⟩
      cases ht

theorem sound_create {N : ℕ} {s : FifoState} (h : Sound N s) (hm : s.main = .body .create) :
    Sound N { s with main := .wait, threads := s.threads ++ [newThread] } := by
  have hlen : (s.threads ++ [newThread]).length = s.threads.length + 1 := List.length_append
  have hcounted := h.counted
  rw [hm] at hcounted
  refine ⟨?_, trivial, ?_, ?_, ?_, ?_⟩
  · show s.loop + 1 = (s.threads ++ [newThread]).length ∧ s.loop < N
    rw [hlen]
    exact ⟨congrArg (· + 1) hcounted.1, hcounted.2⟩
  · apply guards_main h.m1 (at_snoc _ _ _ (by simp [newThread, InM1])) <;> simp [hm, MainInM1]
  · apply guards_main h.m2 (at_snoc _ _ _ (by simp [newThread, InM2])) <;> simp [hm, MainInM2]
  · intro t ht
    have hlast : (s.threads ++ [newThread]).length - 1 = s.threads.length := by omega
    have hnew : (s.threads ++ [newThread])[s.threads.length]? = some t := by
      rw [← hlast]
      exact ht
    rw [List.getElem?_concat_length, Option.some.injEq] at hnew
    rw [← hnew]
    exact Or.inl rfl
  · intro _ i
    rw [at_snoc _ _ _ (by simp [newThread, Through])]
    exact h.closed (by rw [hm]; trivial) i

theorem sound_main {N : ℕ} {s s' : FifoState} (h : Sound N s) (hs : mainStep N s = some s') :
    s'.main = .exited ∨ Sound N s' := by
  by_cases hbody : s.main = .body .create
  · rw [mainStep_create hs hbody]
    exact Or.inr (sound_create h hbody)
  · have hmoved := mainMoved_of_step hs hbody
    have hcounted := h.counted
    have hfull := h.full
    unfold mainStep at hs
    cases hm : s.main <;> rw [hm] at hs hcounted hfull
    case lock2 =>
      obtain ⟨hfree, rfl⟩ := guarded_inv hs
      have hnil : s.threads = [] := List.length_eq_zero_iff.mp hcounted
      apply Or.inr (sound_moved h hmoved ..) <;> simp [hm, hfree, hnil, Full, MainInM1, MainInM2, Expected]
    case lock1 | relock =>
      obtain ⟨hfree, rfl⟩ := guarded_inv hs
      apply Or.inr (sound_moved h hmoved ..) <;> simp [hm, hfree, Full, MainInM1, MainInM2, Expected]
    case init f =>
      cases Option.some.inj hs
      right
      cases f <;> apply sound_moved h hmoved <;>
        simp_all [Full, MainInM1, MainInM2, Expected]
    case test f =>
      by_cases hlt : s.loop < N
      · simp only [if_pos hlt] at hs
        cases Option.some.inj hs
        right
        cases f <;> apply sound_moved h hmoved <;>
          simp_all [Full, MainInM1, MainInM2, Expected]
      · simp only [if_neg hlt] at hs
        cases Option.some.inj hs
        cases f with
        | create =>
          right
          have hn : s.threads.length = N := by
            have hloop : s.loop = s.threads.length ∧ s.loop ≤ N := hcounted
            omega
          apply sound_moved h hmoved <;>
            simp_all [behind, Full, MainInM1, MainInM2, Expected]
        | join | report =>
          right
          apply sound_moved h hmoved <;>
            simp_all [behind, Full, MainInM1, MainInM2, Expected]
        | free => exact Or.inl rfl
    case body f =>
      cases f with
      | create => exact absurd hm hbody
      | join =>
        obtain ⟨-, rfl⟩ := guarded_inv hs
        right
        apply sound_moved h hmoved <;> simp_all [Full, MainInM1, MainInM2, Expected]
      | report | free =>
        cases Option.some.inj hs
        right
        apply sound_moved h hmoved <;> simp_all [Full, MainInM1, MainInM2, Expected]
    case incr f =>
      cases Option.some.inj hs
      right
      cases f <;> apply sound_moved h hmoved <;>
        simp_all [Full, MainInM1, MainInM2, Expected]
    case wait =>
      cases Option.some.inj hs
      right
      apply sound_moved h hmoved <;> simp_all [Full, MainInM1, MainInM2, Expected]
    case waiting | exited => cases hs
    case unlock1 | unlock2 =>
      cases Option.some.inj hs
      right
      apply sound_moved h hmoved <;> simp_all [Full, MainInM1, MainInM2, Expected]

/-- The invariant of every run; `return 1` leaves the mutexes as they are. -/
def Running (N : ℕ) (s : FifoState) : Prop := s.main = .exited ∨ Sound N s

theorem running_step (N : ℕ) (s : FifoState) (a : FifoAct) (s' : FifoState) (h : Running N s)
    (hs : fifoStep N s a = some s') : Running N s' ∧ Sound N s := by
  have hsound : Sound N s := by
    obtain hx | h := h
    · cases a with
      | main =>
        have hstep : mainStep N s = some s' := hs
        rw [mainStep, hx] at hstep
        cases hstep
      | createFails =>
        obtain ⟨hb, -⟩ := guarded_inv hs
        cases hx.symm.trans hb
      | thread i => cases (if_pos hx).symm.trans hs
      | spurious =>
        obtain ⟨hw, -⟩ := guarded_inv hs
        cases hx.symm.trans hw
    · exact h
  refine ⟨?_, hsound⟩
  cases a with
  | main => exact sound_main hsound hs
  | createFails =>
    obtain ⟨-, rfl⟩ := guarded_inv hs
    exact Or.inl rfl
  | thread i =>
    obtain ⟨t, t', hstep⟩ := threadStepped_of_step hs
    exact Or.inr (sound_thread hsound hstep)
  | spurious =>
    obtain ⟨hw, rfl⟩ := guarded_inv hs
    obtain ⟨hcounted, -, hm1, hm2, -, hclosed⟩ := hsound
    rw [hw] at hcounted
    refine Or.inr ⟨hcounted, trivial, ?_, ?_, fun _ _ => trivial, fun _ => hclosed (by rw [hw]; trivial)⟩
    · refine guards_main hm1 ?_ ?_ ?_ ?_ <;> simp [hw, MainInM1]
    · refine guards_main hm2 ?_ ?_ ?_ ?_ <;> simp [hw, MainInM2]

/-! ## Starting together -/

/-- Whoever has been through `s_m2` finds all the others created. -/
def Together (N : ℕ) (s : FifoState) : Prop :=
  ∀ i, At (fun t => Through t.pc) s.threads i → s.threads.length = N

theorem together_of_sound {N : ℕ} {s : FifoState} (h : Sound N s) (hx : s.main ≠ .exited) :
    Together N s := by
  intro i hi
  have hfull := h.full
  have hclosed := h.closed
  have hcounted := h.counted
  cases hm : s.main <;> rw [hm] at hfull hclosed hcounted
  case init f => cases f with
    | create => exact absurd hi (hclosed trivial i)
    | join | report | free => exact hfull
  case test f => cases f with
    | create => exact absurd hi (hclosed trivial i)
    | join | report | free => exact hfull
  case body f => cases f with
    | create => exact absurd hi (hclosed trivial i)
    | join | report | free => exact hfull.1
  case incr f => cases f with
    | create => exact absurd hi (hclosed trivial i)
    | join | report | free => exact hfull.1
  case lock2 =>
    have hnil : s.threads = [] := List.length_eq_zero_iff.mp hcounted
    rw [hnil] at hi
    obtain ⟨t, ht, -⟩ := hi
    cases ht
  case exited => exact absurd hm hx
  all_goals exact absurd hi (hclosed trivial i)

theorem together_step (N : ℕ) (s : FifoState) (a : FifoAct) (s' : FifoState)
    (h : Running N s ∧ Together N s) (hs : fifoStep N s a = some s') :
    Running N s' ∧ Together N s' := by
  obtain ⟨hrun, hsound⟩ := running_step N s a s' h.1 hs
  refine ⟨hrun, ?_⟩
  by_cases hx : s'.main = .exited
  · cases a with
    | createFails =>
      obtain ⟨-, rfl⟩ := guarded_inv hs
      exact h.2
    | main =>
      have hbody : s.main ≠ .body .create := by
        intro hb
        rw [mainStep_create hs hb] at hx
        cases hx
      intro i hi
      rw [(mainMoved_of_step hs hbody).threads] at hi ⊢
      exact h.2 i hi
    | thread i =>
      obtain ⟨t, t', hstep⟩ := threadStepped_of_step hs
      obtain hm | ⟨-, -, hr⟩ := hstep.main
      · exact absurd (hm.symm.trans hx) hstep.awake
      · cases hr.symm.trans hx
    | spurious =>
      obtain ⟨-, rfl⟩ := guarded_inv hs
      cases hx
  · exact together_of_sound (hrun.resolve_left hx) hx

/-- **No thread counts before all are there** and `main` has given `s_m2` back. -/
theorem counts_together (N loop : ℕ) (as : List FifoAct) (s : FifoState)
    (h : exec (fifoStep N) (fifoInit loop) as = some s) (i : ℕ) (t : FifoThread)
    (ht : s.threads[i]? = some t) (hpc : t.pc = .count ∨ t.pc = .finished) :
    s.threads.length = N ∧ ¬ MainInM2 s.main := by
  have hinit : Running N (fifoInit loop) ∧ Together N (fifoInit loop) :=
    ⟨Or.inr (sound_init N loop), fun i ⟨t, ht, _⟩ => by cases ht⟩
  obtain ⟨hrun, htogether⟩ :=
    exec_invariant (fun s => Running N s ∧ Together N s) (together_step N) h hinit
  refine ⟨htogether i ⟨t, ht, Or.inr hpc⟩, fun hm => ?_⟩
  obtain hx | hsound := hrun
  · rw [hx] at hm
    exact hm
  · exact hsound.closed hm i ⟨t, ht, Or.inr hpc⟩

/-- Thread 1 counts while the other two are still on their way. -/
theorem counts_together_three :
    afterThreeThreads.threads.length = 3 ∧ ¬ MainInM2 afterThreeThreads.main :=
  counts_together 3 7 threeThreads afterThreeThreads (by decide +kernel) 1 ⟨.count, some 1⟩ rfl (Or.inl rfl)

/-! ## The end -/

theorem pcRank_next {pc : ThreadPc} (h : pc ≠ .finished) : pcRank (nextPc pc) + 1 = pcRank pc := by
  cases pc <;> first | rfl | exact absurd rfl h

theorem rank_thread {N i : ℕ} {s s' : FifoState} {t t' : FifoThread}
    (hstep : ThreadStepped s s' i t t') : fifoRank N s' + 1 ≤ fifoRank N s := by
  have hset := tally_set (fun t => pcRank t.pc) s.threads i t t' hstep.before
  have hnext := pcRank_next hstep.running
  rw [hstep.next] at hset
  have hmain : mainRank N s'.loop s'.main = mainRank N s.loop s.main := by
    rw [hstep.loop]
    obtain hm | ⟨-, hw, hr⟩ := hstep.main
    · rw [hm]
    · rw [hw, hr]
      rfl
  unfold fifoRank
  rw [hmain, hstep.threads]
  omega

theorem rank_main {N : ℕ} {s s' : FifoState} (h : Sound N s) (hs : mainStep N s = some s') :
    fifoRank N s' + 1 ≤ fifoRank N s := by
  have hcounted := h.counted
  have hfull := h.full
  unfold fifoRank
  by_cases hbody : s.main = .body .create
  · rw [mainStep_create hs hbody, tally_snoc, hbody]
    rw [hbody] at hcounted
    have hlt : s.loop < N := hcounted.2
    simp only [mainRank, newThread, pcRank]
    omega
  · rw [(mainMoved_of_step hs hbody).threads]
    have hmain : mainRank N s'.loop s'.main + 1 ≤ mainRank N s.loop s.main := by
      unfold mainStep at hs
      cases hm : s.main <;> rw [hm] at hs hcounted hfull
      case lock2 | lock1 | relock =>
        obtain ⟨-, rfl⟩ := guarded_inv hs
        simp [mainRank]
      case init f =>
        cases Option.some.inj hs
        cases f <;> simp only [mainRank, behindRank] <;> omega
      case test f =>
        by_cases hlt : s.loop < N
        · simp only [if_pos hlt] at hs
          cases Option.some.inj hs
          cases f <;> simp only [mainRank, behindRank] <;> omega
        · simp only [if_neg hlt] at hs
          cases Option.some.inj hs
          cases f <;> simp only [mainRank, behindRank, behind] <;> omega
      case body f =>
        cases f with
        | create => exact absurd hm hbody
        | join =>
          obtain ⟨-, rfl⟩ := guarded_inv hs
          have hlt : s.loop < N := hfull.2
          simp only [mainRank]
          omega
        | report | free =>
          cases Option.some.inj hs
          have hlt : s.loop < N := hfull.2
          simp only [mainRank]
          omega
      case incr f =>
        cases Option.some.inj hs
        cases f <;> simp only [mainRank] <;> omega
      case waiting | exited => cases hs
      all_goals
        cases Option.some.inj hs
        simp only [mainRank, behindRank]
        omega
    omega

theorem rank_fifoStep (N : ℕ) (s : FifoState) (a : FifoAct) (s' : FifoState) (h : Running N s)
    (hs : fifoStep N s a = some s') : fifoRank N s' + 1 ≤ fifoRank N s + fifoWeight a := by
  have hsound := (running_step N s a s' h hs).2
  cases a with
  | main => exact rank_main hsound hs
  | createFails =>
    obtain ⟨hm, rfl⟩ := guarded_inv hs
    simp only [fifoRank, hm, mainRank, fifoWeight]
    omega
  | thread i =>
    obtain ⟨t, t', hstep⟩ := threadStepped_of_step hs
    exact rank_thread hstep
  | spurious =>
    obtain ⟨hm, rfl⟩ := guarded_inv hs
    simp only [fifoRank, hm, mainRank, fifoWeight]
    omega

/-- How many threads `main` has joined. -/
def joined (N loop : ℕ) : MainPc → ℕ
  | .test .join | .body .join => loop
  | .incr .join => loop + 1
  | .init .report | .test .report | .body .report | .incr .report => N
  | .init .free | .test .free | .body .free | .incr .free | .exited => N
  | _ => 0

structure Joined (N : ℕ) (s : FifoState) : Prop where
  finished : ∀ i < joined N s.loop s.main, At (fun t => t.pc = .finished) s.threads i
  all : s.main = .exited → s.threads.length = N

theorem joined_none {N : ℕ} {s : FifoState} (hzero : joined N s.loop s.main = 0)
    (hx : s.main ≠ .exited) : Joined N s := by
  refine ⟨fun i hi => ?_, fun hexited => absurd hexited hx⟩
  rw [hzero] at hi
  exact absurd hi (Nat.not_lt_zero i)

theorem joined_thread {N i : ℕ} {s s' : FifoState} {t t' : FifoThread} (h : Joined N s)
    (hstep : ThreadStepped s s' i t t') : Joined N s' := by
  have hmain : joined N s'.loop s'.main = joined N s.loop s.main := by
    rw [hstep.loop]
    obtain hm | ⟨-, hw, hr⟩ := hstep.main
    · rw [hm]
    · rw [hw, hr]
      rfl
  refine ⟨fun j hj => ?_, fun hx => ?_⟩
  · rw [hmain] at hj
    rw [hstep.threads]
    by_cases hji : j = i
    · have hfin := h.finished j hj
      rw [hji, at_iff hstep.before] at hfin
      exact absurd hfin hstep.running
    · rw [at_set_ne _ _ t' hji]
      exact h.finished j hj
  · obtain hm | ⟨-, -, hr⟩ := hstep.main
    · exact absurd (hm.symm.trans hx) hstep.awake
    · cases hr.symm.trans hx

theorem joined_main {N : ℕ} {s s' : FifoState} (hsound : Sound N s) (h : Joined N s)
    (hs : mainStep N s = some s') : Joined N s' := by
  have hfull := hsound.full
  have hfin := h.finished
  by_cases hbody : s.main = .body .create
  · rw [mainStep_create hs hbody]
    exact joined_none rfl (by simp)
  · unfold mainStep at hs
    cases hm : s.main <;> rw [hm] at hs hfull hfin
    case lock2 | lock1 | relock =>
      obtain ⟨-, rfl⟩ := guarded_inv hs
      exact joined_none rfl (by simp)
    case init f =>
      cases Option.some.inj hs
      cases f with
      | create | join => exact joined_none rfl (by simp)
      | report | free => exact ⟨hfin, fun hx => by cases hx⟩
    case test f =>
      by_cases hlt : s.loop < N
      · simp only [if_pos hlt] at hs
        cases Option.some.inj hs
        cases f <;> exact ⟨hfin, fun hx => by cases hx⟩
      · simp only [if_neg hlt] at hs
        cases Option.some.inj hs
        cases f with
        | create => exact joined_none rfl (by simp [behind])
        | join => exact ⟨fun i hi => hfin i (lt_of_lt_of_le hi (not_lt.mp hlt)), fun hx => by cases hx⟩
        | report => exact ⟨hfin, fun hx => by cases hx⟩
        | free => exact ⟨hfin, fun _ => hfull⟩
    case body f =>
      cases f with
      | create => exact absurd hm hbody
      | join =>
        obtain ⟨hpc, rfl⟩ := guarded_inv hs
        obtain ⟨t, ht, hpc⟩ := Option.map_eq_some_iff.mp hpc
        refine ⟨fun i hi => ?_, fun hx => by cases hx⟩
        obtain hlt | rfl := Nat.lt_succ_iff_lt_or_eq.mp hi
        · exact hfin i hlt
        · exact ⟨t, ht, hpc⟩
      | report | free =>
        cases Option.some.inj hs
        exact ⟨hfin, fun hx => by cases hx⟩
    case incr f =>
      cases Option.some.inj hs
      cases f <;> exact ⟨hfin, fun hx => by cases hx⟩
    case waiting | exited => cases hs
    all_goals
      cases Option.some.inj hs
      exact joined_none rfl (by simp)

/-- The invariant of the runs in which no creation fails. -/
def Complete (N : ℕ) (s : FifoState) : Prop := Running N s ∧ Joined N s

theorem complete_step (N : ℕ) (s : FifoState) (a : FifoAct) (s' : FifoState) (h : Complete N s)
    (ha : a ≠ .createFails) (hs : fifoStep N s a = some s') : Complete N s' := by
  obtain ⟨hrun, hsound⟩ := running_step N s a s' h.1 hs
  refine ⟨hrun, ?_⟩
  cases a with
  | main => exact joined_main hsound h.2 hs
  | createFails => exact absurd rfl ha
  | thread i =>
    obtain ⟨t, t', hstep⟩ := threadStepped_of_step hs
    exact joined_thread h.2 hstep
  | spurious =>
    obtain ⟨-, rfl⟩ := guarded_inv hs
    exact joined_none rfl (by simp)

/-! ## Somebody can move -/

/-- A thread can move unless it is at a mutex that somebody has. -/
theorem thread_can {N i : ℕ} {s : FifoState} {t : FifoThread} (ht : s.threads[i]? = some t)
    (hx : s.main ≠ .exited) (hfinished : t.pc ≠ .finished) (h1 : t.pc = .lock1 → s.m1 = none)
    (h2 : t.pc = .lock2 → s.m2 = none) : ∃ s', fifoStep N s (.thread i) = some s' := by
  have hstep : fifoStep N s (.thread i) = threadStep s i t :=
    (if_neg hx).trans (by rw [ht, Option.bind_some])
  rw [hstep, threadStep]
  cases hpc : t.pc
  case lock1 => exact ⟨_, if_pos (h1 hpc)⟩
  case lock2 => exact ⟨_, if_pos (h2 hpc)⟩
  case finished => exact absurd hpc hfinished
  all_goals exact ⟨_, rfl⟩

def CanMove (N : ℕ) (s : FifoState) : Prop :=
  ∃ a s', a ≠ .createFails ∧ fifoWeight a = 0 ∧ fifoStep N s a = some s'

theorem canMove_of_main {N : ℕ} {s : FifoState} (h : ∃ s', mainStep N s = some s') : CanMove N s := by
  obtain ⟨s', hs⟩ := h
  exact ⟨.main, s', by decide, rfl, hs⟩

theorem canMove_of_thread {N i : ℕ} {s : FifoState} {t : FifoThread} (ht : s.threads[i]? = some t)
    (hx : s.main ≠ .exited) (hfinished : t.pc ≠ .finished) (h1 : t.pc = .lock1 → s.m1 = none)
    (h2 : t.pc = .lock2 → s.m2 = none) : CanMove N s := by
  obtain ⟨s', hs⟩ := thread_can ht hx hfinished h1 h2
  exact ⟨.thread i, s', by simp, rfl, hs⟩

/-- A thread inside `s_m1` never waits there. -/
theorem m1_free_or {N : ℕ} {s : FifoState} (h : Sound N s) (hx : s.main ≠ .exited)
    (hm : ¬ MainInM1 s.main) : s.m1 = none ∨ CanMove N s := by
  obtain hfree | ⟨o, -, hin⟩ := h.m1.free_or
  · exact Or.inl hfree
  · cases o with
    | main => exact absurd hin hm
    | thread i =>
      obtain ⟨t, ht, hpc⟩ := hin
      obtain hpc | hpc := hpc <;>
        exact Or.inr (canMove_of_thread ht hx (by simp [hpc]) (by simp [hpc]) (by simp [hpc]))

theorem m2_free_or {N : ℕ} {s : FifoState} (h : Sound N s) (hx : s.main ≠ .exited)
    (hm : ¬ MainInM2 s.main) : s.m2 = none ∨ CanMove N s := by
  obtain hfree | ⟨o, -, hin⟩ := h.m2.free_or
  · exact Or.inl hfree
  · cases o with
    | main => exact absurd hin hm
    | thread i =>
      obtain ⟨t, ht, hpc⟩ := hin
      have hpc : t.pc = .unlock2 := hpc
      exact Or.inr (canMove_of_thread ht hx (by simp [hpc]) (by simp [hpc]) (by simp [hpc]))

theorem canMove {N : ℕ} {s : FifoState} (h : Sound N s) (hx : s.main ≠ .exited) : CanMove N s := by
  have hcounted := h.counted
  have hfull := h.full
  have hm1 := m1_free_or h hx
  have hm2 := m2_free_or h hx
  cases hm : s.main <;> rw [hm] at hcounted hfull hm1 hm2
  case lock2 =>
    obtain hfree | hmove := hm2 id
    · exact canMove_of_main ⟨_, by rw [mainStep, hm]; exact if_pos hfree⟩
    · exact hmove
  case lock1 =>
    obtain hfree | hmove := hm1 id
    · exact canMove_of_main ⟨_, by rw [mainStep, hm]; exact if_pos hfree⟩
    · exact hmove
  case body f =>
    cases f with
    | join =>
      have hlt : s.loop < s.threads.length := by
        have hn : s.threads.length = N ∧ s.loop < N := hfull
        omega
      have ht : s.threads[s.loop]? = some s.threads[s.loop] := List.getElem?_eq_getElem hlt
      by_cases hfin : s.threads[s.loop].pc = .finished
      · have hpc : s.threads[s.loop]?.map FifoThread.pc = some .finished := by
          rw [ht, Option.map_some, hfin]
        exact canMove_of_main ⟨_, by rw [mainStep, hm]; exact if_pos hpc⟩
      · obtain hfree1 | hmove := hm1 id
        · obtain hfree2 | hmove := hm2 id
          · exact canMove_of_thread ht hx hfin (fun _ => hfree1) (fun _ => hfree2)
          · exact hmove
        · exact hmove
    | create | report | free => exact canMove_of_main ⟨_, by rw [mainStep, hm]⟩
  case waiting =>
    -- the newest thread has still to signal
    have hpos : s.loop + 1 = s.threads.length := hcounted.1
    have hlt : s.threads.length - 1 < s.threads.length := by omega
    have ht := List.getElem?_eq_getElem hlt
    have hexpected := h.expected _ ht
    rw [hm] at hexpected
    obtain hfree | hmove := hm1 id
    · have hpc : s.threads[s.threads.length - 1].pc ≠ .finished ∧
          s.threads[s.threads.length - 1].pc ≠ .lock2 := by
        obtain hpc | hpc | hpc := hexpected <;> rw [hpc] <;> decide
      exact canMove_of_thread ht hx hpc.1 (fun _ => hfree) (fun hlock => absurd hlock hpc.2)
    · exact hmove
  case relock =>
    obtain hfree | hmove := hm1 id
    · exact canMove_of_main ⟨_, by rw [mainStep, hm]; exact if_pos hfree⟩
    · exact hmove
  case exited => exact absurd hm hx
  all_goals exact canMove_of_main ⟨_, by rw [mainStep, hm]⟩

theorem fifo_progresses (N : ℕ) :
    Progresses (fifoStep N) (· ≠ .createFails) (Complete N) (fun s => s.main = .exited) (fifoRank N)
      fifoWeight where
  keeps := complete_step N
  moves := fun _ h hx => canMove (h.1.resolve_left hx) hx
  ranks := fun s a s' h _ hs => rank_fifoStep N s a s' h.1 hs

theorem tally_fifoWeight (as : List FifoAct) : tally fifoWeight as = as.count .spurious := by
  induction as with
  | nil => rfl
  | cons a as ih =>
    rw [tally_cons, ih, List.count_cons]
    cases a <;> simp [fifoWeight, Nat.add_comm]

/-- **The program always comes to its end**, however often `main` wakes up unsignalled, and it ends
with all its threads joined. -/
theorem always_exits (N loop : ℕ) (as : List FifoAct) (s : FifoState)
    (h : exec (fifoStep N) (fifoInit loop) as = some s) (hcreate : .createFails ∉ as) :
    as.length ≤ 21 * N + 12 + as.count .spurious ∧
      (∃ bs t, (∀ b ∈ bs, b = .main ∨ ∃ i, b = .thread i) ∧ exec (fifoStep N) s bs = some t ∧
        t.main = .exited) ∧
      (s.main = .exited → s.threads.length = N ∧ ∀ t ∈ s.threads, t.pc = .finished) := by
  have has : ∀ a ∈ as, a ≠ .createFails := fun a ha he => hcreate (he ▸ ha)
  have hinit : Complete N (fifoInit loop) :=
    ⟨Or.inr (sound_init N loop), joined_none rfl (by simp [fifoInit])⟩
  have hlength := (fifo_progresses N).length_le h has hinit
  have hs := (fifo_progresses N).run h has hinit
  rw [tally_fifoWeight] at hlength
  have hrank : fifoRank N (fifoInit loop) = 21 * N + 12 := rfl
  refine ⟨by omega, ?_, fun hx => ⟨hs.2.all hx, fun t ht => ?_⟩⟩
  · obtain ⟨bs, t, hbs, hrun, ht⟩ := (fifo_progresses N).reaches_final hs
    refine ⟨bs, t, fun b hb => ?_, hrun, ht⟩
    obtain ⟨hb, hw⟩ := hbs b hb
    cases b with
    | main => exact Or.inl rfl
    | createFails => exact absurd rfl hb
    | thread i => exact Or.inr ⟨i, rfl⟩
    | spurious => cases hw
  · obtain ⟨i, hi⟩ := List.mem_iff_getElem?.mp ht
    have hlt := (List.getElem?_eq_some_iff.mp hi).1
    have hfin := hs.2.finished i (by rw [hx]; exact hs.2.all hx ▸ hlt)
    exact (at_iff hi).mp hfin

theorem always_exits_woken :
    ∃ bs t, (∀ b ∈ bs, b = FifoAct.main ∨ ∃ i, b = .thread i) ∧
      exec (fifoStep kNumThread) ⟨.test .create, 1, some .main, some .main, [⟨.lock1, some 1⟩]⟩ bs =
        some t ∧ t.main = .exited :=
  (always_exits kNumThread 0 wokenUnsignalled
    ⟨.test .create, 1, some .main, some .main, [⟨.lock1, some 1⟩]⟩ (by decide) (by decide)).2.1

end LinuxAppSamp.Threads
