import LinuxAppSamp.Foundations.Heap
import LinuxAppSamp.Foundations.Mutex
import LinuxAppSamp.Foundations.Progress

/-! # A cell for each thread: `posix_thread_5passingOneArgument.c`

`main` writes each index into a cell of its own from `malloc`, and the thread that gets the cell
reads it and frees it. The threads run at any speed, and `malloc` may hand a freed cell out again.

* `cells_safe`: no thread ever touches a cell that is not its own, and none is left in the end;
* `prints_each_once`: every run comes to its end, and prints every index exactly once.

The code looks neither at the result of `malloc` nor at that of `pthread_create`; both results are
about the runs in which they succeed.
-/

namespace LinuxAppSamp.Threads.Arguments
open Execution Memory
set_option autoImplicit false
set_option maxHeartbeats 250000

/-! ## The system -/

def kNum : ℕ := 10

/-- `crashed` is an access to memory that is not allocated, or a join of no thread. -/
inductive MainPc
  | init | test | malloc | store | create | incr
  | joinInit | joinTest | join | joinIncr
  | exited | crashed
  deriving DecidableEq, Repr

/-- `absent` is the entry that a failed `pthread_create` leaves in `thr`. -/
inductive ThreadPc
  | absent | load | print | free | finished
  deriving DecidableEq, Repr

/-- `thrIdx` has no value before the load. -/
structure Thr where
  pc : ThreadPc
  arg : ℕ
  thrIdx : ℕ
  deriving DecidableEq, Repr

structure State where
  main : MainPc
  loop : ℕ
  pint : ℕ
  heap : Heap ℕ
  threads : List Thr
  out : List ℕ

/-- `malloc p` is a `malloc` that returns `p`. -/
inductive Act
  | main
  | malloc (p : ℕ)
  | mallocFails
  | createFails
  | thread (i : ℕ)
  deriving DecidableEq, Repr

/-- `loop` and `pint` have no values at first. -/
def init (loop pint : ℕ) : State := ⟨.init, loop, pint, Heap.empty, [], []⟩

def mainStep (N : ℕ) (s : State) : Option State :=
  match s.main with
  | .init => some { s with main := .test, loop := 0 }
  | .test => some { s with main := if s.loop < N then .malloc else .joinInit }
  | .malloc => none
  | .store =>
    match s.heap.store s.pint s.loop with
    | some h => some { s with main := .create, heap := h }
    | none => some { s with main := .crashed }
  | .create => some { s with main := .incr, threads := s.threads ++ [⟨.load, s.pint, 0⟩] }
  | .incr => some { s with main := .test, loop := s.loop + 1 }
  | .joinInit => some { s with main := .joinTest, loop := 0 }
  | .joinTest => some { s with main := if s.loop < N then .join else .exited }
  | .join =>
    match s.threads[s.loop]?.map Thr.pc with
    | some .finished => some { s with main := .joinIncr }
    | some .absent => some { s with main := .crashed }
    | _ => none
  | .joinIncr => some { s with main := .joinTest, loop := s.loop + 1 }
  | .exited | .crashed => none

/-- `testFunc` in thread `i`. -/
def threadStep (s : State) (i : ℕ) (t : Thr) : Option State :=
  match t.pc with
  | .absent => none
  | .load =>
    match s.heap.load t.arg with
    | some v => some { s with threads := s.threads.set i { t with pc := .print, thrIdx := v } }
    | none => some { s with main := .crashed }
  | .print =>
    some { s with threads := s.threads.set i { t with pc := .free }, out := s.out ++ [t.thrIdx] }
  | .free =>
    match s.heap.free t.arg with
    | some h => some { s with threads := s.threads.set i { t with pc := .finished }, heap := h }
    | none => some { s with main := .crashed }
  | .finished => none

/-- The process ends with `main`, or with a crash anywhere. -/
def step (N : ℕ) (s : State) : Act → Option State
  | .main => mainStep N s
  | .malloc p =>
    if s.main = .malloc then
      (s.heap.malloc p).map fun h => { s with main := .store, pint := p, heap := h }
    else none
  | .mallocFails => if s.main = .malloc then some { s with main := .store, pint := 0 } else none
  | .createFails =>
    if s.main = .create then
      some { s with main := .incr, threads := s.threads ++ [⟨.absent, s.pint, 0⟩] }
    else none
  | .thread i =>
    if s.main = .exited ∨ s.main = .crashed then none else (s.threads[i]?).bind (threadStep s i)

/-- Every `malloc` and every `pthread_create` succeeds. -/
def Succeeds (a : Act) : Prop := a ≠ .mallocFails ∧ a ≠ .createFails

/-! ## Who holds which cell -/

inductive Holder
  | main
  | thread (i : ℕ)
  deriving DecidableEq, Repr

/-- `main` holds a cell from `malloc` to `pthread_create`, a thread until it has freed it. -/
def holds (s : State) : Holder → ℕ → Prop
  | .main, p => (s.main = .store ∨ s.main = .create) ∧ p = s.pint
  | .thread i, p => At (fun t => t.pc ≠ .finished ∧ p = t.arg) s.threads i

/-- How `loop` and the number of threads go together. -/
def Counted (N : ℕ) (main : MainPc) (loop n : ℕ) : Prop :=
  match main with
  | .init => n = 0
  | .test => loop = n ∧ loop ≤ N
  | .malloc | .store | .create => loop = n ∧ loop < N
  | .incr => loop + 1 = n ∧ loop < N
  | .join | .joinIncr => n = N ∧ loop < N
  | .joinTest => n = N ∧ loop ≤ N
  | .joinInit | .exited => n = N
  | .crashed => False

/-- What thread `i` is at, with its cell. -/
def Own (heap : Heap ℕ) (i : ℕ) (t : Thr) : Prop :=
  match t.pc with
  | .absent => False
  | .load => heap t.arg = some (some i)
  | .print | .free => t.thrIdx = i
  | .finished => True

/-- How many threads `main` has joined. -/
def joined (N loop : ℕ) : MainPc → ℕ
  | .joinTest | .join => loop
  | .joinIncr => loop + 1
  | .exited => N
  | _ => 0

structure Sound (N : ℕ) (s : State) : Prop where
  counted : Counted N s.main s.loop s.threads.length
  owned : Owned s.heap (holds s)
  stored : s.main = .create → s.heap s.pint = some (some s.loop)
  own : ∀ i t, s.threads[i]? = some t → Own s.heap i t
  joined : ∀ i < joined N s.loop s.main, At (fun t => t.pc = .finished) s.threads i
  printed : ∀ v, v ∈ s.out ↔ At (fun t => t.pc = .free ∨ t.pc = .finished) s.threads v
  once : s.out.Nodup

theorem sound_init (N loop pint : ℕ) : Sound N (init loop pint) where
  counted := rfl
  owned := by
    apply Owned.empty
    rintro (_ | i) p
    · exact fun h => by simp [init, holds] at h
    · exact fun ⟨t, ht, _⟩ => by cases ht
  stored := fun h => by cases h
  own := fun i t ht => by cases ht
  joined := fun i hi => absurd hi (Nat.not_lt_zero i)
  printed := fun v => iff_of_false List.not_mem_nil fun ⟨t, ht, _⟩ => by cases ht
  once := List.nodup_nil

/-! ## The steps of `main` -/

/-- A step of `main` that leaves cells, threads and output alone. -/
theorem sound_moved {N : ℕ} {s : State} (h : Sound N s) (main : MainPc) (loop : ℕ)
    (hcounted : Counted N main loop s.threads.length)
    (hmain : main ≠ .create) (hholds : main ≠ .store ∧ s.main ≠ .store ∧ s.main ≠ .create)
    (hjoined : ∀ i < joined N loop main, At (fun t => t.pc = .finished) s.threads i) :
    Sound N { s with main := main, loop := loop } := by
  refine ⟨hcounted, h.owned.same ?_, fun hm => absurd hm hmain, h.own, hjoined, h.printed, h.once⟩
  rintro (_ | i) p
  · exact iff_of_false (fun hp => hp.1.elim hholds.1 hmain) fun hp => hp.1.elim hholds.2.1 hholds.2.2
  · exact Iff.rfl

/-- Writing to one cell does not disturb a thread that reads another. -/
theorem own_update {heap : Heap ℕ} {i p : ℕ} {t : Thr} (c : Option (Option ℕ)) (h : Own heap i t)
    (hne : t.pc = .load → t.arg ≠ p) : Own (Function.update heap p c) i t := by
  unfold Own at h ⊢
  cases hpc : t.pc <;> rw [hpc] at h hne
  case load =>
    show Function.update heap p c t.arg = _
    rw [Function.update_of_ne (hne rfl)]
    exact h
  all_goals exact h

theorem sound_malloc {N p : ℕ} {s s' : State} (h : Sound N s) (hs : step N s (.malloc p) = some s') :
    Sound N s' := by
  obtain ⟨hm, hs⟩ := Option.ite_none_right_eq_some.mp hs
  obtain ⟨heap, hheap, rfl⟩ := Option.map_eq_some_iff.mp hs
  have hcounted := h.counted
  rw [hm] at hcounted
  refine ⟨hcounted, ?_, (fun hc => by cases hc), ?_, fun i hi => absurd hi (Nat.not_lt_zero i),
    h.printed, h.once⟩
  · apply h.owned.malloc hheap .main
    rintro (_ | i) q
    · show (_ ∧ q = p) ↔ (_ ∧ _) ∨ (_ ∧ q = p)
      simp [hm]
    · show At _ _ _ ↔ At _ _ _ ∨ _
      simp
  · obtain ⟨-, hfree, rfl⟩ := Heap.malloc_inv hheap
    intro i t ht
    have hown := h.own i t ht
    apply own_update _ hown
    intro hpc he
    rw [Own, hpc] at hown
    cases hfree.symm.trans (he ▸ hown)

theorem sound_store {N : ℕ} {s s' : State} (h : Sound N s) (hm : s.main = .store)
    (hs : mainStep N s = some s') : Sound N s' := by
  have hlive : s.heap s.pint ≠ none := (h.owned.live .main s.pint ⟨Or.inl hm, rfl⟩).2
  have hcounted := h.counted
  rw [hm] at hcounted
  unfold mainStep at hs
  rw [hm, Heap.store_ok _ hlive] at hs
  cases Option.some.inj hs
  refine ⟨hcounted, ?_, fun _ => Function.update_self .., ?_, fun i hi => absurd hi (Nat.not_lt_zero i),
    h.printed, h.once⟩
  · apply (h.owned.write _ hlive).same
    rintro (_ | i) q
    · show ((MainPc.create = .store ∨ _) ∧ q = s.pint) ↔ (s.main = .store ∨ s.main = .create) ∧ q = s.pint
      simp [hm]
    · exact Iff.rfl
  · intro i t ht
    apply own_update _ (h.own i t ht)
    intro hpc he
    have hboth := h.owned.once .main (.thread i) s.pint ⟨Or.inl hm, rfl⟩ ⟨t, ht, by simp [hpc], he.symm⟩
    cases hboth

/-- The new thread takes the cell over from `main`. -/
theorem sound_create {N : ℕ} {s s' : State} (h : Sound N s) (hm : s.main = .create)
    (hs : mainStep N s = some s') : Sound N s' := by
  have hcounted := h.counted
  rw [hm] at hcounted
  unfold mainStep at hs
  rw [hm] at hs
  cases Option.some.inj hs
  have hlen : (s.threads ++ [(⟨.load, s.pint, 0⟩ : Thr)]).length = s.threads.length + 1 :=
    List.length_append
  refine ⟨?_, ?_, (fun hc => by cases hc), ?_, fun i hi => absurd hi (Nat.not_lt_zero i), ?_, h.once⟩
  · show s.loop + 1 = (s.threads ++ [_]).length ∧ s.loop < N
    rw [hlen]
    exact ⟨congrArg (· + 1) hcounted.1, hcounted.2⟩
  · apply h.owned.hand (p := s.pint) (k := .thread s.threads.length) (i := .main) ⟨Or.inr hm, rfl⟩
    rintro (_ | i) q
    · refine iff_of_false (fun hp => by simp [holds] at hp) ?_
      rintro (⟨hne, hq⟩ | ⟨-, hk⟩)
      · exact hne hq.2
      · cases hk
    · show At _ (s.threads ++ [_]) i ↔ _
      rw [at_snoc_iff]
      constructor
      · rintro (hi | ⟨rfl, -, hq⟩)
        · refine Or.inl ⟨fun he => ?_, hi⟩
          rw [he] at hi
          cases h.owned.once .main (.thread i) s.pint ⟨Or.inr hm, rfl⟩ hi
        · exact Or.inr ⟨hq, rfl⟩
      · rintro (⟨-, hi⟩ | ⟨hq, hi⟩)
        · exact Or.inl hi
        · exact Or.inr ⟨Holder.thread.inj hi, by simp, hq⟩
  · intro i t ht
    obtain ⟨-, ht⟩ | ⟨hi, rfl⟩ := entry_snoc_cases ht
    · exact h.own i t ht
    · rw [hi, ← hcounted.1]
      exact h.stored hm
  · intro v
    rw [h.printed]
    exact (at_snoc _ _ _ (by simp) v).symm

/-- `main` joins a thread that has finished. -/
theorem joins {N : ℕ} {s s' : State} (h : Sound N s) (hm : s.main = .join)
    (hs : mainStep N s = some s') :
    s' = { s with main := .joinIncr } ∧ At (fun t => t.pc = .finished) s.threads s.loop := by
  have hcounted := h.counted
  rw [hm] at hcounted
  have hloop : s.threads.length = N ∧ s.loop < N := hcounted
  have ht := List.getElem?_eq_getElem (show s.loop < s.threads.length by omega)
  have hown := h.own _ _ ht
  unfold mainStep at hs
  unfold Own at hown
  rw [hm, ht, Option.map_some] at hs
  cases hpc : s.threads[s.loop].pc <;> rw [hpc] at hs hown
  case absent => exact hown.elim
  case finished => exact ⟨(Option.some.inj hs).symm, _, ht, hpc⟩
  all_goals cases hs

theorem sound_main {N : ℕ} {s s' : State} (h : Sound N s) (hs : mainStep N s = some s') :
    Sound N s' := by
  have hcounted := h.counted
  have hjoined := h.joined
  cases hm : s.main
  case store => exact sound_store h hm hs
  case create => exact sound_create h hm hs
  case' join => obtain ⟨rfl, hfinished⟩ := joins h hm hs
  all_goals
    unfold mainStep at hs
    rw [hm] at hs hcounted hjoined
  case init =>
    cases Option.some.inj hs
    exact sound_moved h .test 0 ⟨hcounted.symm, Nat.zero_le N⟩ (by simp) (by simp [hm]) (by simp [joined])
  case test =>
    have hloop : s.loop = s.threads.length ∧ s.loop ≤ N := hcounted
    by_cases hlt : s.loop < N
    · simp only [if_pos hlt] at hs
      cases Option.some.inj hs
      exact sound_moved h .malloc s.loop ⟨hloop.1, hlt⟩ (by simp) (by simp [hm]) (by simp [joined])
    · simp only [if_neg hlt] at hs
      cases Option.some.inj hs
      have hn : s.threads.length = N := by omega
      exact sound_moved h .joinInit s.loop hn (by simp) (by simp [hm]) (by simp [joined])
  case malloc => cases hs
  case incr =>
    cases Option.some.inj hs
    exact sound_moved h .test (s.loop + 1) hcounted (by simp) (by simp [hm]) (by simp [joined])
  case joinInit =>
    cases Option.some.inj hs
    exact sound_moved h .joinTest 0 ⟨hcounted, Nat.zero_le N⟩ (by simp) (by simp [hm]) (by simp [joined])
  case joinTest =>
    have hloop : s.threads.length = N ∧ s.loop ≤ N := hcounted
    by_cases hlt : s.loop < N
    · simp only [if_pos hlt] at hs
      cases Option.some.inj hs
      exact sound_moved h .join s.loop ⟨hloop.1, hlt⟩ (by simp) (by simp [hm]) hjoined
    · simp only [if_neg hlt] at hs
      cases Option.some.inj hs
      have hn : s.loop = N := by omega
      exact sound_moved h .exited s.loop hloop.1 (by simp) (by simp [hm]) (hn ▸ hjoined)
  case join =>
    refine sound_moved h .joinIncr s.loop hcounted (by simp) (by simp [hm]) fun i hi => ?_
    obtain hi | rfl := Nat.lt_succ_iff_lt_or_eq.mp hi
    · exact hjoined i hi
    · exact hfinished
  case joinIncr =>
    cases Option.some.inj hs
    exact sound_moved h .joinTest (s.loop + 1) hcounted (by simp) (by simp [hm]) hjoined
  case exited | crashed => cases hs

/-! ## The steps of the threads -/

theorem holds_thread {s : State} {i : ℕ} {t : Thr} (ht : s.threads[i]? = some t)
    (hpc : t.pc ≠ .finished) : holds s (.thread i) t.arg := ⟨t, ht, hpc, rfl⟩

/-- A thread goes on and keeps its cell. -/
theorem owned_kept {s : State} {i : ℕ} {t : Thr} (h : Owned s.heap (holds s))
    (ht : s.threads[i]? = some t) (t' : Thr) (harg : t'.arg = t.arg) (hpc : t.pc ≠ .finished)
    (hpc' : t'.pc ≠ .finished) (out : List ℕ) :
    Owned s.heap (holds { s with threads := s.threads.set i t', out := out }) := by
  apply h.same
  rintro (_ | j) q
  · exact Iff.rfl
  · show At _ (s.threads.set i t') j ↔ _
    by_cases hj : j = i
    · have hwas : holds s (.thread i) q ↔ t.pc ≠ .finished ∧ q = t.arg := at_iff ht
      rw [hj, hwas, at_set_self _ t' ht, harg]
      exact and_congr_left fun _ => iff_of_true hpc' hpc
    · rw [at_set_ne _ _ t' hj]
      exact Iff.rfl

theorem owned_freed {s : State} {i : ℕ} {t t' : Thr} (h : Owned s.heap (holds s))
    (ht : s.threads[i]? = some t) (hpc : t.pc ≠ .finished) (hpc' : t'.pc = .finished) :
    Owned (Function.update s.heap t.arg none)
      (holds { s with threads := s.threads.set i t', heap := Function.update s.heap t.arg none }) := by
  have hi := holds_thread ht hpc
  apply h.free t.arg
  rintro (_ | j) q
  · refine (and_iff_left_of_imp fun hq he => ?_).symm
    rw [he] at hq
    cases h.once .main (.thread i) t.arg hq hi
  · show At _ (s.threads.set i t') j ↔ _
    by_cases hj : j = i
    · have hwas : holds s (.thread i) q ↔ t.pc ≠ .finished ∧ q = t.arg := at_iff ht
      rw [hj, hwas, at_set_self _ t' ht]
      exact iff_of_false (fun hq => hq.1 hpc') fun hq => hq.2 hq.1.2
    · rw [at_set_ne _ _ t' hj]
      refine (and_iff_left_of_imp fun hq he => ?_).symm
      rw [he] at hq
      exact hj (Holder.thread.inj (h.once _ _ t.arg hq hi))

theorem own_set {s : State} {i : ℕ} {t t' : Thr} {heap : Heap ℕ} (ht : s.threads[i]? = some t)
    (hown' : Own heap i t') (hother : ∀ j u, j ≠ i → s.threads[j]? = some u → Own heap j u) (j : ℕ)
    (u : Thr) (hu : (s.threads.set i t')[j]? = some u) : Own heap j u := by
  obtain ⟨rfl, rfl⟩ | ⟨hj, hu⟩ := entry_set_cases hu
  · exact hown'
  · exact hother j u hj hu

theorem joined_set {N : ℕ} {s : State} {i : ℕ} {t : Thr} (h : Sound N s)
    (ht : s.threads[i]? = some t) (hpc : t.pc ≠ .finished) (t' : Thr) (j : ℕ)
    (hj : j < joined N s.loop s.main) : At (fun t => t.pc = .finished) (s.threads.set i t') j := by
  have hji : j ≠ i := by
    intro he
    have hfin := h.joined j hj
    rw [he, at_iff ht] at hfin
    exact hpc hfin
  rw [at_set_ne _ _ t' hji]
  exact h.joined j hj

theorem printed_set {s : State} {i : ℕ} {t t' : Thr} (ht : s.threads[i]? = some t)
    (hsame : (t'.pc = .free ∨ t'.pc = .finished) ↔ (t.pc = .free ∨ t.pc = .finished))
    (h : ∀ v, v ∈ s.out ↔ At (fun t => t.pc = .free ∨ t.pc = .finished) s.threads v) (v : ℕ) :
    v ∈ s.out ↔ At (fun t => t.pc = .free ∨ t.pc = .finished) (s.threads.set i t') v := by
  rw [h v]
  by_cases hv : v = i
  · rw [hv, at_iff ht, at_set_self _ t' ht]
    exact hsame.symm
  · rw [at_set_ne _ _ t' hv]

theorem sound_load {N i : ℕ} {s s' : State} {t : Thr} (h : Sound N s) (ht : s.threads[i]? = some t)
    (hpc : t.pc = .load) (hs : threadStep s i t = some s') : Sound N s' := by
  have hown := h.own i t ht
  rw [Own, hpc] at hown
  unfold threadStep at hs
  rw [hpc, Heap.load_of_eq hown] at hs
  cases Option.some.inj hs
  have hrun : t.pc ≠ .finished := by simp [hpc]
  exact ⟨by rw [List.length_set]; exact h.counted,
    owned_kept h.owned ht ⟨.print, t.arg, i⟩ rfl hrun (by simp) s.out, h.stored,
    own_set ht rfl fun j u _ hu => h.own j u hu, joined_set h ht hrun _,
    printed_set ht (by simp [hpc]) h.printed, h.once⟩

theorem sound_print {N i : ℕ} {s s' : State} {t : Thr} (h : Sound N s) (ht : s.threads[i]? = some t)
    (hpc : t.pc = .print) (hs : threadStep s i t = some s') : Sound N s' := by
  have hidx : t.thrIdx = i := by
    have hown := h.own i t ht
    rw [Own, hpc] at hown
    exact hown
  unfold threadStep at hs
  rw [hpc] at hs
  cases Option.some.inj hs
  have hrun : t.pc ≠ .finished := by simp [hpc]
  have hnew : i ∉ s.out := by
    rw [h.printed, at_iff ht]
    simp [hpc]
  refine ⟨by rw [List.length_set]; exact h.counted,
    owned_kept h.owned ht ⟨.free, t.arg, t.thrIdx⟩ rfl hrun (by simp) _, h.stored,
    own_set ht hidx fun j u _ hu => h.own j u hu, joined_set h ht hrun _, fun v => ?_, ?_⟩
  · rw [List.mem_append, List.mem_singleton, hidx]
    by_cases hv : v = i
    · rw [hv, at_set_self _ _ ht]
      exact iff_of_true (Or.inr rfl) (Or.inl rfl)
    · rw [at_set_ne _ _ _ hv, ← h.printed]
      exact or_iff_left hv
  · rw [hidx]
    refine List.nodup_append.mpr ⟨h.once, List.nodup_singleton i, ?_⟩
    intro a ha b hb hab
    rw [hab, List.mem_singleton.mp hb] at ha
    exact hnew ha

theorem sound_free {N i : ℕ} {s s' : State} {t : Thr} (h : Sound N s) (ht : s.threads[i]? = some t)
    (hpc : t.pc = .free) (hs : threadStep s i t = some s') : Sound N s' := by
  have hrun : t.pc ≠ .finished := by simp [hpc]
  have hi := holds_thread ht hrun
  obtain ⟨h0, hlive⟩ := h.owned.live _ _ hi
  unfold threadStep at hs
  rw [hpc, Heap.free_ok h0 hlive] at hs
  cases Option.some.inj hs
  refine ⟨by rw [List.length_set]; exact h.counted, owned_freed h.owned ht hrun rfl, fun hm => ?_,
    own_set ht trivial fun j u hj hu => own_update _ (h.own j u hu) fun hload he => ?_,
    joined_set h ht hrun _, printed_set ht (by simp [hpc]) h.printed, h.once⟩
  · have hne : s.pint ≠ t.arg := by
      intro he
      cases h.owned.once .main (.thread i) t.arg ⟨Or.inr hm, he.symm⟩ hi
    show Function.update s.heap t.arg none s.pint = _
    rw [Function.update_of_ne hne]
    exact h.stored hm
  · have hu' := holds_thread hu (by simp [hload])
    rw [he] at hu'
    exact hj (Holder.thread.inj (h.owned.once _ _ t.arg hu' hi))

theorem sound_step (N : ℕ) (s : State) (a : Act) (s' : State) (h : Sound N s) (ha : Succeeds a)
    (hs : step N s a = some s') : Sound N s' := by
  cases a with
  | main => exact sound_main h hs
  | malloc p => exact sound_malloc h hs
  | mallocFails => exact absurd rfl ha.1
  | createFails => exact absurd rfl ha.2
  | thread i =>
    have hbind := (Option.ite_none_left_eq_some.mp hs).2
    obtain ⟨t, ht, hstep⟩ := Option.bind_eq_some_iff.mp hbind
    cases hpc : t.pc with
    | load => exact sound_load h ht hpc hstep
    | print => exact sound_print h ht hpc hstep
    | free => exact sound_free h ht hpc hstep
    | absent =>
      have hown := h.own i t ht
      rw [Own, hpc] at hown
      exact hown.elim
    | finished =>
      rw [threadStep, hpc] at hstep
      cases hstep

/-! ## The end -/

def threadRank : ThreadPc → ℕ
  | .load => 3
  | .print => 2
  | .free => 1
  | .absent | .finished => 0

/-- A turn of the first loop takes five steps of `main` and three of the new thread. -/
def mainRank (N loop : ℕ) : MainPc → ℕ
  | .init => 11 * N + 4
  | .test => 8 * (N - loop) + 3 * N + 3
  | .malloc => 8 * (N - loop) + 3 * N + 2
  | .store => 8 * (N - loop) + 3 * N + 1
  | .create => 8 * (N - loop) + 3 * N
  | .incr => 8 * (N - loop - 1) + 3 * N + 4
  | .joinInit => 3 * N + 2
  | .joinTest => 3 * (N - loop) + 1
  | .join => 3 * (N - loop)
  | .joinIncr => 3 * (N - loop - 1) + 2
  | .exited | .crashed => 0

def rank (N : ℕ) (s : State) : ℕ := mainRank N s.loop s.main + tally (fun t => threadRank t.pc) s.threads

theorem rank_thread {N i : ℕ} {s s' : State} {t : Thr} (h : Sound N s) (ht : s.threads[i]? = some t)
    (hs : threadStep s i t = some s') : rank N s' + 1 ≤ rank N s := by
  have hset := fun t' => tally_set (fun t => threadRank t.pc) s.threads i t t' ht
  have hown := h.own i t ht
  unfold threadStep at hs
  unfold Own at hown
  unfold rank
  cases hpc : t.pc <;> rw [hpc] at hs hown
  case load =>
    rw [Heap.load_of_eq hown] at hs
    cases Option.some.inj hs
    have hthis := hset ⟨.print, t.arg, i⟩
    simp only [hpc, threadRank] at hthis ⊢
    omega
  case print =>
    cases Option.some.inj hs
    have hthis := hset ⟨.free, t.arg, t.thrIdx⟩
    simp only [hpc, threadRank] at hthis ⊢
    omega
  case free =>
    obtain ⟨h0, hlive⟩ := h.owned.live _ _ (holds_thread ht (by simp [hpc]))
    rw [Heap.free_ok h0 hlive] at hs
    cases Option.some.inj hs
    have hthis := hset ⟨.finished, t.arg, t.thrIdx⟩
    simp only [hpc, threadRank] at hthis ⊢
    omega
  case absent | finished => cases hs

theorem rank_main {N : ℕ} {s s' : State} (h : Sound N s) (hs : mainStep N s = some s') :
    rank N s' + 1 ≤ rank N s := by
  have hcounted := h.counted
  unfold rank
  cases hm : s.main
  case store =>
    have hlive : s.heap s.pint ≠ none := (h.owned.live .main s.pint ⟨Or.inl hm, rfl⟩).2
    rw [mainStep, hm, Heap.store_ok _ hlive] at hs
    cases Option.some.inj hs
    simp only [mainRank]
    omega
  case join =>
    obtain ⟨rfl, -⟩ := joins h hm hs
    have hlt : s.loop < N := by
      rw [hm] at hcounted
      exact hcounted.2
    simp only [mainRank]
    omega
  all_goals
    unfold mainStep at hs
    rw [hm] at hs hcounted
  case create =>
    cases Option.some.inj hs
    have hlt : s.loop < N := hcounted.2
    rw [tally_snoc]
    simp only [mainRank, threadRank]
    omega
  case test =>
    by_cases hlt : s.loop < N
    · simp only [if_pos hlt] at hs
      cases Option.some.inj hs
      simp only [mainRank]
      omega
    · simp only [if_neg hlt] at hs
      cases Option.some.inj hs
      simp only [mainRank]
      omega
  case joinTest =>
    by_cases hlt : s.loop < N
    · simp only [if_pos hlt] at hs
      cases Option.some.inj hs
      simp only [mainRank]
      omega
    · simp only [if_neg hlt] at hs
      cases Option.some.inj hs
      simp only [mainRank]
      omega
  case malloc | exited | crashed => cases hs
  all_goals
    cases Option.some.inj hs
    simp only [mainRank]
    omega

theorem rank_step (N : ℕ) (s : State) (a : Act) (s' : State) (h : Sound N s) (ha : Succeeds a)
    (hs : step N s a = some s') : rank N s' + 1 ≤ rank N s := by
  cases a with
  | main => exact rank_main h hs
  | malloc p =>
    obtain ⟨hm, hs⟩ := Option.ite_none_right_eq_some.mp hs
    obtain ⟨heap, -, rfl⟩ := Option.map_eq_some_iff.mp hs
    simp only [rank, hm, mainRank]
    omega
  | mallocFails => exact absurd rfl ha.1
  | createFails => exact absurd rfl ha.2
  | thread i =>
    have hbind := (Option.ite_none_left_eq_some.mp hs).2
    obtain ⟨t, ht, hstep⟩ := Option.bind_eq_some_iff.mp hbind
    exact rank_thread h ht hstep

/-- The cells that are held. -/
def heldCells (s : State) : List ℕ := s.pint :: s.threads.map Thr.arg

theorem mem_heldCells {s : State} (i : Holder) (p : ℕ) (h : holds s i p) : p ∈ heldCells s := by
  cases i with
  | main =>
    rw [h.2]
    exact List.mem_cons_self
  | thread i =>
    obtain ⟨t, ht, -, rfl⟩ := h
    exact List.mem_cons_of_mem _ (List.mem_map_of_mem (List.mem_of_getElem? ht))

def Exited (s : State) : Prop := s.main = .exited

theorem moves {N : ℕ} {s : State} (h : Sound N s) (hx : ¬ Exited s) :
    ∃ a s', Succeeds a ∧ step N s a = some s' := by
  have hcounted := h.counted
  have hmain : (∃ s', mainStep N s = some s') → ∃ a s', Succeeds a ∧ step N s a = some s' :=
    fun ⟨s', hs⟩ => ⟨.main, s', ⟨by simp, by simp⟩, hs⟩
  cases hm : s.main <;> rw [hm] at hcounted
  case malloc =>
    obtain ⟨p, heap, hheap⟩ := h.owned.can_malloc (heldCells s) mem_heldCells
    refine ⟨.malloc p, { s with main := .store, pint := p, heap := heap }, ⟨by simp, by simp⟩, ?_⟩
    exact (if_pos hm).trans (by rw [hheap, Option.map_some])
  case store =>
    have hlive : s.heap s.pint ≠ none := (h.owned.live .main s.pint ⟨Or.inl hm, rfl⟩).2
    exact hmain ⟨_, by rw [mainStep, hm, Heap.store_ok _ hlive]⟩
  case join =>
    have hloop : s.threads.length = N ∧ s.loop < N := hcounted
    have hlt : s.loop < s.threads.length := by omega
    have ht := List.getElem?_eq_getElem hlt
    have hthread : (∃ s', threadStep s s.loop s.threads[s.loop] = some s') →
        ∃ a s', Succeeds a ∧ step N s a = some s' := by
      rintro ⟨s', hs⟩
      refine ⟨.thread s.loop, s', ⟨by simp, by simp⟩, (if_neg (by simp [hm])).trans ?_⟩
      rw [ht, Option.bind_some, hs]
    have hown := h.own _ _ ht
    unfold Own at hown
    cases hpc : s.threads[s.loop].pc <;> rw [hpc] at hown
    case absent => exact hown.elim
    case load => exact hthread ⟨_, by rw [threadStep, hpc, Heap.load_of_eq hown]⟩
    case print => exact hthread ⟨_, by rw [threadStep, hpc]⟩
    case free =>
      obtain ⟨h0, hlive⟩ := h.owned.live _ _ (holds_thread ht (by simp [hpc]))
      exact hthread ⟨_, by rw [threadStep, hpc, Heap.free_ok h0 hlive]⟩
    case finished => exact hmain ⟨_, by rw [mainStep, hm, ht, Option.map_some, hpc]⟩
  case exited => exact absurd hm hx
  case crashed => exact hcounted.elim
  all_goals exact hmain ⟨_, by rw [mainStep, hm]⟩

theorem progresses (N : ℕ) : Progresses (step N) Succeeds (Sound N) Exited (rank N) (fun _ => 0) where
  keeps := sound_step N
  moves := by
    intro s h hx
    obtain ⟨a, s', ha, hs⟩ := moves h hx
    exact ⟨a, s', ha, rfl, hs⟩
  ranks := rank_step N

theorem finished_of_exited {N : ℕ} {s : State} (h : Sound N s) (hx : Exited s) {i : ℕ} {t : Thr}
    (ht : s.threads[i]? = some t) : t.pc = .finished := by
  have hx : s.main = .exited := hx
  have hcounted := h.counted
  have hjoined := h.joined i
  rw [hx] at hcounted hjoined
  have hn : s.threads.length = N := hcounted
  have hlt := (List.getElem?_eq_some_iff.mp ht).1
  exact (at_iff ht).mp (hjoined (show i < N by omega))

/-- Two threads, the second one in the cell that the first has freed. -/
def reused : List Act :=
  [.main, .main, .malloc 16, .main, .main, .main, .thread 0, .thread 0, .thread 0, .main, .malloc 16,
    .main, .main, .thread 1, .thread 1, .main, .main, .main, .main, .main, .main, .main, .thread 1,
    .main, .main, .main]

theorem succeeds_reused : ∀ a ∈ reused, Succeeds a := by
  simp [reused, Succeeds]

/-- **The cells are safe**: no read, write or `free` of a cell that is not allocated, whatever
`malloc` hands out, and at the end everything has been freed. -/
theorem cells_safe (N loop pint : ℕ) (as : List Act) (s : State)
    (h : exec (step N) (init loop pint) as = some s) (has : ∀ a ∈ as, Succeeds a) :
    s.main ≠ .crashed ∧ (Exited s → s.heap = Heap.empty) := by
  have hs := (progresses N).run h has (sound_init N loop pint)
  refine ⟨fun hc => ?_, fun hx => ?_⟩
  · have hcounted := hs.counted
    rw [hc] at hcounted
    exact hcounted
  · funext p
    by_contra hlive
    obtain ⟨i, hi⟩ := hs.owned.none_lost p hlive
    have hx' : s.main = .exited := hx
    cases i with
    | main => simp [holds, hx'] at hi
    | thread i =>
      obtain ⟨t, ht, hpc, -⟩ := hi
      exact hpc (finished_of_exited hs hx ht)

theorem cells_safe_reused :
    ∃ s, exec (step 2) (init 5 7) reused = some s ∧ s.main ≠ .crashed ∧ s.heap = Heap.empty := by
  obtain ⟨s, h⟩ := Option.isSome_iff_exists.mp
    (show (exec (step 2) (init 5 7) reused).isSome = true from rfl)
  have hx : (exec (step 2) (init 5 7) reused).map State.main = some .exited := rfl
  rw [h] at hx
  have hsafe := cells_safe 2 5 7 reused s h succeeds_reused
  exact ⟨s, h, hsafe.1, hsafe.2 (Option.some.inj hx)⟩

/-- **Every index is printed once**, in a run that always comes to its end. -/
theorem prints_each_once (N loop pint : ℕ) (as : List Act) (s : State)
    (h : exec (step N) (init loop pint) as = some s) (has : ∀ a ∈ as, Succeeds a) :
    as.length ≤ 11 * N + 4 ∧ s.out.Nodup ∧ (∀ v ∈ s.out, v < N) ∧
      (Exited s → s.out.Perm (List.range N)) ∧
      ∃ bs t, (∀ b ∈ bs, Succeeds b) ∧ exec (step N) s bs = some t ∧ Exited t := by
  have hinit := sound_init N loop pint
  have hs := (progresses N).run h has hinit
  have hlength := (progresses N).length_le h has hinit
  rw [tally_const (fun _ => 0) 0 as fun _ _ => rfl] at hlength
  have hrank : rank N (init loop pint) = 11 * N + 4 := rfl
  have hmem : ∀ v ∈ s.out, v < s.threads.length := by
    intro v hv
    obtain ⟨t, ht, -⟩ := (hs.printed v).mp hv
    exact (List.getElem?_eq_some_iff.mp ht).1
  have hle : s.threads.length ≤ N := by
    have hcounted := hs.counted
    unfold Counted at hcounted
    split at hcounted <;> first | omega | exact hcounted.elim
  refine ⟨by omega, hs.once, fun v hv => lt_of_lt_of_le (hmem v hv) hle, fun hx => ?_, ?_⟩
  · refine (List.perm_ext_iff_of_nodup hs.once List.nodup_range).mpr fun v => ?_
    have hx' : s.main = .exited := hx
    have hcounted := hs.counted
    rw [hx'] at hcounted
    have hn : s.threads.length = N := hcounted
    rw [List.mem_range, ← hn]
    refine ⟨hmem v, fun hv => (hs.printed v).mpr ?_⟩
    have ht := List.getElem?_eq_getElem hv
    exact ⟨_, ht, Or.inr (finished_of_exited hs hx ht)⟩
  · obtain ⟨bs, t, hbs, hrun, ht⟩ := (progresses N).reaches_final hs
    exact ⟨bs, t, fun b hb => (hbs b hb).1, hrun, ht⟩

theorem prints_each_once_reused :
    ∃ s, exec (step kNum) (init 5 7) (reused.take 15) = some s ∧ s.out.Nodup ∧ ∀ v ∈ s.out, v < kNum := by
  obtain ⟨s, h⟩ := Option.isSome_iff_exists.mp
    (show (exec (step kNum) (init 5 7) (reused.take 15)).isSome = true from rfl)
  have honce := prints_each_once kNum 5 7 _ s h fun a ha => succeeds_reused a (List.mem_of_mem_take ha)
  exact ⟨s, h, honce.2.1, honce.2.2.1⟩

end LinuxAppSamp.Threads.Arguments
