import LinuxAppSamp.Foundations.Progress
import LinuxAppSamp.Messages.Reply
import Mathlib.Data.Int.Notation

/-! # Signals for a child: `ipc-signal.c`

The parent sends its child three `SIGINT` and a `SIGHUP`; only `sleep` keeps it from sending them before
the child has called `signal`. A signal that is pending is not queued again, is blocked while its
handler runs, and is delivered at any later time.

`Counts`, `Story` and `Served` say what holds in every run: how often signals are caught, what has been
printed where, and who is sent what. `both_end` is that both processes can always come to their end.
-/

namespace LinuxAppSamp.Processes.Signals
open Execution Messages
set_option autoImplicit false
set_option maxHeartbeats 250000

/-! ## The system -/

inductive Signal
  | int | hup
  deriving DecidableEq, Repr

inductive Line
  | intCatch | hupCatch | childEnd | parentEnd
  deriving DecidableEq, Repr

/-- `sizeof(buf)` of the handlers counts the NUL, so they write it too. -/
def Line.bytes : Line → List UInt8
  | .intCatch =>
    Messages.bytes ['S', 'I', 'G', 'I', 'N', 'T', ':', 'C', 'a', 't', 'c', 'h', '\n'] ++ [0]
  | .hupCatch =>
    Messages.bytes ['S', 'I', 'G', 'H', 'U', 'P', ':', 'C', 'a', 't', 'c', 'h', '\n'] ++ [0]
  | .childEnd => Messages.bytes ['c', 'h', 'i', 'l', 'd', ' ', '>', ' ', 'e', 'n', 'd', '\n']
  | .parentEnd => Messages.bytes ['p', 'a', 'r', 'e', 'n', 't', ' ', '>', ' ', 'e', 'n', 'd', '\n']

inductive ParentPc
  | fork | kill (loop : ℕ) | killHup | printf | exited
  deriving DecidableEq, Repr

/-- Where the child is outside its handlers. `absent` is no child, not yet or because `fork` has failed;
`killed` is behind a signal that it has no handler for. -/
inductive ChildPc
  | absent | signalInt | signalHup | loop | printf | exit | exited | killed
  deriving DecidableEq, Repr

/-- A handler that has been entered, before its next call. -/
inductive Frame
  | intWrite | intReturn | hupWrite | hupSet | hupReturn
  deriving DecidableEq, Repr

def Frame.signal : Frame → Signal
  | .intWrite => .int
  | .intReturn => .int
  | .hupWrite => .hup
  | .hupSet => .hup
  | .hupReturn => .hup

/-- `frames` has the handler that runs in front. `everyone` are the signals for `kill(-1, ...)`, which
is what `kill(pid, ...)` becomes when `fork` has failed. -/
structure State where
  parent : ParentPc
  child : ChildPc
  frames : List Frame
  pendingInt : Bool
  pendingHup : Bool
  gFin : ℤ
  everyone : List Signal
  out : List Line
  deriving DecidableEq, Repr

inductive Act
  | parent | forkFails | child | deliver (signal : Signal)
  deriving DecidableEq, Repr

def init : State := ⟨.fork, .absent, [], false, false, 0, [], []⟩

def alive : ChildPc → Bool
  | .signalInt | .signalHup | .loop | .printf | .exit => true
  | _ => false

def installed : Signal → ChildPc → Bool
  | .int, .signalInt => false
  | .hup, .signalInt => false
  | .hup, .signalHup => false
  | _, _ => true

def State.pending (s : State) : Signal → Bool
  | .int => s.pendingInt
  | .hup => s.pendingHup

def State.setPending (s : State) (b : Bool) : Signal → State
  | .int => { s with pendingInt := b }
  | .hup => { s with pendingHup := b }

/-- `kill(pid, signal)` -/
def State.kill (s : State) (signal : Signal) : State :=
  if s.child = .absent then { s with everyone := s.everyone ++ [signal] } else s.setPending true signal

def parentStep (s : State) : Option State :=
  match s.parent with
  | .fork => some { s with parent := .kill 0, child := .signalInt }
  | .kill loop => some { s.kill .int with parent := if loop + 1 < 3 then .kill (loop + 1) else .killHup }
  | .killHup => some { s.kill .hup with parent := .printf }
  | .printf => some { s with parent := .exited, out := s.out ++ [.parentEnd] }
  | .exited => none

/-- `funcInt` and `funcHup` -/
def handlerStep (s : State) (rest : List Frame) : Frame → State
  | .intWrite => { s with frames := .intReturn :: rest, out := s.out ++ [.intCatch] }
  | .intReturn => { s with frames := rest }
  | .hupWrite => { s with frames := .hupSet :: rest, out := s.out ++ [.hupCatch] }
  | .hupSet => { s with frames := .hupReturn :: rest, gFin := 1 }
  | .hupReturn => { s with frames := rest }

def childStep (s : State) : Option State :=
  match s.frames with
  | f :: rest => some (handlerStep s rest f)
  | [] =>
    match s.child with
    | .signalInt => some { s with child := .signalHup }
    | .signalHup => some { s with child := .loop }
    | .loop => if s.gFin = 0 then some s else some { s with child := .printf }
    | .printf => some { s with child := .exit, out := s.out ++ [.childEnd] }
    | .exit => some { s with child := .exited }
    | _ => none

def handlerOf : Signal → Frame
  | .int => .intWrite
  | .hup => .hupWrite

def deliver (s : State) (signal : Signal) : Option State :=
  if s.pending signal && alive s.child && s.frames.all fun f => f.signal ≠ signal then
    if installed signal s.child then
      some { s.setPending false signal with frames := handlerOf signal :: s.frames }
    else some { s.setPending false signal with child := .killed, frames := [] }
  else none

def step (s : State) : Act → Option State
  | .parent => parentStep s
  | .forkFails => if s.parent = .fork then some { s with parent := .kill 0 } else none
  | .child => childStep s
  | .deliver signal => deliver s signal

/-- The steps, by what they do. -/
inductive Moves (s : State) : State → Prop
  | fork (h : s.parent = .fork) : Moves s { s with parent := .kill 0, child := .signalInt }
  | forkFails (h : s.parent = .fork) : Moves s { s with parent := .kill 0 }
  | kill (loop : ℕ) (h : s.parent = .kill loop) :
      Moves s { s.kill .int with parent := if loop + 1 < 3 then .kill (loop + 1) else .killHup }
  | killHup (h : s.parent = .killHup) : Moves s { s.kill .hup with parent := .printf }
  | parentEnd (h : s.parent = .printf) : Moves s { s with parent := .exited, out := s.out ++ [.parentEnd] }
  | handler (f : Frame) (rest : List Frame) (h : s.frames = f :: rest) : Moves s (handlerStep s rest f)
  | signalInt (h : s.child = .signalInt) (hf : s.frames = []) : Moves s { s with child := .signalHup }
  | signalHup (h : s.child = .signalHup) (hf : s.frames = []) : Moves s { s with child := .loop }
  | polls (h : s.child = .loop) (hf : s.frames = []) (hfin : s.gFin = 0) : Moves s s
  | leaves (h : s.child = .loop) (hf : s.frames = []) (hfin : s.gFin ≠ 0) : Moves s { s with child := .printf }
  | childEnd (h : s.child = .printf) (hf : s.frames = []) :
      Moves s { s with child := .exit, out := s.out ++ [.childEnd] }
  | exits (h : s.child = .exit) (hf : s.frames = []) : Moves s { s with child := .exited }
  | enters (signal : Signal) (hp : s.pending signal = true) (ha : alive s.child = true)
      (hf : ∀ f ∈ s.frames, f.signal ≠ signal) (hi : installed signal s.child = true) :
      Moves s { s.setPending false signal with frames := handlerOf signal :: s.frames }
  | dies (signal : Signal) (hp : s.pending signal = true) (ha : alive s.child = true)
      (hf : ∀ f ∈ s.frames, f.signal ≠ signal) (hi : installed signal s.child = false) :
      Moves s { s.setPending false signal with child := .killed, frames := [] }

theorem moves_parent {s t : State} (h : parentStep s = some t) : Moves s t := by
  unfold parentStep at h
  split at h
  · cases h
    exact .fork ‹_›
  · cases h
    exact .kill _ ‹_›
  · cases h
    exact .killHup ‹_›
  · cases h
    exact .parentEnd ‹_›
  · cases h

theorem moves_child {s t : State} (h : childStep s = some t) : Moves s t := by
  unfold childStep at h
  split at h
  · cases h
    exact .handler _ _ ‹_›
  · split at h
    · cases h
      exact .signalInt ‹_› ‹_›
    · cases h
      exact .signalHup ‹_› ‹_›
    · split at h
      · cases h
        exact .polls ‹_› ‹_› ‹_›
      · cases h
        exact .leaves ‹_› ‹_› ‹_›
    · cases h
      exact .childEnd ‹_› ‹_›
    · cases h
      exact .exits ‹_› ‹_›
    · cases h

theorem moves_deliver {s t : State} {signal : Signal} (h : deliver s signal = some t) : Moves s t := by
  unfold deliver at h
  split at h
  · rename_i hcond
    simp only [Bool.and_eq_true, List.all_eq_true, decide_eq_true_eq] at hcond
    obtain ⟨⟨hp, ha⟩, hf⟩ := hcond
    split at h
    · cases h
      exact .enters signal hp ha hf ‹_›
    · cases h
      exact .dies signal hp ha hf (Bool.eq_false_iff.mpr ‹_›)
  · cases h

theorem moves_of_step {s t : State} {a : Act} (h : step s a = some t) : Moves s t := by
  cases a with
  | parent => exact moves_parent h
  | forkFails =>
    obtain ⟨hfork, rfl⟩ := guarded_inv h
    exact .forkFails hfork
  | child => exact moves_child h
  | deliver signal => exact moves_deliver h

/-! ## Signals on their way -/

def sentInts : ParentPc → ℕ
  | .fork => 0
  | .kill loop => loop
  | _ => 3

def sentHups : ParentPc → ℕ
  | .printf => 1
  | .exited => 1
  | _ => 0

def ended : ParentPc → ℕ
  | .exited => 1
  | _ => 0

/-- The `SIGINT`s that are pending or have got into `funcInt`, and will still be written. -/
def waitingInts (s : State) : ℕ := s.frames.count .intWrite + s.pendingInt.toNat

def waitingHups (s : State) : ℕ := s.frames.count .hupWrite + s.pendingHup.toNat

@[simp] theorem kill_frames (s : State) (signal : Signal) : (s.kill signal).frames = s.frames := by
  cases signal <;> simp only [State.kill, State.setPending] <;> split <;> rfl

@[simp] theorem kill_out (s : State) (signal : Signal) : (s.kill signal).out = s.out := by
  cases signal <;> simp only [State.kill, State.setPending] <;> split <;> rfl

@[simp] theorem kill_gFin (s : State) (signal : Signal) : (s.kill signal).gFin = s.gFin := by
  cases signal <;> simp only [State.kill, State.setPending] <;> split <;> rfl

@[simp] theorem kill_child (s : State) (signal : Signal) : (s.kill signal).child = s.child := by
  cases signal <;> simp only [State.kill, State.setPending] <;> split <;> rfl

theorem kill_pendingInt (s : State) (signal : Signal) :
    (s.kill signal).pendingInt = if signal = .int ∧ s.child ≠ .absent then true else s.pendingInt := by
  cases signal <;> by_cases h : s.child = .absent <;> simp [State.kill, State.setPending, h]

theorem kill_pendingHup (s : State) (signal : Signal) :
    (s.kill signal).pendingHup = if signal = .hup ∧ s.child ≠ .absent then true else s.pendingHup := by
  cases signal <;> by_cases h : s.child = .absent <;> simp [State.kill, State.setPending, h]

theorem waitingInts_kill (s : State) (signal : Signal) :
    waitingInts (s.kill signal) ≤ waitingInts s + if signal = .int then 1 else 0 := by
  rw [waitingInts, waitingInts, kill_frames, kill_pendingInt]
  cases signal <;> by_cases h : s.child = .absent <;> cases s.pendingInt <;> simp [h]

theorem waitingHups_kill (s : State) (signal : Signal) :
    waitingHups (s.kill signal) ≤ waitingHups s + if signal = .hup then 1 else 0 := by
  rw [waitingHups, waitingHups, kill_frames, kill_pendingHup]
  cases signal <;> by_cases h : s.child = .absent <;> cases s.pendingHup <;> simp [h]

/-- A handler is entered for a signal that was pending. -/
theorem waiting_enters {s : State} {signal : Signal} (hp : s.pending signal = true) :
    waitingInts { s.setPending false signal with frames := handlerOf signal :: s.frames } = waitingInts s ∧
      waitingHups { s.setPending false signal with frames := handlerOf signal :: s.frames } =
        waitingHups s := by
  cases signal with
  | int =>
    have hp : s.pendingInt = true := hp
    simp [waitingInts, waitingHups, State.setPending, handlerOf, hp]
  | hup =>
    have hp : s.pendingHup = true := hp
    simp [waitingInts, waitingHups, State.setPending, handlerOf, hp]

theorem waiting_dies (s : State) (signal : Signal) :
    waitingInts { s.setPending false signal with child := .killed, frames := [] } ≤ waitingInts s ∧
      waitingHups { s.setPending false signal with child := .killed, frames := [] } ≤ waitingHups s := by
  cases signal <;> constructor <;> simp [waitingInts, waitingHups, State.setPending]

/-! ## Catches after the first other line -/

def lateInts (r : List Line) : ℕ := (r.dropWhile (· == .intCatch)).count .intCatch

theorem lateInts_int (r : List Line) : lateInts (r ++ [.intCatch]) ≤ lateInts r + 1 := by
  rw [lateInts, lateInts, List.dropWhile_append]
  split
  · simp
  · rw [List.count_append]
    exact Nat.le_refl _

theorem lateInts_ne {r : List Line} {l : Line} (h : l ≠ .intCatch) : lateInts (r ++ [l]) = lateInts r := by
  rw [lateInts, lateInts, List.dropWhile_append]
  split
  · rename_i hnil
    simp [List.isEmpty_iff.mp hnil, h]
  · simp [List.count_append, h]

theorem lateInts_early {r : List Line} (h : ∀ l ∈ r, l = .intCatch) : lateInts r = 0 := by
  have hall : r.dropWhile (· == .intCatch) = [] := List.dropWhile_eq_nil_iff.mpr fun l hl => by simp [h l hl]
  rw [lateInts, hall]
  rfl

/-! ## What holds in every run -/

/-- No signal is caught more often than it has been sent, a handler is not entered again while it runs,
and `g_fin` is set only behind the line of `funcHup`. -/
structure Counts (s : State) : Prop where
  turn : ∀ loop, s.parent = .kill loop → loop < 3
  once : ∀ signal, s.frames.countP (fun f => f.signal = signal) ≤ 1
  ints : s.out.count .intCatch + waitingInts s ≤ sentInts s.parent
  hups : s.out.count .hupCatch + waitingHups s ≤ sentHups s.parent
  ends : s.out.count .parentEnd = ended s.parent
  set : .hupSet ∈ s.frames → .hupCatch ∈ s.out
  fin : s.gFin ≠ 0 → .hupCatch ∈ s.out
  left : s.child = .printf → s.gFin ≠ 0

theorem counts_init : Counts init where
  turn := fun _ h => by cases h
  once := fun _ => Nat.zero_le 1
  ints := Nat.le_refl 0
  hups := Nat.le_refl 0
  ends := rfl
  set := fun h => by cases h
  fin := fun h => absurd rfl h
  left := fun h => by cases h

theorem waitingInts_le {s : State} (h : Counts s) : waitingInts s ≤ 2 := by
  have hle : s.frames.count .intWrite ≤ s.frames.countP fun f => f.signal = .int :=
    List.countP_mono_left fun f _ hf => by
      rw [beq_iff_eq.mp hf]
      rfl
  have honce := h.once .int
  have hbool := Bool.toNat_le s.pendingInt
  rw [waitingInts]
  omega

theorem counts_handler {s : State} (h : Counts s) {f : Frame} {rest : List Frame} (hf : s.frames = f :: rest) :
    Counts (handlerStep s rest f) := by
  obtain ⟨turn, once, ints, hups, ends, set, fin, left⟩ := h
  have hrest : ∀ signal, rest.countP (fun f => f.signal = signal) ≤ 1 := by
    intro signal
    have honce := once signal
    rw [hf, List.countP_cons] at honce
    omega
  have hset : .hupSet ∈ rest → .hupCatch ∈ s.out :=
    fun hmem => set (by rw [hf]; exact List.mem_cons_of_mem f hmem)
  rw [waitingInts, hf] at ints
  rw [waitingHups, hf] at hups
  cases f with
  | intWrite =>
    refine ⟨turn, fun signal => ?_, ?_, ?_, ?_, ?_, ?_, left⟩
    · have honce := once signal
      rw [hf] at honce
      exact honce
    · simp [handlerStep, waitingInts] at ints ⊢
      omega
    · simpa [handlerStep, waitingHups] using hups
    · simpa [handlerStep] using ends
    · exact fun hmem => List.mem_append_left _ (hset (by simpa [handlerStep] using hmem))
    · exact fun hfin => List.mem_append_left _ (fin hfin)
  | intReturn =>
    refine ⟨turn, hrest, ?_, ?_, ends, hset, fin, left⟩
    · simpa [handlerStep, waitingInts] using ints
    · simpa [handlerStep, waitingHups] using hups
  | hupWrite =>
    refine ⟨turn, fun signal => ?_, ?_, ?_, ?_, ?_, ?_, left⟩
    · have honce := once signal
      rw [hf] at honce
      exact honce
    · simpa [handlerStep, waitingInts] using ints
    · simp [handlerStep, waitingHups] at hups ⊢
      omega
    · simpa [handlerStep] using ends
    · exact fun _ => List.mem_append_right _ (List.mem_singleton_self _)
    · exact fun hfin => List.mem_append_left _ (fin hfin)
  | hupSet =>
    have hcaught : .hupCatch ∈ s.out := set (by rw [hf]; exact List.mem_cons_self)
    refine ⟨turn, fun signal => ?_, ?_, ?_, ends, fun _ => hcaught, fun _ => hcaught, fun _ => one_ne_zero⟩
    · have honce := once signal
      rw [hf] at honce
      exact honce
    · simpa [handlerStep, waitingInts] using ints
    · simpa [handlerStep, waitingHups] using hups
  | hupReturn =>
    refine ⟨turn, hrest, ?_, ?_, ends, hset, fin, left⟩
    · simpa [handlerStep, waitingInts] using ints
    · simpa [handlerStep, waitingHups] using hups

theorem counts_enters {s : State} (h : Counts s) {signal : Signal} (hp : s.pending signal = true)
    (hf : ∀ f ∈ s.frames, f.signal ≠ signal) :
    Counts { s.setPending false signal with frames := handlerOf signal :: s.frames } := by
  obtain ⟨turn, once, ints, hups, ends, set, fin, left⟩ := h
  obtain ⟨hint, hhup⟩ := waiting_enters hp
  have hsignal : (handlerOf signal).signal = signal := by cases signal <;> rfl
  have hnone : s.frames.countP (fun f => f.signal = signal) = 0 := by
    rw [List.countP_eq_zero]
    exact fun f hmem => by simpa using hf f hmem
  have honce : ∀ signal', (handlerOf signal :: s.frames).countP (fun f => f.signal = signal') ≤ 1 := by
    intro signal'
    rw [List.countP_cons]
    by_cases heq : signal = signal'
    · rw [← heq, hnone, hsignal]
      simp
    · have hother := once signal'
      rw [hsignal]
      simpa [heq] using hother
  have hmem : .hupSet ∈ handlerOf signal :: s.frames → .hupCatch ∈ s.out := by
    intro hmem
    obtain heq | hmem := List.mem_cons.mp hmem
    · cases signal <;> cases heq
    · exact set hmem
  cases signal with
  | int => exact ⟨turn, honce, by rw [hint]; exact ints, by rw [hhup]; exact hups, ends, hmem, fin, left⟩
  | hup => exact ⟨turn, honce, by rw [hint]; exact ints, by rw [hhup]; exact hups, ends, hmem, fin, left⟩

theorem counts_dies {s : State} (h : Counts s) (signal : Signal) :
    Counts { s.setPending false signal with child := .killed, frames := [] } := by
  obtain ⟨turn, once, ints, hups, ends, set, fin, left⟩ := h
  obtain ⟨hint, hhup⟩ := waiting_dies s signal
  have hints := (Nat.add_le_add_left hint _).trans ints
  have hhups := (Nat.add_le_add_left hhup _).trans hups
  cases signal with
  | int =>
    exact ⟨turn, fun _ => Nat.zero_le 1, hints, hhups, ends, (fun h => by cases h), fin,
      (fun h => by cases h)⟩
  | hup =>
    exact ⟨turn, fun _ => Nat.zero_le 1, hints, hhups, ends, (fun h => by cases h), fin,
      (fun h => by cases h)⟩

theorem counts_moves {s t : State} (h : Counts s) (hm : Moves s t) : Counts t := by
  have hturn := h.turn
  have hints := h.ints
  have hhups := h.hups
  have hends := h.ends
  cases hm with
  | fork hp =>
    rw [hp] at hints hhups hends
    have hfirst : ∀ loop, ParentPc.kill 0 = .kill loop → loop < 3 := fun loop heq => by cases heq; decide
    exact ⟨hfirst, h.once, hints, hhups, hends, h.set, h.fin, (fun heq => by cases heq)⟩
  | forkFails hp =>
    rw [hp] at hints hhups hends
    have hfirst : ∀ loop, ParentPc.kill 0 = .kill loop → loop < 3 := fun loop heq => by cases heq; decide
    exact ⟨hfirst, h.once, hints, hhups, hends, h.set, h.fin, h.left⟩
  | kill loop hp =>
    have hone := waitingInts_kill s .int
    have hnone := waitingHups_kill s .int
    have hlt := hturn loop hp
    rw [hp] at hints hhups hends
    simp only [sentInts, sentHups] at hints hhups
    refine ⟨?_, ?_, ?_, ?_, ?_, ?_, ?_, ?_⟩
    · intro loop' heq
      by_cases hmore : loop + 1 < 3
      · simp only [if_pos hmore, ParentPc.kill.injEq] at heq
        omega
      · simp only [if_neg hmore] at heq
        cases heq
    · simpa using h.once
    · show (s.kill .int).out.count .intCatch + waitingInts (s.kill .int) ≤ _
      rw [kill_out]
      by_cases hmore : loop + 1 < 3
      · simp only [if_pos hmore, sentInts]
        simp at hone
        omega
      · simp only [if_neg hmore, sentInts]
        simp at hone
        omega
    · show (s.kill .int).out.count .hupCatch + waitingHups (s.kill .int) ≤ _
      rw [kill_out]
      simp at hnone
      omega
    · rw [kill_out, hends]
      split <;> rfl
    · simpa using h.set
    · simpa using h.fin
    · simpa using h.left
  | killHup hp =>
    have hone := waitingHups_kill s .hup
    have hnone := waitingInts_kill s .hup
    rw [hp] at hints hhups hends
    simp only [sentInts, sentHups] at hints hhups
    refine ⟨(fun loop heq => by cases heq), ?_, ?_, ?_, ?_, ?_, ?_, ?_⟩
    · simpa using h.once
    · show (s.kill .hup).out.count .intCatch + waitingInts (s.kill .hup) ≤ 3
      rw [kill_out]
      simp at hnone
      omega
    · show (s.kill .hup).out.count .hupCatch + waitingHups (s.kill .hup) ≤ 1
      rw [kill_out]
      simp at hone
      omega
    · rw [kill_out]
      exact hends
    · simpa using h.set
    · simpa using h.fin
    · simpa using h.left
  | parentEnd hp =>
    rw [hp] at hints hhups hends
    refine ⟨(fun loop heq => by cases heq), h.once, ?_, ?_, ?_, ?_, ?_, h.left⟩
    · simpa [waitingInts, sentInts] using hints
    · simpa [waitingHups, sentHups] using hhups
    · rw [List.count_append, hends]
      rfl
    · exact fun hmem => List.mem_append_left _ (h.set hmem)
    · exact fun hfin => List.mem_append_left _ (h.fin hfin)
  | handler f rest hf => exact counts_handler h hf
  | signalInt hc hf => exact ⟨hturn, h.once, hints, hhups, hends, h.set, h.fin, (fun heq => by cases heq)⟩
  | signalHup hc hf => exact ⟨hturn, h.once, hints, hhups, hends, h.set, h.fin, (fun heq => by cases heq)⟩
  | polls hc hf hfin => exact h
  | leaves hc hf hfin => exact ⟨hturn, h.once, hints, hhups, hends, h.set, h.fin, fun _ => hfin⟩
  | childEnd hc hf =>
    refine ⟨hturn, h.once, ?_, ?_, ?_, ?_, ?_, (fun heq => by cases heq)⟩
    · simpa [waitingInts] using hints
    · simpa [waitingHups] using hhups
    · simpa using hends
    · exact fun hmem => List.mem_append_left _ (h.set hmem)
    · exact fun hfin => List.mem_append_left _ (h.fin hfin)
  | exits hc hf => exact ⟨hturn, h.once, hints, hhups, hends, h.set, h.fin, (fun heq => by cases heq)⟩
  | enters signal hp ha hf hi => exact counts_enters h hp hf
  | dies signal hp ha hf hi => exact counts_dies h signal

/-- `SIGHUP` has not been caught. -/
structure Uncaught (frames : List Frame) (out : List Line) : Prop where
  frames : ∀ f ∈ frames, f.signal = .int
  hup : .hupCatch ∉ out
  ended : .childEnd ∉ out

/-- The child has printed its line behind that of `funcHup`, and at most one `SIGINT` is caught after
it: one that was pending. -/
def EndTold (waiting : ℕ) (out : List Line) : Prop :=
  ∃ u v, out = u ++ .childEnd :: v ∧ .childEnd ∉ u ∧ .childEnd ∉ v ∧ .hupCatch ∈ u ∧
    v.count .intCatch + waiting ≤ 1

def Tells (frames : List Frame) (waiting : ℕ) (out : List Line) : ChildPc → Prop
  | .absent => Uncaught frames out
  | .signalInt => Uncaught frames out
  | .signalHup => Uncaught frames out
  | .loop => .childEnd ∉ out
  | .printf => .childEnd ∉ out
  | .exit => EndTold waiting out
  | .exited => EndTold waiting out
  | .killed => Uncaught frames out

theorem EndTold.snoc {waiting waiting' : ℕ} {out : List Line} {l : Line} (h : EndTold waiting out)
    (hl : l ≠ .childEnd) (hw : [l].count .intCatch + waiting' ≤ waiting) : EndTold waiting' (out ++ [l]) := by
  obtain ⟨u, v, rfl, hu, hv, hhup, hle⟩ := h
  refine ⟨u, v ++ [l], by simp, hu, ?_, hhup, ?_⟩
  · simp only [List.mem_append, List.mem_singleton, not_or]
    exact ⟨hv, Ne.symm hl⟩
  · rw [List.count_append]
    omega

theorem Uncaught.snoc {frames : List Frame} {out : List Line} {l : Line} (h : Uncaught frames out)
    (hhup : l ≠ .hupCatch) (hl : l ≠ .childEnd) : Uncaught frames (out ++ [l]) := by
  refine ⟨h.frames, ?_, ?_⟩
  · simp only [List.mem_append, List.mem_singleton, not_or]
    exact ⟨h.hup, Ne.symm hhup⟩
  · simp only [List.mem_append, List.mem_singleton, not_or]
    exact ⟨h.ended, Ne.symm hl⟩

theorem notMem_snoc {out : List Line} {l : Line} (h : .childEnd ∉ out) (hl : l ≠ .childEnd) :
    .childEnd ∉ out ++ [l] := by
  simp only [List.mem_append, List.mem_singleton, not_or]
  exact ⟨h, Ne.symm hl⟩

/-- A line that is neither of the last two of the child. -/
theorem tells_snoc {frames : List Frame} {waiting waiting' : ℕ} {out : List Line} {c : ChildPc} {l : Line}
    (h : Tells frames waiting out c) (hhup : l ≠ .hupCatch) (hl : l ≠ .childEnd)
    (hw : [l].count .intCatch + waiting' ≤ waiting) : Tells frames waiting' (out ++ [l]) c := by
  cases c with
  | absent => exact Uncaught.snoc h hhup hl
  | signalInt => exact Uncaught.snoc h hhup hl
  | signalHup => exact Uncaught.snoc h hhup hl
  | killed => exact Uncaught.snoc h hhup hl
  | loop => exact notMem_snoc h hl
  | printf => exact notMem_snoc h hl
  | exit => exact EndTold.snoc h hl hw
  | exited => exact EndTold.snoc h hl hw

/-- Only frames of `funcHup` matter, and only what may still be caught. -/
theorem tells_mono {frames frames' : List Frame} {waiting waiting' : ℕ} {out : List Line} {c : ChildPc}
    (h : Tells frames waiting out c) (hf : (∀ f ∈ frames, f.signal = .int) → ∀ f ∈ frames', f.signal = .int)
    (hw : waiting' ≤ waiting) : Tells frames' waiting' out c := by
  cases c with
  | absent => exact ⟨hf h.frames, h.hup, h.ended⟩
  | signalInt => exact ⟨hf h.frames, h.hup, h.ended⟩
  | signalHup => exact ⟨hf h.frames, h.hup, h.ended⟩
  | killed => exact ⟨hf h.frames, h.hup, h.ended⟩
  | loop => exact h
  | printf => exact h
  | exit =>
    obtain ⟨u, v, hout, hu, hv, hhup, hle⟩ := h
    exact ⟨u, v, hout, hu, hv, hhup, (Nat.add_le_add_left hw _).trans hle⟩
  | exited =>
    obtain ⟨u, v, hout, hu, hv, hhup, hle⟩ := h
    exact ⟨u, v, hout, hu, hv, hhup, (Nat.add_le_add_left hw _).trans hle⟩

/-- What the child has printed at each point, and when the `SIGINT`s were caught. -/
structure Story (s : State) : Prop where
  unborn : s.parent = .fork → s.child = .absent
  dead : alive s.child = false → s.frames = []
  early : sentHups s.parent = 0 → ∀ l ∈ s.out, l = .intCatch
  late : sentHups s.parent = 1 → lateInts s.out + waitingInts s ≤ 2
  tells : Tells s.frames (waitingInts s) s.out s.child

theorem story_init : Story init where
  unborn := fun _ => rfl
  dead := fun _ => rfl
  early := fun _ l hl => by cases hl
  late := fun h => by cases h
  tells := ⟨(fun f hf => by cases hf), (fun h => by cases h), (fun h => by cases h)⟩

theorem sentHups_of_caught {s : State} (h : Counts s) (hcaught : .hupCatch ∈ s.out) :
    sentHups s.parent = 1 := by
  have hpos := List.count_pos_iff.mpr hcaught
  have hhups := h.hups
  have hle : sentHups s.parent ≤ 1 := by cases s.parent <;> simp [sentHups]
  omega

/-- What only a child does that has not caught `SIGHUP`: the parent may still send. -/
theorem tells_sending {s : State} (hc : Counts s) (h : Tells s.frames (waitingInts s) s.out s.child)
    (hsent : sentHups s.parent = 0) (waiting : ℕ) : Tells s.frames waiting s.out s.child := by
  have hnone : .hupCatch ∉ s.out := fun hcaught => by
    rw [sentHups_of_caught hc hcaught] at hsent
    cases hsent
  cases hchild : s.child with
  | exit =>
    rw [hchild] at h
    obtain ⟨u, v, hout, -, -, hhup, -⟩ := h
    exact absurd (by rw [hout]; exact List.mem_append_left _ hhup) hnone
  | exited =>
    rw [hchild] at h
    obtain ⟨u, v, hout, -, -, hhup, -⟩ := h
    exact absurd (by rw [hout]; exact List.mem_append_left _ hhup) hnone
  | _ =>
    rw [hchild] at h
    exact h

theorem story_handler {s : State} (hc : Counts s) (h : Story s) {f : Frame} {rest : List Frame}
    (hf : s.frames = f :: rest) : Story (handlerStep s rest f) := by
  obtain ⟨unborn, dead, early, late, tells⟩ := h
  have halive : alive s.child = true := by
    by_contra hdead
    rw [dead (Bool.eq_false_iff.mpr hdead)] at hf
    cases hf
  have hsigs : (∀ g ∈ s.frames, g.signal = .int) → ∀ g ∈ rest, g.signal = .int := by
    intro hall g hg
    exact hall g (by rw [hf]; exact List.mem_cons_of_mem f hg)
  have hints := hc.ints
  cases f with
  | intWrite =>
    have hless : waitingInts s = waitingInts (handlerStep s rest .intWrite) + 1 := by
      simp [waitingInts, handlerStep, hf]
      omega
    refine ⟨unborn, (fun hdead => absurd halive (Bool.eq_false_iff.mp hdead)), fun hsent l hl => ?_,
      fun hsent => ?_, ?_⟩
    · obtain hl | hl := List.mem_append.mp hl
      · exact early hsent l hl
      · exact List.mem_singleton.mp hl
    · have hlate := late hsent
      have hone := lateInts_int s.out
      show lateInts (s.out ++ [.intCatch]) + _ ≤ 2
      omega
    · refine tells_snoc (tells_mono tells (fun hall g hg => ?_) (Nat.le_refl _)) (by decide) (by decide) ?_
      · obtain rfl | hg := List.mem_cons.mp hg
        · rfl
        · exact hsigs hall g hg
      · rw [hless, Nat.add_comm]
        exact Nat.le_refl _
  | hupWrite =>
    have hsent : sentHups s.parent = 1 := by
      have hhups := hc.hups
      have hle : sentHups s.parent ≤ 1 := by cases s.parent <;> simp [sentHups]
      simp [waitingHups, hf] at hhups
      omega
    have hsame : waitingInts (handlerStep s rest .hupWrite) = waitingInts s := by
      simp [waitingInts, handlerStep, hf]
    refine ⟨unborn, (fun hdead => absurd halive (Bool.eq_false_iff.mp hdead)), fun hzero => ?_,
      fun _ => ?_, ?_⟩
    · cases hsent.symm.trans hzero
    · rw [hsame]
      show lateInts (s.out ++ [.hupCatch]) + _ ≤ 2
      rw [lateInts_ne (by decide)]
      exact late hsent
    · rw [hsame]
      show Tells (.hupSet :: rest) (waitingInts s) (s.out ++ [.hupCatch]) s.child
      have hframes : ¬ ∀ g ∈ s.frames, g.signal = .int := by
        intro hall
        cases hall .hupWrite (by rw [hf]; exact List.mem_cons_self)
      cases hchild : s.child with
      | loop =>
        rw [hchild] at tells
        exact notMem_snoc tells (by decide)
      | printf =>
        rw [hchild] at tells
        exact notMem_snoc tells (by decide)
      | exit =>
        rw [hchild] at tells
        exact EndTold.snoc tells (by decide) (Nat.le_of_eq (Nat.zero_add _))
      | exited =>
        rw [hchild] at tells
        exact EndTold.snoc tells (by decide) (Nat.le_of_eq (Nat.zero_add _))
      | _ =>
        rw [hchild] at tells
        exact absurd tells.frames hframes
  | intReturn =>
    refine ⟨unborn, (fun hdead => absurd halive (Bool.eq_false_iff.mp hdead)), early, fun hsent => ?_, ?_⟩
    · have hlate := late hsent
      simp [waitingInts, handlerStep, hf] at hlate ⊢
      exact hlate
    · refine tells_mono tells hsigs ?_
      simp [waitingInts, handlerStep, hf]
  | hupSet =>
    refine ⟨unborn, (fun hdead => absurd halive (Bool.eq_false_iff.mp hdead)), early, fun hsent => ?_, ?_⟩
    · have hlate := late hsent
      simp [waitingInts, handlerStep, hf] at hlate ⊢
      exact hlate
    · refine tells_mono tells (fun hall => ?_) ?_
      · cases hall .hupSet (by rw [hf]; exact List.mem_cons_self)
      · simp [waitingInts, handlerStep, hf]
  | hupReturn =>
    refine ⟨unborn, (fun hdead => absurd halive (Bool.eq_false_iff.mp hdead)), early, fun hsent => ?_, ?_⟩
    · have hlate := late hsent
      simp [waitingInts, handlerStep, hf] at hlate ⊢
      exact hlate
    · refine tells_mono tells hsigs ?_
      simp [waitingInts, handlerStep, hf]

theorem caught_of_left {s : State} (hc : Counts s) (h : s.child = .printf) : .hupCatch ∈ s.out :=
  hc.fin (hc.left h)

theorem story_moves {s t : State} (hc : Counts s) (h : Story s) (hm : Moves s t) : Story t := by
  cases hm with
  | fork hp =>
    have hsent : sentHups s.parent = 0 := by rw [hp]; rfl
    have hframes : s.frames = [] := h.dead (by rw [h.unborn hp]; rfl)
    have htells := h.tells
    rw [h.unborn hp] at htells
    refine ⟨(fun heq => by cases heq), fun _ => hframes, fun _ => h.early hsent, (fun heq => by cases heq), ?_⟩
    exact htells
  | forkFails hp =>
    have hsent : sentHups s.parent = 0 := by rw [hp]; rfl
    exact ⟨(fun heq => by cases heq), h.dead, fun _ => h.early hsent, (fun heq => by cases heq), h.tells⟩
  | kill loop hp =>
    have hsent : sentHups s.parent = 0 := by rw [hp]; rfl
    refine ⟨fun heq => ?_, ?_, fun _ => ?_, fun heq => ?_, ?_⟩
    · by_cases hmore : loop + 1 < 3
      · simp only [if_pos hmore] at heq
        cases heq
      · simp only [if_neg hmore] at heq
        cases heq
    · simpa using h.dead
    · simpa using h.early hsent
    · by_cases hmore : loop + 1 < 3
      · simp only [if_pos hmore] at heq
        cases heq
      · simp only [if_neg hmore] at heq
        cases heq
    · have htells := tells_sending hc h.tells hsent (waitingInts (s.kill .int))
      rw [← kill_frames s .int, ← kill_out s .int, ← kill_child s .int] at htells
      exact htells
  | killHup hp =>
    have hsent : sentHups s.parent = 0 := by rw [hp]; rfl
    have hle := waitingInts_kill s .hup
    simp only [reduceCtorEq, if_false, Nat.add_zero] at hle
    refine ⟨(fun heq => by cases heq), ?_, (fun heq => by cases heq), fun _ => ?_, ?_⟩
    · simpa using h.dead
    · show lateInts (s.kill .hup).out + waitingInts (s.kill .hup) ≤ 2
      rw [kill_out, lateInts_early (h.early hsent), Nat.zero_add]
      exact hle.trans (waitingInts_le hc)
    · have htells := tells_mono h.tells (fun hall => hall) hle
      rw [← kill_frames s .hup, ← kill_out s .hup, ← kill_child s .hup] at htells
      exact htells
  | parentEnd hp =>
    have hsent : sentHups s.parent = 1 := by rw [hp]; rfl
    refine ⟨(fun heq => by cases heq), h.dead, (fun heq => by cases heq), fun _ => ?_, ?_⟩
    · show lateInts (s.out ++ [.parentEnd]) + waitingInts s ≤ 2
      rw [lateInts_ne (by decide)]
      exact h.late hsent
    · exact tells_snoc h.tells (by decide) (by decide) (Nat.le_of_eq (Nat.zero_add _))
  | handler f rest hf => exact story_handler hc h hf
  | signalInt hchild hf =>
    have htells := h.tells
    rw [hchild] at htells
    exact ⟨(fun hp => by cases hchild.symm.trans (h.unborn hp)), fun _ => hf, h.early, h.late, htells⟩
  | signalHup hchild hf =>
    have htells := h.tells
    rw [hchild] at htells
    exact ⟨(fun hp => by cases hchild.symm.trans (h.unborn hp)), fun _ => hf, h.early, h.late, htells.ended⟩
  | polls hchild hf hfin => exact h
  | leaves hchild hf hfin =>
    have htells := h.tells
    rw [hchild] at htells
    exact ⟨(fun hp => by cases hchild.symm.trans (h.unborn hp)), fun _ => hf, h.early, h.late, htells⟩
  | childEnd hchild hf =>
    have hcaught := caught_of_left hc hchild
    have hsent := sentHups_of_caught hc hcaught
    have htells := h.tells
    rw [hchild] at htells
    refine ⟨(fun hp => by cases hchild.symm.trans (h.unborn hp)), fun _ => hf, fun hzero => ?_,
      fun _ => ?_, ?_⟩
    · cases hsent.symm.trans hzero
    · show lateInts (s.out ++ [.childEnd]) + waitingInts s ≤ 2
      rw [lateInts_ne (by decide)]
      exact h.late hsent
    · refine ⟨s.out, [], rfl, htells, List.not_mem_nil, hcaught, ?_⟩
      have hbool := Bool.toNat_le s.pendingInt
      simp only [waitingInts, hf, List.count_nil, Nat.zero_add]
      exact hbool
  | exits hchild hf =>
    have htells := h.tells
    rw [hchild] at htells
    exact ⟨(fun hp => by cases hchild.symm.trans (h.unborn hp)), fun _ => hf, h.early, h.late, htells⟩
  | enters signal hp ha hf hi =>
    obtain ⟨hint, -⟩ := waiting_enters hp
    have htells : Tells (handlerOf signal :: s.frames) (waitingInts s) s.out s.child := by
      cases signal with
      | int =>
        refine tells_mono h.tells (fun hall f hmem => ?_) (Nat.le_refl _)
        obtain rfl | hmem := List.mem_cons.mp hmem
        · rfl
        · exact hall f hmem
      | hup =>
        have htells := h.tells
        cases hchild : s.child with
        | loop =>
          rw [hchild] at htells
          exact htells
        | printf =>
          rw [hchild] at htells
          exact htells
        | exit =>
          rw [hchild] at htells
          exact htells
        | _ =>
          rw [hchild] at ha hi
          exact absurd hi (by revert ha; simp [alive, installed])
    have hdead : ¬ alive s.child = false := fun hdead => by cases ha.symm.trans hdead
    cases signal with
    | int =>
      exact ⟨h.unborn, fun hd => absurd hd hdead, h.early, fun hsent => by rw [hint]; exact h.late hsent,
        by rw [hint]; exact htells⟩
    | hup =>
      exact ⟨h.unborn, fun hd => absurd hd hdead, h.early, fun hsent => by rw [hint]; exact h.late hsent,
        by rw [hint]; exact htells⟩
  | dies signal hp ha hf hi =>
    obtain ⟨hint, -⟩ := waiting_dies s signal
    have huncaught : .hupCatch ∉ s.out ∧ .childEnd ∉ s.out := by
      have htells := h.tells
      cases hchild : s.child with
      | signalInt =>
        rw [hchild] at htells
        exact ⟨htells.hup, htells.ended⟩
      | signalHup =>
        rw [hchild] at htells
        exact ⟨htells.hup, htells.ended⟩
      | _ =>
        rw [hchild] at ha hi
        exact absurd hi (by revert ha; cases signal <;> simp [alive, installed])
    have hborn : s.parent ≠ .fork := fun hp' => by
      rw [h.unborn hp'] at ha
      cases ha
    have htells : Uncaught [] s.out := ⟨(fun f hmem => by cases hmem), huncaught.1, huncaught.2⟩
    cases signal with
    | int =>
      exact ⟨fun hp' => absurd hp' hborn, fun _ => rfl, h.early,
        fun hsent => (Nat.add_le_add_left hint _).trans (h.late hsent), htells⟩
    | hup =>
      exact ⟨fun hp' => absurd hp' hborn, fun _ => rfl, h.early,
        fun hsent => (Nat.add_le_add_left hint _).trans (h.late hsent), htells⟩

/-! ## The end -/

/-- `SIGHUP` reaches a child that lives, and `kill` has no other target while there is one. -/
structure Served (s : State) : Prop where
  hup : sentHups s.parent = 1 → alive s.child = true →
    s.pendingHup = true ∨ .hupWrite ∈ s.frames ∨ .hupSet ∈ s.frames ∨ s.gFin ≠ 0
  aim : s.everyone = if s.child = .absent then
    List.replicate (sentInts s.parent) .int ++ List.replicate (sentHups s.parent) .hup else []

theorem served_init : Served init := ⟨(fun h => by cases h), rfl⟩

theorem kill_everyone (s : State) (signal : Signal) :
    (s.kill signal).everyone = if s.child = .absent then s.everyone ++ [signal] else s.everyone := by
  cases signal <;> by_cases h : s.child = .absent <;> simp [State.kill, State.setPending, h]

theorem served_handler {s : State} (h : Served s) {f : Frame} {rest : List Frame} (hf : s.frames = f :: rest) :
    Served (handlerStep s rest f) := by
  have hup := h.hup
  rw [hf] at hup
  cases f with
  | intWrite => exact ⟨fun hs ha => by simpa [handlerStep] using hup hs ha, h.aim⟩
  | intReturn => exact ⟨fun hs ha => by simpa [handlerStep] using hup hs ha, h.aim⟩
  | hupWrite => exact ⟨fun _ _ => Or.inr (Or.inr (Or.inl List.mem_cons_self)), h.aim⟩
  | hupSet => exact ⟨fun _ _ => Or.inr (Or.inr (Or.inr one_ne_zero)), h.aim⟩
  | hupReturn => exact ⟨fun hs ha => by simpa [handlerStep] using hup hs ha, h.aim⟩

theorem served_moves {s t : State} (hc : Counts s) (hstory : Story s) (h : Served s) (hm : Moves s t) :
    Served t := by
  have hup := h.hup
  have haim := h.aim
  cases hm with
  | fork hp =>
    rw [hp, hstory.unborn hp] at haim
    exact ⟨(fun hs => by cases hs), haim⟩
  | forkFails hp =>
    rw [hp] at haim
    exact ⟨(fun hs => by cases hs), haim⟩
  | kill loop hp =>
    rw [hp] at haim
    have hlt := hc.turn loop hp
    refine ⟨fun hs => ?_, ?_⟩
    · by_cases hmore : loop + 1 < 3
      · simp only [if_pos hmore] at hs
        cases hs
      · simp only [if_neg hmore] at hs
        cases hs
    · rw [kill_everyone, kill_child, haim]
      by_cases habsent : s.child = .absent
      · rw [if_pos habsent, if_pos habsent, if_pos habsent]
        by_cases hmore : loop + 1 < 3
        · simp only [if_pos hmore, sentInts, sentHups, List.replicate_zero, List.append_nil,
            List.replicate_succ']
        · obtain rfl : loop = 2 := by omega
          rfl
      · rw [if_neg habsent, if_neg habsent, if_neg habsent]
  | killHup hp =>
    rw [hp] at haim
    refine ⟨fun _ ha => ?_, ?_⟩
    · have hborn : s.child ≠ .absent := fun habsent => by
        rw [kill_child, habsent] at ha
        cases ha
      exact Or.inl ((kill_pendingHup s .hup).trans (if_pos ⟨rfl, hborn⟩))
    · rw [kill_everyone, kill_child, haim]
      by_cases habsent : s.child = .absent
      · rw [if_pos habsent, if_pos habsent, if_pos habsent]
        rfl
      · rw [if_neg habsent, if_neg habsent, if_neg habsent]
  | parentEnd hp =>
    rw [hp] at haim hup
    exact ⟨fun _ ha => hup rfl ha, haim⟩
  | handler f rest hf => exact served_handler h hf
  | signalInt hchild hf =>
    rw [hchild] at haim hup
    exact ⟨fun hs _ => hup hs rfl, haim⟩
  | signalHup hchild hf =>
    rw [hchild] at haim hup
    exact ⟨fun hs _ => hup hs rfl, haim⟩
  | polls hchild hf hfin => exact h
  | leaves hchild hf hfin =>
    rw [hchild] at haim hup
    exact ⟨fun hs _ => hup hs rfl, haim⟩
  | childEnd hchild hf =>
    rw [hchild] at haim hup
    exact ⟨fun hs _ => hup hs rfl, haim⟩
  | exits hchild hf =>
    rw [hchild] at haim
    exact ⟨(fun _ ha => by cases ha), haim⟩
  | enters signal hp ha hf hi =>
    cases signal with
    | int =>
      refine ⟨fun hs ha => ?_, haim⟩
      obtain hpend | hmem | hmem | hfin := hup hs ha
      · exact Or.inl hpend
      · exact Or.inr (Or.inl (List.mem_cons_of_mem _ hmem))
      · exact Or.inr (Or.inr (Or.inl (List.mem_cons_of_mem _ hmem)))
      · exact Or.inr (Or.inr (Or.inr hfin))
    | hup => exact ⟨fun _ _ => Or.inr (Or.inl List.mem_cons_self), haim⟩
  | dies signal hp ha hf hi =>
    have hborn : s.child ≠ .absent := fun habsent => by
      rw [habsent] at ha
      cases ha
    rw [if_neg hborn] at haim
    cases signal <;> exact ⟨(fun _ ha => by cases ha), haim⟩

/-- Both have ended, or there is no child. -/
def Finished (s : State) : Prop := s.parent = .exited ∧ alive s.child = false

def parentRank : ParentPc → ℕ
  | .fork => 24
  | .kill loop => 18 - 4 * loop
  | .killHup => 6
  | .printf => 1
  | .exited => 0

def childRank : ChildPc → ℕ
  | .signalInt => 5
  | .signalHup => 4
  | .loop => 3
  | .printf => 2
  | .exit => 1
  | _ => 0

def frameRank : Frame → ℕ
  | .intWrite => 2
  | .intReturn => 1
  | .hupWrite => 3
  | .hupSet => 2
  | .hupReturn => 1

def rank (s : State) : ℕ :=
  parentRank s.parent + childRank s.child + tally frameRank s.frames + 3 * s.pendingInt.toNat +
    4 * s.pendingHup.toNat

theorem rank_kill (s : State) (signal : Signal) (p : ParentPc) :
    rank { s.kill signal with parent := p } ≤
      parentRank p + childRank s.child + tally frameRank s.frames + 3 * s.pendingInt.toNat +
        4 * s.pendingHup.toNat + if signal = .int then 3 else 4 := by
  simp only [rank, kill_frames, kill_child, kill_pendingInt, kill_pendingHup]
  cases signal <;> by_cases h : s.child = .absent <;> cases s.pendingInt <;> cases s.pendingHup <;> simp [h]

/-- Everything but polling leads on. -/
theorem rank_moves {s t : State} (hc : Counts s) (h : Story s) (hm : Moves s t) :
    rank t < rank s ∨ (s.child = .loop ∧ s.frames = [] ∧ s.gFin = 0 ∧ t = s) := by
  cases hm with
  | polls hchild hf hfin => exact Or.inr ⟨hchild, hf, hfin, rfl⟩
  | fork hp =>
    left
    simp only [rank, hp, h.unborn hp, parentRank, childRank]
    omega
  | forkFails hp =>
    left
    simp only [rank, hp, parentRank]
    omega
  | kill loop hp =>
    left
    have hle := rank_kill s .int (if loop + 1 < 3 then .kill (loop + 1) else .killHup)
    have hlt := hc.turn loop hp
    have hparent : parentRank (if loop + 1 < 3 then .kill (loop + 1) else .killHup) + 4 =
        parentRank s.parent := by
      rw [hp]
      split <;> simp only [parentRank] <;> omega
    simp only [if_true] at hle
    exact Nat.lt_of_le_of_lt hle (by rw [rank]; omega)
  | killHup hp =>
    left
    have hle := rank_kill s .hup .printf
    simp only [reduceCtorEq, if_false, parentRank] at hle
    refine Nat.lt_of_le_of_lt hle ?_
    simp only [rank, hp, parentRank]
    omega
  | parentEnd hp =>
    left
    simp only [rank, hp, parentRank]
    omega
  | handler f rest hf =>
    left
    cases f <;> simp only [rank, handlerStep, hf, tally_cons, frameRank] <;> omega
  | signalInt hchild hf =>
    left
    simp only [rank, hchild, childRank]
    omega
  | signalHup hchild hf =>
    left
    simp only [rank, hchild, childRank]
    omega
  | leaves hchild hf hfin =>
    left
    simp only [rank, hchild, childRank]
    omega
  | childEnd hchild hf =>
    left
    simp only [rank, hchild, childRank]
    omega
  | exits hchild hf =>
    left
    simp only [rank, hchild, childRank]
    omega
  | enters signal hp ha hf hi =>
    left
    cases signal with
    | int =>
      have hp : s.pendingInt = true := hp
      simp only [rank, State.setPending, handlerOf, tally_cons, frameRank, hp, Bool.toNat_true,
        Bool.toNat_false]
      omega
    | hup =>
      have hp : s.pendingHup = true := hp
      simp only [rank, State.setPending, handlerOf, tally_cons, frameRank, hp, Bool.toNat_true,
        Bool.toNat_false]
      omega
  | dies signal hp ha hf hi =>
    left
    have hnil : tally frameRank [] = 0 := rfl
    cases signal with
    | int =>
      have hp : s.pendingInt = true := hp
      simp only [rank, State.setPending, childRank, hnil, hp, Bool.toNat_true, Bool.toNat_false]
      omega
    | hup =>
      have hp : s.pendingHup = true := hp
      simp only [rank, State.setPending, childRank, hnil, hp, Bool.toNat_true, Bool.toNat_false]
      omega

theorem parent_moves {s : State} (h : s.parent ≠ .exited) :
    ∃ t, parentStep s = some t ∧ t.parent ≠ s.parent := by
  cases hp : s.parent with
  | fork => exact ⟨_, by rw [parentStep, hp], by simp⟩
  | kill loop =>
    refine ⟨_, by rw [parentStep, hp], ?_⟩
    show (if loop + 1 < 3 then ParentPc.kill (loop + 1) else .killHup) ≠ .kill loop
    split <;> simp
  | killHup => exact ⟨_, by rw [parentStep, hp], by simp⟩
  | printf => exact ⟨_, by rw [parentStep, hp], by simp⟩
  | exited => exact absurd hp h

theorem child_moves {s : State} (ha : alive s.child = true) : ∃ t, childStep s = some t := by
  unfold childStep
  split
  · exact ⟨_, rfl⟩
  · cases hchild : s.child with
    | loop =>
      by_cases hfin : s.gFin = 0
      · exact ⟨s, if_pos hfin⟩
      · exact ⟨_, if_neg hfin⟩
    | absent =>
      rw [hchild] at ha
      cases ha
    | exited =>
      rw [hchild] at ha
      cases ha
    | killed =>
      rw [hchild] at ha
      cases ha
    | _ => exact ⟨_, rfl⟩

structure Sound (s : State) : Prop where
  counts : Counts s
  story : Story s
  served : Served s

theorem sound_step {s t : State} {a : Act} (h : Sound s) (hstep : step s a = some t) : Sound t :=
  have hm := moves_of_step hstep
  ⟨counts_moves h.counts hm, story_moves h.counts h.story hm, served_moves h.counts h.story h.served hm⟩

theorem sound_run {s : State} {as : List Act} (h : exec step init as = some s) : Sound s :=
  exec_invariant Sound (fun _ _ _ => sound_step) h ⟨counts_init, story_init, served_init⟩

/-- First the parent, then `SIGHUP` if it is pending and nothing runs in front, then the child. -/
theorem lowers {s : State} (h : Sound s) (hopen : ¬ Finished s) :
    ∃ a t, True ∧ step s a = some t ∧ Sound t ∧ rank t < rank s := by
  have hrank : ∀ {a t}, step s a = some t → (s.child = .loop → s.frames = [] → s.gFin = 0 → t ≠ s) →
      ∃ a t, True ∧ step s a = some t ∧ Sound t ∧ rank t < rank s := by
    intro a t hstep hne
    refine ⟨a, t, trivial, hstep, sound_step h hstep, ?_⟩
    obtain hless | ⟨hchild, hf, hfin, rfl⟩ := rank_moves h.counts h.story (moves_of_step hstep)
    · exact hless
    · exact absurd rfl (hne hchild hf hfin)
  by_cases hp : s.parent = .exited
  · have ha : alive s.child = true := by
      by_contra hdead
      exact hopen ⟨hp, Bool.eq_false_iff.mpr hdead⟩
    by_cases hpend : s.frames = [] ∧ s.pendingHup = true
    · obtain ⟨hf, hpend⟩ := hpend
      have hcond : (s.pending .hup && alive s.child && s.frames.all fun f => f.signal ≠ .hup) = true := by
        have hpending : s.pending .hup = true := hpend
        rw [hpending, ha, hf]
        rfl
      by_cases hi : installed .hup s.child = true
      · have hstep : step s (.deliver .hup) =
            some { s.setPending false .hup with frames := handlerOf .hup :: s.frames } :=
          (if_pos hcond).trans (if_pos hi)
        refine hrank hstep fun _ _ _ heq => ?_
        cases (congrArg State.pendingHup heq).trans hpend
      · have hstep : step s (.deliver .hup) =
            some { s.setPending false .hup with child := .killed, frames := [] } :=
          (if_pos hcond).trans (if_neg hi)
        refine hrank hstep fun _ _ _ heq => ?_
        cases (congrArg State.pendingHup heq).trans hpend
    · obtain ⟨t, ht⟩ := child_moves ha
      have hstep : step s .child = some t := ht
      refine hrank hstep fun _ hf hfin _ => ?_
      obtain hpend' | hmem | hmem | hset := h.served.hup (by rw [hp]; rfl) ha
      · exact hpend ⟨hf, hpend'⟩
      · rw [hf] at hmem
        cases hmem
      · rw [hf] at hmem
        cases hmem
      · exact hset hfin
  · obtain ⟨t, ht, hne⟩ := parent_moves hp
    have hstep : step s .parent = some t := ht
    exact hrank hstep fun _ _ _ heq => hne (by rw [heq])

/-- **No signal hangs the program.** From every state that it can get into, both processes can come to
their end; and then the child has been the only target, unless there is none: after a `fork` that has
failed, three `SIGINT` and a `SIGHUP` have gone to every process. -/
theorem both_end {as : List Act} {s : State} (h : exec step init as = some s) :
    ∃ bs t, exec step s bs = some t ∧ t.parent = .exited ∧
      ((t.child = .exited ∨ t.child = .killed) ∧ t.everyone = [] ∨
        t.child = .absent ∧ t.everyone = [.int, .int, .int, .hup]) := by
  obtain ⟨bs, t, -, hrun, ht, hp, hdead⟩ := reaches_of_lowers (fun _ => True) (fun _ => lowers) (sound_run h)
  refine ⟨bs, t, hrun, hp, ?_⟩
  have haim := ht.served.aim
  rw [hp] at haim
  cases hchild : t.child with
  | exited =>
    rw [hchild] at haim
    exact Or.inl ⟨Or.inl rfl, haim⟩
  | killed =>
    rw [hchild] at haim
    exact Or.inl ⟨Or.inr rfl, haim⟩
  | absent =>
    rw [hchild] at haim
    exact Or.inr ⟨rfl, haim⟩
  | _ =>
    rw [hchild] at hdead
    cases hdead

/-- The parent is faster than the child's first call of `signal`. -/
theorem both_end_early :
    ∃ s bs t, exec step init [.parent, .parent, .deliver .int] = some s ∧ s.child = .killed ∧
      exec step s bs = some t ∧ t.parent = .exited := by
  obtain ⟨s, hs⟩ := Option.isSome_iff_exists.mp
    (show (exec step init [.parent, .parent, .deliver .int]).isSome = true from rfl)
  obtain ⟨bs, t, hrun, hp, -⟩ := both_end hs
  exact ⟨s, bs, t, hs, by cases hs; rfl, hrun, hp⟩

end LinuxAppSamp.Processes.Signals
