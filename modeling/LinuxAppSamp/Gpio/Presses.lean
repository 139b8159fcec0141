import LinuxAppSamp.Foundations.Loop

/-! # Counting presses: `gpio_input_poll.c` and `gpio_input_epoll.c`

Both loops wait, read a byte of the value file into `code`, print `pushed` where it is `1` and leave
at the third time. The poll loop does not look at what the wait returned, and neither loop looks at
what the read returned, so that `code` may be left over from before. `loop_prints_iff` takes apart
when such a loop prints exactly at the presses; `presses_agree_iff` says it for both programs.
-/

namespace LinuxAppSamp.Gpio
open Memory Execution
set_option autoImplicit false
set_option maxHeartbeats 250000

/-! ## The loops -/

/-- What `poll` or `epoll_wait` comes back with. -/
inductive Wait
  | event
  | error
  deriving DecidableEq, Repr

def Wait.ret : Wait → ℤ
  | .event => 1
  | .error => -1

/-- A wait, and what a read finds after it: a fresh byte, or none where it fails. -/
structure Occurrence where
  wait : Wait
  read : Option UInt8
  deriving DecidableEq, Repr

/-- The locals of `main` that the loops change. -/
structure PressState where
  code : UInt8
  count : ℕ
  deriving DecidableEq, Repr

inductive PressLine
  | pushed
  | retIsNonzero
  deriving DecidableEq, Repr

/-- `if (code == '1')` and its block, after the read. -/
def countTurn (code : UInt8) (count : ℕ) : Turn PressState (List PressLine) :=
  if code = 49 then ⟨⟨code, count + 1⟩, [[.pushed]], decide (3 ≤ count + 1)⟩
  else ⟨⟨code, count⟩, [[]], false⟩

/-- One turn of the loop of `gpio_input_poll.c`; `ret` is not used. -/
def pollTurn (s : PressState) (o : Occurrence) : Except Fault (Turn PressState (List PressLine)) :=
  .ok (countTurn (o.read.getD s.code) s.count)

/-- One turn of the loop of `gpio_input_epoll.c`. -/
def epollTurn (s : PressState) (o : Occurrence) :
    Except Fault (Turn PressState (List PressLine)) :=
  if o.wait.ret = 0 then .ok ⟨s, [[]], false⟩
  else if 0 < o.wait.ret then .ok (countTurn (o.read.getD s.code) s.count)
  else .ok ⟨s, [[.retIsNonzero]], false⟩

/-! ## Presses -/

/-- An event whose read gives a fresh `1`. -/
def isPress (o : Occurrence) : Bool := o.wait = .event && o.read = some 49

/-- The occurrences up to the `k`-th press. -/
def untilPresses : ℕ → List Occurrence → List Occurrence
  | 0, _ => []
  | _ + 1, [] => []
  | k + 1, o :: os => o :: untilPresses (if isPress o then k else k + 1) os

/-- From `s` on, the loop prints `pushed` exactly at the presses up to the `k`-th, where it is
left. -/
def PrintsPresses (body : PressState → Occurrence → Except Fault (Turn PressState (List PressLine)))
    (k : ℕ) (s : PressState) (os : List Occurrence) : Prop :=
  ∃ r, loop body s os = .ok r ∧
    r.out.map (fun lines => decide (.pushed ∈ lines)) = (untilPresses k os).map isPress ∧
    (r.left = true ↔ k ≤ os.countP isPress)

/-- A loop in which `next` is what a turn leaves in `code`, and `hit` whether it prints. -/
structure Counts (body : PressState → Occurrence → Except Fault (Turn PressState (List PressLine)))
    (next : UInt8 → Occurrence → UInt8) (hit : UInt8 → Occurrence → Bool) : Prop where
  prints : ∀ s o, hit s.code o = true → ∃ lines, .pushed ∈ lines ∧
    body s o = .ok ⟨⟨next s.code o, s.count + 1⟩, [lines], decide (3 ≤ s.count + 1)⟩
  passes : ∀ s o, hit s.code o = false → ∃ lines, .pushed ∉ lines ∧
    body s o = .ok ⟨⟨next s.code o, s.count⟩, [lines], false⟩

theorem forall_places_nil {α : Type} (C : List α → α → Prop) :
    ∀ front x back, [] = front ++ x :: back → C front x := by
  intro front x back h
  exact absurd h.symm (List.append_ne_nil_of_right_ne_nil front (List.cons_ne_nil x back))

/-- A condition on every place of a list, by the place at its head. -/
theorem forall_places_cons {α : Type} (C : List α → α → Prop) (a : α) (l : List α) :
    (∀ front x back, a :: l = front ++ x :: back → C front x) ↔
      C [] a ∧ ∀ front x back, l = front ++ x :: back → C (a :: front) x := by
  constructor
  · intro h
    refine ⟨h [] a l rfl, fun front x back hl => ?_⟩
    exact h (a :: front) x back (by rw [hl, List.cons_append])
  · rintro ⟨ha, hl⟩ front x back he
    cases front with
    | nil =>
      cases he
      exact ha
    | cons b front =>
      obtain ⟨rfl, hl'⟩ := List.cons.inj he
      exact hl front x back hl'

/-! ## One turn -/

section
variable {body : PressState → Occurrence → Except Fault (Turn PressState (List PressLine))}
  {next : UInt8 → Occurrence → UInt8} {hit : UInt8 → Occurrence → Bool}

theorem countP_cons_le (k : ℕ) (o : Occurrence) (os : List Occurrence) :
    k + 1 ≤ (o :: os).countP isPress ↔ (if isPress o then k else k + 1) ≤ os.countP isPress := by
  rw [List.countP_cons]
  split <;> omega

theorem printsPresses_stays {k : ℕ} {s t : PressState} {o : Occurrence} {os : List Occurrence}
    {lines : List PressLine} (h : body s o = .ok ⟨t, [lines], false⟩) :
    PrintsPresses body (k + 1) s (o :: os) ↔
      decide (.pushed ∈ lines) = isPress o ∧
      PrintsPresses body (if isPress o then k else k + 1) t os := by
  unfold PrintsPresses
  rw [loop_cons_stays h rfl, countP_cons_le, untilPresses, List.map_cons]
  constructor
  · rintro ⟨r, hr, hout, hleft⟩
    obtain ⟨q, hq, hr⟩ := bind_eq_ok hr
    cases Except.ok.inj hr
    obtain ⟨hhead, htail⟩ := List.cons.inj hout
    exact ⟨hhead, q, hq, htail, hleft⟩
  · rintro ⟨hhead, q, hq, htail, hleft⟩
    refine ⟨{ q with out := [lines] ++ q.out }, ?_, ?_, hleft⟩
    · show (loop body t os >>= _) = _
      rw [hq, ok_bind]
    · rw [List.singleton_append, List.map_cons, hhead, htail]

theorem printsPresses_leaves {k : ℕ} {s t : PressState} {o : Occurrence} {os : List Occurrence}
    {lines : List PressLine} (h : body s o = .ok ⟨t, [lines], true⟩) :
    PrintsPresses body (k + 1) s (o :: os) ↔
      decide (.pushed ∈ lines) = isPress o ∧
      untilPresses (if isPress o then k else k + 1) os = [] ∧
      (if isPress o then k else k + 1) ≤ os.countP isPress := by
  unfold PrintsPresses
  rw [loop_cons_leaves h rfl, countP_cons_le, untilPresses, List.map_cons]
  constructor
  · rintro ⟨r, hr, hout, hleft⟩
    cases Except.ok.inj hr
    obtain ⟨hhead, htail⟩ := List.cons.inj hout
    exact ⟨hhead, List.map_eq_nil_iff.mp htail.symm, hleft.mp rfl⟩
  · rintro ⟨hhead, hnil, hcount⟩
    refine ⟨_, rfl, ?_, iff_of_true rfl hcount⟩
    rw [hnil, List.map_cons, hhead, List.map_nil, List.map_nil]

/-! ## All turns -/

/-- The loop prints as it should exactly when each turn up to the last press does. -/
theorem loop_prints_iff (hbody : Counts body next hit) (k : ℕ) (s : PressState)
    (os : List Occurrence) (hk : s.count + (k + 1) = 3) :
    PrintsPresses body (k + 1) s os ↔
      ∀ front o back, untilPresses (k + 1) os = front ++ o :: back →
        hit (front.foldl next s.code) o = isPress o := by
  induction os generalizing k s with
  | nil =>
    refine iff_of_true ⟨⟨s, [], false, []⟩, rfl, rfl, ?_⟩ (forall_places_nil _)
    rw [List.countP_nil]
    exact iff_of_false Bool.false_ne_true (by omega)
  | cons o os ih =>
    rw [untilPresses, forall_places_cons, List.foldl_nil]
    simp only [List.foldl_cons]
    cases hhit : hit s.code o with
    | false =>
      obtain ⟨lines, hlines, hturn⟩ := hbody.passes s o hhit
      rw [printsPresses_stays hturn, decide_eq_false hlines]
      refine and_congr_right fun hpress => ?_
      rw [← hpress]
      exact ih k ⟨next s.code o, s.count⟩ hk
    | true =>
      obtain ⟨lines, hlines, hturn⟩ := hbody.prints s o hhit
      cases k with
      | zero =>
        rw [decide_eq_true (by omega : 3 ≤ s.count + 1)] at hturn
        rw [printsPresses_leaves hturn, decide_eq_true hlines]
        refine and_congr_right fun hpress => ?_
        rw [← hpress, if_pos rfl, untilPresses]
        exact iff_of_true ⟨rfl, Nat.zero_le _⟩ (forall_places_nil _)
      | succ k =>
        rw [decide_eq_false (by omega : ¬ 3 ≤ s.count + 1)] at hturn
        rw [printsPresses_stays hturn, decide_eq_true hlines]
        refine and_congr_right fun hpress => ?_
        rw [← hpress]
        exact ih k ⟨next s.code o, s.count + 1⟩ (by show s.count + 1 + (k + 1) = 3; omega)

end

/-! ## The two programs -/

def isEvent (o : Occurrence) : Bool := o.wait = .event

/-- The byte of the last read that gave one, or `code` before any. -/
def lastRead (code : UInt8) (os : List Occurrence) : UInt8 :=
  os.foldl (fun code o => o.read.getD code) code

theorem lastRead_concat (code : UInt8) (os : List Occurrence) (o : Occurrence) :
    lastRead code (os ++ [o]) = o.read.getD (lastRead code os) := by
  rw [lastRead, List.foldl_concat]
  rfl

theorem isPress_iff (o : Occurrence) : isPress o = true ↔ isEvent o = true ∧ o.read = some 49 := by
  simp [isPress, isEvent]

theorem pollTurn_counts :
    Counts pollTurn (fun code o => o.read.getD code) (fun code o => o.read.getD code = 49) where
  prints s o h := by
    refine ⟨[.pushed], List.mem_singleton_self _, ?_⟩
    rw [pollTurn, countTurn, if_pos (of_decide_eq_true h)]
  passes s o h := by
    refine ⟨[], List.not_mem_nil, ?_⟩
    rw [pollTurn, countTurn, if_neg (of_decide_eq_false h)]

theorem epollTurn_event (s : PressState) (o : Occurrence) (h : isEvent o = true) :
    epollTurn s o = pollTurn s o := by
  have hwait : o.wait = .event := of_decide_eq_true h
  rw [epollTurn, hwait]
  rfl

theorem epollTurn_error (s : PressState) (o : Occurrence) (h : isEvent o = false) :
    epollTurn s o = .ok ⟨s, [[.retIsNonzero]], false⟩ := by
  have hwait : o.wait = .error := by
    cases hw : o.wait with
    | event => exact absurd hw (of_decide_eq_false h)
    | error => rfl
  rw [epollTurn, hwait]
  rfl

theorem epollTurn_counts :
    Counts epollTurn (fun code o => if isEvent o then o.read.getD code else code)
      (fun code o => isEvent o && o.read.getD code = 49) where
  prints s o h := by
    obtain ⟨hevent, hcode⟩ := Bool.and_eq_true_iff.mp h
    rw [epollTurn_event s o hevent, if_pos hevent]
    exact pollTurn_counts.prints s o hcode
  passes s o h := by
    cases hevent : isEvent o with
    | true =>
      rw [hevent, Bool.true_and] at h
      rw [epollTurn_event s o hevent]
      exact pollTurn_counts.passes s o h
    | false =>
      rw [epollTurn_error s o hevent]
      exact ⟨[.retIsNonzero], by decide, rfl⟩

/-- Up to the third press, no byte `1` is in `code` after a read at any other occurrence. -/
def PollFresh (code : UInt8) (os : List Occurrence) : Prop :=
  ∀ front o back, untilPresses 3 os = front ++ o :: back →
    isPress o = false → lastRead code (front ++ [o]) ≠ 49

/-- The same for the events alone. -/
def EpollFresh (code : UInt8) (os : List Occurrence) : Prop :=
  ∀ front o back, untilPresses 3 os = front ++ o :: back →
    isPress o = false → isEvent o = true → lastRead code ((front ++ [o]).filter isEvent) ≠ 49

/-- With `1` in `code` the turn is right at a press only, without it at no press. -/
theorem code_eq_isPress_iff (code : UInt8) (o : Occurrence) :
    decide (o.read.getD code = 49) = isPress o ↔ (isPress o = false → o.read.getD code ≠ 49) := by
  cases hpress : isPress o with
  | true =>
    rw [((isPress_iff o).mp hpress).2]
    exact iff_of_true rfl fun h => absurd h.symm Bool.false_ne_true
  | false =>
    rw [decide_eq_false_iff_not]
    exact ⟨fun h _ => h, fun h => h rfl⟩

theorem poll_prints_iff (code : UInt8) (os : List Occurrence) :
    PrintsPresses pollTurn 3 ⟨code, 0⟩ os ↔ PollFresh code os := by
  rw [loop_prints_iff pollTurn_counts 2 ⟨code, 0⟩ os rfl]
  refine forall₃_congr fun front o back => forall_congr' fun _ => ?_
  rw [lastRead_concat]
  exact code_eq_isPress_iff (lastRead code front) o

theorem epoll_prints_iff (code : UInt8) (os : List Occurrence) :
    PrintsPresses epollTurn 3 ⟨code, 0⟩ os ↔ EpollFresh code os := by
  rw [loop_prints_iff epollTurn_counts 2 ⟨code, 0⟩ os rfl]
  refine forall₃_congr fun front o back => forall_congr' fun _ => ?_
  have hfold : front.foldl (fun code o => if isEvent o then o.read.getD code else code) code =
      lastRead code (front.filter isEvent) := List.foldl_filter.symm
  rw [List.filter_append, hfold]
  cases hevent : isEvent o with
  | true =>
    rw [List.filter_cons_of_pos hevent, List.filter_nil, lastRead_concat, Bool.true_and,
      code_eq_isPress_iff]
    exact ⟨fun h hpress _ => h hpress, fun h hpress => h hpress rfl⟩
  | false =>
    refine iff_of_true ?_ fun _ h => absurd h Bool.false_ne_true
    cases hpress : isPress o with
    | true =>
      rw [((isPress_iff o).mp hpress).1] at hevent
      exact hevent.symm
    | false => exact Bool.false_and _

/-- **Both programs print exactly at the presses when neither meets a stale or unasked `1`.** -/
theorem presses_agree_iff (code code' : UInt8) (os : List Occurrence) :
    (PrintsPresses pollTurn 3 ⟨code, 0⟩ os ∧ PrintsPresses epollTurn 3 ⟨code', 0⟩ os) ↔
      PollFresh code os ∧ EpollFresh code' os :=
  and_congr (poll_prints_iff code os) (epoll_prints_iff code' os)

/-- A wait that a signal interrupts while the button is held is a press for `poll`. -/
theorem interrupted_poll_prints :
    ¬ ∀ (code code' : UInt8) (os : List Occurrence),
      PrintsPresses pollTurn 3 ⟨code, 0⟩ os ∧ PrintsPresses epollTurn 3 ⟨code', 0⟩ os := by
  intro h
  obtain ⟨⟨r, hr, hout, -⟩, -⟩ := h 48 48 [⟨.error, some 49⟩]
  cases Except.ok.inj hr
  exact absurd hout (by decide)

end LinuxAppSamp.Gpio
