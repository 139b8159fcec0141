import LinuxAppSamp.Foundations.Steps
import LinuxAppSamp.Messages.Reply

/-! # Records on the card: `sd_append.c`

A run mounts the card, appends three records to a file under the mount point and unmounts the card.
Where the card is not mounted the same path names a file of the directory below. A run reports a
failed mount and writes all the same. `step_eq` says what one run does with the two files, and
`records_on_card` which sequences of runs leave every record on the card.
-/

namespace LinuxAppSamp.Card
open Memory Messages Execution
set_option autoImplicit false
set_option maxHeartbeats 250000

/-! ## The two file systems -/

/-- `test.csv` on the card and in the directory `/media/card` itself, none where there is no such
file, and whether the card is mounted there. -/
structure Media where
  card : Option (List UInt8)
  under : Option (List UInt8)
  mounted : Bool
  deriving DecidableEq, Repr

/-- What a system call does to the file that the path names. -/
def Media.onPath (f : Option (List UInt8) → Option (List UInt8)) (m : Media) : Media :=
  if m.mounted then { m with card := f m.card } else { m with under := f m.under }

/-- `O_CREAT` -/
def create (file : Option (List UInt8)) : Option (List UInt8) := some (file.getD [])

/-- `O_APPEND` -/
def append (bs : List UInt8) (file : Option (List UInt8)) : Option (List UInt8) :=
  file.map (· ++ bs)

/-! ## The program -/

/-- How the calls of one run turn out, where the state leaves it open. -/
structure Attempt where
  mountOk : Bool
  openOk : Bool
  umountOk : Bool
  deriving DecidableEq, Repr

inductive Line
  | sdMounted
  | sdMountFail
  | writingSampleData
  | fileName (name : List UInt8)
  | openFail
  | sdUmounted
  | sdUmountFail
  deriving DecidableEq, Repr

def kMountPos : List UInt8 := bytes ['/', 'm', 'e', 'd', 'i', 'a', '/', 'c', 'a', 'r', 'd']

def testCsv : List UInt8 := bytes ['/', 't', 'e', 's', 't', '.', 'c', 's', 'v']

def record : List UInt8 := bytes ['t', 'e', 's', 't', ',', '1', '\r', '\n']

def writeSample (openOk : Bool) (m : Media) : Except Fault (Media × List Line) := do
  let szBuf ← (Buffer.zero 100).strcpy kMountPos
  let szBuf ← szBuf.strcat testCsv
  let name ← szBuf.str
  if openOk then do
    let szBuf ← szBuf.strcpy record
    let s ← szBuf.str
    let m := m.onPath create
    .ok (((m.onPath (append s)).onPath (append s)).onPath (append s), [.fileName name])
  else .ok (m, [.fileName name, .openFail])

/-- `mount` fails on a card that is mounted already; what `mkdir` returns is not checked. -/
def sdMount (mountOk : Bool) (m : Media) : Bool × Media :=
  if mountOk && !m.mounted then (true, { m with mounted := true }) else (false, m)

def sdUmount (umountOk : Bool) (m : Media) : Bool × Media :=
  if umountOk && m.mounted then (true, { m with mounted := false }) else (false, m)

def main (m : Media) (a : Attempt) : Except Fault (Media × List Line) := do
  let (didMount, m) := sdMount a.mountOk m
  let (m, written) ← writeSample a.openOk m
  let (didUmount, m) := sdUmount a.umountOk m
  .ok (m, (if didMount then Line.sdMounted else Line.sdMountFail) :: Line.writingSampleData ::
    written ++ [if didUmount then Line.sdUmounted else Line.sdUmountFail])

/-- One run of the program. -/
def step (m : Media) (a : Attempt) : Option Media :=
  match main m a with
  | .ok (m, _) => some m
  | .error _ => none

/-! ## One run -/

/-- Whether the card is mounted when the sample is written. -/
def Media.onCard (m : Media) (a : Attempt) : Bool := m.mounted || a.mountOk

def records (k : ℕ) : List UInt8 := (List.replicate k record).flatten

/-- The bytes of a file, none where there is no file. -/
def contents (file : Option (List UInt8)) : List UInt8 := file.getD []

def withSample (file : Option (List UInt8)) : Option (List UInt8) :=
  some (contents file ++ records 3)

theorem onPath_onPath (f g : Option (List UInt8) → Option (List UInt8)) (m : Media) :
    (m.onPath f).onPath g = m.onPath (g ∘ f) := by
  unfold Media.onPath
  cases m.mounted <;> simp

/-- The file is created where it is missing, and three records are appended. -/
theorem onPath_sample (m : Media) :
    (((m.onPath create).onPath (append record)).onPath (append record)).onPath (append record) =
      m.onPath withSample := by
  rw [onPath_onPath, onPath_onPath, onPath_onPath]
  congr 1
  funext file
  show some (file.getD [] ++ record ++ record ++ record) =
    some (file.getD [] ++ (record ++ (record ++ (record ++ []))))
  rw [List.append_nil, List.append_assoc, List.append_assoc]

theorem writeSample_ok (openOk : Bool) (m : Media) :
    ∃ lines, writeSample openOk m = .ok (if openOk then m.onPath withSample else m, lines) := by
  obtain ⟨b, hb, htext, hnul⟩ := (Buffer.zero 100).strcpy_ok kMountPos (by decide) (by decide)
  obtain ⟨c, hc, hname, hnul'⟩ := b.strcat_ok testCsv hnul (by decide) (by rw [htext]; decide)
  obtain ⟨d, hd, hrecord, hnul''⟩ := c.strcpy_ok record (by decide) (by decide)
  rw [writeSample, hb, ok_bind, hc, ok_bind, c.str_ok hnul', ok_bind]
  cases openOk with
  | false => exact ⟨_, rfl⟩
  | true =>
    rw [if_pos rfl, if_pos rfl, hd, ok_bind, d.str_ok hnul'', ok_bind, hrecord, ← onPath_sample]
    exact ⟨_, rfl⟩

theorem sdMount_media (m : Media) (a : Attempt) :
    (sdMount a.mountOk m).2 = ⟨m.card, m.under, m.onCard a⟩ := by
  obtain ⟨card, under, mounted⟩ := m
  obtain ⟨mountOk, openOk, umountOk⟩ := a
  cases mounted <;> cases mountOk <;> rfl

theorem sdUmount_files (umountOk : Bool) (m : Media) :
    (sdUmount umountOk m).2.card = m.card ∧ (sdUmount umountOk m).2.under = m.under := by
  unfold sdUmount
  split <;> exact ⟨rfl, rfl⟩

/-- A run comes through, and leaves the files as the writing has left them. -/
theorem step_eq (m : Media) (a : Attempt) :
    ∃ t, step m a = some t ∧
      (a.openOk = false → t.card = m.card ∧ t.under = m.under) ∧
      (a.openOk = true → m.onCard a = true → t.card = withSample m.card ∧ t.under = m.under) ∧
      (a.openOk = true → m.onCard a = false → t.card = m.card ∧ t.under = withSample m.under) := by
  obtain ⟨lines, hwrite⟩ := writeSample_ok a.openOk (sdMount a.mountOk m).2
  have hmain : ∃ all, main m a = .ok ((sdUmount a.umountOk
      (if a.openOk then (sdMount a.mountOk m).2.onPath withSample
        else (sdMount a.mountOk m).2)).2, all) := by
    unfold main
    show ∃ all, (writeSample a.openOk (sdMount a.mountOk m).2 >>= _) = _
    rw [hwrite, ok_bind]
    exact ⟨_, rfl⟩
  obtain ⟨all, hmain⟩ := hmain
  refine ⟨_, by rw [step, hmain], ?_⟩
  obtain ⟨hcard, hunder⟩ := sdUmount_files a.umountOk
    (if a.openOk then (sdMount a.mountOk m).2.onPath withSample else (sdMount a.mountOk m).2)
  rw [hcard, hunder, sdMount_media]
  refine ⟨?_, ?_, ?_⟩
  · intro hopen
    rw [hopen]
    exact ⟨rfl, rfl⟩
  · intro hopen hon
    rw [hopen, hon]
    exact ⟨rfl, rfl⟩
  · intro hopen hon
    rw [hopen, hon]
    exact ⟨rfl, rfl⟩

/-! ## What a run should do -/

/-- A run appends to the card it finds mounted, and changes no file without it. -/
def OnCardOrNowhere (m : Media) (a : Attempt) : Prop :=
  ∃ t, step m a = some t ∧ t.under = m.under ∧
    t.card = if m.onCard a then withSample m.card else m.card

theorem length_withSample (file : Option (List UInt8)) :
    (contents (withSample file)).length = (contents file).length + 24 := List.length_append

theorem withSample_ne (file : Option (List UInt8)) : file ≠ withSample file := by
  intro h
  have hlen := length_withSample file
  rw [← h] at hlen
  omega

theorem onCardOrNowhere_iff (m : Media) (a : Attempt) :
    OnCardOrNowhere m a ↔ a.openOk = m.onCard a := by
  obtain ⟨t, ht, hfails, hcard, hunder⟩ := step_eq m a
  constructor
  · rintro ⟨t', ht', hunder', hcard'⟩
    cases Option.some.inj (ht.symm.trans ht')
    cases hopen : a.openOk with
    | false =>
      cases hon : m.onCard a with
      | false => rfl
      | true =>
        rw [hon, if_pos rfl, (hfails hopen).1] at hcard'
        exact absurd hcard' (withSample_ne m.card)
    | true =>
      cases hon : m.onCard a with
      | false =>
        rw [(hunder hopen hon).2] at hunder'
        exact absurd hunder'.symm (withSample_ne m.under)
      | true => rfl
  · intro hopen
    refine ⟨t, ht, ?_⟩
    cases hon : m.onCard a with
    | false =>
      rw [hon] at hopen
      rw [if_neg Bool.false_ne_true]
      exact ⟨(hfails hopen).2, (hfails hopen).1⟩
    | true =>
      rw [hon] at hopen
      rw [if_pos rfl]
      exact ⟨(hcard hopen hon).2, (hcard hopen hon).1⟩

/-! ## All runs -/

/-- A run opens the file only with the card mounted. -/
def NoStray (m : Media) (a : Attempt) : Prop := a.openOk = true → m.onCard a = true

/-- From `m` to `t` all that was written is on the card, behind what was there before, in runs of
which `k` opened the file. -/
def Recorded (m t : Media) (k : ℕ) : Prop :=
  t.under = m.under ∧ contents t.card = contents m.card ++ records (3 * k)

theorem records_add (j k : ℕ) : records (j + k) = records j ++ records k := by
  rw [records, List.replicate_add, List.flatten_append]
  rfl

theorem step_under_le {m t : Media} {a : Attempt} (h : step m a = some t) :
    (contents m.under).length ≤ (contents t.under).length ∧
      (¬ NoStray m a → (contents m.under).length < (contents t.under).length) := by
  obtain ⟨t', ht', hfails, hcard, hunder⟩ := step_eq m a
  cases Option.some.inj (h.symm.trans ht')
  have hlen := length_withSample m.under
  cases hopen : a.openOk with
  | false =>
    rw [(hfails hopen).2]
    refine ⟨Nat.le_refl _, fun hstray => absurd ?_ hstray⟩
    intro h
    rw [hopen] at h
    exact absurd h Bool.false_ne_true
  | true =>
    cases hon : m.onCard a with
    | false =>
      rw [(hunder hopen hon).2]
      exact ⟨by omega, fun _ => by omega⟩
    | true =>
      rw [(hcard hopen hon).2]
      exact ⟨Nat.le_refl _, fun hstray => absurd (fun _ => hon) hstray⟩

/-- The directory never gets its bytes back. -/
theorem exec_under_le {m t : Media} {as : List Attempt} (h : exec step m as = some t) :
    (contents m.under).length ≤ (contents t.under).length :=
  exec_invariant (fun s => (contents m.under).length ≤ (contents s.under).length)
    (fun _ _ _ hs hstep => hs.trans (step_under_le hstep).1) h (Nat.le_refl _)

theorem step_noStray {m t : Media} {a : Attempt} (h : step m a = some t) (ha : NoStray m a) :
    Recorded m t (if a.openOk then 1 else 0) := by
  obtain ⟨t', ht', hfails, hcard, -⟩ := step_eq m a
  cases Option.some.inj (h.symm.trans ht')
  cases hopen : a.openOk with
  | false =>
    obtain ⟨hc, hu⟩ := hfails hopen
    refine ⟨hu, ?_⟩
    rw [hc]
    exact (List.append_nil _).symm
  | true =>
    obtain ⟨hc, hu⟩ := hcard hopen (ha hopen)
    refine ⟨hu, ?_⟩
    rw [hc]
    rfl

theorem recorded_cons {m s t : Media} {j : ℕ} (h : Recorded m s j) (k : ℕ) :
    Recorded m t (k + j) ↔ Recorded s t k := by
  obtain ⟨hunder, hcard⟩ := h
  unfold Recorded
  rw [hunder, hcard, Nat.mul_add, Nat.add_comm, records_add, ← List.append_assoc]

/-- Nothing is written anywhere else exactly when no run opens the file without the card. -/
theorem recorded_iff {m t : Media} {as : List Attempt} (h : exec step m as = some t) :
    Recorded m t (as.countP (·.openOk)) ↔ AlongSteps step NoStray m as := by
  induction as generalizing m with
  | nil =>
    cases Option.some.inj h
    exact iff_of_true ⟨rfl, (List.append_nil _).symm⟩ trivial
  | cons a as ih =>
    obtain ⟨s, hs, h⟩ := exec_cons_inv h
    rw [alongSteps_cons hs]
    by_cases ha : NoStray m a
    · rw [List.countP_cons, recorded_cons (step_noStray hs ha), ih h]
      exact ⟨fun hrest => ⟨ha, hrest⟩, fun hboth => hboth.2⟩
    · refine iff_of_false ?_ fun hboth => ha hboth.1
      intro hrecorded
      have hless := (step_under_le hs).2 ha
      have hlater := exec_under_le h
      rw [hrecorded.1] at hlater
      omega

theorem exec_some (m : Media) (as : List Attempt) : ∃ t, exec step m as = some t := by
  induction as generalizing m with
  | nil => exact ⟨m, rfl⟩
  | cons a as ih =>
    obtain ⟨s, hs, -⟩ := step_eq m a
    obtain ⟨t, ht⟩ := ih s
    exact ⟨t, by rw [exec_cons_eq hs, ht]⟩

/-- **Every run does what it should exactly when each opens the file with the card mounted and not
without it**; the records are all on the card as soon as none opens it without the card. -/
theorem records_on_card (m : Media) (as : List Attempt) :
    (AlongSteps step OnCardOrNowhere m as ↔
      AlongSteps step (fun m a => a.openOk = m.onCard a) m as) ∧
    ∃ t, exec step m as = some t ∧
      (Recorded m t (as.countP (·.openOk)) ↔ AlongSteps step NoStray m as) := by
  obtain ⟨t, ht⟩ := exec_some m as
  exact ⟨alongSteps_congr onCardOrNowhere_iff m as, t, ht, recorded_iff ht⟩

/-- The mount fails, and the records go to the directory. -/
theorem record_not_on_card :
    ¬ ∀ (m : Media) (as : List Attempt), AlongSteps step OnCardOrNowhere m as := by
  intro h
  obtain ⟨⟨t, ht, hunder, -⟩, -⟩ := h ⟨some [], none, false⟩ [⟨false, true, true⟩]
  cases ht
  cases hunder

end LinuxAppSamp.Card
