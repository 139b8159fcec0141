import LinuxAppSamp.Processes.Signals

/-! # What `ipc-signal.c` prints

Three `SIGINT` are sent and up to three are caught; those that come while one is pending are lost. The
end of a run is therefore a word of the lines of both processes about which `catches_iff` says all.
-/

namespace LinuxAppSamp.Processes.Signals
open Execution
set_option autoImplicit false
set_option maxHeartbeats 250000

/-- The parent prints its line once. `SIGINT` is caught three times at most, twice at most behind the
first other line, and once at most behind that of the child, which stands behind that of `funcHup`. A
child that does not get so far has been killed, or has never been there. -/
def Possible (r : List Line) : Prop :=
  r.count .parentEnd = 1 ∧ r.count .intCatch ≤ 3 ∧ lateInts r ≤ 2 ∧
    ((.hupCatch ∉ r ∧ .childEnd ∉ r) ∨
      ∃ u v, r = u ++ .childEnd :: v ∧ .childEnd ∉ u ∧ .childEnd ∉ v ∧ u.count .hupCatch = 1 ∧
        .hupCatch ∉ v ∧ v.count .intCatch ≤ 1)

/-! ## Every output is possible -/

theorem possible_of_finished {s : State} (h : Sound s) (hp : s.parent = .exited)
    (hdead : alive s.child = false) :
    Possible s.out := by
  obtain ⟨hc, hstory, -⟩ := h
  have hints := hc.ints
  have hhups := hc.hups
  have hends := hc.ends
  have hlate := hstory.late (by rw [hp]; rfl)
  have htells := hstory.tells
  rw [hp] at hints hhups hends
  simp only [sentInts, sentHups, ended] at hints hhups hends
  refine ⟨hends, by omega, by omega, ?_⟩
  cases hchild : s.child with
  | absent =>
    rw [hchild] at htells
    exact Or.inl ⟨htells.hup, htells.ended⟩
  | killed =>
    rw [hchild] at htells
    exact Or.inl ⟨htells.hup, htells.ended⟩
  | exited =>
    rw [hchild] at htells
    obtain ⟨u, v, hout, hu, hv, hhup, hle⟩ := htells
    have hpos := List.count_pos_iff.mpr hhup
    rw [hout, List.count_append, List.count_cons_of_ne (by decide)] at hhups
    exact Or.inr ⟨u, v, hout, hu, hv, by omega, List.count_eq_zero.mp (by omega), by omega⟩
  | _ =>
    rw [hchild] at hdead
    cases hdead

/-! ## Every possible output occurs -/

/-- All signals have been sent and nothing but `w` is to be printed any more. -/
structure Ready (s : State) (w : List Line) : Prop where
  ints : (s.frames = [.intWrite] ∧ s.pendingInt = true ∧ w.count .intCatch = 2) ∨
    (s.frames = [] ∧ w.count .intCatch ≤ s.pendingInt.toNat)
  parent : (s.parent = .printf ∧ w.count .parentEnd = 1) ∨ (s.parent = .exited ∧ .parentEnd ∉ w)
  child : (s.child = .loop ∧ (s.pendingHup = false → s.gFin ≠ 0) ∧
      ∃ u v, w = u ++ .childEnd :: v ∧ .childEnd ∉ u ∧ .childEnd ∉ v ∧
        u.count .hupCatch = s.pendingHup.toNat ∧ .hupCatch ∉ v ∧ v.count .intCatch ≤ 1) ∨
    (s.child = .exit ∧ .hupCatch ∉ w ∧ .childEnd ∉ w) ∨
    (s.child = .signalHup ∧ s.pendingHup = true ∧ .hupCatch ∉ w ∧ .childEnd ∉ w)

/-- From `s`, the program can print `w` and come to its end. -/
def CanPrint (s : State) (w : List Line) : Prop :=
  ∃ as t, exec step s as = some t ∧ t.parent = .exited ∧ alive t.child = false ∧ t.out = s.out ++ w

theorem CanPrint.of_run {s t : State} {l : Line} {w : List Line} {as : List Act} (h : exec step s as = some t)
    (hout : t.out = s.out ++ [l]) (ht : CanPrint t w) : CanPrint s (l :: w) := by
  obtain ⟨bs, u, hrun, hp, hdead, hu⟩ := ht
  refine ⟨as ++ bs, u, by rw [exec_append, h, Option.bind_some, hrun], hp, hdead, ?_⟩
  rw [hu, hout, List.append_assoc]
  rfl

/-- What is said of the child stands when another line is printed. -/
theorem ready_child {s t : State} {l : Line} {w : List Line} (h : Ready s (l :: w)) (hhup : l ≠ .hupCatch)
    (hend : l ≠ .childEnd) (hc : t.child = s.child) (hp : t.pendingHup = s.pendingHup) (hf : t.gFin = s.gFin) :
    (t.child = .loop ∧ (t.pendingHup = false → t.gFin ≠ 0) ∧
      ∃ u v, w = u ++ .childEnd :: v ∧ .childEnd ∉ u ∧ .childEnd ∉ v ∧
        u.count .hupCatch = t.pendingHup.toNat ∧ .hupCatch ∉ v ∧ v.count .intCatch ≤ 1) ∨
    (t.child = .exit ∧ .hupCatch ∉ w ∧ .childEnd ∉ w) ∨
    (t.child = .signalHup ∧ t.pendingHup = true ∧ .hupCatch ∉ w ∧ .childEnd ∉ w) := by
  rw [hc, hp, hf]
  obtain ⟨hloop, hfin, u, v, hw, hu, hv, hcount, hnone, hle⟩ | ⟨hexit, hnone, hnot⟩ |
      ⟨hsig, hpend, hnone, hnot⟩ :=
    h.child
  · cases u with
    | nil =>
      rw [List.nil_append, List.cons.injEq] at hw
      exact absurd hw.1 hend
    | cons x u =>
      rw [List.cons_append, List.cons.injEq] at hw
      obtain ⟨rfl, rfl⟩ := hw
      rw [List.count_cons_of_ne hhup] at hcount
      exact Or.inl ⟨hloop, hfin, u, v, rfl, fun hmem => hu (List.mem_cons_of_mem _ hmem), hv, hcount,
        hnone, hle⟩
  · exact Or.inr (Or.inl ⟨hexit, fun hmem => hnone (List.mem_cons_of_mem _ hmem),
      fun hmem => hnot (List.mem_cons_of_mem _ hmem)⟩)
  · exact Or.inr (Or.inr ⟨hsig, hpend, fun hmem => hnone (List.mem_cons_of_mem _ hmem),
      fun hmem => hnot (List.mem_cons_of_mem _ hmem)⟩)

theorem ready_parent {s t : State} {l : Line} {w : List Line} (h : Ready s (l :: w)) (hl : l ≠ .parentEnd)
    (hp : t.parent = s.parent) :
    (t.parent = .printf ∧ w.count .parentEnd = 1) ∨ (t.parent = .exited ∧ .parentEnd ∉ w) := by
  rw [hp]
  obtain ⟨hprintf, hcount⟩ | ⟨hexited, hnot⟩ := h.parent
  · rw [List.count_cons_of_ne hl] at hcount
    exact Or.inl ⟨hprintf, hcount⟩
  · exact Or.inr ⟨hexited, fun hmem => hnot (List.mem_cons_of_mem _ hmem)⟩

theorem ready_ints {s t : State} {l : Line} {w : List Line} (h : Ready s (l :: w)) (hl : l ≠ .intCatch)
    (hf : t.frames = s.frames) (hp : t.pendingInt = s.pendingInt) :
    (t.frames = [.intWrite] ∧ t.pendingInt = true ∧ w.count .intCatch = 2) ∨
      (t.frames = [] ∧ w.count .intCatch ≤ t.pendingInt.toNat) := by
  rw [hf, hp]
  have hints := h.ints
  rw [List.count_cons_of_ne hl] at hints
  exact hints

theorem alive_of_ready {s : State} {w : List Line} (h : Ready s w) : alive s.child = true := by
  obtain ⟨hc, -⟩ | ⟨hc, -⟩ | ⟨hc, -⟩ := h.child <;> rw [hc] <;> rfl

theorem installed_of_ready {s : State} {w : List Line} (h : Ready s w) : installed .int s.child = true := by
  obtain ⟨hc, -⟩ | ⟨hc, -⟩ | ⟨hc, -⟩ := h.child <;> rw [hc] <;> rfl

/-- A signal is delivered to a handler that is there and does not run. -/
theorem deliver_eq {s : State} (signal : Signal) (hp : s.pending signal = true) (ha : alive s.child = true)
    (hf : ∀ f ∈ s.frames, f.signal ≠ signal) (hi : installed signal s.child = true) :
    step s (.deliver signal) =
      some { s.setPending false signal with frames := handlerOf signal :: s.frames } := by
  have hcond : (s.pending signal && alive s.child && s.frames.all fun f => f.signal ≠ signal) = true := by
    simp only [Bool.and_eq_true, List.all_eq_true, decide_eq_true_eq]
    exact ⟨⟨hp, ha⟩, hf⟩
  exact (if_pos hcond).trans (if_pos hi)

/-- `funcInt` that has been entered runs to its end. -/
theorem exec_funcInt {s : State} {rest : List Frame} (hf : s.frames = .intWrite :: rest) :
    exec step s [.child, .child] = some { s with frames := rest, out := s.out ++ [.intCatch] } := by
  have hfirst : step s .child = some { s with frames := .intReturn :: rest, out := s.out ++ [.intCatch] } := by
    show childStep s = _
    unfold childStep
    rw [hf]
    rfl
  rw [exec_cons_eq hfirst]
  rfl

theorem exec_funcHup {s : State} {rest : List Frame} (hf : s.frames = .hupWrite :: rest) :
    exec step s [.child, .child, .child] =
      some { s with frames := rest, gFin := 1, out := s.out ++ [.hupCatch] } := by
  have hfirst : step s .child = some { s with frames := .hupSet :: rest, out := s.out ++ [.hupCatch] } := by
    show childStep s = _
    unfold childStep
    rw [hf]
    rfl
  rw [exec_cons_eq hfirst]
  rfl

/-- `SIGINT` is caught: by the handler that has been entered, or after its delivery. -/
theorem print_int {s : State} {w : List Line} (h : Ready s (.intCatch :: w)) :
    ∃ as t, exec step s as = some t ∧ t.out = s.out ++ [.intCatch] ∧ Ready t w := by
  obtain ⟨hf, hpend, hcount⟩ | ⟨hf, hcount⟩ := h.ints
  · rw [List.count_cons_self] at hcount
    refine ⟨_, _, exec_funcInt hf, rfl, Or.inr ⟨rfl, ?_⟩, ready_parent h (by decide) rfl,
      ready_child h (by decide) (by decide) rfl rfl rfl⟩
    show w.count .intCatch ≤ s.pendingInt.toNat
    rw [hpend, Bool.toNat_true]
    omega
  · rw [List.count_cons_self] at hcount
    have hpend : s.pendingInt = true := by
      cases hp : s.pendingInt with
      | false =>
        rw [hp, Bool.toNat_false] at hcount
        omega
      | true => rfl
    have hdeliver := deliver_eq .int hpend (alive_of_ready h) (by simp [hf]) (installed_of_ready h)
    refine ⟨.deliver .int :: [.child, .child], _, (exec_cons_eq hdeliver _).trans (exec_funcInt rfl), rfl,
      Or.inr ⟨hf, ?_⟩, ready_parent h (by decide) rfl, ready_child h (by decide) (by decide) rfl rfl rfl⟩
    rw [hpend, Bool.toNat_true] at hcount
    omega

theorem print_hup {s : State} {w : List Line} (h : Ready s (.hupCatch :: w)) :
    ∃ as t, exec step s as = some t ∧ t.out = s.out ++ [.hupCatch] ∧ Ready t w := by
  obtain ⟨hloop, hfin, u, v, hw, hu, hv, hcount, hnone, hle⟩ | ⟨-, hnone, -⟩ | ⟨-, -, hnone, -⟩ := h.child
  · cases u with
    | nil =>
      rw [List.nil_append, List.cons.injEq] at hw
      cases hw.1
    | cons x u =>
      rw [List.cons_append, List.cons.injEq] at hw
      obtain ⟨rfl, rfl⟩ := hw
      rw [List.count_cons_self] at hcount
      have hpend : s.pendingHup = true := by
        cases hp : s.pendingHup with
        | false =>
          rw [hp, Bool.toNat_false] at hcount
          omega
        | true => rfl
      rw [hpend, Bool.toNat_true] at hcount
      have hframes : ∀ f ∈ s.frames, f.signal ≠ .hup := by
        obtain ⟨hf, -⟩ | ⟨hf, -⟩ := h.ints <;> simp [hf, Frame.signal]
      have hdeliver := deliver_eq .hup hpend (alive_of_ready h) hframes (by rw [hloop]; rfl)
      refine ⟨.deliver .hup :: [.child, .child, .child], _,
        (exec_cons_eq hdeliver _).trans (exec_funcHup rfl), rfl, ready_ints h (by decide) rfl rfl,
        ready_parent h (by decide) rfl, Or.inl ⟨hloop, fun _ => one_ne_zero, ?_⟩⟩
      refine ⟨u, v, rfl, fun hmem => hu (List.mem_cons_of_mem _ hmem), hv, ?_, hnone, hle⟩
      show u.count .hupCatch = 0
      omega
  · exact absurd List.mem_cons_self hnone
  · exact absurd List.mem_cons_self hnone

theorem print_parentEnd {s : State} {w : List Line} (h : Ready s (.parentEnd :: w)) :
    ∃ as t, exec step s as = some t ∧ t.out = s.out ++ [.parentEnd] ∧ Ready t w := by
  obtain ⟨hprintf, hcount⟩ | ⟨-, hnot⟩ := h.parent
  · have hstep : step s .parent = some { s with parent := .exited, out := s.out ++ [.parentEnd] } := by
      show parentStep s = _
      unfold parentStep
      rw [hprintf]
    rw [List.count_cons_self] at hcount
    exact ⟨[.parent], _, exec_cons_eq hstep [], rfl, ready_ints h (by decide) rfl rfl,
      Or.inr ⟨rfl, List.count_eq_zero.mp (by omega)⟩, ready_child h (by decide) (by decide) rfl rfl rfl⟩
  · exact absurd List.mem_cons_self hnot

/-- The child prints its line when `SIGHUP` has been caught and no handler runs. -/
theorem print_childEnd {s : State} {w : List Line} (h : Ready s (.childEnd :: w)) :
    ∃ as t, exec step s as = some t ∧ t.out = s.out ++ [.childEnd] ∧ Ready t w := by
  obtain ⟨hloop, hfin, u, v, hw, hu, hv, hcount, hnone, hle⟩ | ⟨-, -, hnot⟩ | ⟨-, -, -, hnot⟩ := h.child
  · cases u with
    | cons x u =>
      rw [List.cons_append, List.cons.injEq] at hw
      obtain ⟨rfl, -⟩ := hw
      exact absurd List.mem_cons_self hu
    | nil =>
      obtain ⟨-, rfl⟩ := List.cons.inj hw
      have hpend : s.pendingHup = false := by
        cases hp : s.pendingHup with
        | true =>
          rw [hp] at hcount
          cases hcount
        | false => rfl
      have hf : s.frames = [] := by
        obtain ⟨-, -, htwo⟩ | ⟨hf, -⟩ := h.ints
        · rw [List.count_cons_of_ne (by decide)] at htwo
          omega
        · exact hf
      have hleaves : step s .child = some { s with child := .printf } := by
        show childStep s = _
        unfold childStep
        rw [hf, hloop]
        exact if_neg (hfin hpend)
      have hprints : step { s with child := .printf } .child =
          some { s with child := .exit, out := s.out ++ [.childEnd] } := by
        show childStep _ = _
        unfold childStep
        rw [hf]
      exact ⟨[.child, .child], _, (exec_cons_eq hleaves _).trans (exec_cons_eq hprints []), rfl,
        ready_ints h (by decide) rfl rfl, ready_parent h (by decide) rfl, Or.inr (Or.inl ⟨rfl, hnone, hv⟩)⟩
  · exact absurd List.mem_cons_self hnot
  · exact absurd List.mem_cons_self hnot

/-- Nothing is left to be printed: the child exits, or `SIGHUP` finds no handler. -/
theorem ends_of_ready {s : State} (h : Ready s []) : CanPrint s [] := by
  have hexited : s.parent = .exited := by
    obtain ⟨-, hcount⟩ | ⟨hexited, -⟩ := h.parent
    · cases hcount
    · exact hexited
  have hf : s.frames = [] := by
    obtain ⟨-, -, htwo⟩ | ⟨hf, -⟩ := h.ints
    · cases htwo
    · exact hf
  obtain ⟨-, -, u, v, hw, -⟩ | ⟨hexit, -⟩ | ⟨hsig, hpend, -⟩ := h.child
  · cases u <;> cases hw
  · have hstep : step s .child = some { s with child := .exited } := by
      show childStep s = _
      unfold childStep
      rw [hf, hexit]
    exact ⟨[.child], _, exec_cons_eq hstep [], hexited, rfl, (List.append_nil _).symm⟩
  · have hcond : (s.pending .hup && alive s.child && s.frames.all fun f => f.signal ≠ .hup) = true := by
      have hpending : s.pending .hup = true := hpend
      rw [hpending, hsig, hf]
      rfl
    have hdies : step s (.deliver .hup) =
        some { s.setPending false .hup with child := .killed, frames := [] } := by
      refine (if_pos hcond).trans (if_neg ?_)
      rw [hsig]
      decide
    exact ⟨[.deliver .hup], _, exec_cons_eq hdies [], hexited, rfl, (List.append_nil _).symm⟩

theorem canPrint_of_ready {s : State} {w : List Line} (h : Ready s w) : CanPrint s w := by
  induction w generalizing s with
  | nil => exact ends_of_ready h
  | cons l w ih =>
    have hprints : ∃ as t, exec step s as = some t ∧ t.out = s.out ++ [l] ∧ Ready t w := by
      cases l with
      | intCatch => exact print_int h
      | hupCatch => exact print_hup h
      | childEnd => exact print_childEnd h
      | parentEnd => exact print_parentEnd h
    obtain ⟨as, t, hrun, hout, ht⟩ := hprints
    exact CanPrint.of_run hrun hout (ih ht)

/-! ## The beginning -/

/-- The run in which `a` signals are caught at once, and `b` wait when all have been sent; `complete`
is whether the child has got to its loop by then. -/
def setup (complete : Bool) (a b : ℕ) : List Act :=
  [.parent, .child] ++ (if complete then [.child] else []) ++
    (List.replicate a [Act.parent, .deliver .int, .child, .child]).flatten ++
    (if b = 2 then [.parent, .deliver .int] ++ List.replicate (2 - a) .parent
      else List.replicate (3 - a) .parent) ++
    [.parent]

def afterSetup (complete : Bool) (a b : ℕ) : State where
  parent := .printf
  child := if complete then .loop else .signalHup
  frames := if b = 2 then [.intWrite] else []
  pendingInt := a < 3
  pendingHup := true
  gFin := 0
  everyone := []
  out := List.replicate a .intCatch

theorem exec_setup (complete : Bool) : ∀ a < 4, ∀ b < 3, a + b ≤ 3 →
    exec step init (setup complete a b) = some (afterSetup complete a b) := by
  cases complete <;> decide

theorem takeWhile_ints (r : List Line) :
    r.takeWhile (· == .intCatch) = List.replicate (r.takeWhile (· == .intCatch)).length .intCatch :=
  List.eq_replicate_of_mem fun l hl => by simpa using List.mem_takeWhile_imp hl

theorem notMem_dropWhile {r : List Line} {l : Line} (h : l ∉ r) : l ∉ r.dropWhile (· == .intCatch) :=
  fun hmem => h ((List.dropWhile_suffix _).subset hmem)

theorem count_dropWhile {r : List Line} {l : Line} (h : l ≠ .intCatch) :
    (r.dropWhile (· == .intCatch)).count l = r.count l := by
  have hsplit := congrArg (List.count l) (List.takeWhile_append_dropWhile (p := (· == .intCatch)) (l := r))
  rw [List.count_append, takeWhile_ints, List.count_replicate, if_neg (by simpa using Ne.symm h)] at hsplit
  omega

theorem ready_setup {complete : Bool} {a : ℕ} {w : List Line} (hparent : w.count .parentEnd = 1)
    (hle : a + w.count .intCatch ≤ 3) (htwo : w.count .intCatch ≤ 2)
    (hchild : if complete then ∃ u v, w = u ++ .childEnd :: v ∧ .childEnd ∉ u ∧ .childEnd ∉ v ∧
        u.count .hupCatch = 1 ∧ .hupCatch ∉ v ∧ v.count .intCatch ≤ 1
      else .hupCatch ∉ w ∧ .childEnd ∉ w) :
    Ready (afterSetup complete a (w.count .intCatch)) w := by
  refine ⟨?_, Or.inl ⟨rfl, hparent⟩, ?_⟩
  · by_cases hb : w.count .intCatch = 2
    · have hless : a < 3 := by omega
      exact Or.inl ⟨if_pos hb, decide_eq_true hless, hb⟩
    · refine Or.inr ⟨if_neg hb, ?_⟩
      show w.count .intCatch ≤ (decide (a < 3)).toNat
      by_cases hless : a < 3
      · rw [decide_eq_true hless, Bool.toNat_true]
        omega
      · omega
  · cases complete with
    | true => exact Or.inl ⟨rfl, (fun h => by cases h), hchild⟩
    | false => exact Or.inr (Or.inr ⟨rfl, rfl, hchild⟩)

/-! ## The outputs -/

/-- The handlers write the NUL of their `buf` too. -/
theorem count_nul (r : List Line) :
    (r.flatMap Line.bytes).count 0 = r.count .intCatch + r.count .hupCatch := by
  induction r with
  | nil => rfl
  | cons l r ih =>
    rw [List.flatMap_cons, List.count_append, ih]
    cases l with
    | intCatch =>
      have hone : (Line.bytes .intCatch).count 0 = 1 := by decide
      rw [List.count_cons_self, List.count_cons_of_ne (by decide), hone]
      omega
    | hupCatch =>
      have hone : (Line.bytes .hupCatch).count 0 = 1 := by decide
      rw [List.count_cons_self, List.count_cons_of_ne (by decide), hone]
      omega
    | childEnd =>
      have hnone : (Line.bytes .childEnd).count 0 = 0 := by decide
      rw [List.count_cons_of_ne (by decide), List.count_cons_of_ne (by decide), hnone, Nat.zero_add]
    | parentEnd =>
      have hnone : (Line.bytes .parentEnd).count 0 = 0 := by decide
      rw [List.count_cons_of_ne (by decide), List.count_cons_of_ne (by decide), hnone, Nat.zero_add]

theorem count_hup_le {r : List Line} (h : Possible r) : r.count .hupCatch ≤ 1 := by
  obtain ⟨-, -, -, ⟨hnone, -⟩ | ⟨u, v, rfl, -, -, hone, hnone, -⟩⟩ := h
  · rw [List.count_eq_zero.mpr hnone]
    exact Nat.zero_le 1
  · rw [List.count_append, List.count_cons_of_ne (by decide), hone, List.count_eq_zero.mpr hnone]

/-- **The outputs of `ipc-signal.c`**, each of them and no other; their bytes hold a NUL for each catch. -/
theorem catches_iff (r : List Line) :
    ((∃ as s, exec step init as = some s ∧ s.parent = .exited ∧ alive s.child = false ∧ s.out = r) ↔
      Possible r) ∧
    (Possible r → (r.flatMap Line.bytes).count 0 = r.count .intCatch + r.count .hupCatch ∧
      (r.flatMap Line.bytes).count 0 ≤ 4) := by
  refine ⟨⟨?_, ?_⟩, fun h => ?_⟩
  · rintro ⟨as, s, hrun, hp, hdead, rfl⟩
    exact possible_of_finished (sound_run hrun) hp hdead
  · rintro ⟨hparent, hints, hlate, hchild⟩
    have hsplit := List.takeWhile_append_dropWhile (p := (· == Line.intCatch)) (l := r)
    rw [takeWhile_ints] at hsplit
    rw [lateInts] at hlate
    have hcount := congrArg (List.count Line.intCatch) hsplit
    rw [List.count_append, List.count_replicate_self] at hcount
    have hlater : ∃ complete : Bool, if complete then
        ∃ u v, r.dropWhile (· == .intCatch) = u ++ .childEnd :: v ∧ .childEnd ∉ u ∧ .childEnd ∉ v ∧
          u.count .hupCatch = 1 ∧ .hupCatch ∉ v ∧ v.count .intCatch ≤ 1
        else .hupCatch ∉ r.dropWhile (· == .intCatch) ∧ .childEnd ∉ r.dropWhile (· == .intCatch) := by
      obtain ⟨hnone, hnot⟩ | ⟨u, v, rfl, hu, hv, hone, hnone, hle⟩ := hchild
      · exact ⟨false, notMem_dropWhile hnone, notMem_dropWhile hnot⟩
      · refine ⟨true, u.dropWhile (· == .intCatch), v, ?_, notMem_dropWhile hu, hv, ?_, hnone, hle⟩
        · have hopen : (u.dropWhile (· == .intCatch)).isEmpty = false := by
            rw [Bool.eq_false_iff]
            intro hempty
            have hcaught := count_dropWhile (r := u) (l := .hupCatch) (by decide)
            rw [List.isEmpty_iff.mp hempty, hone] at hcaught
            cases hcaught
          rw [List.dropWhile_append, hopen]
          rfl
        · rw [count_dropWhile (by decide), hone]
    obtain ⟨complete, hlater⟩ := hlater
    obtain ⟨as, s, hrun, hp, hdead, hout⟩ := canPrint_of_ready
      (ready_setup (a := (r.takeWhile (· == .intCatch)).length) (by rw [count_dropWhile (by decide), hparent])
        (by omega) hlate hlater)
    have hstart := exec_setup complete (r.takeWhile (· == .intCatch)).length (by omega)
      ((r.dropWhile (· == .intCatch)).count .intCatch) (by omega) (by omega)
    exact ⟨_, s, by rw [exec_append, hstart, Option.bind_some, hrun], hp, hdead, hout.trans hsplit⟩
  · have hnul := count_nul r
    have hints := h.2.1
    have hhups := count_hup_le h
    exact ⟨hnul, by omega⟩

/-- Every signal is caught before anyone prints its line. -/
def allCaught : List Line := [.intCatch, .intCatch, .intCatch, .hupCatch, .childEnd, .parentEnd]

theorem catches_iff_allCaught :
    (∃ as s, exec step init as = some s ∧ s.parent = .exited ∧ alive s.child = false ∧
      s.out = allCaught) ∧ (allCaught.flatMap Line.bytes).count 0 = 4 := by
  have hpossible : Possible allCaught := by
    refine ⟨by decide, by decide, by decide, Or.inr ⟨[.intCatch, .intCatch, .intCatch, .hupCatch],
      [.parentEnd], rfl, ?_⟩⟩
    decide
  exact ⟨(catches_iff allCaught).1.mpr hpossible, ((catches_iff allCaught).2 hpossible).1⟩

end LinuxAppSamp.Processes.Signals
