import LinuxAppSamp.Foundations.Family

/-! # Two children: `proc_fork.c`

Each of the two children prints its line a number of times, and the parent prints "main" after two
calls of `wait`. `lines_merged_iff` says which outputs the program has, forks that fail included.
-/

namespace LinuxAppSamp.Processes
open Execution
set_option autoImplicit false
set_option maxHeartbeats 250000

/-! ## The program -/

inductive Line
  | child1 | child2 | main
  deriving DecidableEq, Repr

def Line.text : Line → String
  | .child1 => "child 1\n"
  | .child2 => "child 2\n"
  | .main => "main\n"

/-- `child line i` is the test of the loop of a child that prints `line`, `print` the last call of
`main`. -/
inductive Point
  | child (line : Line) (i : ℕ)
  | print
  | exited
  deriving DecidableEq, Repr

/-- The turns of the loops. -/
def turns : ℕ := 3

def procOne : Point := .child .child1 0

def procTwo : Point := .child .child2 0

def next (n : ℕ) (_ : Unit) : Point → Unit → Option (Point × Unit × List Line)
  | .child line i, m => if i < n then some (.child line (i + 1), m, [line]) else some (.exited, m, [])
  | .print, m => some (.exited, m, [.main])
  | .exited, _ => none

def ended : Point → Bool
  | .exited => true
  | _ => false

def program (n : ℕ) : Family Unit Point Unit Line where
  starts := [procOne, procTwo]
  after := .print
  next := next n
  ended := ended
  dead := by
    rintro - (_ | _ | _) - h
    · cases h
    · cases h
    · rfl

theorem next_turn {n i : ℕ} (line : Line) (h : i < n) :
    next n () (.child line i) () = some (.child line (i + 1), (), [line]) := if_pos h

theorem next_exit {n i : ℕ} (line : Line) (h : ¬ i < n) :
    next n () (.child line i) () = some (.exited, (), []) := if_neg h

def init : FamilyState Point Unit Line := Family.atStart ()

/-! ## What holds in every run -/

/-- The line of a child. -/
def lineOf : ℕ → Line
  | 0 => .child1
  | _ => .child2

/-- What a process has printed when it has come to a point. -/
def Knows (n : ℕ) : Option ℕ → Unit → Point → List Line → Prop
  | some k, _, .child line i, o => line = lineOf k ∧ i ≤ n ∧ o = List.replicate i (lineOf k)
  | some k, _, .exited, o => o = List.replicate n (lineOf k)
  | none, _, .print, o => o = []
  | none, _, .exited, o => o = [.main]
  | _, _, _, _ => False

def pointRank (n : ℕ) : Point → ℕ
  | .child _ i => n - i + 1
  | .print => 1
  | .exited => 0

theorem terminating (n : ℕ) : Family.Terminating (program n) (fun _ => True) (Knows n) (pointRank n) where
  start := by
    intro k p m hp _
    match k with
    | 0 =>
      cases Option.some.inj hp
      exact ⟨rfl, Nat.zero_le n, rfl⟩
    | 1 =>
      cases Option.some.inj hp
      exact ⟨rfl, Nat.zero_le n, rfl⟩
    | k + 2 => cases hp
  after := fun _ _ => rfl
  own := by
    intro w _ p m p' m' lines o _ hI hnext
    refine ⟨trivial, ?_⟩
    have hnext : next n () p m = some (p', m', lines) := hnext
    cases p with
    | child line i =>
      cases w with
      | none => exact hI.elim
      | some k =>
        obtain ⟨rfl, hin, rfl⟩ := hI
        by_cases hlt : i < n
        · cases (next_turn _ hlt).symm.trans hnext
          exact ⟨rfl, hlt, List.replicate_succ'.symm⟩
        · cases (next_exit _ hlt).symm.trans hnext
          have hi : i = n := by omega
          rw [hi, List.append_nil]
          rfl
    | print =>
      cases w with
      | some k => exact hI.elim
      | none =>
        cases hnext
        have ho : o = [] := hI
        rw [ho]
        rfl
    | exited => cases hnext
  other := fun _ _ _ _ _ _ _ _ _ _ _ _ _ _ _ hI => hI
  ranks := by
    intro w _ p m p' m' lines o _ _ hnext
    have hnext : next n () p m = some (p', m', lines) := hnext
    cases p with
    | child line i =>
      by_cases hlt : i < n
      · cases (next_turn line hlt).symm.trans hnext
        simp only [pointRank]
        omega
      · cases (next_exit line hlt).symm.trans hnext
        simp only [pointRank]
        omega
    | print =>
      cases hnext
      exact Nat.le_refl 1
    | exited => cases hnext
  calls := by
    intro _ p m _ _ _ hend
    refine ⟨(), ?_⟩
    show ∃ r, next n () p m = some r
    cases p with
    | child line i =>
      by_cases hlt : i < n
      · exact ⟨_, next_turn line hlt⟩
      · exact ⟨_, next_exit line hlt⟩
    | print => exact ⟨_, rfl⟩
    | exited => cases hend

theorem printed_child {n : ℕ} {s : FamilyState Point Unit Line}
    (hs : Family.Each (program n) (fun _ => True) (Knows n) s) (hfin : Family.Finished (program n) s)
    (k : ℕ) : ∃ forked : Bool, Family.printed (some k) s.out =
      if forked then List.replicate n (lineOf k) else [] := by
  obtain ⟨p, hp, -⟩ := hfin
  by_cases hk : ∃ q, s.children[k]? = some (some q)
  · obtain ⟨q, hq⟩ := hk
    have hend := hs.toSane.ended hp hq
    have hknows := hs.child k q hq
    cases q with
    | child line i => cases hend
    | print => cases hend
    | exited => exact ⟨true, hknows⟩
  · exact ⟨false, hs.toSane.absent fun q hq => hk ⟨q, hq⟩⟩

/-! ## Every output -/

/-- A child that is there, with the turns it has taken. -/
def asChild (c : Option (Line × ℕ)) : Option Point := c.map fun x => .child x.1 x.2

/-- What the child has still to print. -/
def rest (n : ℕ) : Option (Line × ℕ) → List Line
  | none => []
  | some (line, i) => List.replicate (n - i) line

def waiting (c1 c2 : Option Point) (o : List (Option ℕ × Line)) : FamilyState Point Unit Line :=
  ⟨.wait 0, [c1, c2], 0, (), o⟩

theorem rest_cons {n : ℕ} {c : Option (Line × ℕ)} {a : Line} {l : List Line} (h : rest n c = a :: l) :
    ∃ i, c = some (a, i) ∧ i < n ∧ rest n (some (a, i + 1)) = l := by
  cases c with
  | none => cases h
  | some x =>
    obtain ⟨line, i⟩ := x
    have h : List.replicate (n - i) line = a :: l := h
    have hlt : i < n := by
      by_contra hle
      rw [Nat.sub_eq_zero_of_le (Nat.le_of_not_lt hle)] at h
      cases h
    rw [show n - i = n - (i + 1) + 1 by omega, List.replicate_succ] at h
    obtain ⟨rfl, hl⟩ := List.cons.inj h
    exact ⟨i, rfl, hlt, hl⟩

theorem step_child1 {n : ℕ} {p p' : Point} {lines : List Line} (c2 : Option Point)
    (o : List (Option ℕ × Line)) (h : next n () p () = some (p', (), lines)) :
    (program n).step (waiting (some p) c2 o) (.child 0 ()) =
      some (waiting (some p') c2 (o ++ lines.map (Prod.mk (some 0)))) := by
  show (next n () p ()).map _ = _
  rw [h]
  rfl

theorem step_child2 {n : ℕ} {p p' : Point} {lines : List Line} (c1 : Option Point)
    (o : List (Option ℕ × Line)) (h : next n () p () = some (p', (), lines)) :
    (program n).step (waiting c1 (some p) o) (.child 1 ()) =
      some (waiting c1 (some p') (o ++ lines.map (Prod.mk (some 1)))) := by
  show (next n () p ()).map _ = _
  rw [h]
  rfl

/-- The children print in the order of the merged list; the induction is on the merge. -/
theorem reaches_lines {n : ℕ} {as bs r : List Line} (h : Merged as bs r) :
    ∀ (c1 c2 : Option (Line × ℕ)) (o : List (Option ℕ × Line)), rest n c1 = as → rest n c2 = bs →
      ∃ run c1' c2' o', exec (program n).step (waiting (asChild c1) (asChild c2) o) run =
          some (waiting (asChild c1') (asChild c2') o') ∧
        rest n c1' = [] ∧ rest n c2' = [] ∧ o'.map Prod.snd = o.map Prod.snd ++ r := by
  induction h with
  | nil => exact fun c1 c2 o h1 h2 => ⟨[], c1, c2, o, rfl, h1, h2, (List.append_nil _).symm⟩
  | @left a as bs r _ ih =>
    intro c1 c2 o h1 h2
    obtain ⟨i, rfl, hi, h1⟩ := rest_cons h1
    obtain ⟨run, c1', c2', o', hrun, h1', h2', ho⟩ := ih (some (a, i + 1)) c2 (o ++ [(some 0, a)]) h1 h2
    have hstep := step_child1 (asChild c2) o (next_turn a hi)
    refine ⟨.child 0 () :: run, c1', c2', o', (exec_cons_eq hstep run).trans hrun, h1', h2', ?_⟩
    rw [ho, List.map_append, List.append_assoc]
    rfl
  | @right b as bs r _ ih =>
    intro c1 c2 o h1 h2
    obtain ⟨i, rfl, hi, h2⟩ := rest_cons h2
    obtain ⟨run, c1', c2', o', hrun, h1', h2', ho⟩ := ih c1 (some (b, i + 1)) (o ++ [(some 1, b)]) h1 h2
    have hstep := step_child2 (asChild c1) o (next_turn b hi)
    refine ⟨.child 1 () :: run, c1', c2', o', (exec_cons_eq hstep run).trans hrun, h1', h2', ?_⟩
    rw [ho, List.map_append, List.append_assoc]
    rfl

/-- A child that has nothing to print any more, gone. -/
def left (c : Option (Line × ℕ)) : Option Point := c.map fun _ => .exited

theorem not_lt_of_rest {n i : ℕ} {line : Line} (h : rest n (some (line, i)) = []) : ¬ i < n := by
  have hzero : n - i = 0 := by simpa [rest] using h
  omega

theorem reaches_left {n : ℕ} {c1 c2 : Option (Line × ℕ)} (o : List (Option ℕ × Line))
    (h1 : rest n c1 = []) (h2 : rest n c2 = []) :
    ∃ run, exec (program n).step (waiting (asChild c1) (asChild c2) o) run =
      some (waiting (left c1) (left c2) o) := by
  have hfirst : ∃ run, exec (program n).step (waiting (asChild c1) (asChild c2) o) run =
      some (waiting (left c1) (asChild c2) o) := by
    cases c1 with
    | none => exact ⟨[], rfl⟩
    | some x =>
      have hstep := step_child1 (asChild c2) o (next_exit x.1 (not_lt_of_rest h1))
      rw [List.map_nil, List.append_nil] at hstep
      exact ⟨[.child 0 ()], exec_cons_eq hstep []⟩
  have hsecond : ∃ run, exec (program n).step (waiting (left c1) (asChild c2) o) run =
      some (waiting (left c1) (left c2) o) := by
    cases c2 with
    | none => exact ⟨[], rfl⟩
    | some x =>
      have hstep := step_child2 (left c1) o (next_exit x.1 (not_lt_of_rest h2))
      rw [List.map_nil, List.append_nil] at hstep
      exact ⟨[.child 1 ()], exec_cons_eq hstep []⟩
  obtain ⟨run, hrun⟩ := hfirst
  obtain ⟨run', hrun'⟩ := hsecond
  exact ⟨run ++ run', by rw [exec_append, hrun, Option.bind_some, hrun']⟩

def returned (c1 c2 : Option Point) (o : List (Option ℕ × Line)) : FamilyState Point Unit Line :=
  ⟨.alone .exited, [c1, c2], Family.present c1 + Family.present c2, (), o ++ [(none, .main)]⟩

theorem exec_main (n : ℕ) (c1 c2 : Option (Line × ℕ)) (o : List (Option ℕ × Line)) :
    exec (program n).step (waiting (left c1) (left c2) o) (List.replicate 4 (.parent ())) =
      some (returned (left c1) (left c2) o) := by
  cases c1 <;> cases c2 <;> rfl

def forks (forked1 forked2 : Bool) : List (FamilyAct Unit) :=
  [if forked1 then .parent () else .forkFails, if forked2 then .parent () else .forkFails, .parent ()]

theorem exec_forks (n : ℕ) (forked1 forked2 : Bool) :
    exec (program n).step init (forks forked1 forked2) =
      some (waiting (asChild (if forked1 then some (.child1, 0) else none))
        (asChild (if forked2 then some (.child2, 0) else none)) []) := by
  cases forked1 <;> cases forked2 <;> rfl

theorem rest_start (n : ℕ) (forked : Bool) (line : Line) :
    rest n (if forked then some (line, 0) else none) =
      if forked then List.replicate n line else [] := by
  cases forked <;> rfl

/-- **The children's lines are merged, and "main" comes last.** The outputs are the merges of the
lines of those children whose fork did not fail, each followed by the line of the parent; and every
run comes to its end. -/
theorem lines_merged_iff (n : ℕ) :
    (∀ as s, exec (program n).step init as = some s → as.length ≤ 2 * n + 9 ∧
      ∃ bs t, exec (program n).step s bs = some t ∧ Family.Finished (program n) t) ∧
    ∀ o : List String,
      (∃ as s, exec (program n).step init as = some s ∧ Family.Finished (program n) s ∧
        s.out.map (fun e => e.2.text) = o) ↔
      ∃ forked1 forked2 : Bool, ∃ r ∈ merges (if forked1 then List.replicate n Line.child1 else [])
          (if forked2 then List.replicate n Line.child2 else []),
        o = (r ++ [Line.main]).map Line.text := by
  refine ⟨fun as s h => ?_, fun o => ⟨?_, ?_⟩⟩
  · have hs := (terminating n).toLocal.run h trivial
    have hinit := (terminating n).toLocal.each_start (m := ()) trivial
    have hlength := (terminating n).progresses.length_le h (fun _ _ => trivial) hinit
    rw [tally_const (fun _ => 0) 0 as fun _ _ => rfl] at hlength
    obtain ⟨bs, t, -, hrun, ht⟩ := (terminating n).progresses.reaches_final hs
    have hrank : Family.familyRank (program n) (pointRank n) init =
        2 * 2 + 2 - 0 + (n - 0 + 1 + (n - 0 + 1 + 0)) + 1 + 0 := rfl
    exact ⟨by omega, bs, t, hrun, ht⟩
  · rintro ⟨as, s, h, hfin, rfl⟩
    have hs := (terminating n).toLocal.run h trivial
    obtain ⟨r, hr, hmerged⟩ := hs.toSane.merged rfl
    obtain ⟨forked1, h1⟩ := printed_child hs hfin 0
    obtain ⟨forked2, h2⟩ := printed_child hs hfin 1
    have hmain : Family.printed none s.out = [.main] := by
      obtain ⟨p, hp, hend⟩ := hfin
      have hknows := hs.parent p hp
      cases p with
      | child line i => cases hend
      | print => cases hend
      | exited => exact hknows
    rw [h1, h2] at hmerged
    refine ⟨forked1, forked2, r, mem_of_merged hmerged, ?_⟩
    rw [← hmain, ← hr, List.map_map]
    rfl
  · rintro ⟨forked1, forked2, r, hr, rfl⟩
    obtain ⟨run, c1, c2, o, hrun, h1, h2, ho⟩ := reaches_lines (merged_of_mem hr) _ _ []
      (rest_start n forked1 .child1) (rest_start n forked2 .child2)
    obtain ⟨run', hrun'⟩ := reaches_left o h1 h2
    refine ⟨forks forked1 forked2 ++ (run ++ (run' ++ List.replicate 4 (.parent ()))),
      returned (left c1) (left c2) o, ?_, ⟨.exited, rfl, rfl⟩, ?_⟩
    · rw [exec_append, exec_forks n forked1 forked2, Option.bind_some, exec_append, hrun,
        Option.bind_some, exec_append, hrun', Option.bind_some]
      exact exec_main n c1 c2 o
    · have ho' : o.map Prod.snd = r := ho
      rw [← ho', returned, List.map_append, List.map_append, List.map_map]
      rfl

end LinuxAppSamp.Processes
