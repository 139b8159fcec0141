import LinuxAppSamp.Messages.Reply

/-! # Lines through a pipe: `ipc-pipe.c`

The parent writes lines to the pipe, and the child prints what `fgets` takes from it. The reads
behind the child's `FILE` return the bytes in any pieces. `fgets_spec` says that each call takes
the next bytes up to a newline or a full buffer, whatever the pieces, so that the loop puts the
stream together again: `pipe_lossless`.
-/

namespace LinuxAppSamp.Pipe
open Memory Messages
set_option autoImplicit false
set_option maxHeartbeats 250000

/-! ## Streams -/

/-- What one `read` on the pipe gives: bytes (none of them at its end) or an error. -/
inductive ReadResult
  | bytes (bs : List UInt8)
  | fail
  deriving DecidableEq, Repr

/-- A `FILE`: its buffer, the reads still to come (0 once they are used up), and its two flags. -/
structure Stream where
  ready : List UInt8
  reads : List ReadResult
  eof : Bool
  error : Bool
  deriving DecidableEq, Repr

def getc (s : Stream) : Option UInt8 × Stream :=
  match s.ready with
  | c :: ready => (some c, { s with ready := ready })
  | [] =>
    match s.reads with
    | [] => (none, { s with eof := true })
    | .fail :: reads => (none, { s with reads := reads, error := true })
    | .bytes [] :: reads => (none, { s with reads := reads, eof := true })
    | .bytes (c :: ready) :: reads => (some c, { s with ready := ready, reads := reads })

/-- At most `left` more characters, through the first newline. -/
def fgetsFrom : ℕ → List UInt8 → Stream → List UInt8 × Stream
  | 0, line, s => (line, s)
  | left + 1, line, s =>
    match getc s with
    | (none, s) => (line, s)
    | (some c, s) => if c = lf then (line ++ [c], s) else fgetsFrom left (line ++ [c]) s

/-- `fgets(zbuf, n, stream)`: none for `NULL`, after an error or when there was no character. -/
def fgets {n : ℕ} (zbuf : Buffer n) (s : Stream) : Except Fault (Option (Buffer n) × Stream) :=
  let (line, s) := fgetsFrom (n - 1) [] s
  if line = [] ∨ s.error then .ok (none, s)
  else do
    let zbuf ← zbuf.strcpy line
    .ok (some zbuf, s)

/-! ## `funcWrite` and `funcRead` -/

/-- A text as C strings hold it. -/
structure CString where
  chars : List UInt8
  nulFree : 0 ∉ chars

/-- The bytes that `funcWrite(msg, cnt, stream)` has written when it returns. -/
def funcWrite (msg : CString) : ℕ → List UInt8
  | 0 => []
  | cnt + 1 => msg.chars ++ [lf] ++ funcWrite msg cnt

def sizeZbuf : ℕ := 512

/-- The loop of `funcRead`; each pass uses one unit of fuel. -/
def funcRead : ℕ → Buffer sizeZbuf → Stream → Except Fault (List UInt8)
  | 0, _, _ => .error .outOfFuel
  | fuel + 1, zbuf, s =>
    if s.eof ∨ s.error then .ok []
    else do
      let (r, s) ← fgets zbuf s
      match r with
      | none => .ok []
      | some zbuf => do
        let printed ← zbuf.str
        let rest ← funcRead fuel zbuf s
        .ok (printed ++ rest)

/-! ## What a stream still holds -/

def ReadResult.data : ReadResult → List UInt8
  | .bytes bs => bs
  | .fail => []

/-- The bytes not taken yet. -/
def Stream.rest (s : Stream) : List UInt8 := s.ready ++ s.reads.flatMap ReadResult.data

/-- No flag is set, no read fails, and none returns 0 before the end. -/
structure Stream.Open (s : Stream) : Prop where
  eof : s.eof = false
  error : s.error = false
  reads : ∀ r ∈ s.reads, r.data ≠ []

theorem getc_end (s : Stream) (h : s.Open) (hr : s.rest = []) :
    getc s = (none, { s with eof := true }) := by
  obtain ⟨hready, hreads⟩ := List.append_eq_nil_iff.mp hr
  have hnone : s.reads = [] := by
    cases hc : s.reads with
    | nil => rfl
    | cons r reads =>
      have hmem : r ∈ s.reads := by
        rw [hc]
        exact List.mem_cons_self
      exact absurd (List.flatMap_eq_nil_iff.mp hreads r hmem) (h.reads r hmem)
  rw [getc, hready, hnone]

theorem getc_next (s : Stream) (c : UInt8) (bs : List UInt8) (h : s.Open) (hr : s.rest = c :: bs) :
    ∃ t, getc s = (some c, t) ∧ t.rest = bs ∧ t.Open := by
  unfold Stream.rest at hr
  cases hready : s.ready with
  | cons d ready =>
    rw [hready, List.cons_append] at hr
    obtain ⟨rfl, hbs⟩ := List.cons.inj hr
    refine ⟨{ s with ready := ready }, ?_, hbs, ⟨h.eof, h.error, h.reads⟩⟩
    rw [getc, hready]
  | nil =>
    rw [hready, List.nil_append] at hr
    cases hreads : s.reads with
    | nil =>
      rw [hreads] at hr
      cases hr
    | cons r reads =>
      have hne := h.reads r (by rw [hreads]; exact List.mem_cons_self)
      rw [hreads, List.flatMap_cons] at hr
      have hlater : ∀ r' ∈ reads, r'.data ≠ [] := by
        intro r' hr'
        apply h.reads
        rw [hreads]
        exact List.mem_cons_of_mem r hr'
      cases r with
      | fail => exact absurd rfl hne
      | bytes piece =>
        cases piece with
        | nil => exact absurd rfl hne
        | cons d ready =>
          obtain ⟨rfl, hbs⟩ := List.cons.inj hr
          refine ⟨{ s with ready := ready, reads := reads }, ?_, hbs, ⟨h.eof, h.error, hlater⟩⟩
          rw [getc, hready, hreads]

/-! ## `fgets` -/

/-- What a call may take of the bytes, and what it leaves. -/
def cut : ℕ → List UInt8 → List UInt8 × List UInt8
  | 0, bs => ([], bs)
  | _ + 1, [] => ([], [])
  | left + 1, c :: bs => if c = lf then ([c], bs) else (c :: (cut left bs).1, (cut left bs).2)

theorem cut_append (left : ℕ) (bs : List UInt8) : (cut left bs).1 ++ (cut left bs).2 = bs := by
  induction left generalizing bs with
  | zero => rfl
  | succ left ih =>
    cases bs with
    | nil => rfl
    | cons c bs =>
      rw [cut]
      split
      · rfl
      · rw [List.cons_append, ih]

theorem cut_length (left : ℕ) (bs : List UInt8) : (cut left bs).1.length ≤ left := by
  induction left generalizing bs with
  | zero => exact Nat.le_refl 0
  | succ left ih =>
    cases bs with
    | nil => exact Nat.zero_le _
    | cons c bs =>
      rw [cut]
      split
      · exact Nat.succ_le_succ (Nat.zero_le left)
      · exact Nat.succ_le_succ (ih bs)

theorem cut_pos (left : ℕ) (bs : List UInt8) (hl : 0 < left) (hbs : bs ≠ []) :
    (cut left bs).1 ≠ [] := by
  obtain ⟨left, rfl⟩ := Nat.exists_eq_add_of_le' hl
  cases bs with
  | nil => exact absurd rfl hbs
  | cons c bs =>
    rw [cut]
    split <;> exact List.cons_ne_nil _ _

/-- After the call the stream is open, or its end was met and nothing is left. -/
theorem fgetsFrom_spec (left : ℕ) (line : List UInt8) (s : Stream) (h : s.Open) :
    ∃ t, fgetsFrom left line s = (line ++ (cut left s.rest).1, t) ∧
      t.rest = (cut left s.rest).2 ∧ t.error = false ∧ (t.Open ∨ t.eof = true ∧ t.rest = []) := by
  induction left generalizing line s with
  | zero => exact ⟨s, by rw [fgetsFrom, cut, List.append_nil], rfl, h.error, Or.inl h⟩
  | succ left ih =>
    cases hr : s.rest with
    | nil =>
      refine ⟨{ s with eof := true }, ?_, hr, h.error, Or.inr ⟨rfl, hr⟩⟩
      rw [fgetsFrom, getc_end s h hr, cut, List.append_nil]
    | cons c bs =>
      obtain ⟨t, ht, hrest, hopen⟩ := getc_next s c bs h hr
      rw [fgetsFrom, ht, cut]
      by_cases hc : c = lf
      · rw [if_pos hc]
        exact ⟨t, if_pos hc, hrest, hopen.error, Or.inl hopen⟩
      · rw [if_neg hc]
        obtain ⟨u, hu, hurest, huerr, huend⟩ := ih (line ++ [c]) t hopen
        rw [hrest] at hu hurest
        refine ⟨u, ?_, hurest, huerr, huend⟩
        refine (if_neg hc).trans ?_
        rw [hu, List.append_assoc]
        rfl

theorem fgets_end {n : ℕ} (zbuf : Buffer n) (s : Stream) (h : s.Open) (hr : s.rest = []) :
    ∃ t, fgets zbuf s = .ok (none, t) := by
  obtain ⟨t, ht, -⟩ := fgetsFrom_spec (n - 1) [] s h
  have hcut : (cut (n - 1) []).1 = [] := by
    cases n - 1 <;> rfl
  rw [hr, hcut] at ht
  refine ⟨t, ?_⟩
  rw [fgets, ht]
  exact if_pos (Or.inl rfl)

/-- On a stream without NULs the call stores the next bytes, up to a newline or `n - 1` of them. -/
theorem fgets_spec {n : ℕ} (zbuf : Buffer n) (s : Stream) (hn : 2 ≤ n) (h : s.Open)
    (hr : s.rest ≠ []) (hnul : 0 ∉ s.rest) :
    ∃ c t, fgets zbuf s = .ok (some c, t) ∧ c.str = .ok (cut (n - 1) s.rest).1 ∧
      t.rest = (cut (n - 1) s.rest).2 ∧ (t.Open ∨ t.eof = true ∧ t.rest = []) := by
  obtain ⟨t, ht, hrest, herr, hend⟩ := fgetsFrom_spec (n - 1) [] s h
  have hpos := cut_pos (n - 1) s.rest (by omega) hr
  have hlen := cut_length (n - 1) s.rest
  have happ := cut_append (n - 1) s.rest
  have hline : 0 ∉ (cut (n - 1) s.rest).1 := by
    intro hm
    apply hnul
    rw [← happ]
    exact List.mem_append_left _ hm
  obtain ⟨c, hc, htext, hcnul⟩ := zbuf.strcpy_ok (cut (n - 1) s.rest).1 hline (by omega)
  refine ⟨c, t, ?_, by rw [Buffer.str_ok c hcnul, htext], hrest, hend⟩
  rw [List.nil_append] at ht
  rw [fgets, ht]
  have hgo : ¬ ((cut (n - 1) s.rest).1 = [] ∨ t.error = true) := by
    rw [herr]
    exact not_or.mpr ⟨hpos, by decide⟩
  exact (if_neg hgo).trans (by rw [hc, ok_bind])

/-! ## The loop -/

/-- With one pass for each byte and one more, the loop prints what the stream holds and ends. -/
theorem funcRead_rest (fuel : ℕ) (zbuf : Buffer sizeZbuf) (s : Stream) (h : s.Open)
    (hnul : 0 ∉ s.rest) (hfuel : s.rest.length < fuel) : funcRead fuel zbuf s = .ok s.rest := by
  induction fuel generalizing zbuf s with
  | zero => omega
  | succ fuel ih =>
    have hflags : ¬ (s.eof = true ∨ s.error = true) := by
      rw [h.eof, h.error]
      decide
    rw [funcRead, if_neg hflags]
    by_cases hr : s.rest = []
    · obtain ⟨t, ht⟩ := fgets_end zbuf s h hr
      rw [ht, ok_bind, hr]
    · obtain ⟨c, t, ht, hstr, hrest, hend⟩ := fgets_spec zbuf s (by decide) h hr hnul
      have happ := cut_append (sizeZbuf - 1) s.rest
      have hpos := List.length_pos_iff.mpr (cut_pos (sizeZbuf - 1) s.rest (by decide) hr)
      rw [← hrest] at happ
      have hlen : t.rest.length < fuel := by
        have := congrArg List.length happ
        rw [List.length_append] at this
        omega
      have hloop : funcRead fuel c t = .ok t.rest := by
        obtain hopen | ⟨heof, hnil⟩ := hend
        · apply ih c t hopen _ hlen
          intro hm
          apply hnul
          rw [← happ]
          exact List.mem_append_right _ hm
        · obtain ⟨fuel, rfl⟩ := Nat.exists_eq_add_of_le' (Nat.lt_of_le_of_lt (Nat.zero_le _) hlen)
          rw [funcRead, if_pos (Or.inl heof), hnil]
      rw [ht, ok_bind]
      show (c.str >>= fun printed => funcRead fuel c t >>= fun rest => .ok (printed ++ rest)) = _
      rw [hstr, ok_bind, hloop, ok_bind, happ]

/-! ## Through the pipe -/

theorem funcWrite_eq (msg : CString) (cnt : ℕ) :
    funcWrite msg cnt = (List.replicate cnt (msg.chars ++ [lf])).flatten := by
  induction cnt with
  | zero => rfl
  | succ cnt ih => rw [funcWrite, ih, List.replicate_succ, List.flatten_cons]

theorem funcWrite_nulFree (msg : CString) (cnt : ℕ) : 0 ∉ funcWrite msg cnt := by
  induction cnt with
  | zero => exact List.not_mem_nil
  | succ cnt ih =>
    intro hm
    obtain hm | hm := List.mem_append.mp hm
    · obtain hm | hm := List.mem_append.mp hm
      · exact msg.nulFree hm
      · exact absurd (List.mem_singleton.mp hm) (by decide)
    · exact ih hm

/-- A way in which the reads on the pipe return `written`, before they return 0. -/
structure Delivery (written : List UInt8) where
  pieces : List (List UInt8)
  nonempty : ∀ piece ∈ pieces, piece ≠ []
  flatten : pieces.flatten = written

/-- `fdopen(fds[0], "r")`. -/
def fdopen {written : List UInt8} (d : Delivery written) : Stream :=
  ⟨[], d.pieces.map .bytes, false, false⟩

theorem fdopen_open {written : List UInt8} (d : Delivery written) : (fdopen d).Open where
  eof := rfl
  error := rfl
  reads := by
    intro r hr
    obtain ⟨piece, hpiece, rfl⟩ := List.mem_map.mp hr
    exact d.nonempty piece hpiece

theorem fdopen_rest {written : List UInt8} (d : Delivery written) : (fdopen d).rest = written := by
  show [] ++ (d.pieces.map ReadResult.bytes).flatMap ReadResult.data = written
  rw [List.nil_append, List.flatMap_map]
  show d.pieces.flatMap id = written
  rw [List.flatMap_id, d.flatten]

/-- `funcRead` ends on this delivery and has printed `text`. -/
def ReadsAll {written : List UInt8} (d : Delivery written) (text : List UInt8) : Prop :=
  ∀ zbuf, ∃ enough, ∀ fuel ≥ enough, funcRead fuel zbuf (fdopen d) = .ok text

theorem readsAll_of_nulFree {written : List UInt8} (d : Delivery written) (h : 0 ∉ written) :
    ReadsAll d written := by
  intro zbuf
  refine ⟨written.length + 1, fun fuel hfuel => ?_⟩
  have hrest := fdopen_rest d
  have hread := funcRead_rest fuel zbuf (fdopen d) (fdopen_open d)
  rw [hrest] at hread
  exact hread h hfuel

/-- **The pipe loses nothing**: the child prints the lines of the parent, and every other text
without NULs, whatever the pieces in which they arrive. -/
theorem pipe_lossless (msg : CString) (cnt : ℕ) :
    (∀ d : Delivery (funcWrite msg cnt),
      ReadsAll d (List.replicate cnt (msg.chars ++ [lf])).flatten) ∧
      ∀ (text : CString) (d : Delivery text.chars), ReadsAll d text.chars := by
  constructor
  · intro d
    rw [← funcWrite_eq]
    exact readsAll_of_nulFree d (funcWrite_nulFree msg cnt)
  · intro text d
    exact readsAll_of_nulFree d text.nulFree

end LinuxAppSamp.Pipe
