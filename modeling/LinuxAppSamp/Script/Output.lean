import LinuxAppSamp.Pipe.Lines

/-! # The output of a script: `bash_output.c`

`main` reads the output of `bashtest.sh` into a buffer that it never clears, and prints the buffer
as a string. `readLoop_rest` says what the loop leaves there for every output in any pieces, and
that it ends; `output_shown_iff` when the print shows the output and nothing else: the output has
to be shorter than the buffer, with a NUL already behind it.
-/

namespace LinuxAppSamp.Script
open Memory Messages Pipe
set_option autoImplicit false
set_option maxHeartbeats 250000

/-! ## The program -/

def sizeBuf : ℕ := 100

/-- At most `left` more bytes, up to the end of the file. -/
def freadFrom : ℕ → List UInt8 → Stream → List UInt8 × Stream
  | 0, got, pipe => (got, pipe)
  | left + 1, got, pipe =>
    match getc pipe with
    | (none, pipe) => (got, pipe)
    | (some c, pipe) => freadFrom left (got ++ [c]) pipe

/-- `fread(buf, 1, count, pipe)`: the array, the number of bytes stored, and the stream. -/
def fread {n : ℕ} (buf : Buffer n) (count : ℕ) (pipe : Stream) :
    Except Fault (Buffer n × ℕ × Stream) :=
  let (got, pipe) := freadFrom count [] pipe
  do
    let buf ← buf.blit 0 got
    .ok (buf, got.length, pipe)

/-- The loop of `main`; each pass uses one unit of fuel. -/
def readLoop : ℕ → Buffer sizeBuf → Stream → Except Fault (Buffer sizeBuf)
  | 0, _, _ => .error .outOfFuel
  | fuel + 1, buf, pipe =>
    if pipe.eof then .ok buf
    else do
      -- `size` is assigned here and read nowhere
      let (buf, _size, pipe) ← fread buf 100 pipe
      readLoop fuel buf pipe

def output : List UInt8 := bytes ['O', 'u', 't', 'p', 'u', 't', ':']

/-- What `main` prints, when `popen` gives `pipe` (none for `NULL`). -/
def main (fuel : ℕ) (buf : Buffer sizeBuf) (pipe : Option Stream) : Except Fault (List UInt8) :=
  match pipe with
  | none => .ok (bytes ['e', 'r', 'r', 'o', 'r'] ++ [lf])
  | some pipe => do
    let buf ← readLoop fuel buf pipe
    let text ← buf.str
    .ok (output ++ text)

/-! ## One call of `fread` -/

/-- A short count is the end of the file, a full one is not. -/
theorem freadFrom_spec (left : ℕ) (got : List UInt8) (pipe : Stream) (h : pipe.Open) :
    ∃ t, freadFrom left got pipe = (got ++ pipe.rest.take left, t) ∧
      t.rest = pipe.rest.drop left ∧
      (pipe.rest.length < left ∧ t.eof = true ∨ left ≤ pipe.rest.length ∧ t.Open) := by
  induction left generalizing got pipe with
  | zero =>
    refine ⟨pipe, ?_, List.drop_zero.symm, Or.inr ⟨Nat.zero_le _, h⟩⟩
    rw [freadFrom, List.take_zero, List.append_nil]
  | succ left ih =>
    cases hr : pipe.rest with
    | nil =>
      refine ⟨{ pipe with eof := true }, ?_, hr, Or.inl ⟨Nat.succ_pos left, rfl⟩⟩
      rw [freadFrom, getc_end pipe h hr, List.take_nil, List.append_nil]
    | cons c bs =>
      obtain ⟨t, ht, hrest, hopen⟩ := getc_next pipe c bs h hr
      obtain ⟨u, hu, hurest, hend⟩ := ih (got ++ [c]) t hopen
      rw [hrest] at hu hurest hend
      refine ⟨u, ?_, hurest, ?_⟩
      · rw [freadFrom, ht]
        show freadFrom left (got ++ [c]) t = _
        rw [hu, List.take_succ_cons, List.append_assoc, List.singleton_append]
      · rw [List.length_cons]
        obtain ⟨hlt, heof⟩ | ⟨hle, hopen⟩ := hend
        · exact Or.inl ⟨Nat.succ_lt_succ hlt, heof⟩
        · exact Or.inr ⟨Nat.succ_le_succ hle, hopen⟩

theorem fread_spec {n : ℕ} (buf : Buffer n) (pipe : Stream) (h : pipe.Open) :
    ∃ t k, fread buf n pipe = .ok (buf.fill pipe.rest, k, t) ∧ t.rest = pipe.rest.drop n ∧
      (pipe.rest.length < n ∧ t.eof = true ∨ n ≤ pipe.rest.length ∧ t.Open) := by
  obtain ⟨t, ht, hrest, hend⟩ := freadFrom_spec n [] pipe h
  have hlen : 0 + (pipe.rest.take n).length ≤ n := by
    rw [List.length_take]
    omega
  refine ⟨t, (pipe.rest.take n).length, ?_, hrest, hend⟩
  rw [List.nil_append] at ht
  rw [fread, ht]
  show (buf.blit 0 (pipe.rest.take n) >>= _) = _
  rw [Buffer.blit, dif_pos hlen, ok_bind]
  rfl

/-! ## The loop -/

/-- The loop ends; a short output is at the start of the buffer, and a long one leaves no NUL. -/
theorem readLoop_rest (buf : Buffer sizeBuf) (pipe : Stream) (h : pipe.Open)
    (hnul : 0 ∉ pipe.rest) :
    ∃ c, (∀ fuel ≥ pipe.rest.length + 2, readLoop fuel buf pipe = .ok c) ∧
      (pipe.rest.length < sizeBuf → c = buf.fill pipe.rest) ∧
      (0 ∉ buf.cells ∨ sizeBuf ≤ pipe.rest.length → 0 ∉ c.cells) := by
  induction hk : pipe.rest.length using Nat.strong_induction_on generalizing buf pipe with
  | _ k ih =>
  subst hk
  have hopen : ¬ pipe.eof = true := by
    rw [h.eof]
    decide
  obtain ⟨t, k, ht, hrest, ⟨hlt, heof⟩ | ⟨hle, hopen'⟩⟩ := fread_spec buf pipe h
  · refine ⟨buf.fill pipe.rest, ?_, fun _ => rfl, Buffer.zero_notMem_fill buf pipe.rest hnul⟩
    intro fuel hfuel
    obtain ⟨fuel, rfl⟩ := Nat.exists_eq_add_of_le' (by omega : 2 ≤ fuel)
    rw [readLoop, if_neg hopen]
    show (fread buf sizeBuf pipe >>= _) = _
    rw [ht, ok_bind]
    show readLoop (fuel + 1) (buf.fill pipe.rest) t = _
    rw [readLoop, if_pos heof]
  · have hsize : 1 ≤ sizeBuf := by decide
    have hlen : t.rest.length + sizeBuf = pipe.rest.length := by
      rw [hrest, List.length_drop]
      omega
    have hnul' : 0 ∉ t.rest := by
      rw [hrest]
      intro hm
      exact hnul (List.mem_of_mem_drop hm)
    obtain ⟨c, hc, -, hnone⟩ := ih t.rest.length (by omega) (buf.fill pipe.rest) t hopen' hnul' rfl
    refine ⟨c, ?_, fun hlt => absurd hlt (Nat.not_lt.mpr hle), ?_⟩
    · intro fuel hfuel
      obtain ⟨fuel, rfl⟩ := Nat.exists_eq_add_of_le' (by omega : 1 ≤ fuel)
      rw [readLoop, if_neg hopen]
      show (fread buf sizeBuf pipe >>= _) = _
      rw [ht, ok_bind]
      exact hc fuel (by omega)
    · intro _
      apply hnone
      exact Or.inl (Buffer.zero_notMem_fill buf pipe.rest hnul (Or.inr hle))

/-! ## What is printed -/

/-- The loop of `main` ends on this delivery of `out`, in bounds, and the print shows `out`. -/
def ShowsOutput {out : List UInt8} (buf : Buffer sizeBuf) (d : Delivery out) : Prop :=
  ∃ enough, ∀ fuel ≥ enough, main fuel buf (some (fdopen d)) = .ok (output ++ out)

/-- What `main` does with the buffer that the loop leaves. -/
theorem main_eq (buf c : Buffer sizeBuf) (pipe : Stream) (fuel : ℕ)
    (h : readLoop fuel buf pipe = .ok c) (text : List UInt8) :
    main fuel buf (some pipe) = .ok (output ++ text) ↔ c.str = .ok text := by
  rw [main, h, ok_bind]
  constructor
  · intro hprint
    obtain ⟨text', htext, hprint⟩ := bind_eq_ok hprint
    rw [htext, List.append_cancel_left (Except.ok.inj hprint)]
  · intro htext
    rw [htext, ok_bind]

/-- **The output is shown exactly when it is shorter than the buffer and a NUL happened to be
behind it**; the loop ends in any case. -/
theorem output_shown_iff (out : CString) (d : Delivery out.chars) (buf : Buffer sizeBuf) :
    (∃ enough c, ∀ fuel ≥ enough, readLoop fuel buf (fdopen d) = .ok c) ∧
      (ShowsOutput buf d ↔
        out.chars.length < sizeBuf ∧ buf.cell out.chars.length = 0) := by
  have hloop := readLoop_rest buf (fdopen d) (fdopen_open d)
  rw [fdopen_rest d] at hloop
  obtain ⟨c, hc, hshort, hlong⟩ := hloop out.nulFree
  have hshows : ShowsOutput buf d ↔ c.str = .ok out.chars := by
    constructor
    · rintro ⟨enough, hprint⟩
      have hmain := hprint (max enough (out.chars.length + 2)) (Nat.le_max_left _ _)
      exact (main_eq buf c (fdopen d) _ (hc _ (Nat.le_max_right _ _)) out.chars).mp hmain
    · intro hstr
      refine ⟨out.chars.length + 2, fun fuel hfuel => ?_⟩
      exact (main_eq buf c (fdopen d) fuel (hc fuel hfuel) out.chars).mpr hstr
  refine ⟨⟨_, c, hc⟩, ?_⟩
  rw [hshows]
  by_cases hlen : out.chars.length < sizeBuf
  · rw [hshort hlen]
    exact Buffer.str_fill_iff buf out.chars hlen.le out.nulFree
  · refine iff_of_false ?_ fun h => hlen h.1
    exact fun hstr => hlong (Or.inr (Nat.not_lt.mp hlen)) (Buffer.str_inv hstr).1

/-- The output in the comment of the source. -/
def thisIsTest : CString where
  chars := bytes ['T', 'h', 'i', 's', '_', 'i', 's', '_', 't', 'e', 's', 't'] ++ [lf]
  nulFree := by decide

def inOnePiece : Delivery thisIsTest.chars where
  pieces := [thisIsTest.chars]
  nonempty := by decide
  flatten := rfl

/-- A buffer whose bytes happen to be 255 is printed to its end, and on. -/
theorem output_not_shown :
    ¬ ∀ (out : CString) (d : Delivery out.chars) (buf : Buffer sizeBuf), ShowsOutput buf d := by
  intro h
  obtain ⟨enough, hprint⟩ := h thisIsTest inOnePiece ⟨List.replicate sizeBuf 255, rfl⟩
  have hmain := hprint (enough + 2) (by omega)
  have hfault : main (enough + 2) ⟨List.replicate sizeBuf 255, rfl⟩ (some (fdopen inOnePiece)) =
    .error .unterminated := rfl
  rw [hfault] at hmain
  cases hmain

end LinuxAppSamp.Script
