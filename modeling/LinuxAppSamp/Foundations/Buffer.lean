import Mathlib.Data.List.GetD
import Mathlib.Data.List.Infix
import Mathlib.Data.List.TakeWhile
import Mathlib.Tactic.Common

/-! # Fixed-size byte buffers and the C strings in them

A `Buffer n` is a C array of `n` bytes. Indexed access and the string functions are checked:
where C leaves the behaviour undefined the result is a `Fault`. Nothing here mentions a program.

* `read`, `write`: one cell, under a C index, which may be negative.
* `recv`: what a receive call does to the array (the cells beyond the message keep their bytes).
* `str`, `strcat`, `strcpy`, `snprintf`, `memcpy`: the library functions, on the bytes before the
  first NUL.
* `str_fill_iff`: when a message stored without a NUL is read back as a string.
-/

namespace LinuxAppSamp.Memory
set_option autoImplicit false
set_option maxHeartbeats 250000

inductive Fault
  | outOfBounds
  | unterminated
  | intRange
  | outOfFuel
  deriving DecidableEq, Repr

@[simp] theorem ok_bind {α β : Type} (a : α) (f : α → Except Fault β) :
    (Except.ok a >>= f) = f a := rfl

@[simp] theorem error_bind {α β : Type} (e : Fault) (f : α → Except Fault β) :
    ((Except.error e : Except Fault α) >>= f) = .error e := rfl

theorem bind_eq_ok {α β : Type} {x : Except Fault α} {f : α → Except Fault β} {b : β}
    (h : x >>= f = .ok b) : ∃ a, x = .ok a ∧ f a = .ok b := by
  cases x with
  | error e => cases h
  | ok a => exact ⟨a, rfl, h⟩

theorem isOk_bind {α β : Type} (x : Except Fault α) (f : α → Except Fault β) :
    (x >>= f).isOk ↔ ∃ a, x = .ok a ∧ (f a).isOk := by
  cases x with
  | error e => simp [Except.isOk, Except.toBool]
  | ok a => simp

theorem isOk_error {α : Type} (e : Fault) : ¬ (Except.error e : Except Fault α).isOk := by
  intro h
  cases h

structure Buffer (n : ℕ) where
  cells : List UInt8
  length_cells : cells.length = n
  deriving DecidableEq, Repr

namespace Buffer
variable {n : ℕ}

attribute [simp] length_cells

/-- The byte at `i`; zero beyond the end. -/
def cell (b : Buffer n) (i : ℕ) : UInt8 := b.cells.getD i 0

theorem mem_cells (b : Buffer n) (i : ℕ) (hi : i < n) : b.cell i ∈ b.cells := by
  rw [cell, List.getD_eq_getElem _ _ (by simpa using hi)]
  exact List.getElem_mem _

theorem take_cells (b : Buffer n) (k : ℕ) (hk : k ≤ n) :
    b.cells.take k = (List.range k).map b.cell := by
  refine List.ext_getElem (by simp; omega) fun i h1 _ => ?_
  have hi : i < b.cells.length := h1.trans_le (List.length_take_le' ..)
  rw [List.getElem_take, List.getElem_map, List.getElem_range, cell, List.getD_eq_getElem _ _ hi]

theorem drop_cells (b : Buffer n) (i : ℕ) (hi : i < n) :
    b.cells.drop i = b.cell i :: b.cells.drop (i + 1) := by
  have hlen : i < b.cells.length := by
    rw [b.length_cells]
    exact hi
  rw [List.drop_eq_getElem_cons hlen, cell, List.getD_eq_getElem _ _ hlen]

/-! ## Single cells -/

def set (b : Buffer n) (i : ℕ) (v : UInt8) : Buffer n := ⟨b.cells.set i v, by simp⟩

theorem cells_set (b : Buffer n) (i : ℕ) (v : UInt8) : (b.set i v).cells = b.cells.set i v := rfl

theorem cell_set (b : Buffer n) (i j : ℕ) (v : UInt8) (hj : j < n) :
    (b.set i v).cell j = if i = j then v else b.cell j := by
  simp only [cell, cells_set, List.getD_eq_getElem?_getD, List.getElem?_set, length_cells]
  by_cases h : i = j
  · rw [if_pos h, if_pos (by omega), if_pos h]
    rfl
  · rw [if_neg h, if_neg h]

def zero (n : ℕ) : Buffer n := ⟨List.replicate n 0, by simp⟩

@[simp] theorem cell_zero (i : ℕ) : (zero n).cell i = 0 := by
  simp only [cell, zero, List.getD_eq_getElem?_getD, List.getElem?_replicate]
  split <;> rfl

def read (b : Buffer n) (i : ℤ) : Except Fault UInt8 :=
  if 0 ≤ i ∧ i < n then .ok (b.cell i.toNat) else .error .outOfBounds

def write (b : Buffer n) (i : ℤ) (v : UInt8) : Except Fault (Buffer n) :=
  if 0 ≤ i ∧ i < n then .ok (b.set i.toNat v) else .error .outOfBounds

theorem write_eq (b : Buffer n) {z : ℤ} (i : ℕ) (v : UInt8) (hz : z = i) (hi : i < n) :
    b.write z v = .ok (b.set i v) := by
  subst hz
  rw [write, if_pos ⟨by omega, by exact_mod_cast hi⟩, Int.toNat_natCast]

theorem read_nat (b : Buffer n) (i : ℕ) (hi : i < n) : b.read (i : ℤ) = .ok (b.cell i) := by
  rw [read, if_pos ⟨by omega, by exact_mod_cast hi⟩, Int.toNat_natCast]

theorem write_nat_of_le (b : Buffer n) (i : ℕ) (v : UInt8) (hi : n ≤ i) :
    b.write (i : ℤ) v = .error .outOfBounds := by
  rw [write, if_neg (by omega)]

theorem read_neg (b : Buffer n) (i : ℤ) (hi : i < 0) : b.read i = .error .outOfBounds := by
  rw [read, if_neg (by omega)]

/-! ## Runs of cells -/

/-- `b` with the bytes `m` laid over the cells from `off` on. -/
def overlay (b : Buffer n) (off : ℕ) (m : List UInt8) (h : off + m.length ≤ n) : Buffer n :=
  ⟨b.cells.take off ++ m ++ b.cells.drop (off + m.length), by
    simp only [List.length_append, List.length_take, List.length_drop, length_cells]
    omega⟩

theorem cells_overlay (b : Buffer n) (off : ℕ) (m : List UInt8) (h : off + m.length ≤ n) :
    (b.overlay off m h).cells = b.cells.take off ++ m ++ b.cells.drop (off + m.length) := rfl

theorem cell_overlay (b : Buffer n) (off : ℕ) (m : List UInt8) (h : off + m.length ≤ n) (i : ℕ) :
    (b.overlay off m h).cell i =
      if off ≤ i ∧ i < off + m.length then m.getD (i - off) 0 else b.cell i := by
  have hoff : (b.cells.take off).length = off := by simp; omega
  simp only [cell, overlay, List.getD_eq_getElem?_getD, List.append_assoc]
  by_cases h1 : i < off
  · rw [List.getElem?_append_left (by omega), List.getElem?_take_of_lt h1, if_neg (by omega)]
  · rw [List.getElem?_append_right (by omega), hoff]
    by_cases h2 : i < off + m.length
    · rw [List.getElem?_append_left (by omega), if_pos ⟨by omega, h2⟩]
    · rw [List.getElem?_append_right (by omega), List.getElem?_drop, if_neg (by omega)]
      congr 2
      omega

/-- The buffer with the bytes `m`, at most `n` of them, stored from its start. -/
def fill (b : Buffer n) (m : List UInt8) : Buffer n :=
  b.overlay 0 (m.take n) (by rw [List.length_take]; omega)

theorem cell_fill (b : Buffer n) (m : List UInt8) (i : ℕ) (hi : i < n) :
    (b.fill m).cell i = if i < m.length then m.getD i 0 else b.cell i := by
  rw [fill, cell_overlay]
  by_cases h : i < m.length
  · rw [if_pos ⟨by omega, by simp; omega⟩, if_pos h]
    simp only [Nat.sub_zero, List.getD_eq_getElem?_getD, List.getElem?_take_of_lt hi]
  · rw [if_neg (by simp; omega), if_neg h]

theorem cells_fill (b : Buffer n) (m : List UInt8) (hm : m.length ≤ n) :
    (b.fill m).cells = m ++ b.cells.drop m.length := by
  simp [fill, overlay, List.take_of_length_le hm]

/-- `recv(fd, b, limit)` when `m` is next: at most `limit` bytes of it are stored, and their
number is returned. -/
def recv (b : Buffer n) (limit : ℕ) (m : List UInt8) : Buffer n × ℕ :=
  (b.fill (m.take limit), (m.take limit).length)

theorem recv_eq (b : Buffer n) (limit : ℕ) (m : List UInt8) (hm : m.length ≤ limit) :
    b.recv limit m = (b.fill m, m.length) := by
  rw [recv, List.take_of_length_le hm]

def blit (b : Buffer n) (off : ℕ) (m : List UInt8) : Except Fault (Buffer n) :=
  if h : off + m.length ≤ n then .ok (b.overlay off m h) else .error .outOfBounds

/-- `memcpy(b, &src[start], size)`: both ranges are checked. -/
def memcpy (b : Buffer n) (src : List UInt8) (start size : ℕ) : Except Fault (Buffer n) :=
  if start + size ≤ src.length then b.blit 0 ((src.drop start).take size)
  else .error .outOfBounds

theorem memcpy_ok (b : Buffer n) (src : List UInt8) (start size : ℕ)
    (hsrc : start + size ≤ src.length) (hn : size ≤ n) :
    ∃ c, b.memcpy src start size = .ok c ∧
      ∀ i, c.cell i = if i < size then src.getD (start + i) 0 else b.cell i := by
  have hlen : ((src.drop start).take size).length = size := by
    simp only [List.length_take, List.length_drop]
    omega
  refine ⟨b.overlay 0 ((src.drop start).take size) (by omega), ?_, ?_⟩
  · rw [memcpy, if_pos hsrc, blit, dif_pos (by omega)]
  · intro i
    rw [cell_overlay, hlen]
    by_cases hi : i < size
    · rw [if_pos ⟨by omega, by omega⟩, if_pos hi]
      simp only [List.getD_eq_getElem?_getD, Nat.sub_zero]
      rw [List.getElem?_take_of_lt hi, List.getElem?_drop]
    · rw [if_neg (by omega), if_neg hi]

/-! ## Strings -/

def text (b : Buffer n) : List UInt8 := b.cells.takeWhile (· ≠ 0)

/-- The C string at the start of the buffer; a fault where no NUL ends it inside. -/
def str (b : Buffer n) : Except Fault (List UInt8) :=
  if 0 ∈ b.cells then .ok b.text else .error .unterminated

def strcat (b : Buffer n) (s : List UInt8) : Except Fault (Buffer n) := do
  let t ← b.str
  b.blit t.length (s ++ [0])

def strcpy (b : Buffer n) (s : List UInt8) : Except Fault (Buffer n) := b.blit 0 (s ++ [0])

/-- `snprintf(b, sizeof(b), ...)`: the formatted text, cut to fit, and its whole length. -/
def snprintf (b : Buffer n) (s : List UInt8) : Except Fault (Buffer n × ℕ) := do
  let c ← b.strcpy (s.take (n - 1))
  .ok (c, s.length)

/-- The bytes that `write(fd, b, len)` takes. -/
def front (b : Buffer n) (len : ℕ) : Except Fault (List UInt8) :=
  if len ≤ n then .ok (b.cells.take len) else .error .outOfBounds

/-- What `strncpy(dest, b, k)` reads of `b`. -/
def strncpy (b : Buffer n) (k : ℕ) : Except Fault (List UInt8) :=
  if k ≤ n ∨ 0 ∈ b.cells then .ok (b.text.take k) else .error .outOfBounds

theorem zero_notMem_text (b : Buffer n) : 0 ∉ b.text := by
  intro h
  simpa using List.mem_takeWhile_imp h

theorem cells_eq_text (b : Buffer n) (h : 0 ∈ b.cells) :
    ∃ r, b.cells = b.text ++ 0 :: r := by
  have hsplit := List.takeWhile_append_dropWhile (p := fun x : UInt8 => decide (x ≠ 0)) (l := b.cells)
  cases hd : b.cells.dropWhile (fun x : UInt8 => decide (x ≠ 0)) with
  | nil =>
    rw [List.dropWhile_eq_nil_iff] at hd
    simpa using hd 0 h
  | cons a r =>
    have ha : a = 0 := by
      have := List.head_dropWhile_not (fun x : UInt8 => decide (x ≠ 0)) (l := b.cells) (by rw [hd]; simp)
      simp only [hd, List.head_cons] at this
      simpa using this
    subst ha
    exact ⟨r, by rw [← hd]; exact hsplit.symm⟩

theorem text_of_cells (b : Buffer n) (s r : List UInt8) (h : b.cells = s ++ 0 :: r) (hs : 0 ∉ s) :
    b.text = s := by
  rw [text, h, List.takeWhile_append_of_pos]
  · simp
  · intro a ha
    have : a ≠ 0 := fun e => hs (e ▸ ha)
    simpa using this

theorem text_length_lt (b : Buffer n) (h : 0 ∈ b.cells) : b.text.length < n := by
  obtain ⟨r, hr⟩ := b.cells_eq_text h
  have := congrArg List.length hr
  simp only [length_cells, List.length_append, List.length_cons] at this
  omega

theorem cell_text (b : Buffer n) (i : ℕ) (hi : i < b.text.length) :
    b.cell i = b.text.getD i 0 := by
  have hp : b.text <+: b.cells := List.takeWhile_prefix _
  have hlen : i < b.cells.length := hi.trans_le hp.length_le
  rw [cell, List.getD_eq_getElem _ _ hlen, List.getD_eq_getElem _ _ hi]
  exact (hp.getElem hi).symm

theorem str_ok (b : Buffer n) (h : 0 ∈ b.cells) : b.str = .ok b.text := if_pos h

theorem str_error (b : Buffer n) (h : 0 ∉ b.cells) : b.str = .error .unterminated := if_neg h

theorem str_inv {b : Buffer n} {s : List UInt8} (h : b.str = .ok s) : 0 ∈ b.cells ∧ s = b.text := by
  by_cases hnul : 0 ∈ b.cells
  · exact ⟨hnul, (Except.ok.inj ((b.str_ok hnul).symm.trans h)).symm⟩
  · cases (b.str_error hnul).symm.trans h

theorem str_zero (hn : 0 < n) : (zero n).str = .ok [] := by
  obtain ⟨n, rfl⟩ := Nat.exists_eq_add_of_le' hn
  have hcells : (zero (n + 1)).cells = [] ++ 0 :: List.replicate n 0 := List.replicate_succ
  rw [str_ok, text_of_cells _ _ _ hcells List.not_mem_nil]
  rw [hcells]
  exact List.mem_cons_self

/-- A NUL stored at `i` ends the text there, unless it has ended before. -/
theorem text_set_zero (b : Buffer n) (i : ℕ) (h : 0 ∈ b.cells) :
    (b.set i 0).text = (if i < b.text.length then b.text.take i else b.text) ∧
      0 ∈ (b.set i 0).cells := by
  obtain ⟨r, hr⟩ := b.cells_eq_text h
  by_cases hi : i < b.text.length
  · have hcells : (b.set i 0).cells = b.text.take i ++ 0 :: (b.text.drop (i + 1) ++ 0 :: r) := by
      rw [cells_set, hr, List.set_append_left _ _ hi, List.set_eq_take_append_cons_drop, if_pos hi]
      simp
    have hnul : 0 ∉ b.text.take i := fun hm => b.zero_notMem_text (List.mem_of_mem_take hm)
    rw [if_pos hi]
    exact ⟨text_of_cells _ _ _ hcells hnul, by rw [hcells]; simp⟩
  · have hcells : ∃ r', (b.set i 0).cells = b.text ++ 0 :: r' := by
      rw [cells_set, hr, List.set_append_right _ _ (by omega)]
      cases hk : i - b.text.length with
      | zero => exact ⟨r, by simp⟩
      | succ k => exact ⟨r.set k 0, by simp⟩
    obtain ⟨r', hr'⟩ := hcells
    rw [if_neg hi]
    exact ⟨text_of_cells _ _ _ hr' b.zero_notMem_text, by rw [hr']; simp⟩

theorem strcat_ok (b : Buffer n) (s : List UInt8) (h : 0 ∈ b.cells) (hs : 0 ∉ s)
    (hfit : b.text.length + s.length < n) :
    ∃ c, b.strcat s = .ok c ∧ c.text = b.text ++ s ∧ 0 ∈ c.cells := by
  have hlen : b.text.length + (s ++ [0]).length ≤ n := by
    rw [List.length_append, List.length_singleton]
    omega
  refine ⟨b.overlay b.text.length (s ++ [0]) hlen, ?_, ?_⟩
  · rw [strcat, str_ok b h, ok_bind, blit, dif_pos hlen]
  · have hp : b.text <+: b.cells := List.takeWhile_prefix _
    have hcells : ∃ r, (b.overlay b.text.length (s ++ [0]) hlen).cells = (b.text ++ s) ++ 0 :: r := by
      refine ⟨b.cells.drop (b.text.length + (s ++ [0]).length), ?_⟩
      rw [cells_overlay, ← List.prefix_iff_eq_take.mp hp]
      simp
    obtain ⟨r, hr⟩ := hcells
    have hnul : 0 ∉ b.text ++ s := by
      rw [List.mem_append]
      exact fun hm => hm.elim b.zero_notMem_text hs
    exact ⟨text_of_cells _ _ _ hr hnul, by rw [hr]; simp⟩

theorem strcat_error (b : Buffer n) (s : List UInt8) (h : 0 ∈ b.cells)
    (hfit : n ≤ b.text.length + s.length) : b.strcat s = .error .outOfBounds := by
  rw [strcat, str_ok b h, ok_bind, blit, dif_neg]
  rw [List.length_append, List.length_singleton]
  omega

theorem strcpy_ok (b : Buffer n) (s : List UInt8) (hs : 0 ∉ s) (hfit : s.length < n) :
    ∃ c, b.strcpy s = .ok c ∧ c.text = s ∧ 0 ∈ c.cells := by
  have hlen : 0 + (s ++ [0]).length ≤ n := by
    rw [List.length_append, List.length_singleton]
    omega
  refine ⟨b.overlay 0 (s ++ [0]) hlen, ?_, ?_⟩
  · rw [strcpy, blit, dif_pos hlen]
  · have hcells : (b.overlay 0 (s ++ [0]) hlen).cells =
        s ++ 0 :: b.cells.drop (0 + (s ++ [0]).length) := by
      simp [overlay]
    exact ⟨text_of_cells _ _ _ hcells hs, by rw [hcells]; simp⟩

theorem front_text (b : Buffer n) (h : 0 ∈ b.cells) : b.front b.text.length = .ok b.text := by
  have hprefix : b.text <+: b.cells := List.takeWhile_prefix _
  rw [front, if_pos (b.text_length_lt h).le, ← List.prefix_iff_eq_take.mp hprefix]

theorem snprintf_ok (b : Buffer n) (s : List UInt8) (hs : 0 ∉ s) (hfit : s.length < n) :
    ∃ c, b.snprintf s = .ok (c, s.length) ∧ c.str = .ok s ∧ c.front s.length = .ok s := by
  obtain ⟨c, hc, rfl, hnul⟩ := b.strcpy_ok s hs hfit
  refine ⟨c, ?_, c.str_ok hnul, c.front_text hnul⟩
  rw [snprintf, List.take_of_length_le (by omega), hc, ok_bind]

/-- A message with a NUL decides the text by itself; whatever was stored before does not count. -/
theorem text_fill_of_mem (b : Buffer n) (m : List UInt8) (hm : m.length ≤ n) (h : 0 ∈ m) :
    (b.fill m).text = m.takeWhile (· ≠ 0) ∧ 0 ∈ (b.fill m).cells := by
  rw [text, cells_fill b m hm]
  refine ⟨?_, List.mem_append_left _ h⟩
  rw [List.takeWhile_append, if_neg]
  intro hall
  have hself : m.takeWhile (fun x => decide (x ≠ 0)) = m :=
    (List.takeWhile_prefix _).eq_of_length hall
  rw [List.takeWhile_eq_self_iff] at hself
  simpa using hself 0 h

/-- A message without a NUL runs on into what was stored behind it. -/
theorem text_fill_of_notMem (b : Buffer n) (m : List UInt8) (hm : m.length ≤ n) (h : 0 ∉ m) :
    (b.fill m).text = m ++ (b.cells.drop m.length).takeWhile (· ≠ 0) := by
  rw [text, cells_fill b m hm, List.takeWhile_append_of_pos]
  intro a ha
  have : a ≠ 0 := fun e => h (e ▸ ha)
  simpa using this

/-- The string is the message when the message is not full and the byte behind it is a NUL. -/
theorem str_fill_iff (b : Buffer n) (m : List UInt8) (hm : m.length ≤ n) (h : 0 ∉ m) :
    (b.fill m).str = .ok m ↔ m.length < n ∧ b.cell m.length = 0 := by
  have hcells := b.cells_fill m hm
  constructor
  · intro hstr
    obtain ⟨hnul, htext⟩ := str_inv hstr
    have hlt := text_length_lt _ hnul
    rw [← htext] at hlt
    refine ⟨hlt, ?_⟩
    rw [text_fill_of_notMem b m hm h, drop_cells b _ hlt] at htext
    have hnil := List.append_right_eq_self.mp htext.symm
    by_contra hne
    rw [List.takeWhile_cons_of_pos (by simpa using hne)] at hnil
    cases hnil
  · rintro ⟨hlt, hzero⟩
    rw [drop_cells b _ hlt, hzero] at hcells
    rw [str_ok, text_of_cells _ _ _ hcells h]
    rw [hcells]
    exact List.mem_append_right _ List.mem_cons_self

/-- Where neither the message nor the bytes behind it hold a NUL, there is none. -/
theorem zero_notMem_fill (b : Buffer n) (m : List UInt8) (hm : 0 ∉ m)
    (h : 0 ∉ b.cells ∨ n ≤ m.length) : 0 ∉ (b.fill m).cells := by
  rw [fill, cells_overlay, List.take_zero, List.nil_append]
  intro hmem
  obtain hmem | hmem := List.mem_append.mp hmem
  · exact hm (List.mem_of_mem_take hmem)
  · obtain h | h := h
    · exact h (List.mem_of_mem_drop hmem)
    · rw [List.drop_of_length_le] at hmem
      · exact absurd hmem List.not_mem_nil
      · rw [List.length_take, b.length_cells]
        omega

end Buffer
end LinuxAppSamp.Memory
