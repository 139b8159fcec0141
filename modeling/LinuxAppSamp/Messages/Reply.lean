import LinuxAppSamp.Foundations.Loop

/-! # The reply edit shared by the servers

`app_04tcp_server.c`, `app_04udp_server.c` and `sendReqOK` of `app_05tcp_trans1MB_server.c` answer
a request in the same way: the text in a buffer loses a line feed that stands at index
`rcvdLen - 2`, and `,OK` (with a line feed in the first two) is appended by `strcat`. The edit is
`removeLF` followed by `Buffer.strcat`; `answer_ok` and `answer_isOk_iff` say what it leaves and
when it stays inside the buffer. `strip` is the intended effect on a framed text.
-/

namespace LinuxAppSamp.Messages
open Memory
set_option autoImplicit false
set_option maxHeartbeats 250000

/-- The bytes of a C string literal, its NUL left out. -/
def bytes (s : List Char) : List UInt8 := s.map fun c => c.toNat.toUInt8

theorem length_bytes (s : List Char) : (bytes s).length = s.length := List.length_map _

theorem notMem_bytes {s : List Char} (b : UInt8) (h : ∀ c ∈ s, c.toNat < 256 ∧ c.toNat ≠ b.toNat) :
    b ∉ bytes s := by
  intro hmem
  obtain ⟨c, hc, rfl⟩ := List.mem_map.mp hmem
  obtain ⟨hlt, hne⟩ := h c hc
  apply hne
  rw [UInt8.toNat_ofNat']
  omega

theorem bytes_injective {s t : List Char} (hs : ∀ c ∈ s, c.toNat < 256) (ht : ∀ c ∈ t, c.toNat < 256)
    (h : bytes s = bytes t) : s = t := by
  have hback : ∀ u : List Char, (∀ c ∈ u, c.toNat < 256) →
      (bytes u).map (fun b => Char.ofNat b.toNat) = u := by
    intro u hu
    rw [bytes, List.map_map]
    refine (List.map_congr_left fun c hc => ?_).trans (List.map_id u)
    show Char.ofNat c.toNat.toUInt8.toNat = c
    rw [UInt8.toNat_ofNat', Nat.mod_eq_of_lt (hu c hc), Char.ofNat_toNat]
  rw [← hback s hs, h, hback t ht]

def lf : UInt8 := 10

def req : List UInt8 := bytes ['r', 'e', 'q']

def commaOK : List UInt8 := bytes [',', 'O', 'K']

def commaOKLF : List UInt8 := commaOK ++ [lf]

def strip (s : List UInt8) : List UInt8 := if s.getLast? = some lf then s.dropLast else s

/-- What a server sees of one receive call: `-1`, or the bytes that arrived. -/
inductive Received
  | fail
  | bytes (msg : List UInt8)
  deriving DecidableEq, Repr

inductive Out
  | send (bytes : List UInt8)
  | print (bytes : List UInt8)
  deriving DecidableEq, Repr

/-- The byte strings handed to the socket, in order. -/
def sends (out : List Out) : List (List UInt8) :=
  out.filterMap fun
    | .send b => some b
    | .print _ => none

@[simp] theorem sends_append (a b : List Out) : sends (a ++ b) = sends a ++ sends b :=
  List.filterMap_append

section
variable {n : ℕ}

/-- `if (b[rcvdLen - 2] == '\n') b[rcvdLen - 2] = 0x00;` -/
def removeLF (b : Buffer n) (rcvdLen : ℕ) : Except Fault (Buffer n) := do
  let c ← b.read ((rcvdLen : ℤ) - 2)
  if c = lf then b.write ((rcvdLen : ℤ) - 2) 0 else .ok b

def answer (b : Buffer n) (rcvdLen : ℕ) (suffix : List UInt8) : Except Fault (Buffer n) := do
  let b ← removeLF b rcvdLen
  b.strcat suffix

def strippedText (b : Buffer n) (rcvdLen : ℕ) : List UInt8 :=
  if b.cell (rcvdLen - 2) = lf ∧ rcvdLen - 2 < b.text.length then b.text.take (rcvdLen - 2)
  else b.text

theorem length_strippedText_le (b : Buffer n) (rcvdLen : ℕ) :
    (strippedText b rcvdLen).length ≤ b.text.length := by
  unfold strippedText
  split
  · exact List.length_take_le' ..
  · exact le_rfl

theorem removeLF_ok (b : Buffer n) (rcvdLen : ℕ) (h : 0 ∈ b.cells) (h2 : 2 ≤ rcvdLen)
    (hn : rcvdLen ≤ n) :
    ∃ c, removeLF b rcvdLen = .ok c ∧ c.text = strippedText b rcvdLen ∧ 0 ∈ c.cells := by
  have hi : (rcvdLen : ℤ) - 2 = ((rcvdLen - 2 : ℕ) : ℤ) := by omega
  rw [removeLF, hi, Buffer.read_nat b _ (by omega), ok_bind]
  by_cases hc : b.cell (rcvdLen - 2) = lf
  · obtain ⟨htext, hnul⟩ := b.text_set_zero (rcvdLen - 2) h
    rw [if_pos hc, Buffer.write_eq b _ 0 rfl (by omega)]
    refine ⟨_, rfl, ?_, hnul⟩
    simp only [htext, strippedText, hc, true_and]
  · rw [if_neg hc]
    refine ⟨b, rfl, ?_, h⟩
    simp only [strippedText, hc, false_and, if_false]

theorem removeLF_short (b : Buffer n) (rcvdLen : ℕ) (h2 : rcvdLen < 2) :
    removeLF b rcvdLen = .error .outOfBounds := by
  rw [removeLF, Buffer.read_neg b _ (by omega), error_bind]

theorem answer_ok (b : Buffer n) (rcvdLen : ℕ) (suffix : List UInt8) (h : 0 ∈ b.cells)
    (hs : 0 ∉ suffix) (h2 : 2 ≤ rcvdLen) (hn : rcvdLen ≤ n)
    (hfit : (strippedText b rcvdLen).length + suffix.length < n) :
    ∃ c, answer b rcvdLen suffix = .ok c ∧ c.text = strippedText b rcvdLen ++ suffix ∧
      0 ∈ c.cells := by
  obtain ⟨c, hc, htext, hnul⟩ := removeLF_ok b rcvdLen h h2 hn
  obtain ⟨d, hd, hdtext, hdnul⟩ := c.strcat_ok suffix hnul hs (by rw [htext]; exact hfit)
  refine ⟨d, ?_, ?_, hdnul⟩
  · rw [answer, hc, ok_bind, hd]
  · rw [hdtext, htext]

theorem answer_isOk_iff (b : Buffer n) (rcvdLen : ℕ) (suffix : List UInt8) (h : 0 ∈ b.cells)
    (hs : 0 ∉ suffix) (hn : rcvdLen ≤ n) :
    (answer b rcvdLen suffix).isOk ↔
      2 ≤ rcvdLen ∧ (strippedText b rcvdLen).length + suffix.length < n := by
  by_cases h2 : 2 ≤ rcvdLen
  · by_cases hfit : (strippedText b rcvdLen).length + suffix.length < n
    · obtain ⟨c, hc, -⟩ := answer_ok b rcvdLen suffix h hs h2 hn hfit
      rw [hc]
      exact ⟨fun _ => ⟨h2, hfit⟩, fun _ => rfl⟩
    · obtain ⟨c, hc, htext, hnul⟩ := removeLF_ok b rcvdLen h h2 hn
      have herr : answer b rcvdLen suffix = .error .outOfBounds := by
        rw [answer, hc, ok_bind, c.strcat_error suffix hnul (by rw [htext]; omega)]
      rw [herr]
      exact iff_of_false (isOk_error _) fun hk => hfit hk.2
  · rw [answer, removeLF_short b rcvdLen (by omega), error_bind]
    exact iff_of_false (isOk_error _) fun hk => h2 hk.1

/-! ## A framed text -/

theorem text_framed (b : Buffer n) (s : List UInt8) (hs : 0 ∉ s) (hn : s.length < n) :
    (b.fill (s ++ [0])).text = s ∧ 0 ∈ (b.fill (s ++ [0])).cells := by
  have hlen : (s ++ [0]).length ≤ n := by
    rw [List.length_append, List.length_singleton]
    omega
  have hcells := b.cells_fill (s ++ [0]) hlen
  rw [List.append_assoc, List.singleton_append] at hcells
  exact ⟨Buffer.text_of_cells _ _ _ hcells hs, by rw [hcells]; simp⟩

/-- On a framed text the index `rcvdLen - 2` is that of the last byte. -/
theorem strippedText_framed (b : Buffer n) (s : List UInt8) (hs : 0 ∉ s) (hn : s.length < n)
    (hne : s ≠ []) : strippedText (b.fill (s ++ [0])) (s.length + 1) = strip s := by
  obtain ⟨htext, -⟩ := text_framed b s hs hn
  have hpos : 0 < s.length := List.length_pos_of_ne_nil hne
  have hi : s.length + 1 - 2 = s.length - 1 := by omega
  have hlast : (b.fill (s ++ [0])).cell (s.length - 1) = s.getLast hne := by
    have hlen : (s ++ [(0 : UInt8)]).length = s.length + 1 := List.length_append
    rw [Buffer.cell_fill _ _ _ (by omega), if_pos (by omega),
      List.getD_append _ _ _ _ (by omega), List.getD_eq_getElem _ _ (by omega),
      List.getLast_eq_getElem]
  have hlt : s.length - 1 < s.length := by omega
  simp only [strippedText, strip, htext, hi, hlast, hlt, and_true, List.getLast?_eq_getLast_of_ne_nil hne,
    Option.some.injEq, List.dropLast_eq_take]

theorem zero_notMem_strip (s : List UInt8) (hs : 0 ∉ s) : 0 ∉ strip s := by
  rw [strip]
  split
  · exact fun h => hs (List.mem_of_mem_dropLast h)
  · exact hs

theorem length_strip_le (s : List UInt8) : (strip s).length ≤ s.length := by
  rw [strip]
  split
  · rw [List.length_dropLast]
    omega
  · exact le_rfl

end
end LinuxAppSamp.Messages
