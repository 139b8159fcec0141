import LinuxAppSamp.Messages.Reply

/-! # Receiving from a message queue: `s_rcv`

`mqueue_1send_rcv.c` and `mqueue_3send_rcv_20msgs.c` send a text without its terminating NUL and
print what they receive up to the next NUL in a `malloc`ed buffer that all messages share.
`printed_iff` says for which buffers and messages every text comes out as it was sent.
-/

namespace LinuxAppSamp.Queue
open Memory Messages
set_option autoImplicit false
set_option maxHeartbeats 250000

/-! ## The functions -/

/-- A message as it lies in the queue: `mq_send` lets at most `mq_msgsize` bytes pass, and
`strlen(ptr)` bytes of a C string hold no NUL. -/
structure Message (msgsize : ℕ) where
  bytes : List UInt8
  fits : bytes.length ≤ msgsize
  nulFree : 0 ∉ bytes
  deriving DecidableEq, Repr

inductive Line
  | maxmsg (n : ℕ)                      -- maxmsg = %d
  | msgsize (n : ℕ)                     -- msgsize = %d
  | curmsgs (n : ℕ)                     -- curmsgs = %d
  | num (n : ℕ)                         --   num = %d
  | rcvd (msg : List UInt8)             --   rcvd > %s
  | rcvdAt (loop : ℕ) (msg : List UInt8) -- %d:  rcvd > %s
  deriving DecidableEq, Repr

section
variable {msgsize : ℕ}

/-- `mq_receive(mqd, buf, attr.mq_msgsize, &prio)` on the message at the head of the queue. -/
def mqReceive (buf : Buffer msgsize) (m : Message msgsize) : Buffer msgsize × ℕ :=
  buf.recv msgsize m.bytes

/-- The loop of `s_rcv` from pass `loop` on; `disp` is what a pass prints about its number, the
length and the text. -/
def rcvFrom (disp : ℕ → ℕ → List UInt8 → List Line) (buf : Buffer msgsize) (loop : ℕ) :
    List (Message msgsize) → Except Fault (List Line)
  | [] => .ok []
  | m :: ms => do
    let (buf, num) := mqReceive buf m
    let pmsg ← buf.str
    let rest ← rcvFrom disp buf (loop + 1) ms
    .ok (disp loop num pmsg ++ rest)

/-- `s_rcv` of `mqueue_1send_rcv.c` when `queue` holds the current messages. -/
def sRcv (maxmsg : ℕ) (buf : Buffer msgsize) (queue : List (Message msgsize)) :
    Except Fault (List Line) := do
  let lines ← rcvFrom (fun _ num pmsg => [.num num, .rcvd pmsg]) buf 0 queue
  .ok ([.maxmsg maxmsg, .msgsize msgsize, .curmsgs queue.length] ++ lines)

/-- `s_rcv` of `mqueue_3send_rcv_20msgs.c`, which prints the pass in place of the length. -/
def sRcv20 (maxmsg : ℕ) (buf : Buffer msgsize) (queue : List (Message msgsize)) :
    Except Fault (List Line) := do
  let lines ← rcvFrom (fun loop _ pmsg => [.rcvdAt loop pmsg]) buf 0 queue
  .ok ([.maxmsg maxmsg, .msgsize msgsize, .curmsgs queue.length] ++ lines)

/-- The texts of the messages that were printed as received. -/
def rcvdTexts (lines : List Line) : List (List UInt8) :=
  lines.filterMap fun
    | .rcvd text => some text
    | .rcvdAt _ text => some text
    | _ => none

/-! ## One message -/

/-- The byte at `i` is a NUL after a message exactly when it was one and the message is not
longer. -/
theorem cell_fill_zero (b : Buffer msgsize) (m : Message msgsize) (i : ℕ) (hi : i < msgsize) :
    (b.fill m.bytes).cell i = 0 ↔ m.bytes.length ≤ i ∧ b.cell i = 0 := by
  rw [Buffer.cell_fill _ _ _ hi]
  by_cases h : i < m.bytes.length
  · rw [if_pos h, List.getD_eq_getElem _ _ h]
    refine iff_of_false ?_ (by omega)
    intro hz
    exact m.nulFree (hz ▸ List.getElem_mem h)
  · rw [if_neg h]
    exact ⟨fun hz => ⟨by omega, hz⟩, fun hz => hz.2⟩

/-! ## All messages -/

/-- Each message leaves room for a NUL, and `malloc` happened to put one there. -/
def NulBehind (buf : Buffer msgsize) (queue : List (Message msgsize)) : Prop :=
  ∀ m ∈ queue, m.bytes.length < msgsize ∧ buf.cell m.bytes.length = 0

/-- No message is shorter than one before it. -/
def Lengthening (queue : List (Message msgsize)) : Prop :=
  queue.Pairwise fun m m' => m.bytes.length ≤ m'.bytes.length

/-- A pass prints its text, among other things. -/
def Shows (disp : ℕ → ℕ → List UInt8 → List Line) : Prop :=
  ∀ loop num pmsg, rcvdTexts (disp loop num pmsg) = [pmsg]

theorem nulBehind_cons (buf : Buffer msgsize) (m : Message msgsize)
    (queue : List (Message msgsize)) :
    (NulBehind buf (m :: queue) ∧ Lengthening (m :: queue)) ↔
      (m.bytes.length < msgsize ∧ buf.cell m.bytes.length = 0) ∧
        NulBehind (buf.fill m.bytes) queue ∧ Lengthening queue := by
  constructor
  · rintro ⟨hnul, hlen⟩
    obtain ⟨hm, hlen⟩ := List.pairwise_cons.mp hlen
    refine ⟨hnul m List.mem_cons_self, ?_, hlen⟩
    intro m' hm'
    obtain ⟨hlt, hzero⟩ := hnul m' (List.mem_cons_of_mem m hm')
    exact ⟨hlt, (cell_fill_zero buf m _ hlt).mpr ⟨hm m' hm', hzero⟩⟩
  · rintro ⟨hm, hnul, hlen⟩
    refine ⟨?_, List.pairwise_cons.mpr ⟨?_, hlen⟩⟩
    · intro m' hm'
      obtain rfl | hm' := List.mem_cons.mp hm'
      · exact hm
      · obtain ⟨hlt, hzero⟩ := hnul m' hm'
        exact ⟨hlt, ((cell_fill_zero buf m _ hlt).mp hzero).2⟩
    · intro m' hm'
      obtain ⟨hlt, hzero⟩ := hnul m' hm'
      exact ((cell_fill_zero buf m _ hlt).mp hzero).1

theorem rcvFrom_cons (disp : ℕ → ℕ → List UInt8 → List Line) (buf : Buffer msgsize) (loop : ℕ)
    (m : Message msgsize) (queue : List (Message msgsize)) :
    rcvFrom disp buf loop (m :: queue) =
      ((buf.fill m.bytes).str >>= fun pmsg =>
        rcvFrom disp (buf.fill m.bytes) (loop + 1) queue >>= fun rest =>
          .ok (disp loop m.bytes.length pmsg ++ rest)) := by
  have hrecv : mqReceive buf m = (buf.fill m.bytes, m.bytes.length) :=
    Buffer.recv_eq buf msgsize m.bytes m.fits
  rw [rcvFrom, hrecv]

theorem rcvFrom_texts_iff (disp : ℕ → ℕ → List UInt8 → List Line) (hdisp : Shows disp)
    (buf : Buffer msgsize) (loop : ℕ) (queue : List (Message msgsize)) :
    (∃ lines, rcvFrom disp buf loop queue = .ok lines ∧
      rcvdTexts lines = queue.map Message.bytes) ↔ NulBehind buf queue ∧ Lengthening queue := by
  induction queue generalizing buf loop with
  | nil =>
    refine iff_of_true ⟨[], rfl, rfl⟩ ⟨?_, List.Pairwise.nil⟩
    exact fun m hm => absurd hm List.not_mem_nil
  | cons m queue ih =>
    rw [nulBehind_cons, ← Buffer.str_fill_iff _ _ m.fits m.nulFree,
      ← ih (buf.fill m.bytes) (loop + 1), rcvFrom_cons]
    constructor
    · rintro ⟨lines, hlines, htexts⟩
      obtain ⟨pmsg, hpmsg, hlines⟩ := bind_eq_ok hlines
      obtain ⟨rest, hrest, hlines⟩ := bind_eq_ok hlines
      cases Except.ok.inj hlines
      rw [rcvdTexts, List.filterMap_append] at htexts
      change rcvdTexts (disp loop _ pmsg) ++ rcvdTexts rest = _ at htexts
      rw [hdisp, List.map_cons] at htexts
      obtain ⟨hhead, htail⟩ := List.cons.inj htexts
      exact ⟨by rw [hpmsg, hhead], rest, hrest, htail⟩
    · rintro ⟨hstr, rest, hrest, htexts⟩
      refine ⟨disp loop m.bytes.length m.bytes ++ rest, by rw [hstr, ok_bind, hrest, ok_bind], ?_⟩
      rw [rcvdTexts, List.filterMap_append]
      change rcvdTexts (disp loop _ _) ++ rcvdTexts rest = _
      rw [hdisp, htexts]
      rfl

/-- `run` does not read outside the buffer, and prints the text of every message as sent. -/
def PrintsAll (queue : List (Message msgsize)) (run : Except Fault (List Line)) : Prop :=
  ∃ lines, run = .ok lines ∧ rcvdTexts lines = queue.map Message.bytes

theorem printsAll_header (header : List Line) (hheader : rcvdTexts header = [])
    (queue : List (Message msgsize)) (run : Except Fault (List Line)) :
    PrintsAll queue (run >>= fun lines => .ok (header ++ lines)) ↔ PrintsAll queue run := by
  have happ : ∀ lines, rcvdTexts (header ++ lines) = rcvdTexts lines := by
    intro lines
    rw [rcvdTexts, List.filterMap_append]
    show rcvdTexts header ++ rcvdTexts lines = _
    rw [hheader, List.nil_append]
  constructor
  · rintro ⟨all, hall, htexts⟩
    obtain ⟨lines, hlines, hall⟩ := bind_eq_ok hall
    cases Except.ok.inj hall
    exact ⟨lines, hlines, (happ lines).symm.trans htexts⟩
  · rintro ⟨lines, hlines, htexts⟩
    exact ⟨header ++ lines, by rw [hlines, ok_bind], (happ lines).trans htexts⟩

/-- **The messages are printed as sent exactly when a NUL happens to lie behind each of them**,
by the content of the fresh buffer and because no longer message came before. -/
theorem printed_iff (maxmsg : ℕ) (buf : Buffer msgsize) (queue : List (Message msgsize)) :
    (PrintsAll queue (sRcv maxmsg buf queue) ↔ NulBehind buf queue ∧ Lengthening queue) ∧
      (PrintsAll queue (sRcv20 maxmsg buf queue) ↔
        NulBehind buf queue ∧ Lengthening queue) := by
  constructor
  · exact (printsAll_header _ rfl queue _).trans
      (rcvFrom_texts_iff _ (fun _ _ _ => rfl) buf 0 queue)
  · exact (printsAll_header _ rfl queue _).trans
      (rcvFrom_texts_iff _ (fun _ _ _ => rfl) buf 0 queue)

end

/-- A shorter message gets the rest of the longer one before it. -/
theorem longer_first_not_printed :
    ¬ ∀ (msgsize maxmsg : ℕ) (buf : Buffer msgsize) (queue : List (Message msgsize)),
      PrintsAll queue (sRcv maxmsg buf queue) := by
  intro h
  obtain ⟨lines, hrun, htexts⟩ := h 4 10 (Buffer.zero 4)
    [⟨[65, 66], by decide, by decide⟩, ⟨[67], by decide, by decide⟩]
  have hlines : lines =
      [.maxmsg 10, .msgsize 4, .curmsgs 2, .num 2, .rcvd [65, 66], .num 1, .rcvd [67, 66]] :=
    (Except.ok.inj hrun).symm
  rw [hlines] at htexts
  exact absurd htexts (by decide)

end LinuxAppSamp.Queue
