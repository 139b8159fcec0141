import LinuxAppSamp.Transfer.Server

/-! # The 1 MB receiver: `app_05tcp_trans1MB_client.c`

`rcvDataBlock` is one call of the source function on what its `recv` returned. The `return;` of
its error path gives no value; the caller then uses whatever it finds, so that value is part of
the input (`residue`). `clientTurn` is one turn of the `while (1)` of `main`, and `clientMain` is
`main` from its first `recv` on.

`rcvDataBlock_data` is the closed form on received bytes. It reads the zero-padded buffer
`landed`, and says which of the four ends a call has: the early return on a data code in the
trailer, a fault on a position outside the buffer, an end-of-file record, a plain record.
-/

namespace LinuxAppSamp.Transfer
open Memory Messages Execution
set_option autoImplicit false
set_option maxHeartbeats 250000

inductive RecvResult
  | error (residue : Bool)
  | data (msg : List UInt8)
  deriving DecidableEq, Repr

inductive Line
  | rcvdFail                                     -- rcvd fail
  | dataCodeAtEOFPos (rcvdLen : ℕ)               -- rcvd Datacode at EOF_POS_A or EOF_POS_B %d
  | firstTwo (c0 c1 : UInt8)                     -- %c%c at 0,1
  | eofFound (rcvdLen : ℕ) (posA posB : UInt8)   -- %d %d %d
  | rcvFailed                                    -- rcv failed
  deriving DecidableEq, Repr

/-- A call's return value, `*prcvOK` after it, its `size` where one was set, and its output. -/
structure RcvOutcome where
  rcvdEOF : Bool
  rcvOK : Bool
  size : Option ℕ
  lines : List Line
  deriving DecidableEq, Repr

section
variable {n : ℕ}

/-- The checking loop: `left` bytes from `loop` on are compared with `kDataCode`. -/
def checkFrom (b : Buffer n) (loop : ℕ) : ℕ → Bool → Except Fault Bool
  | 0, rcvOK => .ok rcvOK
  | left + 1, rcvOK => do
    let c ← b.read loop
    checkFrom b (loop + 1) left (if c ≠ kDataCode then false else rcvOK)

end

def rcvDataBlock (P : ℕ) (r : RecvResult) (rcvOK : Bool) : Except Fault RcvOutcome :=
  match r with
  | .error residue => .ok ⟨residue, rcvOK, none, [.rcvdFail]⟩
  | .data msg => do
    let (rxBuf, rcvdLen) := (Buffer.zero (P + 10)).recv (eofPosB P + 1) msg
    let a ← rxBuf.read (eofPosA P)
    let b ← rxBuf.read (eofPosB P)
    if a = kDataCode ∨ b = kDataCode then do
      let c0 ← rxBuf.read 0
      let c1 ← rxBuf.read 1
      .ok ⟨false, true, none, [.dataCodeAtEOFPos rcvdLen, .firstTwo c0 c1]⟩
    else
      let eofPos := a.toNat * 256 + b.toNat
      if eofPos > 0 then do
        let rxBuf ← rxBuf.write eofPos 0
        let ok ← checkFrom rxBuf 5 (eofPos - 5 - 5) true
        .ok ⟨true, ok, some eofPos, [.eofFound rcvdLen a b]⟩
      else do
        let ok ← checkFrom rxBuf 5 (P - 5 - 5) true
        .ok ⟨false, ok, some P, []⟩

/-! ## `main` -/

structure ClientState where
  cnt : ℕ
  rcvOK : Bool
  deriving DecidableEq, Repr

structure Pass where
  recv : RecvResult
  rcvdEOF : Bool
  rcvOK : Bool
  lines : List Line
  deriving DecidableEq, Repr

def clientTurn (P : ℕ) (s : ClientState) (r : RecvResult) : Except Fault (Turn ClientState Pass) := do
  let o ← rcvDataBlock P r s.rcvOK
  let failed := if o.rcvOK = false then [Line.rcvFailed] else []
  .ok ⟨⟨s.cnt + 1, o.rcvOK⟩, [⟨r, o.rcvdEOF, o.rcvOK, o.lines ++ failed⟩], o.rcvdEOF⟩

def clientRequest : List UInt8 := req ++ [0]

/-- `main` after its `send`: the reply is printed, then the loop runs on the later results.
`rcvBuf` and `rcvOK` are not initialised in the source. -/
def clientMain (P : ℕ) (rcvBuf : Buffer sizeRcvBuf) (rcvOK : Bool) (reply : RecvResult)
    (rs : List RecvResult) :
    Except Fault (List UInt8 × Option (Outcome ClientState RecvResult Pass)) :=
  match reply with
  | .error _ => do
    let t ← rcvBuf.str
    let o ← loop (clientTurn P) ⟨0, rcvOK⟩ rs
    .ok (bytes ['r', 'x', ':'] ++ t ++ [lf], some o)
  | .data msg =>
    let (rcvBuf, rcvdLen) := rcvBuf.recv sizeRcvBuf msg
    if rcvdLen = 0 then .ok ([], none)
    else do
      let t ← rcvBuf.str
      let o ← loop (clientTurn P) ⟨0, rcvOK⟩ rs
      .ok (bytes ['r', 'x', ':'] ++ t ++ [lf], some o)

/-! ## The closed form of `rcvDataBlock` -/

/-- `s_rxBuf` after the `memset` and the `recv`. -/
def landed (P : ℕ) (msg : List UInt8) : Buffer (P + 10) :=
  ((Buffer.zero (P + 10)).recv (eofPosB P + 1) msg).1

theorem cell_landed (P : ℕ) (msg : List UInt8) (hm : msg.length ≤ P + 3) (i : ℕ) (hi : i < P + 10) :
    (landed P msg).cell i = msg.getD i 0 := by
  rw [landed, Buffer.recv_eq _ _ _ (by simpa [eofPosB, eofPosA] using hm), Buffer.cell_fill _ _ _ hi,
    Buffer.cell_zero]
  split
  · rfl
  · rw [List.getD_eq_default _ _ (by omega)]

/-- The trailer byte A as it lands; zero when the message ends before it. -/
def posA (P : ℕ) (msg : List UInt8) : UInt8 := (landed P msg).cell (eofPosA P)
def posB (P : ℕ) (msg : List UInt8) : UInt8 := (landed P msg).cell (eofPosB P)

def eofPos (P : ℕ) (msg : List UInt8) : ℕ := (posA P msg).toNat * 256 + (posB P msg).toNat

def CodeInTrailer (P : ℕ) (msg : List UInt8) : Prop :=
  posA P msg = kDataCode ∨ posB P msg = kDataCode

def Checked (P : ℕ) (msg : List UInt8) (size : ℕ) : Prop :=
  ∀ i, 5 ≤ i → i < size - 5 → (landed P msg).cell i = kDataCode

instance (P : ℕ) (msg : List UInt8) : Decidable (CodeInTrailer P msg) :=
  inferInstanceAs (Decidable (_ ∨ _))

instance (P : ℕ) (msg : List UInt8) (size : ℕ) : Decidable (Checked P msg size) :=
  decidable_of_iff (∀ i, i < size - 5 → 5 ≤ i → (landed P msg).cell i = kDataCode)
    ⟨fun h i h5 hi => h i hi h5, fun h i hi h5 => h i h5 hi⟩

theorem checkFrom_eq {n : ℕ} (b : Buffer n) (loop left : ℕ) (rcvOK : Bool) (h : loop + left ≤ n) :
    checkFrom b loop left rcvOK =
      .ok (rcvOK && decide (∀ i < loop + left, loop ≤ i → b.cell i = kDataCode)) := by
  induction left generalizing loop rcvOK with
  | zero =>
    have hall : ∀ i < loop + 0, loop ≤ i → b.cell i = kDataCode := fun i h1 h2 => by omega
    rw [checkFrom, decide_eq_true hall, Bool.and_true]
  | succ left ih =>
    rw [checkFrom, Buffer.read_nat b loop (by omega), ok_bind, ih (loop + 1) _ (by omega)]
    by_cases hc : b.cell loop = kDataCode
    · have hiff : (∀ i < loop + 1 + left, loop + 1 ≤ i → b.cell i = kDataCode) ↔
          ∀ i < loop + (left + 1), loop ≤ i → b.cell i = kDataCode := by
        constructor
        · intro hall i hi hle
          by_cases he : i = loop
          · rw [he, hc]
          · exact hall i (by omega) (by omega)
        · exact fun hall i hi hle => hall i (by omega) (by omega)
      rw [if_neg (not_not.mpr hc), decide_eq_decide.mpr hiff]
    · have hex : ¬ ∀ i < loop + (left + 1), loop ≤ i → b.cell i = kDataCode :=
        fun hall => hc (hall loop (by omega) le_rfl)
      rw [if_pos hc, decide_eq_false hex, Bool.false_and, Bool.and_false]

theorem checked_iff (P : ℕ) (msg : List UInt8) (size : ℕ) :
    (∀ i < 5 + (size - 5 - 5), 5 ≤ i → (landed P msg).cell i = kDataCode) ↔ Checked P msg size := by
  constructor
  · exact fun h i h5 hi => h i (by omega) h5
  · exact fun h i hi h5 => h i h5 (by omega)

theorem rcvDataBlock_data (P : ℕ) (msg : List UInt8) (rcvOK : Bool) (hm : msg.length ≤ P + 3) :
    rcvDataBlock P (.data msg) rcvOK =
      if CodeInTrailer P msg then
        .ok ⟨false, true, none,
          [.dataCodeAtEOFPos msg.length, .firstTwo (msg.getD 0 0) (msg.getD 1 0)]⟩
      else if eofPos P msg = 0 then .ok ⟨false, decide (Checked P msg P), some P, []⟩
      else if eofPos P msg < P + 10 then
        .ok ⟨true, decide (Checked P msg (eofPos P msg)), some (eofPos P msg),
          [.eofFound msg.length (posA P msg) (posB P msg)]⟩
      else .error .outOfBounds := by
  have hrecv := Buffer.recv_eq (Buffer.zero (P + 10)) (eofPosB P + 1) msg
    (by simpa [eofPosB, eofPosA] using hm)
  have hland : (Buffer.zero (P + 10)).fill msg = landed P msg := by rw [landed, hrecv]
  have hA : eofPosA P < P + 10 := by simp [eofPosA]
  have hB : eofPosB P < P + 10 := by simp [eofPosB, eofPosA]
  have hread : ∀ (z : ℤ) (i : ℕ), z = i → i < P + 10 →
      (landed P msg).read z = .ok ((landed P msg).cell i) := by
    rintro _ i rfl hi
    exact Buffer.read_nat _ i hi
  simp only [rcvDataBlock, hrecv, hland]
  rw [hread _ (eofPosA P) rfl hA, ok_bind, hread _ (eofPosB P) rfl hB, ok_bind]
  change (if CodeInTrailer P msg then _ else if eofPos P msg > 0 then _ else _) = _
  by_cases hC : CodeInTrailer P msg
  · rw [if_pos hC, if_pos hC, hread 0 0 rfl (by omega), ok_bind, hread 1 1 rfl (by omega), ok_bind,
      cell_landed P msg hm 0 (by omega), cell_landed P msg hm 1 (by omega)]
  · rw [if_neg hC, if_neg hC]
    by_cases h0 : eofPos P msg = 0
    · rw [if_neg (by omega), if_pos h0, checkFrom_eq _ _ _ _ (by omega), ok_bind, Bool.true_and,
        decide_eq_decide.mpr (checked_iff P msg P)]
    · rw [if_pos (by omega), if_neg h0]
      change ((landed P msg).write (eofPos P msg) 0 >>= fun b =>
        checkFrom b 5 (eofPos P msg - 5 - 5) true >>= fun ok => _) = _
      by_cases hin : eofPos P msg < P + 10
      · -- the NUL stored at the end position lies behind every byte the loop checks
        have hkeep : (∀ i < 5 + (eofPos P msg - 5 - 5), 5 ≤ i →
            ((landed P msg).set (eofPos P msg) 0).cell i = kDataCode) ↔
            Checked P msg (eofPos P msg) := by
          rw [← checked_iff]
          refine forall₃_congr fun i hi h5 => ?_
          rw [Buffer.cell_set _ _ _ _ (by omega), if_neg (by omega)]
        rw [if_pos hin, Buffer.write_eq _ _ _ rfl hin, ok_bind, checkFrom_eq _ _ _ _ (by omega),
          ok_bind, Bool.true_and, decide_eq_decide.mpr hkeep]
        rfl
      · rw [if_neg hin, Buffer.write_nat_of_le _ _ _ (by omega), error_bind]

/-! ## The turns of the loop -/

def failedLines (ok : Prop) [Decidable ok] : List Line := if ok then [] else [.rcvFailed]

/-- The turn of a record that is neither rejected at its trailer nor the last. -/
def plainPass (P : ℕ) (msg : List UInt8) : Pass :=
  ⟨.data msg, false, decide (Checked P msg P), failedLines (Checked P msg P)⟩

def eofPass (P : ℕ) (msg : List UInt8) : Pass :=
  ⟨.data msg, true, decide (Checked P msg (eofPos P msg)),
    .eofFound msg.length (posA P msg) (posB P msg) :: failedLines (Checked P msg (eofPos P msg))⟩

/-- The turn that accepts its bytes unseen. -/
def codePass (msg : List UInt8) : Pass :=
  ⟨.data msg, false, true, [.dataCodeAtEOFPos msg.length, .firstTwo (msg.getD 0 0) (msg.getD 1 0)]⟩

section
variable {P : ℕ} {msg : List UInt8} (s : ClientState) (hm : msg.length ≤ P + 3)
include hm

theorem clientTurn_plain (hC : ¬ CodeInTrailer P msg) (h0 : eofPos P msg = 0) :
    clientTurn P s (.data msg) =
      .ok ⟨⟨s.cnt + 1, decide (Checked P msg P)⟩, [plainPass P msg], false⟩ := by
  rw [clientTurn, rcvDataBlock_data P msg _ hm, if_neg hC, if_pos h0, ok_bind]
  simp only [plainPass, failedLines, decide_eq_false_iff_not, ite_not, List.nil_append]

theorem clientTurn_eof (hC : ¬ CodeInTrailer P msg) (h0 : 0 < eofPos P msg)
    (hin : eofPos P msg < P + 10) :
    clientTurn P s (.data msg) =
      .ok ⟨⟨s.cnt + 1, decide (Checked P msg (eofPos P msg))⟩, [eofPass P msg], true⟩ := by
  rw [clientTurn, rcvDataBlock_data P msg _ hm, if_neg hC, if_neg (by omega), if_pos hin, ok_bind]
  simp only [eofPass, failedLines, decide_eq_false_iff_not, ite_not, List.cons_append,
    List.nil_append]

theorem clientTurn_code (hC : CodeInTrailer P msg) :
    clientTurn P s (.data msg) = .ok ⟨⟨s.cnt + 1, true⟩, [codePass msg], false⟩ := by
  rw [clientTurn, rcvDataBlock_data P msg _ hm, if_pos hC, ok_bind]
  rfl

theorem clientTurn_outside (hC : ¬ CodeInTrailer P msg) (hout : P + 10 ≤ eofPos P msg) :
    clientTurn P s (.data msg) = .error .outOfBounds := by
  rw [clientTurn, rcvDataBlock_data P msg _ hm, if_neg hC, if_neg (by omega), if_neg (by omega),
    error_bind]

end

theorem rcvFailed_mem_plainPass (P : ℕ) (msg : List UInt8) :
    Line.rcvFailed ∈ (plainPass P msg).lines ↔ ¬ Checked P msg P := by
  by_cases h : Checked P msg P <;> simp [plainPass, failedLines, h]

theorem rcvFailed_mem_eofPass (P : ℕ) (msg : List UInt8) :
    Line.rcvFailed ∈ (eofPass P msg).lines ↔ ¬ Checked P msg (eofPos P msg) := by
  by_cases h : Checked P msg (eofPos P msg) <;> simp [eofPass, failedLines, h]

theorem loop_plain (P : ℕ) (msgs : List (List UInt8)) (s : ClientState)
    (h : ∀ m ∈ msgs, m.length ≤ P + 3 ∧ ¬ CodeInTrailer P m ∧ eofPos P m = 0) :
    ∃ t, loop (clientTurn P) s (msgs.map .data) = .ok ⟨t, msgs.map (plainPass P), false, []⟩ := by
  let out : RecvResult → List Pass := fun
    | .data m => [plainPass P m]
    | .error _ => []
  have hstep : ∀ s, ∀ i ∈ msgs.map RecvResult.data,
      ∃ t, clientTurn P s i = .ok t ∧ t.leaves = false ∧ id t.out = out i := by
    intro s i hi
    obtain ⟨m, hm, rfl⟩ := List.mem_map.mp hi
    obtain ⟨hlen, hC, h0⟩ := h m hm
    exact ⟨_, clientTurn_plain s hlen hC h0, rfl, rfl⟩
  obtain ⟨t, os, ht, hos⟩ := loop_outputs id rfl (fun _ _ => rfl) out _ hstep s
  have hout : (msgs.map RecvResult.data).flatMap out = msgs.map (plainPass P) := by
    rw [List.flatMap_map, List.map_eq_flatMap]
  rw [id, hout] at hos
  exact ⟨t, by rw [ht, hos]⟩

theorem loop_block (P : ℕ) (msgs : List (List UInt8)) (last : List UInt8) (s : ClientState)
    (h : ∀ m ∈ msgs, m.length ≤ P + 3 ∧ ¬ CodeInTrailer P m ∧ eofPos P m = 0)
    (hlen : last.length ≤ P + 3) (hC : ¬ CodeInTrailer P last) (h0 : 0 < eofPos P last)
    (hin : eofPos P last < P + 10) :
    ∃ t, loop (clientTurn P) s ((msgs ++ [last]).map .data) =
      .ok ⟨t, msgs.map (plainPass P) ++ [eofPass P last], true, []⟩ := by
  obtain ⟨t, ht⟩ := loop_plain P msgs s h
  have happ := loop_append ht rfl [.data last]
  rw [loop_cons_leaves (clientTurn_eof t hlen hC h0 hin) rfl, ok_bind] at happ
  exact ⟨_, by rw [List.map_append, List.map_singleton, happ]⟩

/-- `cnt` counts the turns: each has read one result. -/
theorem loop_cnt {P : ℕ} {s : ClientState} {rs : List RecvResult}
    {r : Outcome ClientState RecvResult Pass} (h : loop (clientTurn P) s rs = .ok r) :
    r.state.cnt + r.rest.length = s.cnt + rs.length := by
  induction rs generalizing s r with
  | nil =>
    cases Except.ok.inj h
    rfl
  | cons i is ih =>
    obtain ⟨t, ht, hcases⟩ := loop_cons_inv h
    have hone : t.state.cnt = s.cnt + 1 := by
      rw [clientTurn] at ht
      obtain ⟨o, -, ho⟩ := bind_eq_ok ht
      cases Except.ok.inj ho
      rfl
    rw [List.length_cons]
    obtain ⟨-, rfl⟩ | ⟨-, q, hq, rfl⟩ := hcases
    · show t.state.cnt + is.length = _
      omega
    · have := ih hq
      show q.state.cnt + q.rest.length = _
      omega

end LinuxAppSamp.Transfer
