import LinuxAppSamp.Foundations.Signed
import LinuxAppSamp.Messages.Reply

/-! # The 1 MB sender: `app_05tcp_trans1MB_server.c` and `app_05common.h`

The compile-time constants are variables: `P` is `SIZE_ONE_PACKET`, and `SIZE_LARGE_DATA` is the
length of the array `data` that stands for `s_largeData`. A record is `P` data bytes, one byte
more, and the two trailer bytes A and B at `EOF_POS_A = P + 1` and `EOF_POS_B = P + 2`. The `int`
variables of this file are never negative, so they are natural numbers, and a value above `INT_MAX`
is a fault.

`sendOnePacket_eq` gives the bytes of one record, position by position. `sendDataBlock_eq` gives
the whole block: record `k` carries the bytes from `k * P` on, and the last one is marked.
-/

namespace LinuxAppSamp.Transfer
open Memory Messages Execution Signed
set_option autoImplicit false
set_option maxHeartbeats 250000

/-! ## `app_05common.h` -/

def sizeOnePacket : ℕ := 8192
def sizeLargeData : ℕ := 1024000
def kDataCode : UInt8 := 67
def eofPosA (P : ℕ) : ℕ := P + 1
def eofPosB (P : ℕ) : ℕ := eofPosA P + 1

/-! ## The functions -/

def sizeRcvBuf : ℕ := 200

def sendReqOK (P : ℕ) (rxBuf : Buffer sizeRcvBuf) (rcvdLen : ℕ) : Except Fault (List Out) := do
  let rx ← rxBuf.str
  let txBuf ← (Buffer.zero (P + 10)).strcpy rx
  let txBuf ← answer txBuf rcvdLen commaOK
  let tx ← txBuf.str
  .ok [.send (tx ++ [0]), .print (bytes ['t', 'x', ':', ' '] ++ tx ++ [lf])]

/-- `left` passes of the loop of `setLargeData` remain, and `idx` is its counter. -/
def setLargeDataFrom (data : List UInt8) (idx : ℕ) : ℕ → Except Fault (List UInt8)
  | 0 => .ok data
  | left + 1 => do
    let next ← toInt (idx + 1)
    setLargeDataFrom (data.set idx kDataCode) next left

/-- `s_largeData` is static, so its `L` bytes start as zeros. -/
def setLargeData (L : ℕ) : Except Fault (List UInt8) :=
  setLargeDataFrom (List.replicate L 0) 0 L

/-- The value of `posA` or `posB`: an `unsigned char` keeps `v` modulo 256. -/
def trailerByte (P size : ℕ) (sendEOF : Bool) (v : ℕ) : UInt8 :=
  if size < P ∨ sendEOF = true then UInt8.ofNat v else 0

def sendOnePacket (P : ℕ) (pData : List UInt8) (start size : ℕ) (sendEOF : Bool) :
    Except Fault (List UInt8) := do
  let posA := trailerByte P size sendEOF (size / 256)
  let posB := trailerByte P size sendEOF (size % 256)
  let txBuf ← (Buffer.zero (P + 10)).memcpy pData start size
  let txBuf ← txBuf.write (eofPosA P : ℤ) posA
  let txBuf ← txBuf.write (eofPosB P : ℤ) posB
  let txBuf ← txBuf.write 0 48
  let txBuf ← txBuf.write 1 49
  let txBuf ← txBuf.write 2 50
  let txBuf ← txBuf.write ((eofPosA P : ℤ) - 1) 69
  let txBuf ← txBuf.write ((eofPosA P : ℤ) - 2) 69
  let txBuf ← txBuf.write ((eofPosA P : ℤ) - 3) 69
  -- dispBuf; the printf of it is compiled out by MODE_SILENT
  let _ ← txBuf.strncpy 20
  .ok (txBuf.cells.take (eofPosB P + 1))

/-- The `while (1)` of `sendDataBlock`; each pass uses one unit of fuel. -/
def sendDataBlockFrom (P : ℕ) (data : List UInt8) : ℕ → ℕ → ℕ → Except Fault (List (List UInt8))
  | 0, _, _ => .error .outOfFuel
  | fuel + 1, start, leftSize =>
    if leftSize = 0 then .ok []
    else if leftSize > P then do
      let r ← sendOnePacket P data start P false
      let start ← toInt (start + P)
      let rs ← sendDataBlockFrom P data fuel start (leftSize - P)
      .ok (r :: rs)
    else do
      let r ← sendOnePacket P data start leftSize true
      .ok [r]

def sendDataBlock (P : ℕ) (data : List UInt8) : Except Fault (List (List UInt8)) := do
  let leftSize ← toInt data.length
  sendDataBlockFrom P data (data.length + 1) 0 leftSize

def serverTurn (P : ℕ) (data : List UInt8) (rxBuf : Buffer sizeRcvBuf) :
    Received → Except Fault (Turn (Buffer sizeRcvBuf) Out)
  | .fail => .ok ⟨rxBuf, [], true⟩
  | .bytes msg =>
    let (rxBuf, rcvdLen) := rxBuf.recv sizeRcvBuf msg
    if rcvdLen = 0 then .ok ⟨rxBuf, [], true⟩
    else do
      let rx ← rxBuf.str
      if ¬ req <:+: rx then .ok ⟨rxBuf, [], false⟩
      else do
        let reply ← sendReqOK P rxBuf rcvdLen
        let records ← sendDataBlock P data
        .ok ⟨rxBuf, reply ++ records.map .send, false⟩

/-! ## `sendReqOK` -/

/-- The reply is edited in `s_txBuf`, where it always has room; two received bytes are needed. -/
theorem sendReqOK_ok (P : ℕ) (rxBuf : Buffer sizeRcvBuf) (rcvdLen : ℕ) (hP : sizeRcvBuf ≤ P)
    (hnul : 0 ∈ rxBuf.cells) (h2 : 2 ≤ rcvdLen) (hn : rcvdLen ≤ sizeRcvBuf) :
    ∃ txBuf : Buffer (P + 10), txBuf.text = rxBuf.text ∧
      ∃ printed, sendReqOK P rxBuf rcvdLen =
        .ok [.send (strippedText txBuf rcvdLen ++ commaOK ++ [0]), .print printed] := by
  have hlt := rxBuf.text_length_lt hnul
  obtain ⟨txBuf, hcpy, htext, htnul⟩ := (Buffer.zero (P + 10)).strcpy_ok rxBuf.text
    rxBuf.zero_notMem_text (by omega)
  have hle : (strippedText txBuf rcvdLen).length ≤ rxBuf.text.length := by
    rw [← htext]
    exact length_strippedText_le txBuf rcvdLen
  have h3 : commaOK.length = 3 := rfl
  obtain ⟨c, hc, hctext, hcnul⟩ := answer_ok txBuf rcvdLen commaOK htnul (by decide) h2 (by omega)
    (by unfold sizeRcvBuf at *; omega)
  refine ⟨txBuf, htext, bytes ['t', 'x', ':', ' '] ++ c.text ++ [lf], ?_⟩
  rw [sendReqOK, Buffer.str_ok _ hnul, ok_bind, hcpy, ok_bind, hc, ok_bind, Buffer.str_ok _ hcnul,
    ok_bind, hctext]

theorem sendReqOK_isOk_iff (P : ℕ) (rxBuf : Buffer sizeRcvBuf) (rcvdLen : ℕ)
    (hP : sizeRcvBuf ≤ P) (hnul : 0 ∈ rxBuf.cells) (hn : rcvdLen ≤ sizeRcvBuf) :
    (sendReqOK P rxBuf rcvdLen).isOk ↔ 2 ≤ rcvdLen := by
  by_cases h2 : 2 ≤ rcvdLen
  · obtain ⟨txBuf, -, printed, hsend⟩ := sendReqOK_ok P rxBuf rcvdLen hP hnul h2 hn
    rw [hsend]
    exact ⟨fun _ => h2, fun _ => rfl⟩
  · have hlt := rxBuf.text_length_lt hnul
    obtain ⟨txBuf, hcpy, -⟩ := (Buffer.zero (P + 10)).strcpy_ok rxBuf.text
      rxBuf.zero_notMem_text (by omega)
    rw [sendReqOK, Buffer.str_ok _ hnul, ok_bind, hcpy, ok_bind, answer,
      removeLF_short _ _ (by omega), error_bind, error_bind]
    exact iff_of_false (isOk_error _) h2

/-! ## `setLargeData` -/

theorem setLargeDataFrom_eq (left idx : ℕ) (h : idx + left ≤ intMax) :
    setLargeDataFrom (List.replicate idx kDataCode ++ List.replicate left 0) idx left =
      .ok (List.replicate (idx + left) kDataCode) := by
  induction left generalizing idx with
  | zero => simp [setLargeDataFrom]
  | succ left ih =>
    have hset : (List.replicate idx kDataCode ++ List.replicate (left + 1) 0).set idx kDataCode =
        List.replicate (idx + 1) kDataCode ++ List.replicate left 0 := by
      rw [List.set_append_right _ _ (by simp), List.length_replicate, Nat.sub_self,
        List.replicate_succ, List.set_cons_zero, List.replicate_succ', List.append_assoc,
        List.singleton_append]
    rw [setLargeDataFrom, toInt_ok _ (by omega), ok_bind, hset, ih (idx + 1) (by omega)]
    congr 2
    omega

theorem setLargeDataFrom_overflow (data : List UInt8) (left idx : ℕ) (hi : idx ≤ intMax)
    (h : intMax < idx + left) : setLargeDataFrom data idx left = .error .intRange := by
  induction left generalizing data idx with
  | zero => omega
  | succ left ih =>
    rw [setLargeDataFrom]
    by_cases hn : idx + 1 ≤ intMax
    · rw [toInt_ok _ hn, ok_bind, ih _ _ hn (by omega)]
    · rw [toInt, if_neg hn, error_bind]

theorem setLargeData_eq (L : ℕ) :
    setLargeData L = if L ≤ intMax then .ok (List.replicate L kDataCode) else .error .intRange := by
  by_cases h : L ≤ intMax
  · have := setLargeDataFrom_eq L 0 (by omega)
    rw [if_pos h, setLargeData]
    simpa using this
  · rw [if_neg h, setLargeData, setLargeDataFrom_overflow _ _ _ (by omega) (by omega)]

/-! ## One record -/

/-- Byte `i` of a record: the debug letters lie over the data, the trailer behind it. -/
def recordByte (P : ℕ) (data : List UInt8) (start size : ℕ) (sendEOF : Bool) (i : ℕ) : UInt8 :=
  if P - 2 ≤ i ∧ i ≤ P then 69
  else if i = 0 then 48
  else if i = 1 then 49
  else if i = 2 then 50
  else if i = eofPosA P then trailerByte P size sendEOF (size / 256)
  else if i = eofPosB P then trailerByte P size sendEOF (size % 256)
  else if i < size then data.getD (start + i) 0
  else 0

def record (P : ℕ) (data : List UInt8) (start size : ℕ) (sendEOF : Bool) : List UInt8 :=
  (List.range (P + 3)).map (recordByte P data start size sendEOF)

@[simp] theorem length_record (P : ℕ) (data : List UInt8) (start size : ℕ) (sendEOF : Bool) :
    (record P data start size sendEOF).length = P + 3 := by
  simp [record]

theorem getD_record (P : ℕ) (data : List UInt8) (start size : ℕ) (sendEOF : Bool) (i : ℕ)
    (hi : i < P + 3) :
    (record P data start size sendEOF).getD i 0 = recordByte P data start size sendEOF i := by
  rw [record, List.getD_eq_getElem _ _ (by simpa using hi), List.getElem_map, List.getElem_range]

theorem sendOnePacket_eq (P : ℕ) (data : List UInt8) (start size : ℕ) (sendEOF : Bool)
    (hP : 2 ≤ P) (hsize : size ≤ P) (hdata : start + size ≤ data.length) :
    sendOnePacket P data start size sendEOF = .ok (record P data start size sendEOF) := by
  obtain ⟨b, hb, hcell⟩ :=
    (Buffer.zero (P + 10)).memcpy_ok data start size hdata (by omega)
  simp only [sendOnePacket, hb, ok_bind]
  rw [Buffer.write_eq _ (eofPosA P) _ rfl (by simp [eofPosA]), ok_bind,
    Buffer.write_eq _ (eofPosB P) _ rfl (by simp [eofPosA, eofPosB]), ok_bind,
    Buffer.write_eq _ (z := 0) 0 _ rfl (by omega), ok_bind,
    Buffer.write_eq _ (z := 1) 1 _ rfl (by omega), ok_bind,
    Buffer.write_eq _ (z := 2) 2 _ rfl (by omega), ok_bind,
    Buffer.write_eq _ P _ (by simp [eofPosA]) (by omega), ok_bind,
    Buffer.write_eq _ (P - 1) _ (by simp [eofPosA]; omega) (by omega), ok_bind,
    Buffer.write_eq _ (P - 2) _ (by simp [eofPosA]; omega) (by omega), ok_bind]
  generalize hc : Buffer.set _ (P - 2) 69 = c
  have hcell' : ∀ i, i < P + 10 → c.cell i = recordByte P data start size sendEOF i := by
    intro i hi
    rw [← hc]
    simp only [Buffer.cell_set _ _ i _ hi, hcell, Buffer.cell_zero, recordByte, eofPosA, eofPosB]
    by_cases hE : P - 2 ≤ i ∧ i ≤ P
    · obtain rfl | rfl | rfl : i = P ∨ i = P - 1 ∨ i = P - 2 := by omega
      all_goals simp
      all_goals omega
    · have hne : P - 2 ≠ i ∧ P - 1 ≠ i ∧ P ≠ i := by omega
      rw [if_neg hE, if_neg hne.1, if_neg hne.2.1, if_neg hne.2.2]
      grind
  have hnul : 20 ≤ P + 10 ∨ 0 ∈ c.cells := by
    by_cases h : 20 ≤ P + 10
    · exact .inl h
    · refine .inr ?_
      have h0 : c.cell (P + 4) = 0 := by
        rw [hcell' _ (by omega), recordByte, if_neg (by omega), if_neg (by omega), if_neg (by omega),
          if_neg (by omega), if_neg (by simp [eofPosA]), if_neg (by simp [eofPosA, eofPosB]),
          if_neg (by omega)]
      rw [← h0]
      exact c.mem_cells _ (by omega)
  rw [Buffer.strncpy, if_pos hnul, ok_bind, record, Buffer.take_cells _ _ (by simp [eofPosA, eofPosB])]
  refine congrArg Except.ok (List.map_congr_left fun i hi => hcell' i ?_)
  have := List.mem_range.mp hi
  simp only [eofPosA, eofPosB] at this
  omega

/-! ## The whole block -/

def packetCount (P L : ℕ) : ℕ := (L + P - 1) / P

theorem packetCount_zero (P : ℕ) (hP : 0 < P) : packetCount P 0 = 0 := by
  rw [packetCount, Nat.zero_add]
  exact Nat.div_eq_of_lt (by omega)

theorem packetCount_small (P L : ℕ) (h0 : 0 < L) (hL : L ≤ P) : packetCount P L = 1 := by
  have he : L + P - 1 = L - 1 + P := by omega
  rw [packetCount, he, Nat.add_div_right _ (by omega), Nat.div_eq_of_lt (by omega)]

theorem packetCount_step (P L : ℕ) (hP : 0 < P) (hL : P < L) :
    packetCount P L = packetCount P (L - P) + 1 := by
  have he : L + P - 1 = L - P + P - 1 + P := by omega
  rw [packetCount, packetCount, he, Nat.add_div_right _ hP]

theorem packetCount_pos (P L : ℕ) (hP : 0 < P) (hL : 0 < L) : 0 < packetCount P L :=
  Nat.div_pos (by omega) hP

/-- Record `k` of the block that lies from `start` to the end of `data`. -/
def blockRecord (P : ℕ) (data : List UInt8) (start left k : ℕ) : List UInt8 :=
  record P data (start + k * P) (min P (left - k * P)) (decide (k + 1 = packetCount P left))

theorem blockRecord_zero_last (P : ℕ) (data : List UInt8) (start left : ℕ) (h0 : 0 < left)
    (hl : left ≤ P) : blockRecord P data start left 0 = record P data start left true := by
  simp [blockRecord, packetCount_small P left h0 hl, hl]

theorem blockRecord_zero_more (P : ℕ) (data : List UInt8) (start left : ℕ) (hP : 0 < P)
    (hl : P < left) : blockRecord P data start left 0 = record P data start P false := by
  have hpos : packetCount P (left - P) ≠ 0 :=
    Nat.pos_iff_ne_zero.mp (packetCount_pos P (left - P) hP (by omega))
  simp [blockRecord, packetCount_step P left hP hl, hl.le, hpos]

theorem blockRecord_succ (P : ℕ) (data : List UInt8) (start left k : ℕ) (hP : 0 < P)
    (hl : P < left) :
    blockRecord P data start left (k + 1) = blockRecord P data (start + P) (left - P) k := by
  have hmul : (k + 1) * P = k * P + P := Nat.succ_mul k P
  have hstart : start + (k + 1) * P = start + P + k * P := by omega
  have hleft : left - (k + 1) * P = left - P - k * P := by omega
  simp only [blockRecord, hstart, hleft, packetCount_step P left hP hl, Nat.add_right_cancel_iff]

theorem sendDataBlockFrom_eq (P : ℕ) (data : List UInt8) (hP : 2 ≤ P) (fuel start left : ℕ)
    (hend : start + left = data.length) (hL : data.length ≤ intMax) (hfuel : left < fuel) :
    sendDataBlockFrom P data fuel start left =
      .ok ((List.range (packetCount P left)).map (blockRecord P data start left)) := by
  induction fuel generalizing start left with
  | zero => omega
  | succ fuel ih =>
    rw [sendDataBlockFrom]
    by_cases h0 : left = 0
    · subst h0
      rw [if_pos rfl, packetCount_zero P (by omega)]
      rfl
    · rw [if_neg h0]
      by_cases hl : left > P
      · have hmore := blockRecord_zero_more P data start left (by omega) hl
        have hmap : ∀ k, blockRecord P data start left (k + 1) =
            blockRecord P data (start + P) (left - P) k :=
          fun k => blockRecord_succ P data start left k (by omega) hl
        rw [if_pos hl, sendOnePacket_eq P data start P false hP le_rfl (by omega), ok_bind,
          toInt_ok _ (by omega), ok_bind, ih (start + P) (left - P) (by omega) (by omega), ok_bind,
          packetCount_step P left (by omega) hl, List.range_succ_eq_map, List.map_cons, hmore,
          List.map_map]
        congr 3
        funext k
        exact (hmap k).symm
      · rw [if_neg hl, sendOnePacket_eq P data start left true hP (by omega) (by omega), ok_bind,
          packetCount_small P left (by omega) (by omega), List.range_one, List.map_singleton,
          blockRecord_zero_last P data start left (by omega) (by omega)]

theorem sendDataBlock_eq (P : ℕ) (data : List UInt8) (hP : 2 ≤ P) (hL : data.length ≤ intMax) :
    sendDataBlock P data = .ok ((List.range (packetCount P data.length)).map
      (blockRecord P data 0 data.length)) := by
  rw [sendDataBlock, toInt_ok _ hL, ok_bind,
    sendDataBlockFrom_eq P data hP _ 0 data.length (by omega) hL (by omega)]

end LinuxAppSamp.Transfer
