import LinuxAppSamp.Transfer.Client

/-! # Trailers that lead out of `s_rxBuf`

`s_rxBuf` is ten bytes longer than a packet, but the position in the trailer can be any number of
two bytes, and `rcvDataBlock` stores a zero there. `rcvDataBlock_inside_iff` gives the received
bytes for which every access stays in the array.
-/

namespace LinuxAppSamp.Transfer
open Memory
set_option autoImplicit false
set_option maxHeartbeats 250000

/-- A trailer byte of a record, zero where it did not arrive. -/
def trailerA (P : ℕ) (msg : List UInt8) : UInt8 := msg.getD (eofPosA P) 0
def trailerB (P : ℕ) (msg : List UInt8) : UInt8 := msg.getD (eofPosB P) 0

/-- The trailer holds a data code, or its position is one of the `P + 10` of the array. -/
def TrailerInside (P : ℕ) (msg : List UInt8) : Prop :=
  trailerA P msg = kDataCode ∨ trailerB P msg = kDataCode ∨
    (trailerA P msg).toNat * 256 + (trailerB P msg).toNat < P + 10

theorem posA_eq (P : ℕ) (msg : List UInt8) (hm : msg.length ≤ P + 3) :
    posA P msg = trailerA P msg :=
  cell_landed P msg hm (eofPosA P) (by unfold eofPosA; omega)

theorem posB_eq (P : ℕ) (msg : List UInt8) (hm : msg.length ≤ P + 3) :
    posB P msg = trailerB P msg :=
  cell_landed P msg hm (eofPosB P) (by unfold eofPosB eofPosA; omega)

theorem trailerInside_iff (P : ℕ) (msg : List UInt8) (hm : msg.length ≤ P + 3) :
    TrailerInside P msg ↔ CodeInTrailer P msg ∨ eofPos P msg < P + 10 := by
  unfold TrailerInside CodeInTrailer eofPos
  rw [posA_eq P msg hm, posB_eq P msg hm, or_assoc]

theorem rcvDataBlock_isOk (P : ℕ) (msg : List UInt8) (rcvOK : Bool) (hm : msg.length ≤ P + 3) :
    (rcvDataBlock P (.data msg) rcvOK).isOk ↔ TrailerInside P msg := by
  rw [rcvDataBlock_data P msg rcvOK hm, trailerInside_iff P msg hm]
  by_cases hC : CodeInTrailer P msg
  · rw [if_pos hC]
    exact iff_of_true rfl (Or.inl hC)
  · rw [if_neg hC]
    by_cases h0 : eofPos P msg = 0
    · rw [if_pos h0]
      exact iff_of_true rfl (Or.inr (by omega))
    · rw [if_neg h0]
      by_cases hin : eofPos P msg < P + 10
      · rw [if_pos hin]
        exact iff_of_true rfl (Or.inr hin)
      · rw [if_neg hin]
        exact iff_of_false (isOk_error _) (not_or.mpr ⟨hC, hin⟩)

/-- **No access leaves `s_rxBuf` exactly when the trailer does not point outside it.** -/
theorem rcvDataBlock_inside_iff (P : ℕ) (msg : List UInt8) (rcvOK : Bool)
    (hm : msg.length ≤ P + 3) :
    (rcvDataBlock P (.data msg) rcvOK).isOk ↔
      msg.getD (P + 1) 0 = kDataCode ∨ msg.getD (P + 2) 0 = kDataCode ∨
        (msg.getD (P + 1) 0).toNat * 256 + (msg.getD (P + 2) 0).toNat < P + 10 :=
  rcvDataBlock_isOk P msg rcvOK hm

/-- The position 265 of a whole record lies in the array, 65535 does not. -/
theorem rcvDataBlock_inside_iff_records :
    (rcvDataBlock sizeOnePacket (.data (List.replicate (sizeOnePacket + 1) kDataCode ++ [1, 9]))
        true).isOk ∧
      ¬ (rcvDataBlock sizeOnePacket (.data (List.replicate (sizeOnePacket + 3) 255)) true).isOk := by
  have hfilled : ∀ (n i : ℕ) (a : UInt8), i < n → (List.replicate n a).getD i 0 = a := by
    intro n i a hi
    rw [List.getD_eq_getElem _ _ (by rw [List.length_replicate]; exact hi), List.getElem_replicate]
  have hlen : (List.replicate (sizeOnePacket + 1) kDataCode ++ [1, 9]).length = sizeOnePacket + 3 := by
    rw [List.length_append, List.length_replicate]
    rfl
  refine ⟨(rcvDataBlock_inside_iff sizeOnePacket _ true hlen.le).mpr (.inr (.inr ?_)),
    (rcvDataBlock_inside_iff sizeOnePacket _ true List.length_replicate.le).not.mpr ?_⟩
  · rw [List.getD_append_right _ _ _ _ List.length_replicate.le, List.getD_append_right _ _ _ _
      (by rw [List.length_replicate]; omega), List.length_replicate]
    decide
  · rw [hfilled _ _ 255 (by omega), hfilled _ _ 255 (by omega)]
    decide

/-- A record of bytes 255 has the end position 65535. -/
theorem rcvDataBlock_leaves_rxBuf :
    ¬ ∀ (P : ℕ) (msg : List UInt8) (rcvOK : Bool), 10 ≤ P → P ≤ 65535 → msg.length ≤ P + 3 →
      (rcvDataBlock P (.data msg) rcvOK).isOk := by
  intro h
  let msg : List UInt8 := List.replicate (sizeOnePacket + 3) 255
  have hlen : msg.length ≤ sizeOnePacket + 3 := List.length_replicate.le
  have hget : ∀ i, i < sizeOnePacket + 3 → msg.getD i 0 = 255 := by
    intro i hi
    rw [List.getD_eq_getElem _ _ (by rw [List.length_replicate]; exact hi), List.getElem_replicate]
  have hA : trailerA sizeOnePacket msg = 255 := hget _ (by decide)
  have hB : trailerB sizeOnePacket msg = 255 := hget _ (by decide)
  have hok := h sizeOnePacket msg true (by decide) (by decide) hlen
  rw [rcvDataBlock_isOk _ _ _ hlen, TrailerInside, hA, hB] at hok
  exact absurd hok (by decide)

end LinuxAppSamp.Transfer
