import LinuxAppSamp.Transfer.Blocks

/-! # Which byte strings `rcvDataBlock` accepts

`*prcvOK` should be set only by a complete record whose checked bytes are all the data code. Two
kinds of input get through all the same: a trailer with a data code in it, which returns before
the check, and a short record whose missing bytes the check never looks at. `SlipsThrough` is
their exact description on the received bytes, `acceptsOnlyIntact_iff` the theorem.
-/

namespace LinuxAppSamp.Transfer
open Memory
set_option autoImplicit false
set_option maxHeartbeats 250000

/-- The size a trailer stands for: its position when positive, a full packet otherwise. -/
def recordSize (P : ℕ) (msg : List UInt8) : ℕ := if 0 < eofPos P msg then eofPos P msg else P

/-- A whole record arrived, and its bytes at the offsets to check are the data code. -/
def Intact (P : ℕ) (msg : List UInt8) : Prop :=
  msg.length = P + 3 ∧
    ∀ i, 5 ≤ i → i < recordSize P msg - 5 → i < P + 3 → msg.getD i 0 = kDataCode

def AcceptsOnlyIntact (P : ℕ) (msg : List UInt8) : Prop :=
  ∀ rcvOK o, rcvDataBlock P (.data msg) rcvOK = .ok o → o.rcvOK = true → Intact P msg

/-- What is accepted without being intact: a data code in the trailer of any other record, and a
short record whose trailer points into the buffer and whose checked bytes are all there. -/
def SlipsThrough (P : ℕ) (msg : List UInt8) : Prop :=
  CodeInTrailer P msg ∧ ¬ Intact P msg ∨
    ¬ CodeInTrailer P msg ∧ msg.length < P + 3 ∧ eofPos P msg < P + 10 ∧
      ∀ i, 5 ≤ i → i < recordSize P msg - 5 → msg.getD i 0 = kDataCode

theorem checked_iff_getD (P : ℕ) (msg : List UInt8) (size : ℕ) (hm : msg.length ≤ P + 3)
    (hsize : size < P + 10) :
    Checked P msg size ↔ ∀ i, 5 ≤ i → i < size - 5 → msg.getD i 0 = kDataCode := by
  refine forall_congr' fun i => imp_congr_right fun h5 => imp_congr_right fun hi => ?_
  rw [cell_landed P msg hm i (by omega)]

theorem rcvOK_of_data (P : ℕ) (msg : List UInt8) (rcvOK : Bool) (hm : msg.length ≤ P + 3)
    (hC : ¬ CodeInTrailer P msg) (hin : eofPos P msg < P + 10) :
    ∃ o, rcvDataBlock P (.data msg) rcvOK = .ok o ∧
      (o.rcvOK = true ↔ ∀ i, 5 ≤ i → i < recordSize P msg - 5 → msg.getD i 0 = kDataCode) := by
  have hcall := rcvDataBlock_data P msg rcvOK hm
  rw [if_neg hC] at hcall
  by_cases h0 : eofPos P msg = 0
  · rw [if_pos h0] at hcall
    refine ⟨_, hcall, ?_⟩
    rw [recordSize, if_neg (by omega), decide_eq_true_iff]
    exact checked_iff_getD P msg P hm (by omega)
  · rw [if_neg h0, if_pos hin] at hcall
    refine ⟨_, hcall, ?_⟩
    rw [recordSize, if_pos (by omega), decide_eq_true_iff]
    exact checked_iff_getD P msg (eofPos P msg) hm hin

theorem not_acceptsOnlyIntact (P : ℕ) (msg : List UInt8) (hm : msg.length ≤ P + 3)
    (h : SlipsThrough P msg) : ¬ AcceptsOnlyIntact P msg := by
  intro hacc
  rcases h with ⟨hC, hni⟩ | ⟨hC, hshort, hin, hchk⟩
  · have hcall := rcvDataBlock_data P msg true hm
    rw [if_pos hC] at hcall
    exact hni (hacc true _ hcall rfl)
  · obtain ⟨o, ho, hiff⟩ := rcvOK_of_data P msg true hm hC hin
    have hwhole := (hacc true o ho (hiff.mpr hchk)).1
    omega

theorem acceptsOnlyIntact_of_not (P : ℕ) (msg : List UInt8) (hm : msg.length ≤ P + 3)
    (h : ¬ SlipsThrough P msg) : AcceptsOnlyIntact P msg := by
  intro rcvOK o ho hok
  by_cases hC : CodeInTrailer P msg
  · by_contra hni
    exact h (.inl ⟨hC, hni⟩)
  · by_cases hin : eofPos P msg < P + 10
    · obtain ⟨o', ho', hiff⟩ := rcvOK_of_data P msg rcvOK hm hC hin
      rw [ho] at ho'
      cases Except.ok.inj ho'
      have hchk := hiff.mp hok
      refine ⟨?_, fun i h5 hi _ => hchk i h5 hi⟩
      by_contra hlen
      exact h (.inr ⟨hC, by omega, hin, hchk⟩)
    · have hcall := rcvDataBlock_data P msg rcvOK hm
      rw [if_neg hC, if_neg (by omega), if_neg hin, ho] at hcall
      cases hcall

theorem acceptsOnlyIntact_iff (P : ℕ) (msg : List UInt8) (hm : msg.length ≤ P + 3) :
    AcceptsOnlyIntact P msg ↔ ¬ SlipsThrough P msg :=
  ⟨fun h hs => not_acceptsOnlyIntact P msg hm hs h, acceptsOnlyIntact_of_not P msg hm⟩

/-- Eight bytes are missing, trailer included. -/
def truncated : List UInt8 := List.replicate (sizeOnePacket - 5) kDataCode

theorem slipsThrough_truncated :
    truncated.length ≤ sizeOnePacket + 3 ∧ SlipsThrough sizeOnePacket truncated := by
  have hlen : truncated.length = 8187 := List.length_replicate
  have hm : truncated.length ≤ sizeOnePacket + 3 := by
    rw [hlen]
    decide
  have hzero : ∀ i, 8187 ≤ i → i < sizeOnePacket + 10 → (landed sizeOnePacket truncated).cell i = 0 := by
    intro i hi hi'
    rw [cell_landed _ _ hm i hi', List.getD_eq_default _ _ (by omega)]
  have hA : posA sizeOnePacket truncated = 0 := hzero _ (by decide) (by decide)
  have hB : posB sizeOnePacket truncated = 0 := hzero _ (by decide) (by decide)
  have h0 : eofPos sizeOnePacket truncated = 0 := by
    rw [eofPos, hA, hB]
    rfl
  refine ⟨hm, .inr ⟨?_, ?_, ?_, fun i h5 hi => ?_⟩⟩
  · rw [CodeInTrailer, hA, hB]
    decide
  · rw [hlen]
    decide
  · rw [h0]
    decide
  · rw [recordSize, h0, if_neg (by decide)] at hi
    have hlt : i < truncated.length := by
      rw [hlen]
      unfold sizeOnePacket at hi
      omega
    rw [List.getD_eq_getElem _ _ hlt]
    exact List.getElem_replicate _

theorem accepts_truncated : ¬ AcceptsOnlyIntact sizeOnePacket truncated :=
  not_acceptsOnlyIntact _ _ slipsThrough_truncated.1 slipsThrough_truncated.2

/-- A full record of data codes as the server sends it. -/
def wholeRecord : List UInt8 :=
  record sizeOnePacket (List.replicate sizeOnePacket kDataCode) 0 sizeOnePacket false

theorem wholeRecord_accepted :
    Intact sizeOnePacket wholeRecord ∧
      ∃ o, rcvDataBlock sizeOnePacket (.data wholeRecord) false = .ok o ∧ o.rcvOK = true := by
  obtain ⟨hC, h0⟩ := trailer_full sizeOnePacket (List.replicate sizeOnePacket kDataCode) 0 (by decide)
  have hm : wholeRecord.length = sizeOnePacket + 3 := length_record _ _ _ _ _
  have hsize : recordSize sizeOnePacket wholeRecord = sizeOnePacket := if_neg (Nat.not_lt.mpr h0.le)
  have hdata := (checked_record sizeOnePacket (List.replicate sizeOnePacket kDataCode) 0 sizeOnePacket
    false (by decide) le_rfl).mpr fun i _ hi => getD_filled sizeOnePacket _ (by omega)
  have hbytes := (checked_iff_getD sizeOnePacket wholeRecord sizeOnePacket hm.le (by decide)).mp hdata
  obtain ⟨o, ho, hok⟩ := rcvOK_of_data sizeOnePacket wholeRecord false hm.le hC
    (lt_of_eq_of_lt h0 (by decide))
  rw [hsize] at hok
  refine ⟨⟨hm, fun i h5 hi _ => ?_⟩, o, ho, hok.mpr hbytes⟩
  rw [hsize] at hi
  exact hbytes i h5 hi

theorem acceptsOnlyIntact_whole :
    AcceptsOnlyIntact sizeOnePacket wholeRecord ∧
      (∃ o, rcvDataBlock sizeOnePacket (.data wholeRecord) false = .ok o ∧ o.rcvOK = true) ∧
      ¬ AcceptsOnlyIntact sizeOnePacket truncated := by
  obtain ⟨hintact, hok⟩ := wholeRecord_accepted
  obtain ⟨hlen, hslips⟩ := slipsThrough_truncated
  refine ⟨(acceptsOnlyIntact_iff sizeOnePacket wholeRecord hintact.1.le).mpr ?_, hok, fun h => ?_⟩
  · rintro (⟨-, hnot⟩ | ⟨-, hshort, -⟩)
    · exact hnot hintact
    · have hwhole := hintact.1
      omega
  · exact (acceptsOnlyIntact_iff sizeOnePacket truncated hlen).mp h hslips

end LinuxAppSamp.Transfer
