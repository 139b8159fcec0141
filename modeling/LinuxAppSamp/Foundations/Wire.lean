import LinuxAppSamp.Foundations.Tally

/-! # A network that loses, copies and reorders

A wire carries packets in flight. Any of them may be taken next, so that they arrive in any order; the
network may lose one or copy one, and the wire remembers what it has lost and what it has copied.

* `taken_inv`, `lost_inv`, `copied_inv`: what each operation does, said once;
* `tally_send`, `tally_taken`, `tally_lost`, `tally_copied`: what it adds to a sum of weights;
* `Accounts`: by any weight, what is in flight, lost or taken is what has been sent or copied.
-/

namespace LinuxAppSamp.Execution
set_option autoImplicit false
set_option maxHeartbeats 250000

structure Wire (δ : Type) where
  flying : List δ
  lost : List δ
  copied : List δ

namespace Wire
section
variable {δ : Type}

def empty : Wire δ := ⟨[], [], []⟩

def send (w : Wire δ) (ds : List δ) : Wire δ := { w with flying := w.flying ++ ds }

def take (w : Wire δ) (k : ℕ) : Option (δ × Wire δ) :=
  w.flying[k]?.map fun d => (d, { w with flying := w.flying.eraseIdx k })

def lose (w : Wire δ) (k : ℕ) : Option (Wire δ) :=
  w.flying[k]?.map fun d => { w with flying := w.flying.eraseIdx k, lost := w.lost ++ [d] }

def copy (w : Wire δ) (k : ℕ) : Option (Wire δ) :=
  w.flying[k]?.map fun d => { w with flying := w.flying ++ [d], copied := w.copied ++ [d] }

theorem take_eq {w : Wire δ} {k : ℕ} {d : δ} (h : w.flying[k]? = some d) :
    w.take k = some (d, { w with flying := w.flying.eraseIdx k }) := by
  rw [take, h, Option.map_some]

theorem taken_inv {w u : Wire δ} {k : ℕ} {d : δ} (h : w.take k = some (d, u)) :
    w.flying[k]? = some d ∧ u = { w with flying := w.flying.eraseIdx k } := by
  obtain ⟨x, hx, heq⟩ := Option.map_eq_some_iff.mp h
  cases heq
  exact ⟨hx, rfl⟩

theorem lost_inv {w u : Wire δ} {k : ℕ} (h : w.lose k = some u) :
    ∃ d, w.flying[k]? = some d ∧
      u = { w with flying := w.flying.eraseIdx k, lost := w.lost ++ [d] } := by
  obtain ⟨d, hd, rfl⟩ := Option.map_eq_some_iff.mp h
  exact ⟨d, hd, rfl⟩

theorem copied_inv {w u : Wire δ} {k : ℕ} (h : w.copy k = some u) :
    ∃ d, w.flying[k]? = some d ∧
      u = { w with flying := w.flying ++ [d], copied := w.copied ++ [d] } := by
  obtain ⟨d, hd, rfl⟩ := Option.map_eq_some_iff.mp h
  exact ⟨d, hd, rfl⟩

/-! ## What is in flight -/

def Carries (P : δ → Prop) (w : Wire δ) : Prop := ∀ d ∈ w.flying, P d

section
variable {P : δ → Prop} {w u : Wire δ} {k : ℕ}

theorem carries_empty : Carries P empty := fun _ h => by cases h

theorem Carries.send (h : Carries P w) {ds : List δ} (hds : ∀ d ∈ ds, P d) : Carries P (w.send ds) := by
  intro d hd
  obtain hd | hd := List.mem_append.mp hd
  · exact h d hd
  · exact hds d hd

theorem Carries.taken (h : Carries P w) {d : δ} (htake : w.take k = some (d, u)) : P d ∧ Carries P u := by
  obtain ⟨hd, rfl⟩ := taken_inv htake
  exact ⟨h d (List.mem_of_getElem? hd), fun x hx => h x (List.mem_of_mem_eraseIdx hx)⟩

theorem Carries.lost (h : Carries P w) (hlose : w.lose k = some u) : Carries P u := by
  obtain ⟨d, -, rfl⟩ := lost_inv hlose
  exact fun x hx => h x (List.mem_of_mem_eraseIdx hx)

theorem Carries.copied (h : Carries P w) (hcopy : w.copy k = some u) : Carries P u := by
  obtain ⟨d, hd, rfl⟩ := copied_inv hcopy
  intro x hx
  obtain hx | hx := List.mem_append.mp hx
  · exact h x hx
  · cases List.mem_singleton.mp hx
    exact h d (List.mem_of_getElem? hd)

end

/-! ## Accounts -/

section
variable (v : δ → ℕ) {w u : Wire δ} {k : ℕ}

theorem tally_send (w : Wire δ) (ds : List δ) :
    tally v (w.send ds).flying = tally v w.flying + tally v ds := tally_append v w.flying ds

theorem tally_taken {d : δ} (h : w.take k = some (d, u)) :
    tally v u.flying + v d = tally v w.flying := by
  obtain ⟨hd, rfl⟩ := taken_inv h
  exact tally_eraseIdx v w.flying k d hd

theorem tally_lost (h : w.lose k = some u) : ∃ d ∈ w.flying,
    tally v u.flying + v d = tally v w.flying ∧ tally v u.lost = tally v w.lost + v d ∧
      u.copied = w.copied := by
  obtain ⟨d, hd, rfl⟩ := lost_inv h
  exact ⟨d, List.mem_of_getElem? hd, tally_eraseIdx v w.flying k d hd, tally_snoc v w.lost d, rfl⟩

theorem tally_copied (h : w.copy k = some u) : ∃ d ∈ w.flying,
    tally v u.flying = tally v w.flying + v d ∧ tally v u.copied = tally v w.copied + v d ∧
      u.lost = w.lost := by
  obtain ⟨d, hd, rfl⟩ := copied_inv h
  exact ⟨d, List.mem_of_getElem? hd, tally_snoc v w.flying d, tally_snoc v w.copied d, rfl⟩

end

def Accounts (v : δ → ℕ) (w : Wire δ) (sent got : ℕ) : Prop :=
  tally v w.flying + tally v w.lost + got = tally v w.copied + sent

section
variable {v : δ → ℕ} {w u : Wire δ} {k sent got : ℕ}

theorem accounts_empty (v : δ → ℕ) : Accounts v (empty : Wire δ) 0 0 := rfl

theorem Accounts.send (h : Accounts v w sent got) (ds : List δ) :
    Accounts v (w.send ds) (sent + tally v ds) got := by
  have hflying := tally_send v w ds
  unfold Accounts at *
  show _ + tally v w.lost + got = tally v w.copied + _
  omega

theorem Accounts.taken (h : Accounts v w sent got) {d : δ} (htake : w.take k = some (d, u)) :
    Accounts v u sent (got + v d) := by
  have hflying := tally_taken v htake
  obtain ⟨-, rfl⟩ := taken_inv htake
  unfold Accounts at *
  show _ + tally v w.lost + _ = tally v w.copied + sent
  omega

theorem Accounts.lost (h : Accounts v w sent got) (hlose : w.lose k = some u) :
    Accounts v u sent got := by
  obtain ⟨d, -, hflying, hlost, hcopied⟩ := tally_lost v hlose
  unfold Accounts at *
  rw [hcopied]
  omega

theorem Accounts.copied (h : Accounts v w sent got) (hcopy : w.copy k = some u) :
    Accounts v u sent got := by
  obtain ⟨d, -, hflying, hcopied, hlost⟩ := tally_copied v hcopy
  unfold Accounts at *
  rw [hlost]
  omega

/-- What has been taken and sent on is in flight again. -/
theorem Accounts.cancel {n : ℕ} (h : Accounts v w (sent + n) (got + n)) : Accounts v w sent got := by
  unfold Accounts at *
  omega

end
end
end Wire
end LinuxAppSamp.Execution
