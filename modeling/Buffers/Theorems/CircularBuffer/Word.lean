import Buffers.CircularBuffer.Word
import Buffers.Lib.Run
import Buffers.Theorems.CircularBuffer

/-! # The arithmetic of the circular buffer

A position is below the capacity, or zero, and a number of bytes is at most the capacity (`Inv`). So a sum of
the two is an exact sum when the capacity is at most half the words; when it wraps it is below the capacity,
and the branch that subtracts is not taken. A remainder is taken with a capacity that is not zero, except by
`prepare(0)` on a buffer without storage (`circular_arithmetic_iff`). -/

namespace Buffers
open Checked Word

namespace CircularBuffer

theorem Constructed.inv {b : CircularBuffer} (h : Constructed b) : Inv b := by
  cases h with
  | empty => exact ⟨Or.inr rfl, Nat.zero_le _⟩
  | storage base capacity => exact ⟨Or.inr rfl, Nat.zero_le _⟩
  | @readable base capacity initial_size _ h =>
    rcases Nat.lt_or_ge capacity initial_size with hlt | hge
    · simp [ofReadable, hlt] at h
    · obtain ⟨b', hb', hinv, -⟩ := ofReadable_inv base hge
      rw [h] at hb'
      cases hb'
      exact hinv

section
variable {o : Overflow} {b : CircularBuffer}

/-- The capacity is a word, and at most half the words when sums may not wrap. -/
structure Fits (o : Overflow) (capacity : Nat) : Prop where
  lt_count : capacity < Word.count
  le_half : o = .faults → capacity ≤ Word.half

theorem Fits.of_half {capacity : Nat} (h : capacity ≤ Word.half) : Fits o capacity :=
  ⟨Nat.lt_of_le_of_lt h (by decide), fun _ => h⟩

/-- The sum of a position and a number of bytes, exact or wrapped. -/
theorem Fits.add {capacity : Nat} (h : Fits o capacity) {pos n : Nat} (hpos : pos < capacity ∨ pos = 0)
    (hn : n ≤ capacity) :
    ∃ s, Word.add o pos n = .ok s ∧ (s = pos + n ∨ pos + n = s + Word.count) := by
  have hcap := h.lt_count
  refine add_ok (by omega) (by omega) fun ho => ?_
  have hhalf := h.le_half ho
  unfold Word.half at hhalf
  unfold Word.count at hcap ⊢
  omega

/-- A sum that passes the capacity is exact. -/
theorem Fits.exact_of_lt {capacity : Nat} (h : Fits o capacity) {pos n s : Nat} (hpos : pos ≤ capacity) (hn : n ≤ capacity)
    (hs : s = pos + n ∨ pos + n = s + Word.count) (hlt : capacity < s) : s = pos + n := by
  have hcap := h.lt_count
  omega

namespace Inv

theorem word_data (h : Inv b) (hfits : Fits o b.cap_) : ∃ p, Word.data o b = .ok p := by
  obtain ⟨s, hs, hsum⟩ := hfits.add h.pos_lt h.len_le
  unfold Word.data
  rw [hs, ok_bind]
  split
  · exact ⟨_, rfl⟩
  · rename_i hlt
    have hexact := hfits.exact_of_lt h.pos_le h.len_le hsum (Nat.lt_of_not_le hlt)
    have hrest : b.cap_ - b.in_pos_ ≤ b.in_len_ := by omega
    rw [sub_of_le h.pos_le, ok_bind, sub_of_le hrest]
    exact ⟨_, rfl⟩

theorem word_prepare_throws (h : Inv b) {n : Nat} (hn : b.cap_ < b.in_len_ + n) :
    Word.prepare o b n = .ok (.error .lengthError, b) := by
  have hgt : n > b.cap_ - b.in_len_ := by
    have := h.len_le
    omega
  simp [Word.prepare, sub_of_le h.len_le, hgt]

theorem word_prepare_returns (h : Inv b) (hfits : Fits o b.cap_) (hcap : b.cap_ ≠ 0) {n : Nat}
    (hn : b.in_len_ + n ≤ b.cap_) : ∃ p, Word.prepare o b n = .ok (.ok p, { b with out_size_ := n }) := by
  have hgt : ¬n > b.cap_ - b.in_len_ := by omega
  have hpos : 0 < b.cap_ := Nat.pos_of_ne_zero hcap
  obtain ⟨s, hs, -⟩ := hfits.add h.pos_lt h.len_le
  have hmod : s % b.cap_ < b.cap_ := Nat.mod_lt _ hpos
  have hle : n ≤ b.cap_ := Nat.le_trans (Nat.le_add_left _ _) hn
  obtain ⟨e, he, hend⟩ := hfits.add (Or.inl hmod) hle
  simp only [Word.prepare, sub_of_le h.len_le, ok_bind, hgt, if_false, hs, mod_of_pos hpos, he]
  split
  · exact ⟨_, rfl⟩
  · rename_i hlt
    have hexact := hfits.exact_of_lt (Nat.le_of_lt hmod) hle hend (Nat.lt_of_not_le hlt)
    have hrest : b.cap_ - s % b.cap_ ≤ n := by omega
    rw [sub_of_le (Nat.le_of_lt hmod), ok_bind, sub_of_le hrest]
    exact ⟨_, rfl⟩

/-- The sum of two numbers of bytes is a number of bytes. -/
theorem word_commit (h : Inv b) (hfits : Fits o b.cap_) (n : Nat) : Word.commit o b n = .ok (b.commit n) := by
  have hcap := hfits.lt_count
  have hle := h.fits
  unfold Word.commit CircularBuffer.commit commitSize
  split
  · rw [add_of_lt (by omega)]
    rfl
  · rw [add_of_lt (by omega)]
    rfl

theorem word_consume (h : Inv b) (hfits : Fits o b.cap_) (n : Nat) :
    ∃ t, Word.consume o b n = .ok t ∧ Inv t ∧ t.cap_ = b.cap_ := by
  have hle := h.fits
  rcases Nat.lt_or_ge n b.in_len_ with hn | hn
  · have hcap : 0 < b.cap_ := by omega
    obtain ⟨s, hs, -⟩ := hfits.add (n := n) h.pos_lt (by omega)
    refine ⟨{ b with in_pos_ := s % b.cap_, in_len_ := b.in_len_ - n }, ?_, ⟨Or.inl (Nat.mod_lt _ hcap), ?_⟩, rfl⟩
    · simp [Word.consume, hn, hs, mod_of_pos hcap, sub_of_le (Nat.le_of_lt hn)]
    · simp only
      omega
  · by_cases hout : b.out_size_ = 0
    · refine ⟨{ b with in_pos_ := 0, in_len_ := 0 }, ?_, ⟨Or.inr rfl, ?_⟩, rfl⟩
      · simp [Word.consume, Nat.not_lt.mpr hn, hout]
      · simp only
        omega
    · -- Output is outstanding, so the buffer has storage.
      have hcap : 0 < b.cap_ := by omega
      obtain ⟨s, hs, -⟩ := hfits.add h.pos_lt h.len_le
      refine ⟨{ b with in_pos_ := s % b.cap_, in_len_ := 0 }, ?_, ⟨Or.inl (Nat.mod_lt _ hcap), ?_⟩, rfl⟩
      · simp [Word.consume, Nat.not_lt.mpr hn, hout, hs, mod_of_pos hcap]
      · simp only
        omega

end Inv

/-- A call that is not `prepare(0)` on a buffer without storage takes no remainder by zero. -/
theorem Inv.word_step (h : Inv b) (hfits : Fits o b.cap_) {c : CircularCall} (hc : b.cap_ = 0 → c ≠ .prepare 0) :
    ∃ t, Word.step o b c = .ok t ∧ Inv t ∧ t.cap_ = b.cap_ := by
  cases c with
  | data =>
    obtain ⟨p, hp⟩ := h.word_data hfits
    exact ⟨b, by simp [Word.step, hp], h, rfl⟩
  | prepare n =>
    rcases Nat.lt_or_ge b.cap_ (b.in_len_ + n) with hn | hn
    · exact ⟨b, by simp [Word.step, h.word_prepare_throws hn], h, rfl⟩
    · have hcap : b.cap_ ≠ 0 := fun hz => hc hz (by rw [show n = 0 by omega])
      obtain ⟨p, hp⟩ := h.word_prepare_returns hfits hcap hn
      exact ⟨{ b with out_size_ := n }, by simp [Word.step, hp], h.prepared hn, rfl⟩
  | commit n =>
    refine ⟨b.commit n, h.word_commit hfits n, (h.commit n).1, ?_⟩
    rw [commit_eq]
  | consume n => exact h.word_consume hfits n

theorem Inv.word_step_zero (h : Inv b) (hcap : b.cap_ = 0) : Word.step o b (.prepare 0) = .error .divByZero := by
  have hlen : b.in_len_ = 0 := Nat.eq_zero_of_le_zero (hcap ▸ h.len_le)
  have hpos : b.in_pos_ = 0 := Nat.eq_zero_of_le_zero (hcap ▸ h.pos_le)
  have hsum : Word.add o 0 0 = .ok 0 := add_of_lt (by decide)
  simp [Word.step, Word.prepare, hcap, hlen, hpos, sub, hsum, mod]

end
end CircularBuffer

/-! ### Runs -/

/-- In the runs of a circular buffer of any capacity no remainder is taken by zero, no subtraction underflows,
    no sum of words wraps when the capacity is at most half the words, and the invariant holds after each
    call, exactly when a buffer without storage is not asked to prepare no bytes. -/
theorem circular_arithmetic_iff (o : Overflow) {b : CircularBuffer} (hb : b.Constructed) (hcap : b.cap_ < Word.count)
    (hhalf : o = .faults → b.cap_ ≤ Word.half) (calls : List CircularCall) :
    Run.Every (CircularBuffer.Word.step o) (fun _ _ t => t.Inv) b calls ↔ (b.cap_ = 0 → .prepare 0 ∉ calls) := by
  have hfits : CircularBuffer.Fits o b.cap_ := ⟨hcap, hhalf⟩
  have hstart : b.Inv ∧ b.cap_ = b.cap_ := ⟨hb.inv, rfl⟩
  constructor
  · intro hrun hzero hmem
    refine Run.forall_of_every (P := fun c => c ≠ .prepare 0) (I := fun s => s.Inv ∧ s.cap_ = b.cap_)
      (fun s c t hs ht _ => ?_) hstart hrun _ hmem rfl
    obtain ⟨hinv, hsame⟩ := hs
    have hne : c ≠ .prepare 0 := by
      rintro rfl
      rw [hinv.word_step_zero (hsame.trans hzero)] at ht
      cases ht
    obtain ⟨u, hu, hinv', hsame'⟩ := hinv.word_step (hsame ▸ hfits) fun _ => hne
    rw [ht] at hu
    cases hu
    exact ⟨hne, hinv', hsame'.trans hsame⟩
  · intro hzero
    refine Run.every_of_invariant (P := fun c => b.cap_ = 0 → c ≠ .prepare 0) (I := fun s => s.Inv ∧ s.cap_ = b.cap_)
      (fun s c hc hs => ?_) hstart fun c hc h0 he => hzero h0 (he ▸ hc)
    obtain ⟨hinv, hsame⟩ := hs
    obtain ⟨t, ht, hinv', hsame'⟩ := hinv.word_step (hsame ▸ hfits) fun h0 => hc (hsame.symm.trans h0)
    exact ⟨t, ht, hinv', hinv', hsame'.trans hsame⟩

/-- A default-constructed buffer that is asked to prepare no bytes divides by zero. -/
theorem circular_arithmetic_counterexample :
    (CircularBuffer.mk 0 0 0 0 0).Constructed ∧ CircularBuffer.capacity ⟨0, 0, 0, 0, 0⟩ = .ok 0 ∧
      CircularBuffer.Word.prepare .wraps ⟨0, 0, 0, 0, 0⟩ 0 = .error .divByZero ∧
      ¬Run.Every (CircularBuffer.Word.step .wraps) (fun _ _ t => t.Inv) ⟨0, 0, 0, 0, 0⟩ [.prepare 0] := by
  refine ⟨.empty, rfl, rfl, ?_⟩
  rintro ⟨t, ht, -⟩
  cases ht

/-- A full buffer of the largest capacity whose sums may not wrap, which is asked to prepare no bytes. -/
theorem circular_arithmetic_half :
    Run.Every (CircularBuffer.Word.step .faults) (fun _ _ t => t.Inv) ⟨16, Word.half, 0, 0, 0⟩
        [.prepare Word.half, .commit Word.half, .data, .prepare 0, .consume 1] ↔
      ((⟨16, Word.half, 0, 0, 0⟩ : CircularBuffer).cap_ = 0 →
        .prepare 0 ∉ [CircularCall.prepare Word.half, .commit Word.half, .data, .prepare 0, .consume 1]) :=
  circular_arithmetic_iff .faults (.storage 16 Word.half) (by decide) (fun _ => Nat.le_refl _)
    [.prepare Word.half, .commit Word.half, .data, .prepare 0, .consume 1]

/-! ### The word operations and the others -/

namespace CircularBuffer.Inv
variable {o : Overflow} {b : CircularBuffer}

/-- When the capacity is at most half the words, each sum of a position and a number of bytes is exact. -/
theorem add_of_half (hhalf : b.cap_ ≤ Word.half) {pos n : Nat} (hpos : pos < b.cap_ ∨ pos = 0) (hn : n ≤ b.cap_) :
    Word.add o pos n = .ok (pos + n) := by
  refine add_of_lt ?_
  unfold Word.half at hhalf
  unfold Word.count
  omega

theorem word_data_eq (h : Inv b) (hhalf : b.cap_ ≤ Word.half) : CircularBuffer.Word.data o b = b.data := by
  simp only [CircularBuffer.Word.data, CircularBuffer.data, add_of_half hhalf h.pos_lt h.len_le, ok_bind]

theorem word_prepare_eq (h : Inv b) (hhalf : b.cap_ ≤ Word.half) (n : Nat) :
    CircularBuffer.Word.prepare o b n = b.prepare n := by
  rcases Nat.lt_or_ge b.cap_ (b.in_len_ + n) with hn | hn
  · rw [h.word_prepare_throws hn, h.prepare_throws hn]
  · have hgt : ¬n > b.cap_ - b.in_len_ := by omega
    have hle : n ≤ b.cap_ := Nat.le_trans (Nat.le_add_left _ _) hn
    simp only [CircularBuffer.Word.prepare, CircularBuffer.prepare, sub_of_le h.len_le, ok_bind, hgt, if_false,
      add_of_half hhalf h.pos_lt h.len_le]
    rcases Nat.eq_zero_or_pos b.cap_ with hzero | hpos
    · simp [mod, hzero]
    · simp only [mod_of_pos hpos, ok_bind, add_of_half hhalf (Or.inl (Nat.mod_lt _ hpos)) hle]

theorem word_consume_eq (h : Inv b) (hhalf : b.cap_ ≤ Word.half) (n : Nat) :
    CircularBuffer.Word.consume o b n = b.consume n := by
  unfold CircularBuffer.Word.consume CircularBuffer.consume
  split
  · rename_i hn
    simp only [add_of_half hhalf h.pos_lt (Nat.le_trans (Nat.le_of_lt hn) h.len_le), ok_bind]
  · simp only [add_of_half hhalf h.pos_lt h.len_le, ok_bind]

end CircularBuffer.Inv

end Buffers
