import Buffers.CircularBuffer
import Buffers.Lib.Ring

/-! # The circular buffer on unbounded numbers

The readable bytes and the output area are two rings of addresses, one behind the other. A commit moves
their boundary, and a consume moves the start of the first one: `consume` keeps the start of the output area
modulo the capacity, also when it empties the buffer. So each call acts on the addresses as a FIFO queue acts on
its elements (`Shows.step`). On machine words it does while no sum wraps; the results are about these. -/

namespace Buffers
open Checked

namespace CircularBuffer

structure Inv (b : CircularBuffer) : Prop where
  pos_lt : b.in_pos_ < b.cap_ ∨ b.in_pos_ = 0
  fits : b.in_len_ + b.out_size_ ≤ b.cap_

def live (b : CircularBuffer) : List Nat := ring b.base_ b.cap_ b.in_pos_ b.in_len_

def outs (b : CircularBuffer) : List Nat := ring b.base_ b.cap_ (b.in_pos_ + b.in_len_) b.out_size_

/-- A pair that goes on at the start of the storage when it reaches the end denotes a ring. -/
theorem addresses_pair {base cap pos n : Nat} (hpos : pos ≤ cap) (hn : n ≤ cap) :
    addresses (BufferPair.toList (if pos + n ≤ cap then ⟨⟨base + pos, n⟩, ⟨base, 0⟩⟩
      else ⟨⟨base + pos, cap - pos⟩, ⟨base, n - (cap - pos)⟩⟩)) = ring base cap pos n := by
  split
  · rename_i h
    rw [ring_of_le h]
    simp [BufferPair.toList, Buffer.addresses]
  · rename_i h
    rw [ring_of_wrap hpos hn (Nat.le_of_not_le h)]
    simp [BufferPair.toList, Buffer.addresses]

namespace Inv
variable {b : CircularBuffer}

theorem pos_le (h : Inv b) : b.in_pos_ ≤ b.cap_ := by
  rcases h.pos_lt with hlt | hz
  · exact Nat.le_of_lt hlt
  · exact hz ▸ Nat.zero_le _

theorem len_le (h : Inv b) : b.in_len_ ≤ b.cap_ := Nat.le_trans (Nat.le_add_right _ _) h.fits

theorem nodup (h : Inv b) : (b.live ++ b.outs).Nodup := by
  rw [live, outs, ← ring_add]
  exact nodup_ring h.fits

theorem capacity (h : Inv b) : b.capacity = .ok (b.cap_ - b.in_len_) := sub_of_le h.len_le

theorem data (h : Inv b) : ∃ p, b.data = .ok p ∧ addresses p.toList = b.live := by
  refine ⟨_, ?_, addresses_pair h.pos_le h.len_le⟩
  unfold CircularBuffer.data
  by_cases hle : b.in_pos_ + b.in_len_ ≤ b.cap_
  · simp [hle]
  · have hrest : b.cap_ - b.in_pos_ ≤ b.in_len_ := by omega
    simp [hle, sub_of_le h.pos_le, sub_of_le hrest]

theorem prepare_throws (h : Inv b) {n : Nat} (hn : b.cap_ < b.in_len_ + n) :
    b.prepare n = .ok (.error .lengthError, b) := by
  have hgt : n > b.cap_ - b.in_len_ := by
    have := h.len_le
    omega
  simp [prepare, sub_of_le h.len_le, hgt]

theorem prepare_returns (h : Inv b) (hcap : 0 < b.cap_) {n : Nat} (hn : b.in_len_ + n ≤ b.cap_) :
    ∃ p, b.prepare n = .ok (.ok p, { b with out_size_ := n }) ∧
      addresses p.toList = ring b.base_ b.cap_ (b.in_pos_ + b.in_len_) n := by
  have hpos : (b.in_pos_ + b.in_len_) % b.cap_ < b.cap_ := Nat.mod_lt _ hcap
  rw [← ring_mod]
  refine ⟨_, ?_, addresses_pair (Nat.le_of_lt hpos) (Nat.le_trans (Nat.le_add_left _ _) hn)⟩
  have hgt : ¬n > b.cap_ - b.in_len_ := by omega
  unfold prepare
  by_cases hle : (b.in_pos_ + b.in_len_) % b.cap_ + n ≤ b.cap_
  · simp [sub_of_le h.len_le, hgt, mod_of_pos hcap, hle]
  · have hrest : b.cap_ - (b.in_pos_ + b.in_len_) % b.cap_ ≤ n := by omega
    simp [sub_of_le h.len_le, hgt, mod_of_pos hcap, hle, sub_of_le (Nat.le_of_lt hpos), sub_of_le hrest]

theorem prepared (h : Inv b) {n : Nat} (hn : b.in_len_ + n ≤ b.cap_) : Inv { b with out_size_ := n } := ⟨h.pos_lt, hn⟩

end Inv

theorem commit_eq (b : CircularBuffer) (n : Nat) :
    b.commit n = { b with in_len_ := b.in_len_ + min n b.out_size_, out_size_ := 0 } := by
  rw [commit, commitSize_eq]

namespace Inv
variable {b : CircularBuffer}

theorem commit (h : Inv b) (n : Nat) :
    Inv (b.commit n) ∧ (b.commit n).live = b.live ++ b.outs.take n ∧ (b.commit n).outs = [] := by
  rw [commit_eq]
  refine ⟨⟨h.pos_lt, ?_⟩, ?_, rfl⟩
  · have := h.fits
    simp only
    omega
  · rw [outs, take_ring, live, live, ← ring_add]

end Inv

theorem consume_of_lt {b : CircularBuffer} (hcap : 0 < b.cap_) {n : Nat} (hn : n < b.in_len_) :
    b.consume n = .ok { b with in_pos_ := (b.in_pos_ + n) % b.cap_, in_len_ := b.in_len_ - n } := by
  simp [consume, hn, mod_of_pos hcap, sub_of_le (Nat.le_of_lt hn)]

theorem consume_of_le {b : CircularBuffer} (hcap : 0 < b.cap_) {n : Nat} (hn : b.in_len_ ≤ n) :
    b.consume n = .ok { b with in_pos_ := if b.out_size_ ≠ 0 then (b.in_pos_ + b.in_len_) % b.cap_ else 0,
                               in_len_ := 0 } := by
  by_cases hout : b.out_size_ = 0
  · simp [consume, Nat.not_lt.mpr hn, hout]
  · simp [consume, Nat.not_lt.mpr hn, hout, mod_of_pos hcap]

/-- `consume` drops readable addresses and leaves the output area where it is. -/
theorem Inv.consume {b : CircularBuffer} (h : Inv b) (hcap : 0 < b.cap_) (n : Nat) :
    ∃ b', b.consume n = .ok b' ∧ Inv b' ∧ b'.base_ = b.base_ ∧ b'.cap_ = b.cap_ ∧ b'.live = b.live.drop n ∧
      b'.outs = b.outs := by
  have hfits := h.fits
  rcases Nat.lt_or_ge n b.in_len_ with hn | hn
  · refine ⟨_, consume_of_lt hcap hn, ⟨Or.inl (Nat.mod_lt _ hcap), ?_⟩, rfl, rfl, ?_, ?_⟩
    · simp only
      omega
    · simp only [live, drop_ring, ring_mod]
    · refine ring_congr (((Nat.mod_modEq (b.in_pos_ + n) b.cap_).add_right _).trans ?_)
      rw [Nat.add_assoc, Nat.add_sub_cancel' (Nat.le_of_lt hn)]
  · have hdrop : b.live.drop n = [] := List.drop_of_length_le (by rwa [live, length_ring])
    refine ⟨_, consume_of_le hcap hn, ⟨?_, ?_⟩, rfl, rfl, by rw [hdrop]; rfl, ?_⟩
    · by_cases hout : b.out_size_ = 0
      · exact Or.inr (by simp [hout])
      · exact Or.inl (by simpa [hout] using Nat.mod_lt _ hcap)
    · simp only
      omega
    · by_cases hout : b.out_size_ = 0
      · simp only [outs, hout, ring_zero]
      · simp only [outs, hout, ne_eq, not_false_eq_true, if_true, Nat.add_zero, ring_mod]

theorem ofReadable_inv (base : Nat) {capacity initial_size : Nat} (h : initial_size ≤ capacity) :
    ∃ b, ofReadable base capacity initial_size = .ok b ∧ Inv b ∧ b.base_ = base ∧ b.cap_ = capacity ∧
      b.live = List.range' base initial_size ∧ b.outs = [] := by
  refine ⟨{ base_ := base, cap_ := capacity, in_len_ := initial_size }, ?_, ⟨Or.inr rfl, by simpa using h⟩, rfl, rfl,
    ?_, rfl⟩
  · simp [ofReadable, Nat.not_lt.mpr h]
  · simp only [live]
    rw [ring_of_le (by omega), Nat.add_zero]

end CircularBuffer

/-! ### The simulation -/

/-- The queue `q` is what a circular buffer over the storage at `base` holds. -/
structure Shows (base capacity : Nat) (s : Session CircularBuffer) (q : Fifo Byte) : Prop where
  inv : s.buf.Inv
  base_eq : s.buf.base_ = base
  cap_eq : s.buf.cap_ = capacity
  limit_eq : q.limit = capacity
  region_eq : s.region = s.buf.outs
  placed : q.Placed s.mem s.buf.live s.buf.outs

namespace Shows
variable {base capacity : Nat} {s : Session CircularBuffer} {q : Fifo Byte}

/-- The call is a call on the queue. -/
def Matched (base capacity : Nat) (s : Session CircularBuffer) (q : Fifo Byte) (c : Cmd Byte) : Prop :=
  ∃ t r, s.step c = .ok t ∧ Fifo.Step false q c r ∧ Shows base capacity t r

theorem length_eq (h : Shows base capacity s q) : q.readable.length = s.buf.in_len_ := by
  rw [h.placed.length_readable, CircularBuffer.live, length_ring]

theorem step_prepare (h : Shows base capacity s q) (hcap : 1 ≤ capacity) (n : Nat) :
    Matched base capacity s q (.prepare n) := by
  have hlen := h.length_eq
  obtain ⟨hinv, hbase, rfl, hlimit, hregion, hplaced⟩ := h
  rcases Nat.lt_or_ge s.buf.cap_ (s.buf.in_len_ + n) with hn | hn
  · refine ⟨s, q, ?_, .refuse (by omega), hinv, hbase, rfl, hlimit, hregion, hplaced⟩
    simp [Session.step, DynamicBuffer.prepare, hinv.prepare_throws hn]
  · obtain ⟨p, hp, hring⟩ := hinv.prepare_returns hcap hn
    refine ⟨{ s with buf := { s.buf with out_size_ := n }, region := addresses p.toList },
      { q with output := (addresses p.toList).map s.mem }, ?_, .prepare ?_ (by omega), hinv.prepared hn, hbase, rfl,
      hlimit, hring, ?_⟩
    · simp [Session.step, DynamicBuffer.prepare, hp]
    · rw [hring, List.length_map, length_ring]
    · rw [hring]
      exact hplaced.prepare (hinv.prepared hn).nodup

theorem step_write (h : Shows base capacity s q) (i : Nat) (x : Byte) : Matched base capacity s q (.write i x) := by
  obtain ⟨hinv, hbase, rfl, hlimit, hregion, hplaced⟩ := h
  cases ha : s.region[i]? with
  | some a =>
    refine ⟨{ s with mem := Function.update s.mem a x }, _, by simp [Session.step, ha], .write i x, hinv, hbase, rfl,
      hlimit, hregion, ?_⟩
    rw [hregion] at ha
    exact hplaced.write ha x
  | none =>
    refine ⟨s, _, by simp [Session.step, ha], .write i x, hinv, hbase, rfl, hlimit, hregion, ?_⟩
    rw [hregion] at ha
    exact hplaced.write_none ha x

theorem step_commit (h : Shows base capacity s q) (n : Nat) : Matched base capacity s q (.commit n) := by
  obtain ⟨hinv, hbase, rfl, hlimit, hregion, hplaced⟩ := h
  obtain ⟨hinv', hlive, houts⟩ := hinv.commit n
  refine ⟨{ s with buf := s.buf.commit n, region := [] }, _, rfl, .commit n, hinv', ?_, ?_, hlimit, houts.symm, ?_⟩
  · rw [CircularBuffer.commit_eq]
    exact hbase
  · rw [CircularBuffer.commit_eq]
  · rw [hlive, houts]
    exact hplaced.commit n

theorem step_consume (h : Shows base capacity s q) (hcap : 1 ≤ capacity) (n : Nat) :
    Matched base capacity s q (.consume n) := by
  obtain ⟨hinv, hbase, rfl, hlimit, hregion, hplaced⟩ := h
  obtain ⟨b, hb, hinv', hbase', hcap', hlive, houts⟩ := hinv.consume hcap n
  refine ⟨{ s with buf := b }, _, ?_, .consume n, hinv', hbase'.trans hbase, hcap', hlimit, hregion.trans houts.symm, ?_⟩
  · simp [Session.step, DynamicBuffer.consume, hb]
  · rw [hlive, houts]
    exact hplaced.consume n

/-- Each call on the buffer is a call on the queue. -/
theorem step (h : Shows base capacity s q) (hcap : 1 ≤ capacity) (c : Cmd Byte) : Matched base capacity s q c := by
  cases c with
  | prepare n => exact h.step_prepare hcap n
  | write i x => exact h.step_write i x
  | commit n => exact h.step_commit n
  | consume n => exact h.step_consume hcap n

end Shows

end Buffers
