import Buffers.Slice

/-! # Reading a slice

The window of a slice is the part of the wrapped sequence between `begin_` and `end_`. The iterators read
the buffers of the window one by one, the first without `prefix_` bytes and the last without `suffix_`
bytes, in either direction (`Readable.readForward`, `Readable.readBackward`). When the trimmed bytes lie
inside their buffers (`Inv`), the addresses read are those of the window without its first `prefix_` and
last `suffix_` ones (`Inv.addresses_yields`). -/

namespace Buffers.SliceOf
open Checked

/-- The buffers of the wrapped sequence from `begin_` to `end_`, untrimmed. -/
def whole (s : SliceOf) : List Buffer := (s.bs_.take s.end_.toNat).drop s.begin_.toNat

/-- The addresses of the window, without the first `prefix_` ones and up to `size_` of them. -/
def denote (s : SliceOf) : List Nat := ((addresses s.whole).drop s.prefix_).take s.size_

structure Bounds (s : SliceOf) : Prop where
  begin_nonneg : 0 ≤ s.begin_
  begin_le_end : s.begin_ ≤ s.end_
  end_le : s.end_ ≤ s.bs_.length
  len_eq : (s.len_ : Int) = s.end_ - s.begin_

/-- The representation of a slice: the stored size is what is left of the window, and the trimmed bytes lie
    strictly inside the first and the last buffer. -/
structure Inv (s : SliceOf) : Prop extends Bounds s where
  size_eq : s.size_ + s.prefix_ + s.suffix_ = size s.whole
  first_lt : s.prefix_ = 0 ∨ ∃ b ∈ s.whole.head?, s.prefix_ < b.size
  last_lt : s.suffix_ = 0 ∨ ∃ b ∈ s.whole.getLast?, s.suffix_ < b.size

structure Closed (s : SliceOf) : Prop extends Bounds s where
  closed : s.begin_ = s.end_

/-- A slice that an operation emptied by closing its window; the trimmed bytes may be left behind. -/
structure Emptied (s : SliceOf) : Prop extends Closed s where
  size_eq : s.size_ = 0

/-- What the iterator reads at position `i` of the window, where the whole buffer is `b`. -/
def view (s : SliceOf) (i : Nat) (b : Buffer) : Buffer :=
  let p := if i = 0 then s.prefix_ else 0
  let q := if i + 1 = s.len_ then s.suffix_ else 0
  ⟨b.data + p, b.size - p - q⟩

/-- The buffers that iteration yields. -/
def yields (s : SliceOf) : List Buffer := s.whole.mapIdx s.view

/-- The trimmed bytes lie inside the buffers that they are trimmed from. -/
structure Readable (s : SliceOf) : Prop extends Bounds s where
  fits : ∀ i b, s.whole[i]? = some b →
    (i = 0 → s.prefix_ ≤ b.size) ∧ (i + 1 = s.len_ → s.suffix_ ≤ b.size - if i = 0 then s.prefix_ else 0)

variable {s : SliceOf}

/-! ### The window -/

namespace Bounds

theorem length_whole (h : Bounds s) : s.whole.length = s.len_ := by
  have h1 := h.begin_nonneg
  have h2 := h.begin_le_end
  have h3 := h.end_le
  have h4 := h.len_eq
  simp only [whole, List.length_drop, List.length_take]
  omega

theorem len_le (h : Bounds s) : s.len_ ≤ s.bs_.length := by
  have h1 := h.begin_nonneg
  have h3 := h.end_le
  have h4 := h.len_eq
  omega

theorem deref (h : Bounds s) {i : Nat} {b : Buffer} (hb : s.whole[i]? = some b) {p : Int} (hp : p = s.begin_ + i) :
    deref s.bs_ s.begin_ s.end_ p = .ok b := by
  subst hp
  have hi : i < s.len_ := by
    rw [← h.length_whole]
    exact (List.getElem?_eq_some_iff.mp hb).1
  have h1 := h.begin_nonneg
  have h4 := h.len_eq
  have hin : 0 ≤ s.begin_ + i ∧ s.begin_ ≤ s.begin_ + i ∧ s.begin_ + i < s.end_ := by omega
  simp only [Buffers.deref, hin, and_self, if_true]
  refine get_of_getElem? ?_
  simp only [whole, List.getElem?_drop] at hb
  have hn : (s.begin_ + i).toNat = s.begin_.toNat + i := by omega
  rw [hn]
  rw [List.getElem?_take_of_lt (by omega)] at hb
  exact hb

theorem whole_eq_nil (h : Bounds s) (hc : s.begin_ = s.end_) : s.whole = [] := by
  have hlen := h.length_whole
  have h4 := h.len_eq
  exact List.length_eq_zero_iff.mp (by omega)

end Bounds

theorem Closed.whole_eq_nil (h : Closed s) : s.whole = [] := h.toBounds.whole_eq_nil h.closed

theorem Closed.denote_eq_nil (h : Closed s) : s.denote = [] := by simp [denote, h.whole_eq_nil]

theorem Inv.length_denote (h : Inv s) : s.denote.length = s.size_ := by
  have := h.size_eq
  simp only [denote, List.length_take, List.length_drop, ← Buffers.size_eq]
  omega

theorem Inv.prefix_le (h : Inv s) {b : Buffer} {rest : List Buffer} (hw : s.whole = b :: rest) :
    s.prefix_ ≤ b.size := by
  rcases h.first_lt with h0 | ⟨c, hc, hlt⟩
  · omega
  · rw [hw] at hc
    obtain rfl := Option.some.inj hc
    omega

theorem Inv.suffix_le (h : Inv s) {b : Buffer} {front : List Buffer} (hw : s.whole = front ++ [b]) :
    s.suffix_ ≤ b.size := by
  rcases h.last_lt with h0 | ⟨c, hc, hlt⟩
  · omega
  · rw [hw, List.getLast?_concat] at hc
    obtain rfl := Option.some.inj hc
    omega

/-! ### What the iterators read -/

theorem Closed.readable (h : Closed s) : Readable s where
  toBounds := h.toBounds
  fits i b hb := by
    rw [h.whole_eq_nil] at hb
    simp at hb

theorem Inv.readable (h : Inv s) : Readable s where
  toBounds := h.toBounds
  fits i b hb := by
    have hlen := h.length_whole
    have hsize := h.size_eq
    constructor
    · rintro rfl
      cases hw : s.whole with
      | nil => simp [hw] at hb
      | cons c rest =>
        rw [hw] at hb
        obtain rfl := Option.some.inj hb
        exact h.prefix_le hw
    · intro hi
      rcases List.eq_nil_or_concat' s.whole with hw | ⟨front, c, hw⟩
      · simp [hw] at hb
      · have hfront : i = front.length := by
          rw [hw, List.length_append, List.length_singleton] at hlen
          omega
        subst hfront
        rw [hw, List.getElem?_concat_length] at hb
        obtain rfl := Option.some.inj hb
        -- A single buffer is trimmed at both ends; the size of the window leaves room for both.
        by_cases h0 : front.length = 0
        · obtain rfl := List.length_eq_zero_iff.mp h0
          rw [hw] at hsize
          simp at hsize ⊢
          omega
        · simpa [h0] using h.suffix_le hw

def iter (s : SliceOf) (i : Nat) : ConstIterator := ⟨s.begin_ + i, s.prefix_, s.suffix_, i, s.len_⟩

theorem iter_zero : s.iter 0 = s.first := by simp [iter, first]

theorem Bounds.iter_len (h : Bounds s) : s.iter s.len_ = s.last := by
  have h4 := h.len_eq
  simp only [iter, last, ConstIterator.mk.injEq, and_true]
  omega

theorem iter_inj {i j : Nat} (h : s.iter i = s.iter j) : i = j := congrArg ConstIterator.i_ h

theorem iter_inc {i : Nat} (h : i < s.len_) : (s.iter i).inc = .ok (s.iter (i + 1)) := by
  simp [ConstIterator.inc, iter, assert_of, h, Int.add_assoc]

theorem iter_dec (i : Nat) : (s.iter (i + 1)).dec = .ok (s.iter i) := by
  simp [ConstIterator.dec, iter, assert_of, ← Int.add_assoc]

namespace Readable

theorem length_yields (h : Readable s) : s.yields.length = s.len_ := by simp [yields, h.length_whole]

theorem deref_iter (h : Readable s) {i : Nat} (hi : i < s.len_) :
    ∃ b, s.yields[i]? = some b ∧ (s.iter i).deref s = .ok b := by
  obtain ⟨b, hb⟩ : ∃ b, s.whole[i]? = some b :=
    ⟨_, List.getElem?_eq_getElem (by rw [h.length_whole]; exact hi)⟩
  refine ⟨s.view i b, by simp [yields, hb], ?_⟩
  obtain ⟨hp, hq⟩ := h.fits i b hb
  have htop : sub s.len_ 1 = .ok (s.len_ - 1) := sub_of_le (by omega)
  simp only [ConstIterator.deref, iter, h.deref hb rfl, htop, ok_bind]
  by_cases h0 : i = 0
  · subst h0
    by_cases h1 : s.len_ = 1
    · have hle := hq h1.symm
      simp only [if_true] at hle
      simp [view, h1, sub_of_le (hp rfl), sub_of_le hle]
    · have h2 : 0 ≠ s.len_ - 1 := by omega
      simp [view, sub_of_le (hp rfl), h2, Ne.symm h1]
  · by_cases h1 : i = s.len_ - 1
    · have h2 : i + 1 = s.len_ := by omega
      have hle := hq h2
      simp only [h0, if_false, Nat.sub_zero] at hle
      simp [view, h0, ← h1, h2, sub_of_le hle]
    · have h2 : i + 1 ≠ s.len_ := by omega
      simp [view, h0, h1, h2]

theorem forward_round (h : Readable s) {x : ConstIterator × List Buffer}
    (hx : ∃ i, i ≤ s.len_ ∧ x = (s.iter i, s.yields.take i)) :
    Round (readForwardBody s) (fun x => ∃ i, i ≤ s.len_ ∧ x = (s.iter i, s.yields.take i))
      (fun x => s.len_ - x.1.i_) (fun bufs => bufs = s.yields) x := by
  obtain ⟨i, hi, rfl⟩ := hx
  by_cases hlast : i = s.len_
  · subst hlast
    refine Or.inl ⟨s.yields, ?_, rfl⟩
    simp [readForwardBody, h.iter_len, List.take_of_length_le (Nat.le_of_eq h.length_yields)]
  · have hlt : i < s.len_ := by omega
    have hne : s.iter i ≠ s.last := fun he => hlast (iter_inj (he.trans h.iter_len.symm))
    obtain ⟨b, hb, hd⟩ := h.deref_iter hlt
    refine Or.inr ⟨(s.iter (i + 1), s.yields.take (i + 1)), ?_, ⟨i + 1, hlt, rfl⟩, ?_⟩
    · simp [readForwardBody, hne, hd, iter_inc hlt, List.take_add_one, hb]
    · simp only [iter]
      omega

theorem readForward (h : Readable s) : s.readForward = .ok s.yields := by
  have hlen := h.len_le
  have hloop : ∃ bufs, s.readForward = .ok bufs ∧ bufs = s.yields := by
    refine loop_spec (fun x hx => h.forward_round hx) ⟨0, Nat.zero_le _, by simp [iter_zero]⟩ ?_
    simp only [first]
    omega
  obtain ⟨bufs, hbufs, rfl⟩ := hloop
  exact hbufs

theorem backward_round (h : Readable s) {x : ConstIterator × List Buffer}
    (hx : ∃ i, i ≤ s.len_ ∧ x = (s.iter i, (s.yields.drop i).reverse)) :
    Round (readBackwardBody s) (fun x => ∃ i, i ≤ s.len_ ∧ x = (s.iter i, (s.yields.drop i).reverse))
      (fun x => x.1.i_) (fun bufs => bufs = s.yields.reverse) x := by
  obtain ⟨i, hi, rfl⟩ := hx
  cases i with
  | zero => exact Or.inl ⟨s.yields.reverse, by simp [readBackwardBody, iter_zero], rfl⟩
  | succ i =>
    have hne : s.iter (i + 1) ≠ s.first := fun he => by
      have := iter_inj (he.trans iter_zero.symm)
      omega
    have hlt : i < s.len_ := by omega
    obtain ⟨b, hb, hd⟩ := h.deref_iter hlt
    refine Or.inr ⟨(s.iter i, (s.yields.drop i).reverse), ?_, ⟨i, by omega, rfl⟩, by simp [iter]⟩
    have hdrop : s.yields.drop i = b :: s.yields.drop (i + 1) :=
      List.drop_eq_getElem?_toList_append.trans (by simp [hb])
    simp [readBackwardBody, hne, iter_dec, hd, hdrop]

theorem readBackward (h : Readable s) : s.readBackward = .ok s.yields.reverse := by
  have hlen := h.len_le
  have hloop : ∃ bufs, s.readBackward = .ok bufs ∧ bufs = s.yields.reverse := by
    refine loop_spec (fun x hx => h.backward_round hx) ⟨s.len_, Nat.le_refl _, ?_⟩ ?_
    · simp [h.iter_len, List.drop_of_length_le, h.length_yields]
    · simp only [last]
      omega
  obtain ⟨bufs, hbufs, rfl⟩ := hloop
  exact hbufs

end Readable

/-! ### The addresses read -/

theorem Closed.yields_eq_nil (h : Closed s) : s.yields = [] := by simp [yields, h.whole_eq_nil]

/-- Inside the window, nothing is trimmed. -/
theorem mapIdx_view_middle {mid : List Buffer} (h : mid.length + 2 = s.len_) :
    (mid.mapIdx fun i b => s.view (i + 1) b) = mid := by
  refine List.ext_getElem (by simp) fun i hi _ => ?_
  have hne : i + 1 + 1 ≠ s.len_ := by
    simp only [List.length_mapIdx] at hi
    omega
  simp [view, hne]

theorem Inv.addresses_yields (h : Inv s) : addresses s.yields = s.denote := by
  have hlen := h.length_whole
  have hsize := h.size_eq
  unfold yields denote
  cases hw : s.whole with
  | nil => simp
  | cons b rest =>
    have hp := h.prefix_le hw
    rcases List.eq_nil_or_concat' rest with rfl | ⟨mid, c, rfl⟩
    · -- The only buffer is trimmed at both ends.
      have h1 : s.len_ = 1 := by rw [← hlen, hw]; rfl
      rw [hw] at hsize
      simp only [size_cons, size_nil, Nat.add_zero] at hsize
      have hs : s.size_ = b.size - s.prefix_ - s.suffix_ := by omega
      simp [view, h1, hs, Buffer.addresses_trim]
    · have hq := h.suffix_le (show s.whole = (b :: mid) ++ [c] by simpa using hw)
      have h2 : mid.length + 2 = s.len_ := by rw [← hlen, hw]; simp
      rw [hw] at hsize
      simp only [size_cons, size_append, size_nil, Nat.add_zero] at hsize
      have hview0 : s.view 0 b = ⟨b.data + s.prefix_, b.size - s.prefix_ - 0⟩ := by
        have : 1 ≠ s.len_ := by omega
        simp [view, this]
      have hviewn : s.view (mid.length + 1) c = ⟨c.data + 0, c.size - 0 - s.suffix_⟩ := by simp [view, h2]
      have hs : s.size_ = (b.size - s.prefix_) + (size mid + (c.size - s.suffix_)) := by omega
      rw [List.mapIdx_cons, List.mapIdx_append, mapIdx_view_middle h2]
      simp only [addresses_cons, addresses_append, List.mapIdx_cons, List.mapIdx_nil, Nat.zero_add, hview0, hviewn,
        Buffer.addresses_trim, addresses_nil, List.append_nil]
      rw [List.drop_append_of_le_length (by simpa using hp), hs]
      have hb : b.size - s.prefix_ = (b.addresses.drop s.prefix_).length := by simp
      simp only [Nat.sub_zero, List.drop_zero]
      rw [hb, List.take_length, List.take_length_add_append, Buffers.size_eq, List.take_length_add_append]

end Buffers.SliceOf
