import Buffers.Theorems.Slice.Read

/-! # What one slicing operation does

From a slice with the invariant, `remove_prefix_impl` drops the first addresses (`Inv.removePrefixImpl`),
`remove_suffix_impl` drops the last ones when some are left (`Inv.removeSuffixImpl`), and `keep_prefix_impl`
keeps the first ones. The four operations are the four windows on the list of addresses (`Inv.apply`). The
result has the invariant, unless `keep_prefix_impl(0)` closed the window and left the trimmed bytes behind
(`Emptied`). -/

namespace Buffers.SliceOf
open Checked

theorem deref_mono {bs : List Buffer} {lo hi lo' hi' i : Int} {b : Buffer} (h : deref bs lo' hi' i = .ok b)
    (hlo : lo ≤ lo') (hhi : hi' ≤ hi) : deref bs lo hi i = .ok b := by
  unfold deref at h ⊢
  split at h
  · rename_i hin
    have hin' : 0 ≤ i ∧ lo ≤ i ∧ i < hi := by omega
    simpa [hin'] using h
  · cases h

theorem size_eq_nil_of_whole {s : SliceOf} (h : Inv s) (hw : s.whole = []) :
    s.size_ = 0 ∧ s.prefix_ = 0 ∧ s.suffix_ = 0 := by
  have hsize := h.size_eq
  rw [hw, size_nil] at hsize
  omega

/-! ### Removing the first buffer of the window -/

section Front
variable {s : SliceOf}

theorem Bounds.whole_cons (h : Bounds s) (hne : s.begin_ ≠ s.end_) :
    ∃ b rest, s.whole = b :: rest ∧ Buffers.deref s.bs_ s.begin_ s.end_ s.begin_ = .ok b := by
  cases hw : s.whole with
  | nil =>
    have hlen := h.length_whole
    have h4 := h.len_eq
    rw [hw, List.length_nil] at hlen
    omega
  | cons b rest => exact ⟨b, rest, rfl, h.deref (i := 0) (by simp [hw]) (by simp)⟩

/-- The slice without the first buffer of its window. -/
def popFront (s : SliceOf) (n : Nat) : SliceOf :=
  { s with size_ := s.size_ - n, begin_ := s.begin_ + 1, len_ := s.len_ - 1 }

theorem Bounds.popFront (h : Bounds s) (hne : s.begin_ ≠ s.end_) (n : Nat) : Bounds (s.popFront n) where
  begin_nonneg := by
    have := h.begin_nonneg
    simp only [SliceOf.popFront]
    omega
  begin_le_end := by
    have := h.begin_le_end
    simp only [SliceOf.popFront]
    omega
  end_le := h.end_le
  len_eq := by
    have h2 := h.begin_le_end
    have h4 := h.len_eq
    simp only [SliceOf.popFront]
    omega

theorem Bounds.whole_popFront (h : Bounds s) {b : Buffer} {rest : List Buffer} (hw : s.whole = b :: rest) (n : Nat) :
    (s.popFront n).whole = rest := by
  have h1 := h.begin_nonneg
  have hn : (s.begin_ + 1).toNat = s.begin_.toNat + 1 := by omega
  have htail : (s.popFront n).whole = s.whole.tail := by
    simp only [whole, SliceOf.popFront, hn, List.tail_drop]
  rw [htail, hw, List.tail_cons]

/-- An untrimmed first buffer is removed whole, when not even the suffix reaches into it. -/
theorem Inv.popFront (h : Inv s) (h0 : s.prefix_ = 0) {b : Buffer} {rest : List Buffer} (hw : s.whole = b :: rest)
    (hb : b.size ≤ s.size_) : Inv (s.popFront b.size) := by
  have hne : s.begin_ ≠ s.end_ := fun hc => by
    rw [h.toBounds.whole_eq_nil hc] at hw
    cases hw
  have hsize := h.size_eq
  have hrest := h.toBounds.whole_popFront hw b.size
  refine { h.toBounds.popFront hne b.size with size_eq := ?_, first_lt := Or.inl h0, last_lt := ?_ }
  · rw [hrest]
    rw [hw, size_cons] at hsize
    simp only [SliceOf.popFront]
    omega
  · rw [hrest]
    cases rest with
    | nil =>
      left
      rw [hw, size_cons, size_nil] at hsize
      simp only [SliceOf.popFront]
      omega
    | cons c rest =>
      have := h.last_lt
      rwa [hw, List.getLast?_cons_cons] at this

theorem Inv.denote_popFront (h : Inv s) (h0 : s.prefix_ = 0) {b : Buffer} {rest : List Buffer}
    (hw : s.whole = b :: rest) : (s.popFront b.size).denote = s.denote.drop b.size := by
  have hlen : b.addresses.length = b.size := by simp
  have hp : (s.popFront b.size).prefix_ = 0 := h0
  simp only [denote, h.toBounds.whole_popFront hw, hp, h0, List.drop_zero, hw, addresses_cons]
  rw [List.drop_take, ← hlen, List.drop_left]
  rfl

/-- The cut falls strictly inside the first buffer. -/
theorem Inv.cutFront (h : Inv s) (h0 : s.prefix_ = 0) {b : Buffer} {rest : List Buffer} (hw : s.whole = b :: rest)
    {n : Nat} (hn : n < b.size) (hle : n ≤ s.size_) : Inv { s with prefix_ := n, size_ := s.size_ - n } := by
  refine { h.toBounds with size_eq := ?_, first_lt := Or.inr ⟨b, ?_, hn⟩, last_lt := h.last_lt }
  · have hsize := h.size_eq
    simp only [whole] at hsize ⊢
    omega
  · show b ∈ s.whole.head?
    rw [hw]
    rfl

theorem denote_cutFront (h0 : s.prefix_ = 0) (n : Nat) :
    denote { s with prefix_ := n, size_ := s.size_ - n } = s.denote.drop n := by
  simp [denote, whole, h0, List.drop_take]

end Front

/-! ### `remove_prefix_impl` -/

/-- What holds at each round of the loop: the prefix is merged into `n`, and dropping `n` addresses from
    here gives the result. -/
structure PrefixInv (s : SliceOf) (target : List Nat) (x : SliceOf × Int × Nat) : Prop where
  inv : Inv x.1
  no_prefix : x.1.prefix_ = 0
  it_eq : x.2.1 = x.1.begin_
  bs_eq : x.1.bs_ = s.bs_
  end_eq : x.1.end_ = s.end_
  begin_ge : s.begin_ ≤ x.1.begin_
  le_size : x.2.2 ≤ x.1.size_
  target_eq : x.1.denote.drop x.2.2 = target

/-- What an operation on `s` leaves. -/
structure Result (s : SliceOf) (target : List Nat) (t : SliceOf) : Prop where
  inv : Inv t
  bs_eq : t.bs_ = s.bs_
  target_eq : t.denote = target

theorem PrefixInv.round {s : SliceOf} {target : List Nat} {x : SliceOf × Int × Nat} (h : PrefixInv s target x) :
    Round (removePrefixBody s.begin_ s.end_) (PrefixInv s target) (fun x => x.1.len_) (Result s target) x := by
  obtain ⟨u, it, n⟩ := x
  obtain ⟨inv, h0, hit, hbs, hend, hge, hle, htarget⟩ := h
  simp only at inv h0 hit hbs hend hge hle htarget
  by_cases hgo : n > 0 ∧ u.begin_ ≠ u.end_
  · obtain ⟨b, rest, hw, hd⟩ := inv.toBounds.whole_cons hgo.2
    have hd' : Buffers.deref u.bs_ s.begin_ s.end_ it = .ok b := by
      rw [hit]
      exact deref_mono hd hge (Int.le_of_eq hend)
    have hlen := inv.toBounds.length_whole
    by_cases hn : n < b.size
    · refine Or.inl ⟨{ u with prefix_ := n, size_ := u.size_ - n }, ?_, inv.cutFront h0 hw hn hle, hbs,
        (denote_cutFront h0 n).trans htarget⟩
      simp [removePrefixBody, hgo, hd', hn, sub_of_le hle]
    · -- This buffer goes as a whole, and the rest of `n` is dropped from the next one on.
      have hbn : b.size ≤ n := by omega
      have hb : b.size ≤ u.size_ := Nat.le_trans hbn hle
      have hl : 1 ≤ u.len_ := by
        rw [← hlen, hw, List.length_cons]
        omega
      refine Or.inr ⟨(u.popFront b.size, it + 1, n - b.size), ?_,
        ⟨inv.popFront h0 hw hb, h0, ?_, hbs, hend, ?_, ?_, ?_⟩, ?_⟩
      · simp [removePrefixBody, hgo, hd', hn, sub_of_le hbn, sub_of_le hb, sub_of_le hl, popFront]
      · simp [popFront, hit]
      · show s.begin_ ≤ u.begin_ + 1
        omega
      · show n - b.size ≤ u.size_ - b.size
        omega
      · show (u.popFront b.size).denote.drop (n - b.size) = target
        rw [inv.denote_popFront h0 hw, List.drop_drop, Nat.add_sub_cancel' hbn, htarget]
      · show u.len_ - 1 < u.len_
        omega
  · refine Or.inl ⟨u, by simp only [removePrefixBody, hgo, if_false]; rfl, inv, hbs, ?_⟩
    rw [← htarget]
    by_cases hn : n = 0
    · simp [hn]
    · have hc : u.begin_ = u.end_ := Decidable.byContradiction fun hne => hgo ⟨by omega, hne⟩
      simp [denote, inv.toBounds.whole_eq_nil hc]

theorem Inv.removePrefixImpl {s : SliceOf} (h : Inv s) (n : Nat) :
    ∃ t, removePrefixImpl s n = .ok t ∧ Result s (s.denote.drop n) t := by
  have hsize := h.size_eq
  have hdenote : SliceOf.denote { s with size_ := s.size_ + s.prefix_, prefix_ := 0 } =
      (addresses s.whole).take (s.size_ + s.prefix_) := rfl
  refine loop_spec (I := PrefixInv s (s.denote.drop n)) (fun x hx => hx.round)
    ⟨?_, rfl, rfl, rfl, rfl, Int.le_refl _, ?_, ?_⟩ ?_
  · refine { h.toBounds with size_eq := ?_, first_lt := Or.inl rfl, last_lt := h.last_lt }
    simp only [whole] at hsize ⊢
    omega
  · simp only
    split <;> omega
  · -- The prefix that was already gone is dropped again together with the clamped `n`.
    dsimp only
    rw [hdenote, List.drop_take]
    have hmin : (if n > s.size_ then s.size_ else n) = min n s.size_ := by
      split <;> omega
    rw [hmin, denote, List.drop_take, Nat.add_comm (min n s.size_), ← List.drop_drop]
    by_cases hn : n ≤ s.size_
    · rw [Nat.min_eq_left hn]
      congr 1
      omega
    · rw [Nat.min_eq_right (by omega)]
      have h1 : s.size_ + s.prefix_ - (s.prefix_ + s.size_) = 0 := by omega
      have h2 : s.size_ - n = 0 := by omega
      rw [h1, h2, List.take_zero, List.take_zero]
  · have := h.toBounds.len_le
    simp only
    omega

/-! ### Removing the last buffer of the window -/

section Back
variable {s : SliceOf}

theorem Bounds.whole_concat (h : Bounds s) (hne : s.begin_ ≠ s.end_) :
    ∃ front b, s.whole = front ++ [b] ∧ Buffers.deref s.bs_ s.begin_ s.end_ (s.end_ - 1) = .ok b := by
  have hlen := h.length_whole
  have h2 := h.begin_le_end
  have h4 := h.len_eq
  rcases List.eq_nil_or_concat' s.whole with hw | ⟨front, b, hw⟩
  · rw [hw, List.length_nil] at hlen
    omega
  · rw [hw, List.length_append, List.length_singleton] at hlen
    exact ⟨front, b, hw, h.deref (i := front.length) (by simp [hw]) (by omega)⟩

/-- The slice without the last buffer of its window. -/
def popBack (s : SliceOf) (n : Nat) : SliceOf :=
  { s with size_ := s.size_ - n, end_ := s.end_ - 1, len_ := s.len_ - 1 }

theorem Bounds.popBack (h : Bounds s) (hne : s.begin_ ≠ s.end_) (n : Nat) : Bounds (s.popBack n) where
  begin_nonneg := h.begin_nonneg
  begin_le_end := by
    have := h.begin_le_end
    simp only [SliceOf.popBack]
    omega
  end_le := by
    have := h.end_le
    simp only [SliceOf.popBack]
    omega
  len_eq := by
    have h2 := h.begin_le_end
    have h4 := h.len_eq
    simp only [SliceOf.popBack]
    omega

theorem Bounds.whole_popBack (h : Bounds s) {front : List Buffer} {b : Buffer} (hw : s.whole = front ++ [b]) (n : Nat) :
    (s.popBack n).whole = front := by
  have h1 := h.begin_nonneg
  have h2 := h.begin_le_end
  have h3 := h.end_le
  have hlen := h.length_whole
  have h4 := h.len_eq
  have hdrop : (s.popBack n).whole = s.whole.dropLast := by
    have hn : (s.end_ - 1).toNat = s.end_.toNat - 1 := by omega
    simp only [whole, SliceOf.popBack, hn]
    rw [List.dropLast_eq_take, List.length_drop, List.length_take, List.take_drop, List.take_take]
    rw [hw, List.length_append, List.length_singleton] at hlen
    congr 2
    omega
  rw [hdrop, hw, List.dropLast_concat]

theorem Inv.popBack (h : Inv s) (h0 : s.suffix_ = 0) {front : List Buffer} {b : Buffer} (hw : s.whole = front ++ [b])
    (hf : front ≠ []) (hb : b.size ≤ s.size_) : Inv (s.popBack b.size) := by
  have hne : s.begin_ ≠ s.end_ := fun hc => by
    rw [h.toBounds.whole_eq_nil hc] at hw
    simp at hw
  have hsize := h.size_eq
  have hfront := h.toBounds.whole_popBack hw b.size
  refine { h.toBounds.popBack hne b.size with size_eq := ?_, first_lt := ?_, last_lt := Or.inl h0 }
  · rw [hfront]
    rw [hw, size_append, size_cons, size_nil] at hsize
    simp only [SliceOf.popBack]
    omega
  · have := h.first_lt
    rw [hw, List.head?_append_of_ne_nil _ hf] at this
    rw [hfront]
    exact this

theorem Inv.denote_popBack (h : Inv s) {front : List Buffer} {b : Buffer} (hw : s.whole = front ++ [b])
    (h0 : s.suffix_ = 0) (hb : b.size ≤ s.size_) :
    (s.popBack b.size).denote = s.denote.take (s.size_ - b.size) := by
  have hsize := h.size_eq
  rw [hw, size_append, size_cons, size_nil, Buffers.size_eq] at hsize
  have hp : s.prefix_ ≤ (addresses front).length := by omega
  simp only [denote, h.toBounds.whole_popBack hw, hw, addresses_append]
  rw [List.take_take, Nat.min_eq_left (Nat.sub_le _ _), List.drop_append_of_le_length hp]
  rw [List.take_append_of_le_length]
  · rfl
  · rw [List.length_drop]
    omega

/-- The cut falls strictly inside the last buffer. -/
theorem Inv.cutBack (h : Inv s) (h0 : s.suffix_ = 0) {front : List Buffer} {b : Buffer} (hw : s.whole = front ++ [b])
    {n : Nat} (hn : n < b.size) (hle : n ≤ s.size_) : Inv { s with suffix_ := n, size_ := s.size_ - n } := by
  refine { h.toBounds with size_eq := ?_, first_lt := h.first_lt, last_lt := Or.inr ⟨b, ?_, hn⟩ }
  · have hsize := h.size_eq
    simp only [whole] at hsize ⊢
    omega
  · show b ∈ s.whole.getLast?
    rw [hw, List.getLast?_concat]
    rfl

theorem denote_cutBack (n : Nat) : denote { s with suffix_ := n, size_ := s.size_ - n } = s.denote.take (s.size_ - n) := by
  simp [denote, whole, List.take_take]

end Back

/-! ### `remove_suffix_impl` and `keep_prefix_impl` -/

structure SuffixInv (s : SliceOf) (target : List Nat) (x : SliceOf × Int × Nat) : Prop where
  inv : Inv x.1
  no_suffix : x.1.suffix_ = 0
  it_eq : x.2.1 = x.1.end_ - 1
  bs_eq : x.1.bs_ = s.bs_
  begin_eq : x.1.begin_ = s.begin_
  nonempty : x.1.begin_ ≠ x.1.end_
  end_le : x.1.end_ ≤ s.end_
  lt_size : x.2.2 < x.1.size_
  target_eq : x.1.denote.take (x.1.size_ - x.2.2) = target

theorem SuffixInv.round {s : SliceOf} {target : List Nat} {x : SliceOf × Int × Nat} (h : SuffixInv s target x) :
    Round (removeSuffixBody s.begin_ s.end_) (SuffixInv s target) (fun x => x.1.len_) (Result s target) x := by
  obtain ⟨u, it, n⟩ := x
  obtain ⟨inv, h0, hit, hbs, hbegin, hne, hend, hlt, htarget⟩ := h
  simp only at inv h0 hit hbs hbegin hne hend hlt htarget
  obtain ⟨front, b, hw, hd⟩ := inv.toBounds.whole_concat hne
  have hd' : Buffers.deref u.bs_ s.begin_ s.end_ it = .ok b := by
    rw [hit]
    exact deref_mono hd (Int.le_of_eq hbegin.symm) hend
  have hlen := inv.toBounds.length_whole
  have h4 := inv.len_eq
  have hsize := inv.size_eq
  have hcut : n < b.size → Result s target { u with suffix_ := n, size_ := u.size_ - n } := fun hn =>
    ⟨inv.cutBack h0 hw hn (Nat.le_of_lt hlt), hbs, (denote_cutBack n).trans htarget⟩
  rw [hw, List.length_append, List.length_singleton] at hlen
  rw [hw, size_append, size_cons, size_nil, h0] at hsize
  by_cases hfirst : it = s.begin_
  · -- The first buffer is the last one left, and holds more than `n` bytes past the prefix.
    have hf : front = [] := List.length_eq_zero_iff.mp (by omega)
    subst hf
    rw [size_nil] at hsize
    have hp : u.prefix_ ≤ b.size := by omega
    have hm : n < b.size - u.prefix_ := by omega
    rw [hfirst] at hd'
    refine Or.inl ⟨_, ?_, hcut (by omega)⟩
    simp [removeSuffixBody, hd', hfirst, sub_of_le hp, hm, sub_of_le (Nat.le_of_lt hlt)]
  · by_cases hn : n < b.size
    · refine Or.inl ⟨_, ?_, hcut hn⟩
      simp [removeSuffixBody, hd', hfirst, hn, sub_of_le (Nat.le_of_lt hlt)]
    · have hbn : b.size ≤ n := by omega
      have hb : b.size ≤ u.size_ := by omega
      have hl : 1 ≤ u.len_ := by omega
      have hf : front ≠ [] := by
        rintro rfl
        exact hfirst (by simp only [List.length_nil] at hlen; omega)
      refine Or.inr ⟨(u.popBack b.size, it - 1, n - b.size), ?_,
        ⟨inv.popBack h0 hw hf hb, h0, ?_, hbs, hbegin, ?_, ?_, ?_, ?_⟩, ?_⟩
      · simp [removeSuffixBody, hd', hfirst, hn, sub_of_le hbn, sub_of_le hb, sub_of_le hl, popBack]
      · simp [popBack, hit]
      · show u.begin_ ≠ u.end_ - 1
        omega
      · show u.end_ - 1 ≤ s.end_
        omega
      · show n - b.size < u.size_ - b.size
        omega
      · show (u.popBack b.size).denote.take (u.size_ - b.size - (n - b.size)) = target
        rw [inv.denote_popBack hw h0 hb, List.take_take, ← htarget]
        congr 1
        omega
      · show u.len_ - 1 < u.len_
        omega

theorem Inv.removeSuffixImpl {s : SliceOf} (h : Inv s) {n : Nat} (hn : n < s.size_) :
    ∃ t, removeSuffixImpl s n = .ok t ∧ Result s (s.denote.take (s.size_ - n)) t := by
  have hsize := h.size_eq
  have hpos : s.size_ ≠ 0 := by omega
  have hne : s.begin_ ≠ s.end_ := fun hc => by
    rw [h.toBounds.whole_eq_nil hc, size_nil] at hsize
    omega
  have hmin : (if n > s.size_ then s.size_ else n) = n := by
    split <;> omega
  have hloop : SliceOf.removeSuffixImpl s n = loop (removeSuffixBody s.begin_ s.end_) (s.bs_.length + 1)
      ({ s with size_ := s.size_ + s.suffix_, suffix_ := 0 }, s.end_ - 1, n + s.suffix_) := by
    simp [SliceOf.removeSuffixImpl, hpos, assert_of, hne, hmin]
  rw [hloop]
  refine loop_spec (I := SuffixInv s (s.denote.take (s.size_ - n))) (fun x hx => hx.round)
    ⟨?_, rfl, rfl, rfl, rfl, hne, Int.le_refl _, ?_, ?_⟩ ?_
  · refine { h.toBounds with size_eq := ?_, first_lt := h.first_lt, last_lt := Or.inl rfl }
    simp only [whole] at hsize ⊢
    omega
  · simp only
    omega
  · have hdenote : SliceOf.denote { s with size_ := s.size_ + s.suffix_, suffix_ := 0 } =
        ((addresses s.whole).drop s.prefix_).take (s.size_ + s.suffix_) := rfl
    dsimp only
    rw [hdenote, denote, List.take_take, List.take_take]
    congr 1
    omega
  · have := h.toBounds.len_le
    simp only
    omega

/-- What an operation leaves when it may close the window. -/
structure Narrowed (s : SliceOf) (target : List Nat) (t : SliceOf) : Prop where
  sound : Inv t ∨ Emptied t
  bs_eq : t.bs_ = s.bs_
  target_eq : t.denote = target

theorem Result.narrowed {s t : SliceOf} {target : List Nat} (h : Result s target t) : Narrowed s target t :=
  ⟨Or.inl h.inv, h.bs_eq, h.target_eq⟩

theorem Inv.narrowed_self {s : SliceOf} (h : Inv s) : Narrowed s s.denote s := ⟨Or.inl h, rfl, rfl⟩

theorem Inv.keepPrefixImpl {s : SliceOf} (h : Inv s) (n : Nat) :
    ∃ t, keepPrefixImpl s n = .ok t ∧ Narrowed s (s.denote.take n) t := by
  by_cases hge : n ≥ s.size_
  · refine ⟨s, by simp [SliceOf.keepPrefixImpl, hge], ?_⟩
    rw [List.take_of_length_le (by rw [h.length_denote]; exact hge)]
    exact h.narrowed_self
  · by_cases hn : n = 0
    · subst hn
      refine ⟨{ s with end_ := s.begin_, len_ := 0, size_ := 0 }, by simp [SliceOf.keepPrefixImpl, hge],
        ⟨Or.inr ⟨⟨⟨h.begin_nonneg, Int.le_refl _, ?_, by simp⟩, rfl⟩, rfl⟩, rfl, by simp [denote]⟩⟩
      exact Int.le_trans h.begin_le_end h.end_le
    · obtain ⟨t, ht, hr⟩ := h.removeSuffixImpl (n := s.size_ - n) (by omega)
      refine ⟨t, ?_, ?_⟩
      · simp [SliceOf.keepPrefixImpl, hge, hn, sub_of_le (Nat.le_of_not_le hge), ht]
      · have hsub : s.size_ - (s.size_ - n) = n := by omega
        rw [hsub] at hr
        exact hr.narrowed

/-! ### The four operations -/

/-- The suffix operations are prefix operations with the complementary count: when `tag_invoke` drops or
    keeps the first addresses, the four operations keep their windows. -/
theorem apply_of_tagInvoke {T : Type} [Sliceable T] {bs : T} {bufs : List Buffer} (hread : Sliceable.read bs = .ok bufs)
    {P : List Nat → T → Prop} (hself : P (addresses bufs) bs)
    (hremove : ∀ n, ∃ t, Sliceable.tagInvoke bs .removePrefix n = .ok t ∧ P ((addresses bufs).drop n) t)
    (hkeep : ∀ n, ∃ t, Sliceable.tagInvoke bs .keepPrefix n = .ok t ∧ P ((addresses bufs).take n) t) (op : SliceOp) :
    ∃ t, op.apply bs = .ok t ∧ P (op.window (addresses bufs)) t := by
  cases op with
  | removePrefix n => exact hremove n
  | keepPrefix n => exact hkeep n
  | removeSuffix n =>
    by_cases hn : n > 0
    · have hk : (if n > size bufs then size bufs else n) ≤ size bufs := by split <;> omega
      obtain ⟨t, ht, hP⟩ := hkeep (size bufs - if n > size bufs then size bufs else n)
      refine ⟨t, ?_, ?_⟩
      · simp only [SliceOp.apply, removeSuffix, hread, ok_bind, hn, if_true, sub_of_le hk]
        exact ht
      · have hsub : (size bufs - if n > size bufs then size bufs else n) = (addresses bufs).length - n := by
          rw [← Buffers.size_eq]
          split <;> omega
        rw [hsub] at hP
        exact hP
    · refine ⟨bs, by simp [SliceOp.apply, removeSuffix, hread, hn], ?_⟩
      obtain rfl : n = 0 := by omega
      simpa [SliceOp.window] using hself
  | keepSuffix n =>
    by_cases hn : n < size bufs
    · obtain ⟨t, ht, hP⟩ := hremove (size bufs - n)
      refine ⟨t, ?_, ?_⟩
      · simp only [SliceOp.apply, keepSuffix, hread, ok_bind, hn, if_true, sub_of_le (Nat.le_of_lt hn)]
        exact ht
      · rw [Buffers.size_eq] at hP
        exact hP
    · refine ⟨bs, by simp [SliceOp.apply, keepSuffix, hread, hn], ?_⟩
      have hsub : (addresses bufs).length - n = 0 := by
        rw [← Buffers.size_eq]
        omega
      simpa [SliceOp.window, List.rtake, hsub] using hself

theorem Inv.read {s : SliceOf} (h : Inv s) : Sliceable.read s = .ok s.yields := h.readable.readForward

theorem Closed.read {s : SliceOf} (h : Closed s) : Sliceable.read s = .ok [] := by
  rw [← h.yields_eq_nil]
  exact h.readable.readForward

theorem Inv.apply {s : SliceOf} (h : Inv s) (op : SliceOp) :
    ∃ t, op.apply s = .ok t ∧ Narrowed s (op.window s.denote) t := by
  rw [← h.addresses_yields]
  refine apply_of_tagInvoke h.read (P := Narrowed s) ?_ (fun n => ?_) (fun n => ?_) op <;> rw [h.addresses_yields]
  · exact h.narrowed_self
  · obtain ⟨t, ht, hr⟩ := h.removePrefixImpl n
    exact ⟨t, ht, hr.narrowed⟩
  · exact h.keepPrefixImpl n

theorem Emptied.apply {s : SliceOf} (h : Emptied s) {op : SliceOp} (hop : ∀ n, op ≠ .removePrefix n) :
    op.apply s = .ok s := by
  have hkeep : ∀ n, Sliceable.tagInvoke s .keepPrefix n = .ok s := fun n => by
    simp [Sliceable.tagInvoke, sliceImpl, SliceOf.keepPrefixImpl, h.size_eq]
  cases op with
  | removePrefix n => exact absurd rfl (hop n)
  | keepPrefix n => exact hkeep n
  | removeSuffix n =>
    by_cases hn : n > 0
    · simp [SliceOp.apply, removeSuffix, h.read, hn, hkeep, sub_of_le]
    · simp [SliceOp.apply, removeSuffix, h.read, hn]
  | keepSuffix n => simp [SliceOp.apply, keepSuffix, h.read]

/-- `remove_prefix` on an emptied slice adds the prefix that was left behind to the stored size. -/
theorem Emptied.removePrefix {s : SliceOf} (h : Emptied s) (n : Nat) :
    SliceOp.apply s (.removePrefix n) = .ok { s with size_ := s.prefix_, prefix_ := 0 } := by
  have hc := h.closed
  have hbody : ∀ k, removePrefixBody s.begin_ s.end_ ({ s with size_ := s.prefix_, prefix_ := 0 }, s.begin_, k) =
      .ok (.done { s with size_ := s.prefix_, prefix_ := 0 }) := fun k => by
    simp [removePrefixBody, hc]
  simp only [SliceOp.apply, Buffers.removePrefix, Sliceable.tagInvoke, sliceImpl, SliceOf.removePrefixImpl, h.size_eq,
    Nat.zero_add]
  exact loop_done (hbody _)

end Buffers.SliceOf
