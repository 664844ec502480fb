import Buffers.Sequence
import Buffers.Lib.Run

/-! # Slices over whole runs

A run applies operations in place to a `slice_of` that was constructed from a sequence. Until an operation
empties the slice, each operation keeps its window of the addresses (`slice_window`). The representation
survives an emptying operation as well, except for one step: `remove_prefix` on a slice whose window is
closed while a trimmed prefix was left behind (`slice_represented_iff`). -/

namespace Buffers
open SliceOf

/-! ### The constructor -/

theorem foldl_ofSequence (bs : List Buffer) (s : SliceOf) :
    bs.foldl (fun s b => { s with size_ := s.size_ + b.size, len_ := s.len_ + 1 }) s =
      { s with size_ := s.size_ + size bs, len_ := s.len_ + bs.length } := by
  induction bs generalizing s with
  | nil => rfl
  | cons b bs ih =>
    rw [List.foldl_cons, ih]
    simp only [size_cons, List.length_cons, SliceOf.mk.injEq, true_and, and_true]
    omega

theorem ofSequence_eq (bs : List Buffer) :
    ofSequence bs = { bs_ := bs, begin_ := 0, end_ := bs.length, len_ := bs.length, size_ := size bs, prefix_ := 0,
                      suffix_ := 0 } := by
  simp [ofSequence, foldl_ofSequence]

theorem whole_ofSequence (bs : List Buffer) : (ofSequence bs).whole = bs := by simp [ofSequence_eq, whole]

theorem inv_ofSequence (bs : List Buffer) : Inv (ofSequence bs) := by
  have hw := whole_ofSequence bs
  rw [ofSequence_eq] at hw ⊢
  exact { begin_nonneg := Int.le_refl _, begin_le_end := Int.natCast_nonneg _, end_le := Int.le_refl _,
          len_eq := by simp, size_eq := by rw [hw]; simp, first_lt := Or.inl rfl, last_lt := Or.inl rfl }

theorem denote_ofSequence (bs : List Buffer) : (ofSequence bs).denote = addresses bs := by
  rw [denote, whole_ofSequence]
  simp [ofSequence_eq, Buffers.size_eq]

/-! ### The representation -/

/-- The indices are in order and inside the wrapped sequence, and the stored size is the total size of the
    buffers that iteration yields. -/
structure Represented (bs : List Buffer) (s : SliceOf) : Prop extends Bounds s where
  bs_eq : s.bs_ = bs
  size_read : ∃ bufs, s.readForward = .ok bufs ∧ s.size_ = size bufs

/-- The states that construction and the steps that restore no prefix leave. -/
structure Sound (bs : List Buffer) (s : SliceOf) : Prop where
  bs_eq : s.bs_ = bs
  sound : Inv s ∨ Emptied s

/-- The step that brings back a prefix of a closed window. -/
def Restores (s : SliceOf) (op : SliceOp) : Prop := s.begin_ = s.end_ ∧ s.prefix_ ≠ 0 ∧ ∃ n, op = .removePrefix n

theorem Sound.represented {bs : List Buffer} {s : SliceOf} (h : Sound bs s) : Represented bs s := by
  rcases h.sound with hi | he
  · refine ⟨hi.toBounds, h.bs_eq, s.yields, hi.readable.readForward, ?_⟩
    rw [Buffers.size_eq, hi.addresses_yields, hi.length_denote]
  · exact ⟨he.toBounds, h.bs_eq, [], he.read, he.size_eq⟩

theorem Sound.apply {bs : List Buffer} {s : SliceOf} {op : SliceOp} (h : Sound bs s) (hop : ¬Restores s op) :
    ∃ t, op.apply s = .ok t ∧ Sound bs t := by
  rcases h.sound with hi | he
  · obtain ⟨t, ht, hn⟩ := hi.apply op
    exact ⟨t, ht, hn.bs_eq.trans h.bs_eq, hn.sound⟩
  · by_cases hr : ∃ n, op = .removePrefix n
    · obtain ⟨n, rfl⟩ := hr
      have hp : s.prefix_ = 0 := Decidable.byContradiction fun hp => hop ⟨he.closed, hp, n, rfl⟩
      have hs : { s with size_ := s.prefix_, prefix_ := 0 } = s := by
        obtain ⟨-, h0⟩ := he
        cases s
        simp_all
      exact ⟨s, by rw [he.removePrefix, hs], h⟩
    · exact ⟨s, he.apply fun n hn => hr ⟨n, hn⟩, h⟩

/-- The step that restores a prefix gives an empty slice a nonzero size. -/
theorem Sound.not_represented {bs : List Buffer} {s t : SliceOf} {op : SliceOp} (h : Sound bs s) (hop : Restores s op)
    (ht : op.apply s = .ok t) : ¬Represented bs t := by
  obtain ⟨hc, hp, n, rfl⟩ := hop
  rcases h.sound with hi | he
  · exact absurd (size_eq_nil_of_whole hi (hi.toBounds.whole_eq_nil hc)).2.1 hp
  · rw [he.removePrefix] at ht
    cases ht
    rintro ⟨hb, -, bufs, hread, hsize⟩
    have hclosed : Closed { s with size_ := s.prefix_, prefix_ := 0 } := ⟨hb, hc⟩
    have hnil := hclosed.read
    simp only [Sliceable.read] at hnil
    rw [hnil] at hread
    cases hread
    exact hp hsize

/-- No operation of the run faults, and every state that it reaches is represented. -/
def RunRepresented (bs : List Buffer) (ops : List SliceOp) : Prop :=
  Represented bs (ofSequence bs) ∧ Run.Every SliceOp.apply (fun _ _ t => Represented bs t) (ofSequence bs) ops

/-- The representation holds throughout a run exactly when no step of it restores the prefix of a closed
    window. -/
theorem slice_represented_iff (bs : List Buffer) (ops : List SliceOp) :
    RunRepresented bs ops ↔ Run.Always SliceOp.apply (fun s op => ¬Restores s op) (ofSequence bs) ops := by
  have hsound : Sound bs (ofSequence bs) := ⟨by rw [ofSequence_eq], Or.inl (inv_ofSequence bs)⟩
  have hiff : Run.Every SliceOp.apply (fun _ _ t => Represented bs t) (ofSequence bs) ops ↔
      Run.Always SliceOp.apply (fun s op => ¬Restores s op) (ofSequence bs) ops := by
    refine Run.every_iff_always (I := Sound bs) (fun s op h hop => ?_) (fun s op t h hop ht => ?_) hsound ops
    · obtain ⟨t, ht, hs⟩ := h.apply hop
      exact ⟨t, ht, hs.represented, hs⟩
    · exact h.not_represented (not_not.mp hop) ht
  rw [← hiff]
  exact and_iff_right hsound.represented

/-- A slice of one three-byte buffer that loses two bytes, is emptied and then asked to remove nothing
    has a stored size of two; keeping one byte of it fails an assertion. -/
theorem slice_represented_counterexample :
    Run.run SliceOp.apply (ofSequence [⟨0, 3⟩]) [.removePrefix 2, .keepPrefix 0, .removePrefix 0] =
        .ok { bs_ := [⟨0, 3⟩], begin_ := 0, end_ := 0, len_ := 0, size_ := 2, prefix_ := 0, suffix_ := 0 } ∧
      Run.run SliceOp.apply (ofSequence [⟨0, 3⟩])
        [.removePrefix 2, .keepPrefix 0, .removePrefix 0, .keepPrefix 1] = .error .assertion ∧
      ¬RunRepresented [⟨0, 3⟩] [.removePrefix 2, .keepPrefix 0, .removePrefix 0, .keepPrefix 1] := by
  have hfault : Run.run SliceOp.apply (ofSequence [⟨0, 3⟩])
      [.removePrefix 2, .keepPrefix 0, .removePrefix 0, .keepPrefix 1] = .error .assertion := rfl
  refine ⟨rfl, hfault, fun h => ?_⟩
  obtain ⟨t, ht⟩ := Run.run_of_every h.2
  rw [ht] at hfault
  cases hfault

/-! ### Sequences of any type -/

/-- What `tag_invoke` is for: the part of a list that it keeps. -/
def SliceHow.window {α : Type} (l : List α) (n : Nat) : SliceHow → List α
  | .removePrefix => l.drop n
  | .keepPrefix => l.take n

theorem Buffer.tagInvoke_denotes (b : Buffer) (how : SliceHow) (n : Nat) :
    Denotes (b.doSlice how n) (how.window (Buffers.addresses [b]) n) := by
  refine ⟨[b.doSlice how n], rfl, ?_⟩
  cases how with
  | removePrefix => simp [SliceHow.window, Buffer.doSlice, Buffer.addresses_addAssign]
  | keepPrefix => simp [SliceHow.window, Buffer.addresses_keepPrefix]

/-- The hand-written slicing of pairs: a prefix that covers the first buffer moves the second one to its
    place, and a kept prefix that ends in the first buffer blanks the second one. -/
theorem BufferPair.tagInvoke_denotes (p : BufferPair) (how : SliceHow) (n : Nat) :
    ∃ q, p.tagInvoke how n = .ok q ∧ Denotes q (how.window (addresses p.toList) n) := by
  obtain ⟨b, c⟩ := p
  have hempty : addresses [(⟨0, 0⟩ : Buffer)] = [] := rfl
  have hb : b.addresses.length = b.size := b.length_addresses
  cases how with
  | removePrefix =>
    by_cases hn : n < b.size
    · refine ⟨⟨b.addAssign n, c⟩, by simp [tagInvoke, hn, removePrefix, Sliceable.tagInvoke, Buffer.doSlice], _, rfl, ?_⟩
      simp only [toList, addresses_cons, addresses_nil, SliceHow.window, Buffer.addresses_addAssign]
      rw [List.drop_append_of_le_length (by omega)]
    · refine ⟨⟨c.addAssign (n - b.size), ⟨0, 0⟩⟩, ?_, _, rfl, ?_⟩
      · simp [tagInvoke, hn, Checked.sub_of_le (Nat.le_of_not_lt hn), removePrefix, Sliceable.tagInvoke, Buffer.doSlice]
      · simp only [toList, addresses_cons, addresses_nil, SliceHow.window, Buffer.addresses_addAssign, List.append_nil]
        rw [List.drop_append, List.drop_of_length_le (l := b.addresses) (by omega), hb]
        simp [Buffer.addresses]
  | keepPrefix =>
    by_cases hn : n ≤ b.size
    · refine ⟨⟨b.doSlice .keepPrefix n, ⟨0, 0⟩⟩, by simp [tagInvoke, hn, keepPrefix, Sliceable.tagInvoke], _, rfl, ?_⟩
      simp only [toList, addresses_cons, addresses_nil, SliceHow.window, Buffer.addresses_keepPrefix, List.append_nil]
      rw [List.take_append_of_le_length (by omega)]
      simp [Buffer.addresses]
    · refine ⟨⟨b, c.doSlice .keepPrefix (n - b.size)⟩, ?_, _, rfl, ?_⟩
      · simp [tagInvoke, hn, Checked.sub_of_le (Nat.le_of_not_le hn), keepPrefix, Sliceable.tagInvoke]
      · simp only [toList, addresses_cons, addresses_nil, SliceHow.window, Buffer.addresses_keepPrefix, List.append_nil]
        rw [List.take_append, List.take_of_length_le (l := b.addresses) (by omega), hb]

theorem SliceOf.Inv.denotes {s : SliceOf} (h : Inv s) : Denotes s s.denote := ⟨s.yields, h.read, h.addresses_yields⟩

theorem SliceOf.Narrowed.denotes {s t : SliceOf} {l : List Nat} (h : Narrowed s l t) : Denotes t l := by
  rw [← h.target_eq]
  rcases h.sound with hi | he
  · exact hi.denotes
  · exact ⟨[], he.read, he.denote_eq_nil.symm⟩

theorem SliceOf.Inv.tagInvoke_denotes {s : SliceOf} (h : Inv s) (how : SliceHow) (n : Nat) :
    ∃ t, s.sliceImpl how n = .ok t ∧ Denotes t (how.window s.denote n) := by
  cases how with
  | removePrefix =>
    obtain ⟨t, ht, hr⟩ := h.removePrefixImpl n
    exact ⟨t, ht, hr.narrowed.denotes⟩
  | keepPrefix =>
    obtain ⟨t, ht, hr⟩ := h.keepPrefixImpl n
    exact ⟨t, ht, hr.denotes⟩

/-- An emptied slice reads as empty after any operation, even when its stored size does not. -/
theorem SliceOf.Emptied.tagInvoke_denotes {s : SliceOf} (h : Emptied s) (how : SliceHow) (n : Nat) :
    ∃ t, s.sliceImpl how n = .ok t ∧ Denotes t [] := by
  cases how with
  | removePrefix =>
    have hclosed : Closed { s with size_ := s.prefix_, prefix_ := 0 } :=
      ⟨⟨h.begin_nonneg, h.begin_le_end, h.end_le, h.len_eq⟩, h.closed⟩
    exact ⟨_, h.removePrefix n, [], hclosed.read, rfl⟩
  | keepPrefix =>
    refine ⟨s, ?_, [], h.read, rfl⟩
    simp [sliceImpl, SliceOf.keepPrefixImpl, h.size_eq]

theorem Sequence.exists_read (bs : Sequence) : ∃ bufs, bs.read = .ok bufs := by
  cases bs with
  | buffer b => exact ⟨_, rfl⟩
  | pair p => exact ⟨_, rfl⟩
  | slice s => exact s.sound.elim (fun h => ⟨_, h.read⟩) (fun h => ⟨_, h.read⟩)
  | range bs => exact ⟨_, rfl⟩

theorem Sequence.tagInvoke_denotes {bs : Sequence} {bufs : List Buffer} (hread : bs.read = .ok bufs) (how : SliceHow)
    (n : Nat) : ∃ t, Sliceable.tagInvoke bs.toSliceType how n = .ok t ∧ Denotes t (how.window (addresses bufs) n) := by
  cases bs with
  | buffer b =>
    cases hread
    exact ⟨.buffer (b.doSlice how n), rfl, b.tagInvoke_denotes how n⟩
  | pair p =>
    cases hread
    obtain ⟨q, hq, hd⟩ := p.tagInvoke_denotes how n
    exact ⟨.pair q, congrArg (SliceType.pair <$> ·) hq, hd⟩
  | slice s =>
    rcases s.sound with h | h
    · obtain ⟨t, ht, hd⟩ := h.tagInvoke_denotes how n
      rw [show bufs = s.val.yields from Except.ok.inj (hread.symm.trans h.read), h.addresses_yields]
      exact ⟨.slice t, congrArg (SliceType.slice <$> ·) ht, hd⟩
    · obtain ⟨t, ht, hd⟩ := h.tagInvoke_denotes how n
      rw [show bufs = [] from Except.ok.inj (hread.symm.trans h.read)]
      have hnil : how.window (addresses []) n = [] := by cases how <;> simp [SliceHow.window]
      rw [hnil]
      exact ⟨.slice t, congrArg (SliceType.slice <$> ·) ht, hd⟩
  | range bs =>
    obtain rfl : bs = bufs := Except.ok.inj hread
    obtain ⟨t, ht, hd⟩ := (inv_ofSequence bs).tagInvoke_denotes how n
    rw [denote_ofSequence] at hd
    exact ⟨.slice t, congrArg (SliceType.slice <$> ·) ht, hd⟩

theorem Sequence.toSliceType_denotes {bs : Sequence} {bufs : List Buffer} (hread : bs.read = .ok bufs) :
    ∃ bufs', Sliceable.read bs.toSliceType = .ok bufs' ∧ addresses bufs' = addresses bufs := by
  cases bs with
  | buffer b => exact ⟨bufs, hread, rfl⟩
  | pair p => exact ⟨bufs, hread, rfl⟩
  | slice s => exact ⟨bufs, hread, rfl⟩
  | range bs =>
    obtain rfl : bs = bufs := Except.ok.inj hread
    have h := inv_ofSequence bs
    exact ⟨_, h.read, by rw [h.addresses_yields, denote_ofSequence]⟩

theorem Sequence.apply_denotes {bs : Sequence} {bufs : List Buffer} (hread : bs.read = .ok bufs) (op : SliceOp) :
    ∃ t, op.apply bs.toSliceType = .ok t ∧ Denotes t (op.window (addresses bufs)) := by
  obtain ⟨bufs', hread', haddr⟩ := Sequence.toSliceType_denotes hread
  rw [← haddr]
  refine apply_of_tagInvoke (P := fun l t => Denotes t l) hread' ⟨_, hread', rfl⟩ (fun n => ?_) (fun n => ?_) op <;>
    rw [haddr]
  · exact Sequence.tagInvoke_denotes hread .removePrefix n
  · exact Sequence.tagInvoke_denotes hread .keepPrefix n

/-! ### Windows over a run -/

/-- No operation is applied to a list that is already empty. -/
def NeverEmpty {α : Type} : List α → List SliceOp → Prop
  | _, [] => True
  | l, op :: ops => l ≠ [] ∧ NeverEmpty (op.window l) ops

theorem run_narrowed {s : SliceOf} (h : Inv s ∨ Emptied s) (ops : List SliceOp) (hops : NeverEmpty s.denote ops) :
    ∃ t, Run.run SliceOp.apply s ops = .ok t ∧ Narrowed s (ops.foldl SliceOp.window s.denote) t := by
  induction ops generalizing s with
  | nil => exact ⟨s, rfl, h, rfl, rfl⟩
  | cons op ops ih =>
    obtain ⟨hne, hrest⟩ := hops
    have hi : Inv s := h.resolve_right fun he => hne he.denote_eq_nil
    obtain ⟨t, ht, hn⟩ := hi.apply op
    rw [← hn.target_eq] at hrest
    obtain ⟨u, hu, hsound, hbs, htarget⟩ := ih hn.sound hrest
    refine ⟨u, ?_, hsound, hbs.trans hn.bs_eq, ?_⟩
    · rw [Run.run_cons, ht]
      exact hu
    · rw [htarget, List.foldl_cons, hn.target_eq]

theorem SliceOf.Narrowed.reads {s t : SliceOf} {l : List Nat} (h : Narrowed s l t) :
    ∃ bufs, t.readForward = .ok bufs ∧ t.readBackward = .ok bufs.reverse ∧ addresses bufs = l := by
  rw [← h.target_eq]
  rcases h.sound with hi | he
  · exact ⟨_, hi.readable.readForward, hi.readable.readBackward, hi.addresses_yields⟩
  · refine ⟨_, he.readable.readForward, he.readable.readBackward, ?_⟩
    rw [he.yields_eq_nil, he.denote_eq_nil]
    rfl

/-- In-place slicing keeps exactly the window of each operation, read in either direction, and the
    complementary parts of any sequence join to the whole. -/
theorem slice_window :
    (∀ (bs : List Buffer) (ops : List SliceOp), NeverEmpty (addresses bs) ops →
      ∃ s bufs, Run.run SliceOp.apply (ofSequence bs) ops = .ok s ∧ s.readForward = .ok bufs ∧
        s.readBackward = .ok bufs.reverse ∧ addresses bufs = ops.foldl SliceOp.window (addresses bs)) ∧
    ∀ (bs : Sequence) (n : Nat), ∃ bufs p q v w lp lq lv lw, bs.read = .ok bufs ∧
      prefixOf bs n = .ok p ∧ sansPrefix bs n = .ok q ∧ sansSuffix bs n = .ok v ∧ suffixOf bs n = .ok w ∧
      Denotes p lp ∧ Denotes q lq ∧ Denotes v lv ∧ Denotes w lw ∧
      lp ++ lq = addresses bufs ∧ lv ++ lw = addresses bufs := by
  constructor
  · intro bs ops hops
    rw [← denote_ofSequence] at hops ⊢
    obtain ⟨s, hs, hn⟩ := run_narrowed (Or.inl (inv_ofSequence bs)) ops hops
    obtain ⟨bufs, hf, hb, ha⟩ := hn.reads
    exact ⟨s, bufs, hs, hf, hb, ha⟩
  · intro bs n
    obtain ⟨bufs, hread⟩ := bs.exists_read
    obtain ⟨p, hp, hdp⟩ := Sequence.apply_denotes hread (.keepPrefix n)
    obtain ⟨q, hq, hdq⟩ := Sequence.apply_denotes hread (.removePrefix n)
    obtain ⟨v, hv, hdv⟩ := Sequence.apply_denotes hread (.removeSuffix n)
    obtain ⟨w, hw, hdw⟩ := Sequence.apply_denotes hread (.keepSuffix n)
    exact ⟨bufs, p, q, v, w, _, _, _, _, hread, hp, hq, hv, hw, hdp, hdq, hdv, hdw, List.take_append_drop _ _,
      List.take_append_drop _ _⟩

/-- Three buffers, one of them empty, narrowed from both ends into the first and the last one. -/
theorem slice_window_narrowed :
    ∃ s bufs, Run.run SliceOp.apply (ofSequence [⟨0, 3⟩, ⟨10, 0⟩, ⟨20, 2⟩]) [.removePrefix 2, .removeSuffix 1] = .ok s ∧
      s.readForward = .ok bufs ∧ s.readBackward = .ok bufs.reverse ∧ addresses bufs = [2, 20] :=
  slice_window.1 [⟨0, 3⟩, ⟨10, 0⟩, ⟨20, 2⟩] [.removePrefix 2, .removeSuffix 1] ⟨by decide, by decide, trivial⟩

/-! ### Buffer pairs -/

theorem BufferPair.denotes_iff {p : BufferPair} {l : List Nat} : Denotes p l ↔ addresses p.toList = l := by
  constructor
  · rintro ⟨bufs, hread, haddr⟩
    cases hread
    exact haddr
  · intro haddr
    exact ⟨p.toList, rfl, haddr⟩

theorem BufferPair.apply_denotes (p : BufferPair) (op : SliceOp) :
    ∃ q, op.apply p = .ok q ∧ Denotes q (op.window (addresses p.toList)) :=
  apply_of_tagInvoke (P := fun l q => Denotes q l) rfl ⟨_, rfl, rfl⟩ (p.tagInvoke_denotes .removePrefix)
    (p.tagInvoke_denotes .keepPrefix) op

/-- Every operation of a run on a pair keeps its window of the addresses, whether or not the pair is empty
    by then, and a `slice_of` of the pair is left with the same addresses. -/
theorem pair_slices :
    (∀ (p : BufferPair) (ops : List SliceOp),
      Run.Every SliceOp.apply (fun q op r => addresses r.toList = op.window (addresses q.toList)) p ops) ∧
    ∀ (p : BufferPair) (op : SliceOp), ∃ q s l, op.apply p = .ok q ∧ op.apply (ofSequence p.toList) = .ok s ∧
      Denotes q l ∧ Denotes s l := by
  constructor
  · intro p ops
    refine Run.every_of_invariant (P := fun _ => True) (I := fun _ => True) (fun q op _ _ => ?_) trivial fun _ _ => trivial
    obtain ⟨r, hr, hd⟩ := q.apply_denotes op
    exact ⟨r, hr, BufferPair.denotes_iff.mp hd, trivial⟩
  · intro p op
    obtain ⟨q, hq, hdq⟩ := p.apply_denotes op
    obtain ⟨s, hs, hn⟩ := (inv_ofSequence p.toList).apply op
    rw [denote_ofSequence] at hn
    exact ⟨q, s, _, hq, hs, hdq, hn.denotes⟩

end Buffers
