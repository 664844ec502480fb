import Buffers.SliceOver
import Buffers.Theorems.Slice

/-! # A slice does the same over any iterators

The iterators of a sequence stand for the positions in it, so each loop of a `slice_of` over them keeps up with the
loop over positions (`removePrefixBody_simulates`, `removeSuffixBody_simulates`), whatever they are: pointers, the
iterators of another slice, or those of a type-erased sequence. What the slice leaves are again iterators
(`iterates_iterators`). -/

namespace Buffers
open Checked

namespace SliceOver
variable {It : Type} {bs : Iteration It Buffer} {pos : Nat → It} {xs : List Buffer} {s : SliceOver It} {p : SliceOf}

/-- The slice as one of the list `xs`. -/
def plain (s : SliceOver It) (xs : List Buffer) : SliceOf :=
  { bs_ := xs, begin_ := s.begin_, end_ := s.end_, len_ := s.len_, size_ := s.size_, prefix_ := s.prefix_,
    suffix_ := s.suffix_ }

/-- The slice is over the iterators `bs`, and is the slice `p` as one of the list `xs`. -/
structure Agrees (bs : Iteration It Buffer) (xs : List Buffer) (s : SliceOver It) (p : SliceOf) : Prop where
  bs_eq : s.bs_ = bs
  plain_eq : s.plain xs = p

/-- A round on the slice `x.1`, the iterator `x.2.1` and a count is a round on the slice `y.1`, its position and the
    same count. -/
structure Tracks (bs : Iteration It Buffer) (pos : Nat → It) (xs : List Buffer) (x : SliceOver It × It × Nat)
    (y : SliceOf × Int × Nat) : Prop where
  agrees : Agrees bs xs x.1 y.1
  at_pos : ∃ k, k ≤ xs.length ∧ x.2.1 = pos k ∧ y.2.1 = k
  count_eq : x.2.2 = y.2.2

/-! ### The constructor -/

theorem ofSequence_agrees (h : Iterates bs pos xs) {fuel : Nat} (hfuel : xs.length < fuel) :
    ∃ s, ofSequence bs fuel = .ok s ∧ Agrees bs xs s (SliceOf.ofSequence xs) := by
  have hfold (ys : List Buffer) (s : SliceOver It) :
      ys.foldl (fun s b => { s with size_ := s.size_ + b.size, len_ := s.len_ + 1 }) s =
        { s with size_ := s.size_ + size ys, len_ := s.len_ + ys.length } := by
    induction ys generalizing s with
    | nil => rfl
    | cons b ys ih =>
      rw [List.foldl_cons, ih, size_cons, List.length_cons, Nat.add_assoc, Nat.add_assoc, Nat.add_comm 1]
  refine ⟨{ bs_ := bs, begin_ := 0, end_ := xs.length, len_ := xs.length, size_ := size xs }, ?_, rfl, ?_⟩
  · simp only [ofSequence, h.first_eq, h.last_eq, h.distance_eq hfuel, ok_bind]
    rw [h.forEach_from _ (Nat.zero_le _) _ (by omega), List.drop_zero, hfold]
    simp only [Nat.zero_add]
  · rw [ofSequence_eq]
    rfl

/-! ### Reading the wrapped sequence -/

/-- What is read at a position of the window is read by its iterator. -/
theorem deref_simulates (h : Iterates bs pos xs) (lo hi : Int) (k : Nat) :
    Simulates (fun b c => b = c ∧ k < xs.length ∧ lo ≤ k) (bs.deref (pos k)) (deref xs lo hi k) := by
  intro b hb
  unfold deref at hb
  split at hb
  · rename_i hin
    rw [Int.toNat_natCast] at hb
    cases hx : xs[k]? with
    | none => simp [Checked.get, hx] at hb
    | some c =>
      rw [get_of_getElem? hx] at hb
      cases hb
      exact ⟨b, h.deref_at k b hx, rfl, (List.getElem?_eq_some_iff.mp hx).1, hin.2.1⟩
  · cases hb

theorem advance_eq (h : Iterates bs pos xs) {n : Int} (hn : 0 ≤ n) (hle : n ≤ xs.length) :
    bs.advance (pos 0) n = .ok (pos n.toNat) := by
  have hcast : n = (n.toNat : Int) := (Int.toNat_of_nonneg hn).symm
  rw [hcast, h.advance_first (by omega), Int.toNat_natCast]

theorem beginIterImpl_eq (h : Iterates bs pos xs) (ha : Agrees bs xs s p) (hb : p.Bounds) :
    s.beginIterImpl = .ok (pos s.begin_.toNat) := by
  obtain ⟨rfl, rfl⟩ := ha
  simp only [beginIterImpl, h.first_eq, ok_bind]
  exact advance_eq h hb.begin_nonneg (Int.le_trans hb.begin_le_end hb.end_le)

theorem endIterImpl_eq (h : Iterates bs pos xs) (ha : Agrees bs xs s p) (hb : p.Bounds) :
    s.endIterImpl = .ok (pos s.end_.toNat) := by
  obtain ⟨rfl, rfl⟩ := ha
  simp only [endIterImpl, h.first_eq, ok_bind]
  exact advance_eq h (Int.le_trans hb.begin_nonneg hb.begin_le_end) hb.end_le

/-! ### Removing from either end -/

theorem removePrefixBody_simulates (h : Iterates bs pos xs) (lo hi : Int) (x : SliceOver It × It × Nat)
    (y : SliceOf × Int × Nat) (hxy : Tracks bs pos xs x y) :
    Simulates (Next.Both (Tracks bs pos xs) (Agrees bs xs)) (removePrefixBody x) (SliceOf.removePrefixBody lo hi y) := by
  obtain ⟨s, it, n⟩ := x
  obtain ⟨p, i, m⟩ := y
  obtain ⟨⟨rfl, rfl⟩, ⟨k, hk, rfl, rfl⟩, rfl⟩ := hxy
  dsimp only [removePrefixBody, SliceOf.removePrefixBody, plain] at hk ⊢
  split
  · refine (deref_simulates h lo hi k).bind fun b c hbc => ?_
    obtain ⟨rfl, hlt, -⟩ := hbc
    split
    · exact Simulates.bind_same _ fun size => Simulates.ok ⟨rfl, rfl⟩
    · refine Simulates.bind_same _ fun n => Simulates.bind_same _ fun size => ?_
      rw [h.inc_at k hlt]
      refine Simulates.bind_same _ fun len => Simulates.ok ⟨⟨rfl, rfl⟩, ⟨k + 1, hlt, rfl, ?_⟩, rfl⟩
      exact (Int.natCast_succ k).symm
  · exact Simulates.ok ⟨rfl, rfl⟩

theorem removePrefixImpl_simulates (h : Iterates bs pos xs) (ha : Agrees bs xs s p) (hb : p.Bounds) {fuel : Nat}
    (hfuel : xs.length < fuel) (n : Nat) :
    Simulates (Agrees bs xs) (removePrefixImpl fuel s n) (SliceOf.removePrefixImpl p n) := by
  obtain ⟨rfl, rfl⟩ := ha
  have ht : Agrees s.bs_ xs { s with size_ := s.size_ + s.prefix_, prefix_ := 0 }
      { s.plain xs with size_ := s.size_ + s.prefix_, prefix_ := 0 } := ⟨rfl, rfl⟩
  have hbt : SliceOf.Bounds { s.plain xs with size_ := s.size_ + s.prefix_, prefix_ := 0 } :=
    ⟨hb.begin_nonneg, hb.begin_le_end, hb.end_le, hb.len_eq⟩
  simp only [removePrefixImpl, beginIterImpl_eq h ht hbt, ok_bind]
  refine loop_simulates (removePrefixBody_simulates h _ _) ⟨ht, ⟨s.begin_.toNat, ?_, rfl, ?_⟩, rfl⟩ hfuel
  · exact Int.toNat_le.mpr (Int.le_trans hb.begin_le_end hb.end_le)
  · exact (Int.toNat_of_nonneg hb.begin_nonneg).symm

theorem removeSuffixBody_simulates (h : Iterates bs pos xs) {lo : Nat} (hlo : lo ≤ xs.length) (hi : Int)
    (x : SliceOver It × It × Nat) (y : SliceOf × Int × Nat) (hxy : Tracks bs pos xs x y) :
    Simulates (Next.Both (Tracks bs pos xs) (Agrees bs xs)) (removeSuffixBody (pos lo) x)
      (SliceOf.removeSuffixBody lo hi y) := by
  obtain ⟨s, it, n⟩ := x
  obtain ⟨p, i, m⟩ := y
  obtain ⟨⟨rfl, rfl⟩, ⟨k, hk, rfl, rfl⟩, rfl⟩ := hxy
  dsimp only [removeSuffixBody, SliceOf.removeSuffixBody, plain] at hk ⊢
  rw [h.equal_at k lo hk hlo]
  by_cases hfirst : k = lo
  · have hstay : ¬((k : Int) ≠ lo) := by simp [hfirst]
    simp only [hfirst, decide_true, ok_bind, if_true]
    refine (deref_simulates h lo hi lo).bind fun b c hbc => ?_
    obtain ⟨rfl, -, -⟩ := hbc
    rw [if_neg (by simp)]
    refine Simulates.bind_same _ fun m => ?_
    split
    · exact Simulates.bind_same _ fun size => Simulates.ok ⟨rfl, rfl⟩
    · exact Simulates.ok ⟨rfl, rfl⟩
  · have hgo : (k : Int) ≠ lo := by omega
    simp only [hfirst, decide_false, ok_bind, Bool.false_eq_true, if_false]
    refine (deref_simulates h lo hi k).bind fun b c hbc => ?_
    obtain ⟨rfl, hlt, hge⟩ := hbc
    rw [if_pos hgo]
    split
    · exact Simulates.bind_same _ fun size => Simulates.ok ⟨rfl, rfl⟩
    · refine Simulates.bind_same _ fun n => Simulates.bind_same _ fun size => ?_
      obtain ⟨j, rfl⟩ := Nat.exists_eq_add_one_of_ne_zero (show k ≠ 0 by omega)
      rw [h.dec_at j (Nat.lt_of_succ_lt hlt)]
      refine Simulates.bind_same _ fun len => Simulates.ok ⟨⟨rfl, rfl⟩, ⟨j, Nat.le_of_succ_le hk, rfl, ?_⟩, rfl⟩
      exact Int.add_sub_cancel j 1

theorem removeSuffixImpl_simulates (h : Iterates bs pos xs) (ha : Agrees bs xs s p) (hb : p.Bounds) {fuel : Nat}
    (hfuel : xs.length < fuel) (n : Nat) :
    Simulates (Agrees bs xs) (removeSuffixImpl fuel s n) (SliceOf.removeSuffixImpl p n) := by
  obtain ⟨rfl, rfl⟩ := ha
  have ht : Agrees s.bs_ xs { s with size_ := s.size_ + s.suffix_, suffix_ := 0 }
      { s.plain xs with size_ := s.size_ + s.suffix_, suffix_ := 0 } := ⟨rfl, rfl⟩
  have hbt : SliceOf.Bounds { s.plain xs with size_ := s.size_ + s.suffix_, suffix_ := 0 } :=
    ⟨hb.begin_nonneg, hb.begin_le_end, hb.end_le, hb.len_eq⟩
  have h0 := hb.begin_nonneg
  have h1 := hb.begin_le_end
  have h2 := hb.end_le
  dsimp only [plain] at h0 h1 h2
  unfold removeSuffixImpl SliceOf.removeSuffixImpl
  by_cases hzero : s.size_ = 0
  · rw [if_pos hzero, if_pos (c := (s.plain xs).size_ = 0) hzero]
    exact Simulates.bind_same _ fun _ => Simulates.ok ⟨rfl, rfl⟩
  · rw [if_neg hzero, if_neg (c := (s.plain xs).size_ = 0) hzero]
    by_cases hne : s.begin_ = s.end_
    · intro c hc
      simp [plain, hne, Checked.assert] at hc
    · obtain ⟨j, hj⟩ := Nat.exists_eq_add_one_of_ne_zero (show s.end_.toNat ≠ 0 by omega)
      rw [assert_of hne, assert_of (p := (s.plain xs).begin_ ≠ (s.plain xs).end_) hne]
      dsimp only [plain]
      simp only [ok_bind, beginIterImpl_eq h ht hbt, endIterImpl_eq h ht hbt, hj, h.dec_at j (by omega)]
      have hlo : s.begin_ = (s.begin_.toNat : Int) := (Int.toNat_of_nonneg h0).symm
      have hbody := removeSuffixBody_simulates h (show s.begin_.toNat ≤ xs.length by omega) s.end_
      rw [← hlo] at hbody
      have hj' : s.end_ - 1 = (j : Int) := by omega
      refine loop_simulates hbody ?_ hfuel
      exact ⟨ht, ⟨j, by omega, rfl, hj'⟩, rfl⟩

theorem sliceImpl_simulates (h : Iterates bs pos xs) (ha : Agrees bs xs s p) (hb : p.Bounds) {fuel : Nat}
    (hfuel : xs.length < fuel) (how : SliceHow) (n : Nat) :
    Simulates (Agrees bs xs) (sliceImpl fuel s how n) (SliceOf.sliceImpl p how n) := by
  cases how with
  | removePrefix => exact removePrefixImpl_simulates h ha hb hfuel n
  | keepPrefix =>
    have hsize : s.size_ = p.size_ := congrArg SliceOf.size_ ha.plain_eq
    dsimp only [sliceImpl, SliceOf.sliceImpl, keepPrefixImpl, SliceOf.keepPrefixImpl]
    rw [hsize]
    split
    · exact Simulates.ok ha
    · split
      · obtain ⟨rfl, rfl⟩ := ha
        exact Simulates.ok ⟨rfl, rfl⟩
      · exact Simulates.bind_same _ fun k => removeSuffixImpl_simulates h ha hb hfuel k

/-! ### Iteration -/

theorem deref_iterator_simulates (h : Iterates bs pos xs) (ha : Agrees bs xs s p) (k pre suf i n : Nat) :
    Simulates Eq (s.iterators.deref ⟨pos k, pre, suf, i, n⟩) (SliceOf.ConstIterator.deref p ⟨k, pre, suf, i, n⟩) := by
  obtain ⟨rfl, rfl⟩ := ha
  refine (deref_simulates h _ _ k).bind fun v v' hv => ?_
  obtain ⟨rfl, -, -⟩ := hv
  intro b hb
  exact ⟨b, hb, rfl⟩

/-- The iterators of the slice read the buffers that the slice of the list yields. -/
theorem iterates_iterators (h : Iterates bs pos xs) (ha : Agrees bs xs s p) (hr : p.Readable) :
    Iterates s.iterators (fun i => ⟨pos (s.begin_.toNat + i), s.prefix_, s.suffix_, i, s.len_⟩) p.yields := by
  have hbegin := beginIterImpl_eq h ha hr.toBounds
  have hend := endIterImpl_eq h ha hr.toBounds
  have hderef := deref_iterator_simulates h ha
  obtain ⟨rfl, rfl⟩ := ha
  have h0 := hr.begin_nonneg
  have h1 := hr.begin_le_end
  have h2 := hr.end_le
  have h3 := hr.len_eq
  dsimp only [plain] at h0 h1 h2 h3
  have hlen : (s.plain xs).yields.length = s.len_ := hr.length_yields
  refine ⟨?_, ?_, fun i hi => ?_, fun i hi => ?_, fun i b hb => ?_, fun i j hi hj => ?_⟩
  · simp only [iterators, hbegin, ok_bind, pure_eq, Nat.add_zero]
  · have hlast : s.begin_.toNat + s.len_ = s.end_.toNat := by omega
    simp only [iterators, hend, ok_bind, pure_eq]
    rw [hlen, hlast]
  · rw [hlen] at hi
    simp only [iterators, assert_of hi, h.inc_at (s.begin_.toNat + i) (by omega), ok_bind, pure_eq, Nat.add_assoc]
  · rw [hlen] at hi
    simp only [iterators, assert_of (Nat.succ_pos i), ← Nat.add_assoc, h.dec_at (s.begin_.toNat + i) (by omega),
      ok_bind, pure_eq,
      Nat.add_sub_cancel]
  · obtain ⟨hi, -⟩ := List.getElem?_eq_some_iff.mp hb
    obtain ⟨b', hb', hread⟩ := hr.deref_iter (hlen ▸ hi)
    rw [hb] at hb'
    cases hb'
    have hpos : s.begin_ + (i : Int) = ((s.begin_.toNat + i : Nat) : Int) := by omega
    dsimp only [SliceOf.iter, plain] at hread
    rw [hpos] at hread
    obtain ⟨c, hc, rfl⟩ := hderef _ _ _ _ _ b hread
    exact hc
  · rw [hlen] at hi hj
    simp only [iterators, h.equal_at (s.begin_.toNat + i) (s.begin_.toNat + j) (by omega) (by omega), ok_bind]
    by_cases hij : i = j
    · simp [hij]
    · simp [hij]

theorem read_eq (h : Iterates bs pos xs) (ha : Agrees bs xs s p) (hr : p.Readable) {fuel : Nat} (hfuel : xs.length < fuel) :
    read fuel s = Sliceable.read p := by
  have hle : p.yields.length ≤ xs.length := by
    have hlen := hr.len_le
    rw [← ha.plain_eq] at hlen
    rw [hr.length_yields, ← ha.plain_eq]
    exact hlen
  have happend (ys zs : List Buffer) : ys.foldl (fun bs b => bs ++ [b]) zs = zs ++ ys := by
    induction ys generalizing zs with
    | nil => simp
    | cons y ys ih => rw [List.foldl_cons, ih, List.append_assoc, List.singleton_append]
  have hread : Sliceable.read p = .ok p.yields := hr.readForward
  rw [hread, read, (iterates_iterators h ha hr).forEach_eq _ _ (Nat.lt_of_le_of_lt hle hfuel), happend, List.nil_append]

/-! ### The algorithms -/

/-- The slicing algorithms do the same on two types whose reads agree and whose `tag_invoke` correspond. -/
theorem apply_simulates {T U : Type} [Sliceable T] [Sliceable U] {S : T → U → Prop} {t : T} {u : U} (hself : S t u)
    (hread : Sliceable.read t = Sliceable.read u)
    (htag : ∀ how n, Simulates S (Sliceable.tagInvoke t how n) (Sliceable.tagInvoke u how n)) (op : SliceOp) :
    Simulates S (op.apply t) (op.apply u) := by
  cases op with
  | removePrefix n => exact htag .removePrefix n
  | keepPrefix n => exact htag .keepPrefix n
  | removeSuffix n =>
    dsimp only [SliceOp.apply, removeSuffix]
    rw [hread]
    refine Simulates.bind_same _ fun bufs => ?_
    split
    · exact Simulates.bind_same _ fun k => htag .keepPrefix k
    · exact Simulates.ok hself
  | keepSuffix n =>
    dsimp only [SliceOp.apply, keepSuffix]
    rw [hread]
    refine Simulates.bind_same _ fun bufs => ?_
    split
    · exact Simulates.bind_same _ fun k => htag .removePrefix k
    · exact Simulates.ok hself

theorem apply_agrees (h : Iterates bs pos xs) (ha : Agrees bs xs s p) (hr : p.Readable) {fuel : Nat}
    (hfuel : xs.length < fuel) (op : SliceOp) : Simulates (Agrees bs xs) (s.apply fuel op) (op.apply p) :=
  let _ := sliceable It fuel
  apply_simulates ha (read_eq h ha hr hfuel) (sliceImpl_simulates h ha hr.toBounds hfuel) op

end SliceOver

/-! ### Runs -/

theorem SliceOf.Emptied.window {p : SliceOf} (h : p.Emptied) (op : SliceOp) : op.window p.denote = p.denote := by
  rw [h.denote_eq_nil]
  cases op <;> simp [SliceOp.window]

/-- A step that restores no prefix keeps its window, also on a slice that is already empty. -/
theorem Sound.narrows {xs : List Buffer} {p : SliceOf} {op : SliceOp} (h : Sound xs p) (hop : ¬Restores p op) :
    ∃ q, op.apply p = .ok q ∧ Sound xs q ∧ q.denote = op.window p.denote := by
  rcases h.sound with hi | he
  · obtain ⟨q, hq, hn⟩ := hi.apply op
    exact ⟨q, hq, ⟨hn.bs_eq.trans h.bs_eq, hn.sound⟩, hn.target_eq⟩
  · obtain ⟨q, hq, hsound⟩ := h.apply hop
    refine ⟨q, hq, hsound, ?_⟩
    rw [he.window op, he.denote_eq_nil]
    by_cases hr : ∃ n, op = .removePrefix n
    · obtain ⟨n, rfl⟩ := hr
      rw [he.removePrefix] at hq
      cases hq
      exact SliceOf.Closed.denote_eq_nil ⟨⟨he.begin_nonneg, he.begin_le_end, he.end_le, he.len_eq⟩, he.closed⟩
    · rw [he.apply fun n hn => hr ⟨n, hn⟩] at hq
      cases hq
      exact he.denote_eq_nil

theorem Sound.readable {xs : List Buffer} {p : SliceOf} (h : Sound xs p) : p.Readable :=
  h.sound.elim (·.readable) (·.toClosed.readable)

theorem Sound.addresses_yields {xs : List Buffer} {p : SliceOf} (h : Sound xs p) : addresses p.yields = p.denote := by
  rcases h.sound with hi | he
  · exact hi.addresses_yields
  · rw [he.yields_eq_nil, he.denote_eq_nil]
    rfl

namespace SliceOver
variable {It : Type} {bs : Iteration It Buffer} {pos : Nat → It} {xs : List Buffer}

theorem run_agrees (h : Iterates bs pos xs) {fuel : Nat} (hfuel : xs.length < fuel) {s : SliceOver It} {p : SliceOf}
    (ha : Agrees bs xs s p) (hp : Sound xs p) {ops : List SliceOp}
    (hops : Run.Always SliceOp.apply (fun p op => ¬Restores p op) p ops) :
    ∃ t q, Run.run (SliceOver.apply fuel) s ops = .ok t ∧ Run.run SliceOp.apply p ops = .ok q ∧ Agrees bs xs t q ∧
      Sound xs q ∧ q.denote = ops.foldl SliceOp.window p.denote := by
  induction ops generalizing s p with
  | nil => exact ⟨s, p, rfl, rfl, ha, hp, rfl⟩
  | cons op ops ih =>
    obtain ⟨hop, hrest⟩ := hops
    obtain ⟨q, hq, hsound, hwindow⟩ := hp.narrows hop
    obtain ⟨t, ht, hagrees⟩ := apply_agrees h ha hp.readable hfuel op q hq
    obtain ⟨t', q', ht', hq', ha', hp', hwindows⟩ := ih hagrees hsound (hrest q hq)
    refine ⟨t', q', ?_, ?_, ha', hp', ?_⟩
    · rw [Run.run_cons, ht]
      exact ht'
    · rw [Run.run_cons, hq]
      exact hq'
    · rw [hwindows, hwindow, List.foldl_cons]

end SliceOver

/-- A `slice_of` over any iterators goes through a run as the slice of the list that they iterate over: it has the same
    fields in the end, and what its own iterators read, in either direction, is the window of the run. -/
theorem slice_over_any {It : Type} {bs : Iteration It Buffer} {pos : Nat → It} {xs : List Buffer} (h : Iterates bs pos xs)
    {fuel : Nat} (hfuel : xs.length < fuel) (ops : List SliceOp)
    (hops : Run.Always SliceOp.apply (fun p op => ¬Restores p op) (SliceOf.ofSequence xs) ops) :
    ∃ s t p pos', SliceOver.ofSequence bs fuel = .ok s ∧ Run.run (SliceOver.apply fuel) s ops = .ok t ∧
      Run.run SliceOp.apply (SliceOf.ofSequence xs) ops = .ok p ∧ t.plain xs = p ∧ Iterates t.iterators pos' p.yields ∧
      addresses p.yields = ops.foldl SliceOp.window (addresses xs) := by
  obtain ⟨s, hs, ha⟩ := SliceOver.ofSequence_agrees h hfuel
  have hsound : Sound xs (SliceOf.ofSequence xs) := ⟨by rw [ofSequence_eq], Or.inl (inv_ofSequence xs)⟩
  obtain ⟨t, p, ht, hp, ha', hsound', hwindow⟩ := SliceOver.run_agrees h hfuel ha hsound hops
  refine ⟨s, t, p, _, hs, ht, hp, ha'.plain_eq, SliceOver.iterates_iterators h ha' hsound'.readable, ?_⟩
  rw [hsound'.addresses_yields, hwindow, denote_ofSequence]

/-- Three buffers read through pointers, one of them empty, narrowed from both ends. -/
theorem slice_over_any_pointers :
    ∃ s t p pos', SliceOver.ofSequence (Iteration.ofList [⟨0, 3⟩, ⟨10, 0⟩, ⟨20, 2⟩]) 4 = .ok s ∧
      Run.run (SliceOver.apply 4) s [.removePrefix 2, .removeSuffix 1] = .ok t ∧
      Run.run SliceOp.apply (SliceOf.ofSequence [⟨0, 3⟩, ⟨10, 0⟩, ⟨20, 2⟩]) [.removePrefix 2, .removeSuffix 1] = .ok p ∧
      t.plain [⟨0, 3⟩, ⟨10, 0⟩, ⟨20, 2⟩] = p ∧ Iterates t.iterators pos' p.yields ∧ addresses p.yields = [2, 20] := by
  have hops : Run.Always SliceOp.apply (fun p op => ¬Restores p op) (SliceOf.ofSequence [⟨0, 3⟩, ⟨10, 0⟩, ⟨20, 2⟩])
      [.removePrefix 2, .removeSuffix 1] := by
    refine ⟨fun h => absurd h.1 (by decide), fun t ht => ⟨fun h => ?_, fun u hu => trivial⟩⟩
    obtain ⟨-, -, n, hn⟩ := h
    cases hn
  obtain ⟨s, t, p, pos', hs, ht, hp, hplain, hpos, hwindow⟩ :=
    slice_over_any (iterates_ofList [⟨0, 3⟩, ⟨10, 0⟩, ⟨20, 2⟩]) (by decide : 3 < 4) _ hops
  exact ⟨s, t, p, pos', hs, ht, hp, hplain, hpos, hwindow.trans (by decide)⟩

end Buffers
