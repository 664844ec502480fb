import Buffers.StringBuffer
import Buffers.Lib.Run

/-! # The string buffer refines a FIFO queue

The readable bytes are the first `in_size_` characters of the string, and the output area the next
`out_size_` ones; what the string holds after them is left over. An emptying consume does not touch the
string and a partial one erases its front, so after either the readable bytes are the first characters again
(`StringShows.step`). Moving a buffer loses both sizes (`string_move_iff`). -/

namespace Buffers
open Checked

/-! ### Strings -/

namespace StdString
variable {impl : StringImpl} {s : StdString}

@[simp] theorem chars_assign (chars : List Byte) : (s.assign impl chars).chars = chars := rfl

theorem resize_of_le {n : Nat} (h : n ≤ impl.maxSize) :
    s.resize impl n = .ok (s.assign impl (s.chars.take n ++ List.replicate (n - s.size) 0)) := by
  simp [resize, require_of h]

theorem map_view {i n : Nat} (h : i + n ≤ s.size) :
    (List.range' (s.data + i) n).map s.view = (s.chars.drop i).take n := by
  unfold size at h
  refine List.ext_getElem ?_ fun j hj hj' => ?_
  · simp only [List.length_map, List.length_range', List.length_take, List.length_drop]
    omega
  · simp only [List.length_map, List.length_range'] at hj
    have hsub : s.data + i + j - s.data = i + j := by omega
    have hlt : i + j < s.chars.length := by omega
    simp [view, hsub, hlt]

theorem poke_of_lt {i : Nat} (h : i < s.size) (x : Byte) :
    ∃ t, s.poke (s.data + i) x = .ok t ∧ t.data = s.data ∧ t.chars = s.chars.set i x := by
  have hsub : s.data + i - s.data = i := Nat.add_sub_cancel_left _ _
  have hin : s.data ≤ s.data + i ∧ s.data + i - s.data < s.size := ⟨Nat.le_add_right _ _, hsub.symm ▸ h⟩
  exact ⟨{ s with chars := s.chars.set (s.data + i - s.data) x, length_le := by simpa using s.length_le },
    if_pos hin, rfl, congrArg (s.chars.set · x) hsub⟩

end StdString

/-! ### The operations -/

namespace StringBuffer

/-- What holds between calls: the buffer has its string, and both sizes lie in it. -/
structure Inv (impl : StringImpl) (b : StringBuffer) (s : StdString) : Prop where
  ptr : b.s_ = .target
  fits : b.in_size_ + b.out_size_ ≤ s.size
  size_le : s.size ≤ b.max_size_
  max_le : b.max_size_ ≤ impl.maxSize

theorem commit_eq (b : StringBuffer) (n : Nat) :
    b.commit n = { b with in_size_ := b.in_size_ + min n b.out_size_, out_size_ := 0 } := by
  rw [commit, commitSize_eq]

def readable (b : StringBuffer) (s : StdString) : List Byte := s.chars.take b.in_size_

def output (b : StringBuffer) (s : StdString) : List Byte := (s.chars.drop b.in_size_).take b.out_size_

def outs (b : StringBuffer) (s : StdString) : List Nat := List.range' (s.data + b.in_size_) b.out_size_

namespace Inv
variable {impl : StringImpl} {b : StringBuffer} {s : StdString}

theorem in_le (h : Inv impl b s) : b.in_size_ ≤ s.size := Nat.le_trans (Nat.le_add_right _ _) h.fits

theorem in_le_max (h : Inv impl b s) : b.in_size_ ≤ b.max_size_ := Nat.le_trans h.in_le h.size_le

theorem deref (h : Inv impl b s) : b.s_.deref s = .ok s := by simp [StringPtr.deref, require_of h.ptr]

theorem data (h : Inv impl b s) : b.data s = .ok ⟨s.data, b.in_size_⟩ := by simp [StringBuffer.data, h.deref]

theorem map_data (h : Inv impl b s) : (Buffer.addresses ⟨s.data, b.in_size_⟩).map s.view = b.readable s := by
  have hview := StdString.map_view (s := s) (i := 0) (n := b.in_size_) (by simpa using h.in_le)
  exact hview

theorem map_outs (h : Inv impl b s) : (b.outs s).map s.view = b.output s := StdString.map_view h.fits

theorem length_readable (h : Inv impl b s) : (b.readable s).length = b.in_size_ :=
  List.length_take_of_le h.in_le

theorem capacity (h : Inv impl b s) : b.capacity s = .ok (min s.capacity b.max_size_ - b.in_size_) := by
  have hcap : b.in_size_ ≤ s.capacity := Nat.le_trans h.in_le s.length_le
  unfold StringBuffer.capacity
  rw [h.deref, ok_bind]
  split
  · rename_i hle
    rw [Nat.min_eq_left hle]
    exact sub_of_le hcap
  · rename_i hgt
    rw [Nat.min_eq_right (Nat.le_of_not_le hgt)]
    exact sub_of_le h.in_le_max

theorem prepare_throws (h : Inv impl b s) {n : Nat} (hn : b.max_size_ < b.in_size_ + n) :
    b.prepare impl s n = .ok (.error .invalidArgument, b, s) := by
  have hgt : n > b.max_size_ - b.in_size_ := by
    have := h.in_le_max
    omega
  simp [prepare, sub_of_le h.in_le_max, hgt]

/-- A prepare grows the string when it has to, and keeps the readable bytes. -/
theorem prepare_returns (h : Inv impl b s) {n : Nat} (hn : b.in_size_ + n ≤ b.max_size_) :
    ∃ t, b.prepare impl s n = .ok (.ok ⟨t.data + b.in_size_, n⟩, { b with out_size_ := n }, t) ∧
      Inv impl { b with out_size_ := n } t ∧ b.readable t = b.readable s := by
  have hgt : ¬n > b.max_size_ - b.in_size_ := by omega
  rcases Nat.lt_or_ge s.size (b.in_size_ + n) with hlt | hge
  · have hres := StdString.resize_of_le (s := s) (Nat.le_trans hn h.max_le)
    have htake : s.chars.take (b.in_size_ + n) = s.chars := List.take_of_length_le (Nat.le_of_lt hlt)
    rw [htake] at hres
    have hsize : (s.assign impl (s.chars ++ List.replicate (b.in_size_ + n - s.size) 0)).size = b.in_size_ + n := by
      simp only [StdString.size, StdString.chars_assign, List.length_append, List.length_replicate] at hlt ⊢
      omega
    refine ⟨_, ?_, ⟨h.ptr, Nat.le_of_eq hsize.symm, hsize.trans_le hn, h.max_le⟩, ?_⟩
    · have hin : b.in_size_ ≤ b.in_size_ + n := Nat.le_add_right _ _
      simp only [prepare, sub_of_le h.in_le_max, ok_bind, hgt, if_false, h.deref, hlt, if_true, hres, StdString.addressAt,
        hsize, require_of hin, pure_eq]
    · exact List.take_append_of_le_length h.in_le
  · refine ⟨s, ?_, ⟨h.ptr, hge, h.size_le, h.max_le⟩, rfl⟩
    have hlt : ¬s.size < b.in_size_ + n := Nat.not_lt.mpr hge
    simp only [prepare, sub_of_le h.in_le_max, ok_bind, hgt, if_false, h.deref, hlt, StdString.addressAt,
      require_of h.in_le, pure_eq]

theorem commit (h : Inv impl b s) (n : Nat) :
    Inv impl (b.commit n) s ∧ (b.commit n).readable s = b.readable s ++ (b.output s).take n := by
  have hfits := h.fits
  rw [commit_eq]
  refine ⟨⟨h.ptr, by simp only; omega, h.size_le, h.max_le⟩, ?_⟩
  simp only [readable, output]
  rw [List.take_take, List.take_add]

theorem consume (h : Inv impl b s) (n : Nat) :
    ∃ t u, b.consume impl s n = .ok (t, u) ∧ Inv impl t u ∧ t.max_size_ = b.max_size_ ∧ t.out_size_ = 0 ∧
      t.readable u = (b.readable s).drop n := by
  have hin := h.in_le
  unfold StringBuffer.consume
  rcases Nat.lt_or_ge n b.in_size_ with hn | hn
  · have hlen : (s.eraseFront impl n).size = s.size - n := List.length_drop
    refine ⟨{ b with in_size_ := b.in_size_ - n, out_size_ := 0 }, s.eraseFront impl n, ?_, ⟨h.ptr, ?_, ?_, h.max_le⟩,
      rfl, rfl, ?_⟩
    · simp [hn, h.deref, sub_of_le (Nat.le_of_lt hn)]
    · rw [hlen]
      exact Nat.sub_le_sub_right hin n
    · rw [hlen]
      exact Nat.le_trans (Nat.sub_le _ _) h.size_le
    · simp only [readable, StdString.eraseFront, StdString.chars_assign, List.drop_take]
  · refine ⟨{ b with in_size_ := 0, out_size_ := 0 }, s, ?_, ⟨h.ptr, Nat.zero_le _, h.size_le, h.max_le⟩, rfl, rfl, ?_⟩
    · simp [Nat.not_lt.mpr hn]
    · rw [List.drop_of_length_le (by rwa [h.length_readable])]
      rfl

theorem poke (h : Inv impl b s) {i : Nat} (hi : i < b.out_size_) (x : Byte) :
    ∃ t, s.poke (s.data + b.in_size_ + i) x = .ok t ∧ Inv impl b t ∧ t.data = s.data ∧ b.readable t = b.readable s ∧
      b.output t = (b.output s).set i x := by
  have hfits := h.fits
  obtain ⟨t, ht, hdata, hchars⟩ := StdString.poke_of_lt (s := s) (i := b.in_size_ + i) (by omega) x
  have hsize : t.size = s.size := by simp [StdString.size, hchars]
  refine ⟨t, by rw [Nat.add_assoc]; exact ht, ⟨h.ptr, hsize ▸ h.fits, hsize ▸ h.size_le, h.max_le⟩, hdata, ?_, ?_⟩
  · simp only [readable, hchars]
    exact List.take_set_of_le (Nat.le_add_right _ _)
  · have hge : ¬b.in_size_ + i < b.in_size_ := by omega
    simp only [output, hchars, List.drop_set, hge, if_false, Nat.add_sub_cancel_left, List.take_set]

theorem destroy (h : Inv impl b s) : ∃ t, b.destroy impl s = .ok t ∧ t.chars = b.readable s := by
  have hres := StdString.resize_of_le (s := s) (Nat.le_trans h.in_le_max h.max_le)
  rw [Nat.sub_eq_zero_of_le h.in_le, List.replicate_zero, List.append_nil] at hres
  exact ⟨s.assign impl (s.chars.take b.in_size_), by simp only [StringBuffer.destroy, h.ptr, hres], rfl⟩

end Inv

theorem ofString_inv (impl : StringImpl) (s : StdString) (max_size : Nat) :
    ∃ b t, ofString impl s max_size = .ok (b, t) ∧ Inv impl b t ∧ b.max_size_ = min max_size impl.maxSize ∧
      b.out_size_ = 0 ∧ b.readable t = s.chars.take b.max_size_ := by
  have hmax : (if max_size > impl.maxSize then impl.maxSize else max_size) = min max_size impl.maxSize := by
    split <;> omega
  have hle : min max_size impl.maxSize ≤ impl.maxSize := Nat.min_le_right _ _
  unfold ofString
  simp only [hmax]
  rcases Nat.lt_or_ge (min max_size impl.maxSize) s.size with hlt | hge
  · have hres := StdString.resize_of_le (s := s) hle
    rw [Nat.sub_eq_zero_of_le (Nat.le_of_lt hlt), List.replicate_zero, List.append_nil] at hres
    have hsize : (s.assign impl (s.chars.take (min max_size impl.maxSize))).size = min max_size impl.maxSize :=
      List.length_take_of_le (Nat.le_of_lt hlt)
    refine ⟨_, _, by simp only [gt_iff_lt, hlt, if_true, hres, ok_bind]; rfl,
      ⟨rfl, ?_, Nat.le_of_eq hsize, hle⟩, rfl, rfl, ?_⟩
    · simp
    · simp only [readable, hsize, StdString.chars_assign, List.take_take, Nat.min_self]
  · refine ⟨_, _, by simp only [gt_iff_lt, Nat.not_lt.mpr hge, if_false, pure_eq, ok_bind]; rfl,
      ⟨rfl, ?_, hge, hle⟩, rfl, rfl, ?_⟩
    · simp
    · simp only [readable]
      rw [List.take_of_length_le hge]
      exact List.take_length

end StringBuffer

/-! ### The simulation -/

/-- The queue `q` is what a string buffer holds in its string. -/
structure StringShows (impl : StringImpl) (s : StringSession) (q : Fifo Byte) : Prop where
  inv : s.buf.Inv impl s.str
  limit_eq : q.limit = s.buf.max_size_
  region_eq : s.region = s.buf.outs s.str
  readable_eq : q.readable = s.buf.readable s.str
  output_eq : q.output = s.buf.output s.str

namespace StringShows
variable {impl : StringImpl} {s : StringSession} {q : Fifo Byte}

/-- The call is a call on the queue. -/
def Matched (impl : StringImpl) (s : StringSession) (q : Fifo Byte) (c : Cmd Byte) : Prop :=
  ∃ t r, s.step impl c = .ok t ∧ Fifo.Step true q c r ∧ StringShows impl t r

theorem length_eq (h : StringShows impl s q) : q.readable.length = s.buf.in_size_ := by
  rw [h.readable_eq, h.inv.length_readable]

theorem step_prepare (h : StringShows impl s q) (n : Nat) : Matched impl s q (.prepare n) := by
  have hlen := h.length_eq
  obtain ⟨hinv, hlimit, hregion, hread, hout⟩ := h
  rcases Nat.lt_or_ge s.buf.max_size_ (s.buf.in_size_ + n) with hn | hn
  · refine ⟨s, q, ?_, .refuse (by omega), hinv, hlimit, hregion, hread, hout⟩
    simp [StringSession.step, hinv.prepare_throws hn]
  · obtain ⟨t, hp, hinv', hkeep⟩ := hinv.prepare_returns hn
    refine ⟨⟨{ s.buf with out_size_ := n }, t, List.range' (t.data + s.buf.in_size_) n⟩,
      { q with output := StringBuffer.output { s.buf with out_size_ := n } t }, ?_, .prepare ?_ (by omega), hinv', hlimit,
      rfl, hread.trans hkeep.symm, rfl⟩
    · simp [StringSession.step, hp, Buffer.addresses]
    · have hfits := hinv'.fits
      simp only [StringBuffer.output, StdString.size, List.length_take, List.length_drop] at hfits ⊢
      omega

theorem step_write (h : StringShows impl s q) (i : Nat) (x : Byte) : Matched impl s q (.write i x) := by
  obtain ⟨hinv, hlimit, hregion, hread, hout⟩ := h
  rcases Nat.lt_or_ge i s.buf.out_size_ with hi | hi
  · obtain ⟨t, ht, hinv', hdata, hkeep, hset⟩ := hinv.poke hi x
    have ha : s.region[i]? = some (s.str.data + s.buf.in_size_ + i) := by
      rw [hregion, StringBuffer.outs, List.getElem?_range' hi, Nat.one_mul]
    refine ⟨{ s with str := t }, _, by simp [StringSession.step, ha, ht], .write i x, hinv', hlimit, ?_,
      hread.trans hkeep.symm, ?_⟩
    · rw [hregion, StringBuffer.outs, StringBuffer.outs, hdata]
    · rw [hset, hout]
  · have ha : s.region[i]? = none := by
      rw [hregion]
      simpa [StringBuffer.outs] using hi
    refine ⟨s, _, by simp [StringSession.step, ha], .write i x, hinv, hlimit, hregion, hread, ?_⟩
    rw [List.set_eq_of_length_le]
    · exact hout
    · rw [hout]
      exact Nat.le_trans (List.length_take_le _ _) hi

theorem step_commit (h : StringShows impl s q) (n : Nat) : Matched impl s q (.commit n) := by
  obtain ⟨hinv, hlimit, hregion, hread, hout⟩ := h
  obtain ⟨hinv', happend⟩ := hinv.commit n
  refine ⟨{ s with buf := s.buf.commit n, region := [] }, _, rfl, .commit n, hinv', ?_, ?_, ?_, ?_⟩
  · rw [StringBuffer.commit_eq]
    exact hlimit
  · rw [StringBuffer.commit_eq]
    rfl
  · rw [happend, ← hread, ← hout]
    rfl
  · rw [StringBuffer.commit_eq]
    rfl

theorem step_consume (h : StringShows impl s q) (n : Nat) : Matched impl s q (.consume n) := by
  obtain ⟨hinv, hlimit, hregion, hread, hout⟩ := h
  obtain ⟨b, t, hb, hinv', hmax, hzero, hdrop⟩ := hinv.consume n
  refine ⟨⟨b, t, []⟩, _, by simp [StringSession.step, hb], .consume n, hinv', hlimit.trans hmax.symm, ?_, ?_, ?_⟩
  · simp [StringBuffer.outs, hzero]
  · rw [hdrop, ← hread]
    rfl
  · simp [StringBuffer.output, hzero, Fifo.consume]

/-- Each call on the buffer is a call on the queue. -/
theorem step (h : StringShows impl s q) (c : Cmd Byte) : Matched impl s q c := by
  cases c with
  | prepare n => exact h.step_prepare n
  | write i x => exact h.step_write i x
  | commit n => exact h.step_commit n
  | consume n => exact h.step_consume n

end StringShows

theorem StringShows.run {impl : StringImpl} {s : StringSession} {q : Fifo Byte} (h : StringShows impl s q)
    (cmds : List (Cmd Byte)) : ∃ t, Run.run (StringSession.step impl) s cmds = .ok t ∧ ∃ r, StringShows impl t r := by
  refine Run.run_invariant (I := fun s => ∃ q, StringShows impl s q) (fun s c hs => ?_) ⟨q, h⟩ cmds
  obtain ⟨q, hq⟩ := hs
  obtain ⟨t, r, ht, -, hr⟩ := hq.step c
  exact ⟨t, ht, r, hr⟩

/-- What `prepare` does: it throws exactly when the readable bytes and `n` pass the maximum, and otherwise
    returns `n` bytes of the string behind the readable ones, which stay as they are. -/
structure StringPrepares (impl : StringImpl) (b : StringBuffer) (s : StdString) (n : Nat) : Prop where
  throws : b.maxSize < b.size + n → b.prepare impl s n = .ok (.error .invalidArgument, b, s)
  returns : b.size + n ≤ b.maxSize → ∃ o live b' t, b.prepare impl s n = .ok (.ok o, b', t) ∧ o.size = n ∧
    b'.data t = .ok live ∧ live.addresses.Disjoint o.addresses ∧
    (∀ a ∈ o.addresses, t.data ≤ a ∧ a < t.data + t.size) ∧ live.addresses.map t.view = b.readable s

theorem StringBuffer.Inv.prepares {impl : StringImpl} {b : StringBuffer} {s : StdString} (h : b.Inv impl s) (n : Nat) :
    StringPrepares impl b s n := by
  refine ⟨h.prepare_throws, fun hn => ?_⟩
  obtain ⟨t, hp, hinv, hkeep⟩ := h.prepare_returns hn
  have hfits := hinv.fits
  simp only at hfits
  refine ⟨_, _, _, t, hp, rfl, hinv.data, ?_, ?_, ?_⟩
  · intro a ha hout
    simp only [Buffer.addresses, List.mem_range'_1] at ha hout
    omega
  · intro a ha
    simp only [Buffer.addresses, List.mem_range'_1] at ha
    omega
  · rw [← hkeep]
    exact hinv.map_data

/-- What a user sees of a string buffer that holds the queue `q`. -/
structure StringShown (impl : StringImpl) (s : StringSession) (q : Fifo Byte) : Prop where
  limit_eq : q.limit = s.buf.maxSize
  bounded : s.buf.in_size_ + s.buf.out_size_ ≤ s.str.size ∧ s.str.size ≤ s.buf.maxSize
  data : ∃ live, s.buf.data s.str = .ok live ∧ live.addresses.map s.str.view = q.readable
  region : s.region.map s.str.view = q.output
  size : s.buf.size = q.readable.length
  room : s.buf.capacity s.str = .ok (min s.str.capacity s.buf.maxSize - s.buf.size)
  prepares : ∀ n, StringPrepares impl s.buf s.str n
  destroys : ∃ t, s.buf.destroy impl s.str = .ok t ∧ t.chars = q.readable

theorem StringShows.shown {impl : StringImpl} {s : StringSession} {q : Fifo Byte} (h : StringShows impl s q) :
    StringShown impl s q := by
  obtain ⟨hinv, hlimit, hregion, hread, hout⟩ := h
  obtain ⟨t, ht, hchars⟩ := hinv.destroy
  refine ⟨hlimit, ⟨hinv.fits, hinv.size_le⟩, ⟨_, hinv.data, ?_⟩, ?_, ?_, hinv.capacity, hinv.prepares, t, ht, ?_⟩
  · rw [hread, hinv.map_data]
  · rw [hregion, hout, hinv.map_outs]
  · rw [hread, hinv.length_readable]
    rfl
  · rw [hchars, hread]

theorem stringShows_ofString (impl : StringImpl) (s : StdString) (max_size : Nat) :
    ∃ b t, StringBuffer.ofString impl s max_size = .ok (b, t) ∧
      b.maxSize = min max_size impl.maxSize ∧
      StringShows impl ⟨b, t, []⟩ { limit := b.maxSize, readable := s.chars.take b.maxSize, output := [] } := by
  obtain ⟨b, t, hb, hinv, hmax, hout, hread⟩ := StringBuffer.ofString_inv impl s max_size
  refine ⟨b, t, hb, hmax, hinv, rfl, ?_, hread.symm, ?_⟩
  · simp [StringBuffer.outs, hout]
  · simp [StringBuffer.output, hout]

/-- A string buffer holds a FIFO queue through every run, and leaves its readable bytes in the string. -/
theorem string_refines (impl : StringImpl) (s : StdString) (max_size : Nat) (cmds : List (Cmd Byte)) :
    ∃ b t, StringBuffer.ofString impl s max_size = .ok (b, t) ∧ b.maxSize = min max_size impl.maxSize ∧
      Fifo.Tracks true (StringSession.step impl) (StringShown impl) ⟨b, t, []⟩
        { limit := b.maxSize, readable := s.chars.take b.maxSize, output := [] } cmds := by
  obtain ⟨b, t, hb, hmax, hstart⟩ := stringShows_ofString impl s max_size
  exact ⟨b, t, hb, hmax, Fifo.tracks_of_simulation (R := StringShows impl) (fun _ _ c h => h.step c) (fun _ _ h => h.shown)
    hstart cmds⟩

/-! ### Moving -/

/-- What a user can tell about a session. -/
structure Alike (s t : StringSession) : Prop where
  size : s.buf.size = t.buf.size
  maxSize : s.buf.maxSize = t.buf.maxSize
  data : s.buf.data s.str = t.buf.data t.str
  bytes : s.buf.readable s.str = t.buf.readable t.str
  region : s.region = t.region

/-- The buffer that a move constructs is observationally equal to the original, now and after any further
    run, leaves the readable bytes in the string, and the moved-from one leaves the string alone. -/
structure MovePreserves (impl : StringImpl) (s : StringSession) : Prop where
  alike : ∀ cmds, ∃ t u, Run.run (StringSession.step impl) s cmds = .ok t ∧
    Run.run (StringSession.step impl) { s with buf := s.buf.move.1 } cmds = .ok u ∧ Alike u t
  destroys : ∃ t, s.buf.move.1.destroy impl s.str = .ok t ∧ t.chars = s.buf.readable s.str
  leaves : s.buf.move.2.destroy impl s.str = .ok s.str

theorem move_eq {b : StringBuffer} (hin : b.in_size_ = 0) (hout : b.out_size_ = 0) : b.move.1 = b := by
  obtain ⟨s_, max_size_, in_size_, out_size_⟩ := b
  cases hin
  cases hout
  rfl

theorem StringShows.movePreserves_iff {impl : StringImpl} {s : StringSession} {q : Fifo Byte} (h : StringShows impl s q) :
    MovePreserves impl s ↔ s.buf.in_size_ = 0 ∧ s.buf.out_size_ = 0 := by
  constructor
  · intro hmove
    have hin : s.buf.in_size_ = 0 := by
      obtain ⟨t, u, ht, hu, halike⟩ := hmove.alike []
      cases ht
      cases hu
      exact halike.size.symm
    refine ⟨hin, ?_⟩
    -- A commit of one byte tells whether output was lost.
    obtain ⟨t, u, ht, hu, halike⟩ := hmove.alike [.commit 1]
    cases ht
    cases hu
    have hsize := halike.size
    simp only [StringBuffer.size, StringBuffer.commit_eq, StringBuffer.move, hin] at hsize
    omega
  · rintro ⟨hin, hout⟩
    have heq := move_eq hin hout
    refine ⟨fun cmds => ?_, ?_, rfl⟩
    · obtain ⟨t, ht, -⟩ := h.run cmds
      rw [heq]
      exact ⟨t, t, ht, ht, rfl, rfl, rfl, rfl, rfl⟩
    · rw [heq]
      exact h.inv.destroy

/-- In every state that a run reaches, a move preserves the buffer exactly when both sizes are zero. -/
theorem string_move_iff (impl : StringImpl) (s : StdString) (max_size : Nat) (cmds : List (Cmd Byte)) :
    ∃ b t u, StringBuffer.ofString impl s max_size = .ok (b, t) ∧
      Run.run (StringSession.step impl) ⟨b, t, []⟩ cmds = .ok u ∧
      (MovePreserves impl u ↔ u.buf.in_size_ = 0 ∧ u.buf.out_size_ = 0) := by
  obtain ⟨b, t, hb, -, hstart⟩ := stringShows_ofString impl s max_size
  obtain ⟨u, hu, q, hq⟩ := hstart.run cmds
  exact ⟨b, t, u, hb, hu, hq.movePreserves_iff⟩

/-- An implementation that never moves a string. -/
def StringImpl.inPlace : StringImpl where
  maxSize := 0x3fffffffffffffff
  place s n := (s.data, max n s.capacity)
  le_capacity _ _ := Nat.le_max_left _ _

/-- A buffer on the string `1234` is moved: the new buffer has no readable bytes, and its destructor empties
    the string. -/
theorem string_move_counterexample :
    ∃ b t u, StringBuffer.ofString .inPlace ⟨1000, [49, 50, 51, 52], 15, by decide⟩ 100 = .ok (b, t) ∧
      b.size = 4 ∧ b.move.1.size = 0 ∧ b.move.1.destroy .inPlace t = .ok u ∧ u.chars = [] ∧
      ¬MovePreserves .inPlace ⟨b, t, []⟩ := by
  refine ⟨⟨.target, 100, 4, 0⟩, ⟨1000, [49, 50, 51, 52], 15, by decide⟩, _, rfl, rfl, rfl, rfl, rfl, fun h => ?_⟩
  obtain ⟨t, u, ht, hu, halike⟩ := h.alike []
  cases ht
  cases hu
  exact absurd halike.size (by decide)

end Buffers
