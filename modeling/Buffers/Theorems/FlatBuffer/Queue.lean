import Buffers.Theorems.FlatBuffer

/-! # The flat buffer refines a FIFO queue

In every run the window of readable bytes and the output area behind it stay in the storage. The contract of a
dynamic buffer invalidates a prepared region when bytes are consumed. In a run that does not commit output
after it consumed, the region is the output area whenever it is committed, so the buffer holds a FIFO queue
(`flat_refines`). -/

namespace Buffers
open Checked

/-! ### Every run -/

/-- What holds of a flat buffer over the storage at `data` after any calls: the window and the output area are
    in the storage, `prepare` throws exactly when it lacks room, and `consume` makes room when it empties the
    buffer. -/
structure FlatBounded (data capacity : Nat) (b : FlatBuffer) : Prop where
  fits : b.in_pos_ + b.in_size_ + b.out_size_ ≤ b.cap_
  storage : b.data_ = data ∧ b.maxSize = capacity
  inside : ∀ a ∈ b.data.addresses, data ≤ a ∧ a < data + capacity
  room : ∃ k, b.capacity = .ok k
  throws : ∀ n k, b.capacity = .ok k → k < n → b.prepare n = .ok (.error .invalidArgument, b)
  returns : ∀ n k, b.capacity = .ok k → n ≤ k → ∃ o b', b.prepare n = .ok (.ok o, b') ∧ o.size = n ∧
    (∀ a ∈ o.addresses, data ≤ a ∧ a < data + capacity) ∧ b'.data = b.data ∧ b'.data.addresses.Disjoint o.addresses
  keeps : ∀ n, n < b.size → ∃ b', b.consume n = .ok b' ∧ b'.capacity = b.capacity
  restores : ∀ n, b.size ≤ n → ∃ b', b.consume n = .ok b' ∧ b'.capacity = .ok b.maxSize

namespace FlatBuffer
variable {b : FlatBuffer}

theorem Inv.bounds (h : b.Inv) : FlatBounded b.data_ b.cap_ b := by
  have hfits := h.fits
  refine ⟨h.fits, ⟨rfl, rfl⟩, fun a ha => ?_, ⟨_, h.capacity⟩, fun n k hk hn => ?_, fun n k hk hn => ?_, fun n hn => ?_,
    fun n hn => ?_⟩
  · simp only [data, Buffer.addresses, List.mem_range'_1] at ha
    omega
  · rw [h.capacity] at hk
    cases hk
    exact h.prepare_throws (by omega)
  · rw [h.capacity] at hk
    cases hk
    refine ⟨_, _, h.prepare_returns (by omega), rfl, fun a ha => ?_, rfl, fun a ha hout => ?_⟩
    · simp only [Buffer.addresses, List.mem_range'_1] at ha
      omega
    · simp only [data, Buffer.addresses, List.mem_range'_1] at ha hout
      omega
  · have hsum : b.in_pos_ + n + (b.in_size_ - n) = b.in_pos_ + b.in_size_ := by
      unfold size at hn
      omega
    exact ⟨_, consume_of_lt hn, by simp only [FlatBuffer.capacity, hsum]⟩
  · exact ⟨_, consume_of_le hn, sub_of_le (Nat.zero_le _)⟩

theorem consume_storage {b' : FlatBuffer} {n : Nat} (h : b.consume n = .ok b') : b'.data_ = b.data_ ∧ b'.cap_ = b.cap_ := by
  rcases Nat.lt_or_ge n b.in_size_ with hn | hn
  · rw [consume_of_lt hn] at h
    cases h
    exact ⟨rfl, rfl⟩
  · rw [consume_of_le hn] at h
    cases h
    exact ⟨rfl, rfl⟩

theorem consume_out {b' : FlatBuffer} {n : Nat} (h : b.consume n = .ok b') : b'.out_size_ = b.out_size_ := by
  rcases Nat.lt_or_ge n b.in_size_ with hn | hn
  · rw [consume_of_lt hn] at h
    cases h
    rfl
  · rw [consume_of_le hn] at h
    cases h
    rfl

/-- Each call keeps the invariant and the storage. -/
theorem Inv.session_step {s : Session FlatBuffer} (h : s.buf.Inv) (c : Cmd Byte) :
    ∃ t, s.step c = .ok t ∧ t.buf.Inv ∧ t.buf.data_ = s.buf.data_ ∧ t.buf.cap_ = s.buf.cap_ := by
  cases c with
  | prepare n =>
    rcases Nat.lt_or_ge s.buf.cap_ (s.buf.in_pos_ + s.buf.in_size_ + n) with hn | hn
    · exact ⟨s, by simp [Session.step, DynamicBuffer.prepare, h.prepare_throws hn], h, rfl, rfl⟩
    · refine ⟨{ s with
          buf := { s.buf with out_size_ := n }, region := List.range' (s.buf.data_ + s.buf.in_pos_ + s.buf.in_size_) n },
        ?_, ⟨hn, h.empty⟩, rfl, rfl⟩
      simp [Session.step, DynamicBuffer.prepare, h.prepare_returns hn, Buffer.addresses]
  | write i x =>
    cases ha : s.region[i]? with
    | some a => exact ⟨{ s with mem := Function.update s.mem a x }, by simp [Session.step, ha], h, rfl, rfl⟩
    | none => exact ⟨s, by simp [Session.step, ha], h, rfl, rfl⟩
  | commit n =>
    refine ⟨{ s with buf := s.buf.commit n, region := [] }, rfl, h.commit n, ?_, ?_⟩
    · rw [commit_eq]
    · rw [commit_eq]
  | consume n =>
    obtain ⟨b', hb', hinv, -⟩ := h.consume n
    exact ⟨{ s with buf := b' }, by simp [Session.step, DynamicBuffer.consume, hb'], hinv, consume_storage hb'⟩

end FlatBuffer

/-! ### Runs within the contract -/

/-- A commit of outstanding output after a consume, which has invalidated the prepared region. -/
def CommitsStale (w : Watched) (c : Cmd Byte) : Prop :=
  w.consumed = true ∧ 0 < w.ses.buf.out_size_ ∧ ∃ n, c = .commit n

/-- The queue `q` is what a flat buffer holds. Its region is the output area, until bytes are consumed. -/
structure FlatQueue (w : Watched) (q : Fifo Byte) : Prop where
  inv : w.ses.buf.Inv
  placed : q.Placed w.ses.mem w.ses.buf.live w.ses.region
  length_eq : w.ses.region.length = w.ses.buf.out_size_
  behind : w.consumed = false → w.ses.region =
    List.range' (w.ses.buf.data_ + w.ses.buf.in_pos_ + w.ses.buf.in_size_) w.ses.buf.out_size_

/-- What a user sees of a flat buffer that holds the queue `q`. -/
structure FlatShown (w : Watched) (q : Fifo Byte) : Prop where
  data : w.ses.buf.data.addresses.map w.ses.mem = q.readable
  region : w.ses.region.map w.ses.mem = q.output
  size : w.ses.buf.size = q.readable.length

namespace FlatQueue
variable {w : Watched} {q : Fifo Byte}

theorem shown (h : FlatQueue w q) : FlatShown w q := by
  refine ⟨h.placed.readable_eq.symm, h.placed.output_eq.symm, ?_⟩
  rw [h.placed.length_readable, FlatBuffer.live, Buffer.length_addresses]
  rfl

/-- The region of a commit within the contract is the output area. -/
theorem region_eq (h : FlatQueue w q) {n : Nat} (hc : ¬CommitsStale w (.commit n)) : w.ses.region =
    List.range' (w.ses.buf.data_ + w.ses.buf.in_pos_ + w.ses.buf.in_size_) w.ses.buf.out_size_ := by
  cases hcons : w.consumed with
  | false => exact h.behind hcons
  | true =>
    have hout : w.ses.buf.out_size_ = 0 := Nat.eq_zero_of_not_pos fun hpos => hc ⟨hcons, hpos, n, rfl⟩
    have hnil := h.length_eq
    rw [hout] at hnil ⊢
    exact List.length_eq_zero_iff.mp hnil

/-- The call is a call on the queue, which may hold what the buffer has room for. -/
def Matched (w : Watched) (q : Fifo Byte) (c : Cmd Byte) : Prop :=
  ∃ k t r, w.ses.buf.capacity = .ok k ∧ w.step c = .ok t ∧
    Fifo.Step false { q with limit := q.readable.length + k } c r ∧ FlatQueue t r

theorem step_prepare (h : FlatQueue w q) (n : Nat) : Matched w q (.prepare n) := by
  obtain ⟨⟨buf, mem, region⟩, consumed, emptied⟩ := w
  have hinv : buf.Inv := h.inv
  have hplaced := h.placed.within (q.readable.length + (buf.cap_ - (buf.in_pos_ + buf.in_size_)))
  rcases Nat.lt_or_ge buf.cap_ (buf.in_pos_ + buf.in_size_ + n) with hn | hn
  · have hp := hinv.prepare_throws hn
    refine ⟨_, ⟨⟨buf, mem, region⟩, consumed, emptied⟩, _, hinv.capacity, ?_, .refuse ?_, hinv, hplaced, h.length_eq,
      h.behind⟩
    · simp [Watched.step, Session.step, DynamicBuffer.prepare, hp]
    · have hfits := hinv.fits
      simp only
      omega
  · have hp := hinv.prepare_returns hn
    have hnodup : (buf.live ++ List.range' (buf.data_ + buf.in_pos_ + buf.in_size_) n).Nodup := by
      simp only [FlatBuffer.live, FlatBuffer.data, Buffer.addresses, List.range'_append_1]
      exact List.nodup_range'
    refine ⟨_,
      ⟨⟨{ buf with out_size_ := n }, mem, List.range' (buf.data_ + buf.in_pos_ + buf.in_size_) n⟩, false, false⟩, _,
      hinv.capacity, ?_, .prepare (by simp) ?_, ⟨hn, hinv.empty⟩, hplaced.prepare hnodup, by simp, fun _ => rfl⟩
    · simp [Watched.step, Session.step, DynamicBuffer.prepare, hp, Buffer.addresses]
    · simp only
      omega

theorem step_write (h : FlatQueue w q) (i : Nat) (x : Byte) : Matched w q (.write i x) := by
  obtain ⟨⟨buf, mem, region⟩, consumed, emptied⟩ := w
  have hinv : buf.Inv := h.inv
  have hplaced := h.placed.within (q.readable.length + (buf.cap_ - (buf.in_pos_ + buf.in_size_)))
  cases ha : region[i]? with
  | some a =>
    refine ⟨_, ⟨⟨buf, Function.update mem a x, region⟩, consumed, emptied⟩, _, hinv.capacity, ?_, .write i x, hinv,
      hplaced.write ha x, h.length_eq, h.behind⟩
    simp [Watched.step, Session.step, ha]
  | none =>
    refine ⟨_, ⟨⟨buf, mem, region⟩, consumed, emptied⟩, _, hinv.capacity, ?_, .write i x, hinv, hplaced.write_none ha x,
      h.length_eq, h.behind⟩
    simp [Watched.step, Session.step, ha]

theorem step_commit (h : FlatQueue w q) {n : Nat} (hc : ¬CommitsStale w (.commit n)) : Matched w q (.commit n) := by
  obtain ⟨⟨buf, mem, region⟩, consumed, emptied⟩ := w
  have hinv : buf.Inv := h.inv
  have hplaced := h.placed.within (q.readable.length + (buf.cap_ - (buf.in_pos_ + buf.in_size_)))
  have hregion : region = _ := h.region_eq hc
  refine ⟨_, ⟨⟨buf.commit n, mem, []⟩, consumed, emptied⟩, _, hinv.capacity, rfl, .commit n, hinv.commit n, ?_, ?_,
    fun _ => ?_⟩
  · rw [show (buf.commit n).live = buf.live ++ region.take n by rw [hregion]; exact buf.live_commit n]
    exact hplaced.commit n
  · rw [FlatBuffer.commit_eq]
    rfl
  · rw [FlatBuffer.commit_eq]
    rfl

theorem step_consume (h : FlatQueue w q) (n : Nat) : Matched w q (.consume n) := by
  obtain ⟨⟨buf, mem, region⟩, consumed, emptied⟩ := w
  have hinv : buf.Inv := h.inv
  have hplaced := h.placed.within (q.readable.length + (buf.cap_ - (buf.in_pos_ + buf.in_size_)))
  obtain ⟨b', hb', hinv', hlive⟩ := hinv.consume n
  refine ⟨_, ⟨⟨b', mem, region⟩, true, emptied || empties buf (.consume n)⟩, _, hinv.capacity, ?_, .consume n, hinv',
    ?_, ?_,
    fun hf => absurd hf Bool.noConfusion⟩
  · simp [Watched.step, Session.step, DynamicBuffer.consume, hb']
  · rw [hlive]
    exact hplaced.consume n
  · exact h.length_eq.trans (FlatBuffer.consume_out hb').symm

/-- Each call within the contract is a call on the queue. -/
theorem step (h : FlatQueue w q) {c : Cmd Byte} (hc : ¬CommitsStale w c) : Matched w q c := by
  cases c with
  | prepare n => exact h.step_prepare n
  | write i x => exact h.step_write i x
  | commit n => exact h.step_commit hc
  | consume n => exact h.step_consume n

end FlatQueue

/-- A flat buffer stays in its storage in every run, and within the contract it holds a FIFO queue. -/
theorem flat_refines (data capacity initial_size : Nat) (mem : Mem) (hinit : initial_size ≤ capacity)
    (cmds : List (Cmd Byte)) :
    ∃ b, FlatBuffer.ofStorage data capacity initial_size = .ok b ∧ FlatBounded data capacity b ∧
      Run.Every Session.step (fun _ _ t => FlatBounded data capacity t.buf) ⟨b, mem, []⟩ cmds ∧
      (Run.Always Watched.step (fun w c => ¬CommitsStale w c) ⟨⟨b, mem, []⟩, false, false⟩ cmds →
        Fifo.Follows false Watched.step (fun w => w.ses.buf.capacity) FlatShown ⟨⟨b, mem, []⟩, false, false⟩
          { limit := capacity, readable := (List.range' data initial_size).map mem, output := [] } cmds) := by
  have hstart : FlatBuffer.Inv { data_ := data, cap_ := capacity, in_size_ := initial_size } := by
    refine ⟨?_, fun _ => rfl⟩
    simp only
    omega
  refine ⟨{ data_ := data, cap_ := capacity, in_size_ := initial_size },
    by simp [FlatBuffer.ofStorage, Nat.not_lt.mpr hinit],
    hstart.bounds, ?_, fun hcontract => ?_⟩
  · refine Run.every_of_invariant (P := fun _ => True)
      (I := fun s => s.buf.Inv ∧ s.buf.data_ = data ∧ s.buf.cap_ = capacity) (fun s c _ hs => ?_) ⟨hstart, rfl, rfl⟩
      fun _ _ => trivial
    obtain ⟨hinv, hdata, hcap⟩ := hs
    obtain ⟨t, ht, hinv', hdata', hcap'⟩ := hinv.session_step c
    have hsame : t.buf.data_ = data ∧ t.buf.cap_ = capacity := ⟨hdata'.trans hdata, hcap'.trans hcap⟩
    have hbounds := hinv'.bounds
    rw [hsame.1, hsame.2] at hbounds
    exact ⟨t, ht, hbounds, hinv', hsame⟩
  · refine Fifo.follows_of_simulation (R := FlatQueue) (fun _ _ _ h hc => h.step hc) (fun _ _ h => h.shown)
      ⟨hstart, ⟨?_, rfl, ?_⟩,
      rfl, fun _ => rfl⟩ hcontract
    · simp [FlatBuffer.live, FlatBuffer.data, Buffer.addresses]
    · rw [List.append_nil]
      exact List.nodup_range'

/-- Two rounds, with a consume that empties the buffer between a commit and the next prepare. -/
theorem flat_refines_rounds :
    ∃ b, FlatBuffer.ofStorage 100 8 2 = .ok b ∧ FlatBounded 100 8 b ∧
      Run.Every Session.step (fun _ _ t => FlatBounded 100 8 t.buf) ⟨b, fun a => a.toUInt8, []⟩
        [.prepare 4, .write 1 7, .commit 9, .consume 6, .prepare 8, .commit 8] ∧
      Fifo.Follows false Watched.step (fun w => w.ses.buf.capacity) FlatShown ⟨⟨b, fun a => a.toUInt8, []⟩, false, false⟩
        { limit := 8, readable := [100, 101], output := [] }
        [.prepare 4, .write 1 7, .commit 9, .consume 6, .prepare 8, .commit 8] := by
  obtain ⟨b, hb, hbounded, hrun, hqueue⟩ := flat_refines 100 8 2 (fun a => a.toUInt8) (by decide)
    [.prepare 4, .write 1 7, .commit 9, .consume 6, .prepare 8, .commit 8]
  refine ⟨b, hb, hbounded, hrun, hqueue ?_⟩
  cases hb
  refine Run.always_cons (by simp [CommitsStale]) rfl ?_
  refine Run.always_cons (by simp [CommitsStale]) rfl ?_
  refine Run.always_cons (by simp [CommitsStale]) rfl ?_
  refine Run.always_cons (by simp [CommitsStale]) rfl ?_
  refine Run.always_cons (by simp [CommitsStale]) rfl ?_
  exact Run.always_cons (by simp [CommitsStale]) rfl trivial

end Buffers
