import Buffers.Theorems.CircularBuffer.Word

/-! # The circular buffer refines a FIFO queue

On machine words the buffer makes the steps of the queue as long as its sums do not wrap, and for that the capacity
has to be at most half the words (`WordShows.step`, `circular_refines`). A larger buffer can be brought to a state
with its start at the last byte and nothing readable; there a prepare of the whole capacity wraps, and hands out bytes
past the storage (`circular_refines_counterexample`, `word_circular_refines_iff`). -/

namespace Buffers
open Checked Word

variable {o : Overflow} {base capacity : Nat}

/-! ### The queue in the buffer -/

/-- What `prepare` does: it throws exactly when the readable bytes and `n` pass the maximum, and otherwise
    returns `n` distinct bytes of the storage that are not readable. -/
structure Prepares (o : Overflow) (base capacity : Nat) (b : CircularBuffer) (n : Nat) : Prop where
  throws : b.maxSize < b.size + n → CircularBuffer.Word.prepare o b n = .ok (.error .lengthError, b)
  returns : b.size + n ≤ b.maxSize → ∃ p b' live, CircularBuffer.Word.prepare o b n = .ok (.ok p, b') ∧
    (addresses p.toList).length = n ∧ (addresses p.toList).Nodup ∧
    (∀ a ∈ addresses p.toList, base ≤ a ∧ a < base + capacity) ∧
    CircularBuffer.Word.data o b = .ok live ∧ CircularBuffer.Word.data o b' = .ok live ∧
    (addresses live.toList).Disjoint (addresses p.toList)

theorem CircularBuffer.Inv.prepares {b : CircularBuffer} (h : Inv b) (hcap : 1 ≤ b.cap_) (hhalf : b.cap_ ≤ Word.half)
    (n : Nat) : Prepares o b.base_ b.cap_ b n := by
  refine ⟨h.word_prepare_throws, fun hn => ?_⟩
  obtain ⟨p, hp, hring⟩ := h.prepare_returns hcap hn
  obtain ⟨live, hlive, haddr⟩ := h.data
  have hprepared := h.prepared hn
  have hnodup := List.nodup_append'.mp hprepared.nodup
  have hout : addresses p.toList = outs { b with out_size_ := n } := hring
  refine ⟨p, _, live, (h.word_prepare_eq hhalf n).trans hp, ?_, ?_, ?_, (h.word_data_eq hhalf).trans hlive,
    (hprepared.word_data_eq hhalf).trans hlive, ?_⟩
  · rw [hring, length_ring]
  · rw [hout]
    exact hnodup.2.1
  · rw [hring]
    exact fun a ha => mem_ring hcap ha
  · rw [hout, haddr]
    exact hnodup.2.2

/-- What a user sees of a circular buffer that holds the queue `q` in the storage at `base`. -/
structure Shown (base capacity : Nat) (s : Session (WordCircularBuffer o)) (q : Fifo Byte) : Prop where
  limit_eq : q.limit = capacity
  max_size : s.buf.val.maxSize = capacity
  data : ∃ live, CircularBuffer.Word.data o s.buf.val = .ok live ∧ (addresses live.toList).map s.mem = q.readable ∧
    (addresses live.toList).Disjoint s.region
  region : s.region.map s.mem = q.output
  size : s.buf.val.size = q.readable.length
  room : s.buf.val.capacity = .ok (s.buf.val.maxSize - s.buf.val.size)
  prepares : ∀ n, Prepares o base capacity s.buf.val n

/-- The session with the operations on unbounded numbers. -/
def WordCircularBuffer.exact (s : Session (WordCircularBuffer o)) : Session CircularBuffer :=
  { buf := s.buf.val, mem := s.mem, region := s.region }

def WordCircularBuffer.words (o : Overflow) (s : Session CircularBuffer) : Session (WordCircularBuffer o) :=
  { buf := ⟨s.buf⟩, mem := s.mem, region := s.region }

structure WordShows (base capacity : Nat) (s : Session (WordCircularBuffer o)) (q : Fifo Byte) : Prop where
  shows : Shows base capacity (WordCircularBuffer.exact s) q

namespace WordShows
variable {s : Session (WordCircularBuffer o)} {q : Fifo Byte}

theorem half (h : WordShows base capacity s q) (hhalf : capacity ≤ Word.half) : s.buf.val.cap_ ≤ Word.half := by
  have hcap : s.buf.val.cap_ = capacity := h.shows.cap_eq
  rwa [hcap]

/-- Without a sum that wraps, a call does what it does on unbounded numbers. -/
theorem step_eq (h : WordShows base capacity s q) (hhalf : capacity ≤ Word.half) (c : Cmd Byte) :
    s.step c = WordCircularBuffer.words o <$> (WordCircularBuffer.exact s).step c := by
  have hinv : s.buf.val.Inv := h.shows.inv
  have hcap := h.half hhalf
  cases c with
  | prepare n =>
    simp only [Session.step, DynamicBuffer.prepare, WordCircularBuffer.exact, hinv.word_prepare_eq hcap n]
    cases s.buf.val.prepare n with
    | error f => rfl
    | ok r =>
      obtain ⟨e | p, b⟩ := r
      · rfl
      · rfl
  | write i x =>
    simp only [Session.step, WordCircularBuffer.exact]
    cases s.region[i]? with
    | none => rfl
    | some a => rfl
  | commit n =>
    have hfits : CircularBuffer.Fits o s.buf.val.cap_ := .of_half hcap
    simp only [Session.step, DynamicBuffer.commit, WordCircularBuffer.exact, hinv.word_commit hfits n]
    rfl
  | consume n =>
    simp only [Session.step, DynamicBuffer.consume, WordCircularBuffer.exact, hinv.word_consume_eq hcap n]
    cases s.buf.val.consume n with
    | error f => rfl
    | ok b => rfl

theorem step (h : WordShows base capacity s q) (hcap : 1 ≤ capacity) (hhalf : capacity ≤ Word.half) (c : Cmd Byte) :
    ∃ t r, s.step c = .ok t ∧ Fifo.Step false q c r ∧ WordShows base capacity t r := by
  obtain ⟨t, r, ht, hstep, hshows⟩ := h.shows.step hcap c
  refine ⟨WordCircularBuffer.words o t, r, ?_, hstep, ⟨hshows⟩⟩
  rw [h.step_eq hhalf c, ht]
  rfl

theorem shown (h : WordShows base capacity s q) (hcap : 1 ≤ capacity) (hhalf : capacity ≤ Word.half) :
    Shown base capacity s q := by
  obtain ⟨hinv, rfl, rfl, hlimit, hregion, hplaced⟩ := h.shows
  simp only [WordCircularBuffer.exact] at hinv hlimit hregion hplaced hcap hhalf
  obtain ⟨live, hdata, haddr⟩ := hinv.data
  refine ⟨hlimit, rfl, ⟨live, (hinv.word_data_eq hhalf).trans hdata, ?_, ?_⟩, ?_, ?_, hinv.capacity,
    hinv.prepares hcap hhalf⟩
  · rw [haddr, hplaced.readable_eq]
  · rw [haddr, hregion]
    exact hplaced.disjoint
  · rw [hregion, hplaced.output_eq]
  · rw [hplaced.length_readable, CircularBuffer.live, length_ring]
    rfl

theorem ofReadable (o : Overflow) (base : Nat) {initial_size : Nat} (hinit : initial_size ≤ capacity) (mem : Mem) :
    ∃ b, CircularBuffer.ofReadable base capacity initial_size = .ok b ∧
      WordShows base capacity ({ buf := ⟨b⟩, mem := mem, region := [] } : Session (WordCircularBuffer o))
        { limit := capacity, readable := (List.range' base initial_size).map mem, output := [] } := by
  obtain ⟨b, hb, hinv, hbase, hcap, hlive, houts⟩ := CircularBuffer.ofReadable_inv base hinit
  refine ⟨b, hb, ⟨hinv, hbase, hcap, rfl, houts.symm, ?_⟩⟩
  exact ⟨by simp only [WordCircularBuffer.exact, hlive], by simp only [WordCircularBuffer.exact, houts]; rfl, hinv.nodup⟩

/-- A buffer with the queue goes through any run with it. -/
theorem tracks (h : WordShows base capacity s q) (hcap : 1 ≤ capacity) (hhalf : capacity ≤ Word.half)
    (cmds : List (Cmd Byte)) : Fifo.Tracks false Session.step (Shown base capacity) s q cmds :=
  Fifo.tracks_of_simulation (fun _ _ c h => h.step hcap hhalf c) (fun _ _ h => h.shown hcap hhalf) h cmds

end WordShows

/-- A circular buffer of up to half the words holds a FIFO queue through every run, and none of its sums wraps. -/
theorem circular_refines (o : Overflow) (base capacity initial_size : Nat) (mem : Mem) (hcap : 1 ≤ capacity)
    (hhalf : capacity ≤ Word.half) (hinit : initial_size ≤ capacity) (cmds : List (Cmd Byte)) :
    ∃ b, CircularBuffer.ofReadable base capacity initial_size = .ok b ∧
      Fifo.Tracks false Session.step (Shown base capacity)
        ({ buf := ⟨b⟩, mem := mem, region := [] } : Session (WordCircularBuffer o))
        { limit := capacity, readable := (List.range' base initial_size).map mem, output := [] } cmds := by
  obtain ⟨b, hb, hshows⟩ := WordShows.ofReadable o base hinit mem
  exact ⟨b, hb, hshows.tracks hcap hhalf cmds⟩

/-- A wrapped run over eight bytes, with a commit after a consume that empties the buffer. -/
theorem circular_refines_wrapped :
    ∃ b, CircularBuffer.ofReadable 100 8 5 = .ok b ∧
      Fifo.Tracks false Session.step (Shown 100 8)
        ({ buf := ⟨b⟩, mem := fun a => a.toUInt8, region := [] } : Session (WordCircularBuffer .wraps))
        { limit := 8, readable := [100, 101, 102, 103, 104], output := [] }
        [.prepare 3, .consume 2, .commit 3, .prepare 2, .write 1 7, .consume 6, .commit 2] :=
  circular_refines .wraps 100 8 5 (fun a => a.toUInt8) (by decide) (by decide) (by decide)
    [.prepare 3, .consume 2, .commit 3, .prepare 2, .write 1 7, .consume 6, .commit 2]

/-! ### Larger buffers -/

/-- An empty buffer that starts at its last byte. -/
def CircularBuffer.atLast (base capacity : Nat) : CircularBuffer :=
  { base_ := base, cap_ := capacity, in_pos_ := capacity - 1, in_len_ := 0, out_size_ := 1 }

theorem count_eq : Word.count = 2 * Word.half := rfl

/-- Its sum of the start and the capacity wraps. -/
theorem add_atLast (hcount : capacity < Word.count) (hhalf : Word.half < capacity) :
    (∃ s, Word.add .wraps (capacity - 1) capacity = .ok s ∧ s ≤ capacity) ∧
      Word.add .faults (capacity - 1) capacity = .error .outOfRange := by
  have hdouble := count_eq
  have hge : Word.count ≤ capacity - 1 + capacity := by omega
  constructor
  · refine ⟨_, rfl, ?_⟩
    rw [Nat.mod_eq_sub_mod hge, Nat.mod_eq_of_lt (by omega)]
    omega
  · exact if_neg (Nat.not_lt.mpr hge)

/-- It hands out bytes past the storage when it is asked for all of it. -/
theorem prepare_atLast (base : Nat) (hcount : capacity < Word.count) (hhalf : Word.half < capacity) :
    (∃ p b, CircularBuffer.Word.prepare .wraps (.atLast base capacity) capacity = .ok (.ok p, b) ∧
      base + capacity ∈ addresses p.toList) ∧
    CircularBuffer.Word.prepare .faults (.atLast base capacity) capacity = .error .outOfRange := by
  have htwo : 1 < capacity := Nat.lt_of_le_of_lt (by decide) hhalf
  have hpos : 0 < capacity := Nat.lt_of_succ_lt htwo
  have hmod : mod (capacity - 1) capacity = .ok (capacity - 1) := by
    rw [mod_of_pos hpos, Nat.mod_eq_of_lt (Nat.sub_lt hpos Nat.one_pos)]
  have hfirst : ∀ o, Word.add o (capacity - 1) 0 = .ok (capacity - 1) := fun o => add_of_lt (by omega)
  have hroom : sub capacity 0 = .ok capacity := sub_of_le (Nat.zero_le _)
  obtain ⟨⟨s, hwraps, hle⟩, hfaults⟩ := add_atLast hcount hhalf
  constructor
  · refine ⟨⟨⟨base + (capacity - 1), capacity⟩, ⟨base, 0⟩⟩,
      { CircularBuffer.atLast base capacity with out_size_ := capacity }, ?_, ?_⟩
    · simp [CircularBuffer.Word.prepare, CircularBuffer.atLast, hroom, hfirst, hmod, hwraps, hle]
    · simp [BufferPair.toList, Buffer.addresses, List.mem_range'_1]
      omega
  · simp [CircularBuffer.Word.prepare, CircularBuffer.atLast, hroom, hfirst, hmod, hfaults]

theorem not_prepares_atLast (hcount : capacity < Word.count) (hhalf : Word.half < capacity) :
    ¬Prepares o base capacity (.atLast base capacity) capacity := by
  intro h
  obtain ⟨⟨p, b, hwraps, hmem⟩, hfaults⟩ := prepare_atLast base hcount hhalf
  obtain ⟨p', b', live, hp, -, -, hin, -⟩ := h.returns (Nat.le_of_eq (Nat.zero_add _))
  cases o with
  | wraps =>
    rw [hwraps] at hp
    cases hp
    exact absurd (hin _ hmem).2 (Nat.lt_irrefl _)
  | faults =>
    rw [hfaults] at hp
    cases hp

/-- A buffer with all but one byte readable. -/
def CircularBuffer.almostFull (base capacity : Nat) : CircularBuffer :=
  { base_ := base, cap_ := capacity, in_len_ := capacity - 1 }

theorem ofReadable_almostFull : CircularBuffer.ofReadable base capacity (capacity - 1) = .ok (.almostFull base capacity) :=
  if_neg (Nat.not_lt.mpr (Nat.sub_le _ _))

/-- The calls that bring it to its last byte. -/
theorem run_almostFull (hcap : 1 ≤ capacity) (hcount : capacity < Word.count) (mem : Mem) :
    Run.run Session.step ({ buf := ⟨.almostFull base capacity⟩, mem := mem, region := [] } : Session (WordCircularBuffer o))
      [.prepare 1, .consume (capacity - 1)] =
    .ok { buf := ⟨.atLast base capacity⟩, mem := mem, region := [base + (capacity - 1)] } := by
  have hlast : capacity - 1 < capacity := Nat.sub_lt hcap Nat.one_pos
  have hroom : sub capacity (capacity - 1) = .ok 1 := by
    rw [sub_of_le (Nat.le_of_lt hlast)]
    exact congrArg Except.ok (by omega)
  have hmod : mod (capacity - 1) capacity = .ok (capacity - 1) := by rw [mod_of_pos hcap, Nat.mod_eq_of_lt hlast]
  have hfirst : Word.add o 0 (capacity - 1) = .ok (capacity - 1) := by
    rw [add_of_lt (by omega), Nat.zero_add]
  have hend : Word.add o (capacity - 1) 1 = .ok capacity := by
    rw [add_of_lt (by omega), Nat.sub_add_cancel hcap]
  simp [Run.run, Session.step, DynamicBuffer.prepare, DynamicBuffer.consume, CircularBuffer.Word.prepare,
    CircularBuffer.Word.consume, CircularBuffer.almostFull, CircularBuffer.atLast, hroom, hfirst, hmod, hend,
    BufferPair.toList, Buffer.addresses]

theorem not_tracks_almostFull (hcount : capacity < Word.count) (hhalf : Word.half < capacity) (mem : Mem) (q : Fifo Byte) :
    ¬Fifo.Tracks false Session.step (Shown base capacity)
      ({ buf := ⟨.almostFull base capacity⟩, mem := mem, region := [] } : Session (WordCircularBuffer o)) q
      [.prepare 1, .consume (capacity - 1)] := by
  intro h
  obtain ⟨t, r, hrun, hshown⟩ := h.holds_run
  rw [run_almostFull (by omega) hcount] at hrun
  cases hrun
  exact not_prepares_atLast hcount hhalf (hshown.prepares capacity)

/-- One byte more than half the words. -/
theorem circular_refines_counterexample :
    ∃ b s p b', CircularBuffer.ofReadable 16 (Word.half + 1) Word.half = .ok b ∧
      Run.run Session.step ({ buf := ⟨b⟩, mem := fun _ => 0, region := [] } : Session (WordCircularBuffer .wraps))
        [.prepare 1, .consume Word.half] = .ok s ∧
      s.buf.val.capacity = .ok (Word.half + 1) ∧
      CircularBuffer.Word.prepare .wraps s.buf.val (Word.half + 1) = .ok (.ok p, b') ∧
      16 + (Word.half + 1) ∈ addresses p.toList ∧
      ¬Fifo.Tracks false Session.step (Shown 16 (Word.half + 1))
        ({ buf := ⟨b⟩, mem := fun _ => 0, region := [] } : Session (WordCircularBuffer .wraps))
        { limit := Word.half + 1, readable := (List.range' 16 Word.half).map fun _ => 0, output := [] }
        [.prepare 1, .consume Word.half] := by
  obtain ⟨⟨p, b', hprepare, hmem⟩, -⟩ := prepare_atLast 16 (show Word.half + 1 < Word.count by decide) (by decide)
  exact ⟨_, _, p, b', ofReadable_almostFull, run_almostFull (by decide) (by decide) _, rfl, hprepare, hmem,
    not_tracks_almostFull (by decide) (by decide) _ _⟩

/-- The buffer is a queue in every run exactly when its capacity is at most half the words. Of a larger one a
    run leads to a prepare that hands out the byte after the storage. -/
theorem word_circular_refines_iff (o : Overflow) (base : Nat) {capacity : Nat} (hcap : 1 ≤ capacity)
    (hcount : capacity < Word.count) (mem : Mem) :
    ((∀ initial_size cmds, initial_size ≤ capacity → ∃ b, CircularBuffer.ofReadable base capacity initial_size = .ok b ∧
      Fifo.Tracks false Session.step (Shown base capacity)
        ({ buf := ⟨b⟩, mem := mem, region := [] } : Session (WordCircularBuffer o))
        { limit := capacity, readable := (List.range' base initial_size).map mem, output := [] } cmds) ↔
      capacity ≤ Word.half) ∧
    (Word.half < capacity → ∃ initial_size b cmds s, initial_size ≤ capacity ∧
      CircularBuffer.ofReadable base capacity initial_size = .ok b ∧
      Run.run Session.step ({ buf := ⟨b⟩, mem := mem, region := [] } : Session (WordCircularBuffer .wraps)) cmds = .ok s ∧
      s.buf.val.capacity = .ok capacity ∧
      ∃ p b', CircularBuffer.Word.prepare .wraps s.buf.val capacity = .ok (.ok p, b') ∧
        base + capacity ∈ addresses p.toList) := by
  refine ⟨⟨fun h => ?_, fun hhalf initial_size cmds hinit => ?_⟩, fun hhalf => ?_⟩
  · by_contra hhalf
    obtain ⟨b, hb, htracks⟩ := h (capacity - 1) [.prepare 1, .consume (capacity - 1)] (Nat.sub_le _ _)
    rw [ofReadable_almostFull] at hb
    cases hb
    exact not_tracks_almostFull hcount (Nat.lt_of_not_le hhalf) mem _ htracks
  · obtain ⟨b, hb, hshows⟩ := WordShows.ofReadable o base hinit mem
    exact ⟨b, hb, hshows.tracks hcap hhalf cmds⟩
  · exact ⟨_, _, _, _, Nat.sub_le _ _, ofReadable_almostFull, run_almostFull hcap hcount mem, rfl,
      (prepare_atLast base hcount hhalf).1⟩

/-- The largest capacity that the sums allow, and the next one. -/
theorem word_circular_refines_half :
    (∀ initial_size cmds, initial_size ≤ Word.half → ∃ b, CircularBuffer.ofReadable 16 Word.half initial_size = .ok b ∧
      Fifo.Tracks false Session.step (Shown 16 Word.half)
        ({ buf := ⟨b⟩, mem := fun _ => 0, region := [] } : Session (WordCircularBuffer .wraps))
        { limit := Word.half, readable := (List.range' 16 initial_size).map fun _ => 0, output := [] } cmds) ∧
    ∃ initial_size b cmds s, initial_size ≤ Word.half + 1 ∧
      CircularBuffer.ofReadable 16 (Word.half + 1) initial_size = .ok b ∧
      Run.run Session.step ({ buf := ⟨b⟩, mem := fun _ => 0, region := [] } : Session (WordCircularBuffer .wraps))
        cmds = .ok s ∧
      s.buf.val.capacity = .ok (Word.half + 1) ∧
      ∃ p b', CircularBuffer.Word.prepare .wraps s.buf.val (Word.half + 1) = .ok (.ok p, b') ∧
        16 + (Word.half + 1) ∈ addresses p.toList :=
  ⟨(word_circular_refines_iff .wraps 16 (by decide) (by decide) fun _ => 0).1.mpr (Nat.le_refl _),
    (word_circular_refines_iff .wraps 16 (by decide) (by decide) fun _ => 0).2 (Nat.lt_succ_self _)⟩

end Buffers
