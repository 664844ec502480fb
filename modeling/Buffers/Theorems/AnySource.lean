import Buffers.Lib.Run
import Buffers.Theorems.Copy
import Buffers.Theorems.Slice
import Buffers.Theorems.Source

/-! # A data source behind `any_source` is a rewindable byte stream

One call of `data_model::read` copies from the sequence without its first `nread_` bytes, so it delivers the
next bytes of the data, and says end of file with the last one (`DataModel.reads`). The batches of `any_source`
deliver the same. A run of reads then hands out the data from the start, up to the position reached
(`any_source_stream`). -/

namespace Buffers
open Checked

theorem ErrorCode.failed_eof : ErrorCode.eof.failed = true := rfl

/-! ### One call -/

namespace DataModel

/-- A model that has read `p` bytes of a sequence whose addresses `src` hold the data. -/
def At (source : Sequence) (src : List Nat) (D : List Byte) (s : DataModel) (mem : Mem) (p : Nat) : Prop :=
  s = { source_ := source, size_ := D.length, nread_ := p } ∧ src.map mem = D

theorem ofSource_at {source : Sequence} {bufs : List Buffer} (h : source.read = .ok bufs) (mem : Mem) :
    ∃ s, ofSource source = .ok s ∧ At source (addresses bufs) ((addresses bufs).map mem) s mem 0 := by
  refine ⟨{ source_ := source, size_ := size bufs }, by simp [ofSource, h], ?_, rfl⟩
  rw [List.length_map, ← size_eq]

/-- One call delivers the next bytes of the data. -/
theorem reads {source : Sequence} {bufs : List Buffer} (h : source.read = .ok bufs) (D : List Byte) :
    Reads AnyImpl.read D .eof (fun dest => (addresses bufs).Disjoint (addresses dest))
      (At source (addresses bufs) D) (At source (addresses bufs) D) := by
  rintro _ dest ec mem p ⟨rfl, hD⟩ hp hdisj
  obtain ⟨rest, hrest, bufs', hbufs', haddr⟩ := Sequence.apply_denotes h (.removePrefix p)
  simp only [SliceOp.window] at haddr
  have hlen : (addresses bufs).length = D.length := by rw [← hD, List.length_map]
  have hcopy := copy_eq dest bufs' mem none (by
    rw [haddr]
    exact fun a ha => hdisj (List.mem_of_mem_drop ha))
  have hcount : copySize dest bufs' none = delivered D p dest := by
    rw [copySize, size_eq bufs', haddr, List.length_drop, hlen]
    rfl
  have hdata : ((addresses bufs').take (delivered D p dest)).map mem = (D.drop p).take (delivered D p dest) := by
    rw [haddr, List.map_take, List.map_drop, hD]
  rw [hcount, hdata] at hcopy
  have hle := delivered_le dest hp
  have hkeep : (addresses bufs).map (deliver D .eof p dest mem ()).mem = D := by
    refine (Memory.map_store_of_disjoint mem fun a ha hd => ?_).trans hD
    exact hdisj ha (List.mem_of_mem_take hd)
  refine ⟨{ source_ := source, size_ := D.length, nread_ := p + delivered D p dest }, ?_, ⟨rfl, hkeep⟩,
    fun _ => ⟨rfl, hkeep⟩⟩
  have hsans : sansPrefix source p = .ok rest := hrest
  simp only [AnyImpl.read, DataModel.read, hsans, ok_bind, hbufs', hcopy, pure_eq]
  -- The position never passes the size, so reaching it is being there.
  have hend : p + delivered D p dest ≥ D.length ↔ p + delivered D p dest = D.length := by omega
  simp only [deliver, hend]

end DataModel

/-! ### Runs -/

/-- A source in use, with the bytes that it has returned since the last rewind. -/
structure Heard where
  ses : ReadResult DataModel
  got : List Byte

def Heard.step (w : Heard) (c : SourceCall) : Checked Heard := do
  let ses ← c.step AnySource.read AnySource.rewind w.ses
  match c with
  | .read dest _ => return ⟨ses, w.got ++ ((addresses dest).take ses.count).map ses.mem⟩
  | .rewind => return ⟨ses, []⟩

def Heard.pos (w : Heard) : Nat := w.ses.src.nread_

/-- The destinations that a caller may pass: at least one buffer, all apart from each other and from the data. -/
def SourceCall.Fits (src : List Nat) : SourceCall → Prop
  | .read dest _ => dest ≠ [] ∧ (addresses dest).Nodup ∧ ∀ a ∈ src, a ∉ addresses dest
  | .rewind => True

instance (src : List Nat) : DecidablePred (SourceCall.Fits src)
  | .read dest _ => inferInstanceAs (Decidable (dest ≠ [] ∧ (addresses dest).Nodup ∧ ∀ a ∈ src, a ∉ addresses dest))
  | .rewind => isTrue trivial

/-- A read of a rewindable stream with the contents `D`. -/
structure StreamRead (D : List Byte) (dest : List Buffer) (w t : Heard) : Prop where
  count : t.ses.count = min (size dest) (D.length - w.pos)
  pos : t.pos = w.pos + t.ses.count
  written : ((addresses dest).take t.ses.count).map t.ses.mem = (D.drop w.pos).take t.ses.count
  unchanged : ∀ a, a ∉ (addresses dest).take t.ses.count → t.ses.mem a = w.ses.mem a
  eof_iff : t.ses.ec = .eof ↔ t.pos = D.length
  cleared : t.pos ≠ D.length → t.ses.ec = .cleared
  got_eq : t.got = D.take t.pos
  got_all : t.ses.ec = .eof → t.got = D

/-- The calls of a rewindable stream with the contents `D`. -/
def Streams (D : List Byte) (w : Heard) (c : SourceCall) (t : Heard) : Prop :=
  match c with
  | .read dest _ => StreamRead D dest w t
  | .rewind => t.pos = 0 ∧ t.ses.mem = w.ses.mem ∧ t.got = []

/-- The source stands at a position of the data, and what it has returned is the data up to there. -/
structure Heard.Inv (source : Sequence) (src : List Nat) (D : List Byte) (w : Heard) : Prop where
  stands : DataModel.At source src D w.ses.src w.ses.mem w.pos
  pos_le : w.pos ≤ D.length
  got_eq : w.got = D.take w.pos

section
variable {D : List Byte} {w : Heard} {dest : List Buffer} {s : DataModel}

theorem map_deliver {p : Nat} {mem : Mem} (hp : p ≤ D.length) (hnodup : (addresses dest).Nodup) :
    ((addresses dest).take (delivered D p dest)).map (deliver D .eof p dest mem s).mem =
      (D.drop p).take (delivered D p dest) := by
  have hcount : delivered D p dest ≤ (addresses dest).length := by
    rw [← size_eq]
    exact Nat.min_le_left _ _
  have hle := delivered_le dest hp
  refine Memory.map_store _ (hnodup.sublist (List.take_sublist _ _)) ?_
  simp only [List.length_take, List.length_drop]
  omega

theorem streamRead_deliver (hp : w.pos ≤ D.length) (hnodup : (addresses dest).Nodup)
    (hpos : s.nread_ = w.pos + delivered D w.pos dest) :
    StreamRead D dest w ⟨deliver D .eof w.pos dest w.ses.mem s, D.take s.nread_⟩ := by
  have heof : (deliver D .eof w.pos dest w.ses.mem s).ec = .eof ↔ s.nread_ = D.length := by
    rw [hpos]
    by_cases hend : w.pos + delivered D w.pos dest = D.length
    · simp [deliver, hend]
    · simp [deliver, hend, ErrorCode.cleared, ErrorCode.eof]
  refine ⟨rfl, hpos, map_deliver hp hnodup, fun a ha => Memory.store_of_not_mem _ ha, heof, fun hne => ?_, rfl,
    fun he => ?_⟩
  · exact if_neg fun hend => hne (hpos.trans hend)
  · rw [heof.mp he]
    exact List.take_length

end

theorem Heard.Inv.step {source : Sequence} {bufs : List Buffer} (hread : source.read = .ok bufs) {D : List Byte} {w : Heard}
    (h : w.Inv source (addresses bufs) D) {c : SourceCall} (hc : c.Fits (addresses bufs)) :
    ∃ t, w.step c = .ok t ∧ Streams D w c t ∧ t.Inv source (addresses bufs) D := by
  cases c with
  | rewind =>
    obtain ⟨hs, hD⟩ := h.stands
    refine ⟨⟨{ w.ses with src := w.ses.src.rewind }, []⟩, rfl, ⟨rfl, rfl, rfl⟩, ⟨?_, hD⟩, Nat.zero_le _, rfl⟩
    simp only [DataModel.rewind, hs]
    rfl
  | read dest ec =>
    obtain ⟨hdest, hnodup, hdisj⟩ := hc
    obtain ⟨s, hs, hat⟩ := anySource_read_deliver (DataModel.reads hread D) ErrorCode.failed_eof
      (splits_disjoint _) hdest ec h.stands h.pos_le hdisj
    have hpos : s.nread_ = w.pos + delivered D w.pos dest := by rw [hat.1]
    have hgot : w.got ++ ((addresses dest).take (delivered D w.pos dest)).map (deliver D .eof w.pos dest w.ses.mem s).mem =
        D.take s.nread_ := by
      rw [map_deliver h.pos_le hnodup, h.got_eq, hpos, List.take_add]
    rw [← hpos] at hat
    refine ⟨⟨deliver D .eof w.pos dest w.ses.mem s, D.take s.nread_⟩, ?_, streamRead_deliver h.pos_le hnodup hpos,
      hat, ?_, rfl⟩
    · rw [← hgot]
      simp only [Heard.step, SourceCall.step, hs, ok_bind, pure_eq]
      rfl
    · exact hpos.trans_le (delivered_le dest h.pos_le)

/-- A data source of any segmentation, read through `any_source` into destinations of any shape, is a
    rewindable stream of its bytes. -/
theorem any_source_stream (source : Sequence) (mem : Mem) (calls : List SourceCall) {bufs : List Buffer}
    (hread : source.read = .ok bufs) (hcalls : ∀ c ∈ calls, c.Fits (addresses bufs)) :
    ∃ s, DataModel.ofSource source = .ok s ∧
      Run.Every Heard.step (Streams ((addresses bufs).map mem)) ⟨⟨0, .cleared, s, mem⟩, []⟩ calls := by
  obtain ⟨s, hs, hat⟩ := DataModel.ofSource_at hread mem
  have hpos : s.nread_ = 0 := by rw [hat.1]
  refine ⟨s, hs, Run.every_of_invariant (P := fun c => c.Fits (addresses bufs))
    (I := Heard.Inv source (addresses bufs) ((addresses bufs).map mem))
    (fun w c hc h => h.step hread hc) ⟨?_, ?_, ?_⟩ hcalls⟩
  · rw [← hpos] at hat
    exact hat
  · exact hpos.trans_le (Nat.zero_le _)
  · simp [Heard.pos, hpos]

/-- A source of two buffers, read into two buffers with an empty one between, rewound and read again. -/
theorem any_source_stream_two :
    ∃ s, DataModel.ofSource (.range [⟨0, 2⟩, ⟨10, 3⟩]) = .ok s ∧
      Run.Every Heard.step (Streams [0, 1, 10, 11, 12]) ⟨⟨0, .cleared, s, fun a => a.toUInt8⟩, []⟩
        [.read [⟨20, 1⟩, ⟨0, 0⟩, ⟨30, 2⟩] .cleared, .read [⟨20, 9⟩] .eof, .rewind, .read [⟨20, 9⟩] .cleared] :=
  any_source_stream (.range [⟨0, 2⟩, ⟨10, 3⟩]) (fun a => a.toUInt8)
    [.read [⟨20, 1⟩, ⟨0, 0⟩, ⟨30, 2⟩] .cleared, .read [⟨20, 9⟩] .eof, .rewind, .read [⟨20, 9⟩] .cleared] rfl (by decide)

end Buffers
