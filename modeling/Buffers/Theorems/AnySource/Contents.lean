import Buffers.Theorems.AnySource.Streams

/-! # The buffers of a source and what it reads

A source whose buffers are in memory can be had in two ways: `data` returns the buffers and `size` their bytes, and a
read copies the bytes from the start on. In every state of a program the two agree, through whatever source and
however much of it has been read (`any_source_presents`). A source without buffers or size throws when it is asked for
them. -/

namespace Buffers
namespace AnySource
open Checked

variable {σ : Type}

/-- The bytes of what `data` returns. -/
def contentsOf (mem : Mem) : Option Sequence → List Byte
  | some source => bytesOf mem source
  | none => []

/-- Read from the start into any buffers, the model stores the bytes `bytes` until they or the buffers end, and says
    end of file with the last one. -/
def ReadsFromStart [ReadSource σ] (src : List Nat) (mem : Mem) (m : AnySource σ) (bytes : List Byte) : Prop :=
  ∀ dest ec, dest ≠ [] → (addresses dest).Nodup → src.Disjoint (addresses dest) →
    ∃ r, AnySource.read (AnySource.rewind m) dest ec mem = .ok r ∧ r.count = min (Buffers.size dest) bytes.length ∧
      ((addresses dest).take r.count).map r.mem = bytes.take r.count ∧
      r.ec = if r.count = bytes.length then .eof else .cleared

/-- What a model says of itself. -/
structure Presents [ReadSource σ] (src : List Nat) (mem : Mem) (m : AnySource σ) : Prop where
  buffers : hasBuffers m = true → ∃ bs, data m = .ok bs ∧ size m = .ok (contentsOf mem bs).length ∧
    ReadsFromStart src mem m (contentsOf mem bs)
  unbuffered : hasBuffers m = false → data m = .error .invalidArgument
  sized : hasSize m = true ↔ ∃ n, size m = .ok n
  unsized : hasSize m = false → size m = .error .invalidArgument

section
variable [StreamSource σ] {src : List Nat} {mem : Mem} {m : AnySource σ} {t : Tape Byte ErrorCode}

theorem Stands.readsFromStart (h : Stands src mem m t) (hlast : t.last = .eof) : ReadsFromStart src mem m t.items := by
  intro dest ec hne hnodup hdisj
  obtain ⟨m', hm', -⟩ := h.rewind.readAll hne hdisj ec
  have hnext : t.rewind.next (Buffers.size dest) = t.items.take (Buffers.size dest) := rfl
  have hcount : (t.items.take (Buffers.size dest)).length = min (Buffers.size dest) t.items.length := List.length_take
  have hfits : (t.items.take (Buffers.size dest)).length ≤ (addresses dest).length := by
    rw [hcount, ← size_eq]
    exact Nat.min_le_left _ _
  have hpos : (t.rewind.read (Buffers.size dest)).pos = (t.items.take (Buffers.size dest)).length := Nat.zero_add _
  rw [deliver_tape, hnext, hpos] at hm'
  refine ⟨_, hm', hcount, ?_, ?_⟩
  · rw [Memory.map_store mem (hnodup.sublist (List.take_sublist _ _)) (List.length_take_of_le hfits), hcount]
    exact List.take_eq_take_min
  · simp only [Tape.rewind, hlast]

theorem Stands.presents (h : Stands src mem m t) : Presents src mem m := by
  have hreads := h.readsFromStart
  cases h with
  | empty m =>
    exact ⟨fun _ => ⟨none, rfl, rfl, hreads rfl⟩, by simp [hasBuffers], by simp [hasSize, size], by simp [hasSize]⟩
  | @data source bufs m _ read _ stands last _ =>
    have hitems : t.items = bytesOf mem source := by simp [bytesOf, read, ← stands.2]
    have hsize : m.size_ = (bytesOf mem source).length := by rw [stands.1, hitems]
    have hsource : m.source_ = source := by rw [stands.1]
    refine ⟨fun _ => ⟨some source, congrArg (Except.ok ∘ some) hsource, congrArg Except.ok hsize, ?_⟩, by simp [hasBuffers],
      by simp [hasSize, size], by simp [hasSize]⟩
    rw [contentsOf, ← hitems]
    exact hreads last
  | stream => exact ⟨by simp [hasBuffers], fun _ => rfl, by simp [hasSize, size], fun _ => rfl⟩
  | sized => exact ⟨by simp [hasBuffers], fun _ => rfl, by simp [hasSize, size], by simp [hasSize]⟩

/-- In each state of a run every source presents what it reads. -/
theorem any_source_presents (src : List Nat) (mem : Mem) (actions : List (Action σ)) (h : ∀ a ∈ actions, a.Fits src) :
    Run.Every step (fun _ _ w => ∀ o sp, w.sources o = some sp → ∃ m, w.pointee sp = .ok m ∧ Presents src w.mem m)
      ({ mem := mem } : World σ) actions := by
  refine Run.every_of_invariant (P := Action.Fits src) (I := fun w => ∃ d, Shares src w d) (fun w a ha hw => ?_)
    ⟨{}, Shares.init src mem⟩ h
  obtain ⟨d, hd⟩ := hw
  obtain ⟨w', hw', -, hshares⟩ := hd.step ha
  refine ⟨w', hw', fun o sp ho => ?_, _, hshares⟩
  obtain ⟨m, hm, hstands⟩ := hshares.stands ho
  exact ⟨m, hm, hstands.presents⟩

end

/-- A data source that has been read in part, a copy of it, and a stream of a stated size. -/
theorem any_source_presents_copies :
    Run.Every step (fun _ _ w => ∀ o sp, w.sources o = some sp →
        ∃ m, w.pointee sp = .ok m ∧ Presents [0, 1, 10, 11, 12] w.mem m)
      ({ mem := fun a => a.toUInt8 } : World MyReadSource)
      [.data 0 (.range [⟨0, 2⟩, ⟨10, 3⟩]), .copy 1 0, .read 1 [⟨20, 3⟩] .cleared, .sized 2 2 ⟨[7, 8], 0⟩, .move 3 0] := by
  refine any_source_presents [0, 1, 10, 11, 12] (fun a => a.toUInt8) _ ?_
  simp [Action.Fits, Sequence.read, List.Disjoint, Buffer.addresses, List.range', StreamSource.pos]

end AnySource
end Buffers
