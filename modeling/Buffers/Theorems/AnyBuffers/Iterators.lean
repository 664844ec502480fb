import Buffers.AnyBuffers

/-! # The iterators of type-erased buffer sequences

The virtual iterators of a holder are at a position of its sequence, whichever class it is of: the native iterator
there (`iterates_smallIter`), or the index, from which `deref` walks again (`iterates_bigIter`). An object's
iterators are those of the holder that its `sp_` points to (`iterates_object`). -/

namespace Buffers.AnyBuffers
open Checked

variable {ι : Type} {T : ι → Type} [∀ i, BufferSequence (T i)]

/-- The holder that `Impl.make` makes. -/
def Impl.of (s : Wrapped T) : Impl T :=
  if BufferSequence.sizeofIter (T s.1) ≤ iterSboSize then .smallIter s.1 s.2
  else .bigIter s.1 s.2 (BufferSequence.buffers s.2).length

theorem Impl.make_eq (s : Wrapped T) : Impl.make s = .ok (Impl.of s) := by
  unfold Impl.make Impl.of
  split
  · rfl
  · simp [BufferSequence.length_eq]

/-- The sequence of an object made from `s`; a default-constructed one is empty. -/
def contents : Option (Wrapped T) → List Buffer
  | none => []
  | some s => BufferSequence.buffers s.2

@[simp] theorem asIndex_index (i : Nat) : (ItStorage.index i : ItStorage T).asIndex = .ok i := rfl

variable [DecidableEq ι]

def Impl.iteration (p : Impl T) : Iteration (ItStorage T) Buffer := ⟨p.first, p.last, p.inc, p.dec, p.deref, p.equal⟩

@[simp] theorem asNative_native (i : ι) (it : BufferSequence.Iter (T i)) : (ItStorage.native i it).asNative i = .ok it := by
  simp [ItStorage.asNative]

theorem iterates_empty : Iterates (Impl.empty : Impl T).iteration (fun _ => .unused) [] where
  first_eq := rfl
  last_eq := rfl
  inc_at _ hi := absurd hi (Nat.not_lt_zero _)
  dec_at _ hi := absurd hi (Nat.not_lt_zero _)
  deref_at _ _ hx := nomatch hx
  equal_at i j hi hj := by
    obtain rfl := Nat.le_zero.mp hi
    obtain rfl := Nat.le_zero.mp hj
    rfl

theorem iterates_smallIter (i : ι) (t : T i) :
    Iterates (Impl.smallIter i t : Impl T).iteration (fun n => .native i (BufferSequence.pos t n))
      (BufferSequence.buffers t) := by
  have packs : Packs (ItStorage.native i) (BufferSequence.iterators t) (Impl.smallIter i t : Impl T).iteration :=
    { first_eq := rfl
      last_eq := rfl
      inc_eq := fun it => by simp [Impl.iteration, Impl.inc]
      dec_eq := fun it => by simp [Impl.iteration, Impl.dec]
      deref_eq := fun it => by simp [Impl.iteration, Impl.deref]
      equal_eq := fun it jt => by simp [Impl.iteration, Impl.equal] }
  exact packs.iterates (BufferSequence.iterates t)

theorem rewalk_eq {It : Type} {ops : Iteration It Buffer} {pos : Nat → It} {bufs : List Buffer}
    (h : Iterates ops pos bufs) {b : Buffer} (i : Nat) {j : Nat} (hb : bufs[j + i]? = some b) :
    Impl.rewalk ops (pos j) i = .ok b := by
  induction i generalizing j with
  | zero => exact h.deref_at j b hb
  | succ i ih =>
    have hlt : j + (i + 1) < bufs.length := (List.getElem?_eq_some_iff.mp hb).1
    rw [Impl.rewalk, h.inc_at j (by omega)]
    exact ih (by rw [← hb, Nat.add_assoc, Nat.add_comm 1 i])

theorem iterates_bigIter (i : ι) (t : T i) :
    Iterates (Impl.bigIter i t (BufferSequence.buffers t).length : Impl T).iteration .index
      (BufferSequence.buffers t) where
  first_eq := rfl
  last_eq := rfl
  inc_at _ _ := rfl
  dec_at n _ := by simp [Impl.iteration, Impl.dec, sub_of_le]
  deref_at n b hb := by
    have h := BufferSequence.iterates t
    have hwalk := rewalk_eq h n (j := 0) (by rwa [Nat.zero_add])
    simpa [Impl.iteration, Impl.deref, h.first_eq] using hwalk
  equal_at _ _ _ _ := rfl

theorem iterates_of (s : Wrapped T) : ∃ pos, Iterates (Impl.of s).iteration pos (contents (some s)) := by
  unfold Impl.of
  split
  · exact ⟨_, iterates_smallIter s.1 s.2⟩
  · exact ⟨_, iterates_bigIter s.1 s.2⟩

theorem iterates_object {w : World T} {o : Nat} {x : Object} {p : Impl T} {pos : Nat → ItStorage T} {bufs : List Buffer}
    (hx : w.objects o = some x) (hp : w.pointee x.sp_ = .ok p) (h : Iterates p.iteration pos bufs) :
    Iterates (w.iterators o) (fun i => ⟨x.sp_, pos i⟩) bufs := by
  have hobject : w.object o = .ok x := by simp [World.object, hx]
  have packs : Packs (ConstIterator.mk x.sp_) p.iteration (w.iterators o) :=
    { first_eq := by simp [World.iterators, Impl.iteration, hobject, hp]
      last_eq := by simp [World.iterators, Impl.iteration, hobject, hp]
      inc_eq := fun it => by simp [World.iterators, Impl.iteration, hp]
      dec_eq := fun it => by simp [World.iterators, Impl.iteration, hp]
      deref_eq := fun it => by simp [World.iterators, Impl.iteration, hp]
      equal_eq := fun it jt => by simp [World.iterators, Impl.iteration, hp] }
  exact packs.iterates h

end Buffers.AnyBuffers
