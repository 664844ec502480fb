import Buffers.AnyBuffers.Shared
import Buffers.Lib.Shared
import Buffers.Theorems.AnyBuffers.Steps

/-! # The owners of holders

The use count of a holder is the number of objects and iterators whose `sp_` counts for it (`handles`), whatever is done
with one of them: its pointer is exchanged for another, and what it pointed to before is released (`Passage`). -/

namespace Buffers.AnyBuffers
open Checked

variable {ι : Type} {T : ι → Type} [∀ i, BufferSequence (T i)]

def World.shared (w : World T) : Shared (Impl T) := ⟨w.holders, w.uses⟩

/-- The heap holder that an object or an iterator shares. -/
def handles (objects : Nat → Option Object) (iterators : Nat → Option (LiveIterator T)) : Nat ⊕ Nat → Option Nat
  | .inl o => (objects o).bind fun x => x.sp_.deletes
  | .inr i => (iterators i).bind fun it => it.sp_.deletes

section
variable {objects : Nat → Option Object} {iterators : Nat → Option (LiveIterator T)}

theorem handles_object (o : Nat) (x? : Option Object) :
    handles (Function.update objects o x?) iterators =
      Function.update (handles objects iterators) (.inl o) (x?.bind fun x => x.sp_.deletes) := by
  funext r
  rcases r with o' | i
  · by_cases hne : o' = o
    · subst hne
      simp [handles]
    · simp [handles, hne]
  · simp [handles]

theorem handles_iterator (i : Nat) (it? : Option (LiveIterator T)) :
    handles objects (Function.update iterators i it?) =
      Function.update (handles objects iterators) (.inr i) (it?.bind fun it => it.sp_.deletes) := by
  funext r
  rcases r with o | i'
  · simp [handles]
  · by_cases hne : i' = i
    · subst hne
      simp [handles]
    · simp [handles, hne]

/-- An object with a pointer that counts for the same holder leaves the owners as they are. -/
theorem handles_same {o : Nat} {x? : Option Object}
    (hsame : (x?.bind fun x => x.sp_.deletes) = (objects o).bind fun x => x.sp_.deletes) :
    handles (Function.update objects o x?) iterators = handles objects iterators := by
  rw [handles_object, hsame]
  exact Function.update_eq_self_iff.mpr rfl

end

/-! ### Pointers -/

section
variable {w w' : World T} {iterators : Nat → Option (LiveIterator T)} {o : Nat} {x : Object}

@[simp] theorem share_objects (sp : Ptr) : (w.share sp).objects = w.objects := by cases sp <;> rfl

@[simp] theorem share_holders (sp : Ptr) : (w.share sp).holders = w.holders := by cases sp <;> rfl

theorem share_shared (sp : Ptr) : (w.share sp).shared = w.shared.share sp.deletes := by cases sp <;> rfl

theorem share_target (sp sp' : Ptr) : (w.share sp).target sp' = w.target sp' := by
  cases sp' with
  | storage o => simp [World.target]
  | null | static | heap => rfl

theorem share_pointee (sp sp' : Ptr) : (w.share sp).pointee sp' = w.pointee sp' := by
  cases sp' with
  | null | static | heap | storage => simp [World.pointee, share_target]

theorem release_eq_drop (sp : Ptr) :
    w.release sp = (w.shared.drop sp.deletes >>= fun s => .ok { w with holders := s.cells, uses := s.uses }) := by
  cases sp with
  | null | static | storage => rfl
  | heap h =>
    simp only [World.release, Shared.drop, Ptr.deletes, World.shared, bind_assoc]
    refine bind_congr fun n => ?_
    split <;> simp

/-- What a change of one pointer leaves, besides the pointers. -/
structure Passage (w : World T) (handles' : Nat ⊕ Nat → Option Nat) (w' : World T) : Prop where
  counted : Shared.Counted w'.shared handles' none
  passes : Shared.Passes w.shared w'.shared

theorem release_passage (sp : Ptr) {handle : Nat ⊕ Nat → Option Nat} (hc : Shared.Counted w.shared handle sp.deletes) :
    ∃ w', w.release sp = .ok w' ∧ w'.objects = w.objects ∧ w'.holders.next = w.holders.next ∧ Passage w handle w' := by
  obtain ⟨s, hdrop, hcounted, hnext, huses, hget⟩ := hc.drop
  refine ⟨{ w with holders := s.cells, uses := s.uses }, ?_, rfl, hnext, hcounted, .drop hnext huses hget⟩
  rw [release_eq_drop, hdrop]
  rfl

/-- `sp_ = sp` in an object, when `sp` is counted already. -/
theorem setSp_passage (sp : Ptr) (hx : w.objects o = some x)
    (hc : Shared.Counted w.shared (handles w.objects iterators) sp.deletes) :
    ∃ w', w.setSp o sp = .ok w' ∧ w'.objects = Function.update w.objects o (some { x with sp_ := sp }) ∧
      w'.holders.next = w.holders.next ∧ Passage w (handles w'.objects iterators) w' := by
  have hswap := hc.swap (.inl o)
  rw [show handles w.objects iterators (.inl o) = x.sp_.deletes by simp [handles, hx]] at hswap
  have hupdate : handles (Function.update w.objects o (some { x with sp_ := sp })) iterators =
      Function.update (handles w.objects iterators) (.inl o) sp.deletes := handles_object o _
  rw [← hupdate] at hswap
  obtain ⟨w', hw', hobjects, hnext, hpassage⟩ :=
    release_passage (w := w.withObject o (some { x with sp_ := sp })) x.sp_ hswap
  refine ⟨w', ?_, hobjects, hnext, ?_, hpassage.passes⟩
  · simp only [World.setSp, World.object, hx, ok_bind]
    exact hw'
  · rw [hobjects]
    exact hpassage.counted

/-- The pointer and the storage of an object that is given a sequence of the type `T i`. -/
def World.given (w : World T) (o : Nat) (x : Object) (i : ι) : Object :=
  if BufferSequence.sizeofImpl (T i) ≤ sboSize then ⟨some w.holders.next, .storage o⟩
  else ⟨x.storage_, .heap w.holders.next⟩

theorem construct_passage (hx : w.objects o = some x) (hc : Shared.Counted w.shared (handles w.objects iterators) none)
    (s : Wrapped T) :
    ∃ w', w.construct o s = .ok w' ∧ w'.objects = Function.update w.objects o (some (w.given o x s.1)) ∧
      w'.holders.next = w.holders.next + 1 ∧ Passage w (handles w'.objects iterators) w' ∧
      w'.holders.get w.holders.next = some (Impl.of s) ∧
      (BufferSequence.sizeofImpl (T s.1) ≤ sboSize → w'.uses w.holders.next = 0) := by
  by_cases hsize : BufferSequence.sizeofImpl (T s.1) ≤ sboSize
  · let built : World T :=
      { w.withObject o (some { x with storage_ := some w.holders.next }) with holders := w.holders.make (Impl.of s) }
    have hemplace : w.emplace o (Impl.of s) = .ok built := by
      simp only [World.emplace, World.object, hx, ok_bind]
      rfl
    have hbuilt : built.objects o = some { x with storage_ := some w.holders.next } := Function.update_self ..
    have hbuild := hc.build (Impl.of s)
    have hsame : handles built.objects iterators = handles w.objects iterators := handles_same (by simp [hx])
    have hcounted : Shared.Counted built.shared (handles built.objects iterators) (Ptr.storage o).deletes := by
      rw [hsame]
      exact hbuild
    obtain ⟨w', hw', hobjects, hnext, hpassage⟩ := setSp_passage _ hbuilt hcounted
    have hunused : built.uses w.holders.next = 0 := hc.uses_next
    have hpasses : Shared.Passes built.shared w'.shared := hpassage.passes
    refine ⟨w', ?_, ?_, hnext, ⟨hpassage.counted, (Shared.Passes.build hc (Impl.of s)).trans hpasses hc.below⟩, ?_,
      fun _ => ?_⟩
    · simp only [World.construct, Impl.make_eq, ok_bind, if_pos hsize, hemplace]
      exact hw'
    · rw [hobjects, World.given, if_pos hsize]
      exact Function.update_idem ..
    · have hstays := hpasses.stays w.holders.next (Impl.of s) (w.holders.make_get_next (Impl.of s))
      rwa [if_neg fun hand => Nat.ne_of_gt hand.1 hunused] at hstays
    · exact hpasses.unused w.holders.next (Nat.lt_succ_self _) hunused
  · have hmade : (w.makeShared (Impl.of s)).objects o = some x := hx
    have hcounted : Shared.Counted (w.makeShared (Impl.of s)).shared (handles (w.makeShared (Impl.of s)).objects iterators)
        (Ptr.heap w.holders.next).deletes := hc.make (Impl.of s)
    obtain ⟨w', hw', hobjects, hnext, hpassage⟩ := setSp_passage _ hmade hcounted
    have hpasses : Shared.Passes (w.makeShared (Impl.of s)).shared w'.shared := hpassage.passes
    have howner : handles w'.objects iterators (.inl o) = some w.holders.next := by simp [handles, hobjects, Ptr.deletes]
    refine ⟨w', ?_, ?_, hnext, ⟨hpassage.counted, (Shared.Passes.make hc (Impl.of s)).trans hpasses hc.below⟩, ?_,
      fun h => absurd h hsize⟩
    · simp only [World.construct, Impl.make_eq, ok_bind, if_neg hsize]
      exact hw'
    · rw [hobjects, World.given, if_neg hsize]
      rfl
    · have hstays := hpasses.stays w.holders.next (Impl.of s) (w.holders.make_get_next (Impl.of s))
      rwa [if_neg fun hand => Nat.ne_of_gt (hpassage.counted.counts.pos howner) hand.2] at hstays

end

end Buffers.AnyBuffers
