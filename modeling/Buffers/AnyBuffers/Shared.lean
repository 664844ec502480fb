import Buffers.AnyBuffers

/-! # Iterators of type-erased buffer sequences (`any_buffers.hpp`, `any_buffers.cpp`)

An iterator shares the `sp_` of the object that it was made of, and calls the holder for everything it does, also to
be copied or destroyed. A holder on the heap lives on with the iterators that share it. One in the storage of an
object is gone once the object is, or once another holder is built there; then its iterators are not to be used. -/

namespace Buffers.AnyBuffers
open Checked

variable {ι : Type} {T : ι → Type} [∀ i, BufferSequence (T i)] [DecidableEq ι]

namespace Impl

/-- `it_copy(dest, src)`. -/
def itCopy : Impl T → ItStorage T → ItStorage T → Checked (ItStorage T)
  | .empty, dest, _ => .ok dest
  | .smallIter i _, _, src => .native i <$> src.asNative i
  | .bigIter _ _ _, _, src => .index <$> src.asIndex

def itDestroy : Impl T → ItStorage T → Checked (ItStorage T)
  | .empty, p => .ok p
  | .smallIter i _, p => do
    let _ ← p.asNative i
    return .unused
  | .bigIter _ _ _, p => do
    let _ ← p.asIndex
    return .unused

def move (p : Impl T) (st : ItStorage T) : Move → Checked (ItStorage T)
  | .inc => p.inc st
  | .dec => p.dec st

end Impl

/-- A `const_iterator`, with the holder that `sp_` led to when it was made. -/
structure LiveIterator {ι : Type} (T : ι → Type) [∀ i, BufferSequence (T i)] extends ConstIterator T where
  holder_ : Option Nat

/-- `*sp_` of an iterator, whose holder must still be where it was. -/
def World.holder (w : World T) (it : LiveIterator T) : Checked (Impl T) :=
  if w.target it.sp_ = it.holder_ then w.pointee it.sp_ else .error .contract

/-- What a program sees of its iterators. -/
inductive Seen
  | buffer (b : Buffer)
  | equal (b : Bool)
  deriving DecidableEq, Repr

/-- The objects of a program, its live iterators, and what it has seen, the last first. -/
structure Scene {ι : Type} (T : ι → Type) [∀ i, BufferSequence (T i)] where
  world : World T := {}
  iterators : Nat → Option (LiveIterator T) := fun _ => none
  seen : List Seen := []

namespace Scene

def withIterator (s : Scene T) (i : Nat) (it? : Option (LiveIterator T)) : Scene T :=
  { s with iterators := Function.update s.iterators i it? }

def see (s : Scene T) (x : Seen) : Scene T := { s with seen := x :: s.seen }

/-- The default constructor. It takes the pointer of an iterator `any_buffers().begin()`, whose destructor then calls
    through the null pointer. -/
def default (s : Scene T) (i : Nat) : Checked (Scene T) := do
  let st ← Impl.first (.empty : Impl T)
  let temporary : ConstIterator T := ⟨.static, st⟩
  let moved : ConstIterator T := { temporary with sp_ := .null }
  let p ← s.world.pointee moved.sp_
  let _ ← p.itDestroy moved.storage_
  return s.withIterator i (some ⟨⟨temporary.sp_, .unused⟩, none⟩)

/-- The constructors that `any_buffers::begin` and `any_buffers::end` call. -/
def construct (s : Scene T) (i o : Nat) (start : Impl T → Checked (ItStorage T)) : Checked (Scene T) := do
  let x ← s.world.object o
  let w := s.world.share x.sp_
  let p ← w.pointee x.sp_
  let st ← start p
  return { s with world := w }.withIterator i (some ⟨⟨x.sp_, st⟩, w.target x.sp_⟩)

def copy (s : Scene T) (i : Nat) (other : LiveIterator T) : Checked (Scene T) := do
  let w := s.world.share other.sp_
  let p ← w.holder other
  let st ← p.itCopy .unused other.storage_
  return { s with world := w }.withIterator i (some { other with storage_ := st })

def assign (s : Scene T) (i : Nat) (it other : LiveIterator T) : Checked (Scene T) := do
  let p ← s.world.holder it
  let st ← p.itDestroy it.storage_
  let w ← (s.world.share other.sp_).release it.sp_
  let p ← w.holder other
  let st ← p.itCopy st other.storage_
  return { s with world := w }.withIterator i (some { other with storage_ := st })

def destroy (s : Scene T) (i : Nat) (it : LiveIterator T) : Checked (Scene T) := do
  let p ← s.world.holder it
  let _ ← p.itDestroy it.storage_
  let w ← s.world.release it.sp_
  return { s with world := w }.withIterator i none

end Scene

/-! ### Runs -/

/-- What a program does with its objects and iterators. The post-increment is a copy and an increment. -/
inductive Deed {ι : Type} (T : ι → Type)
  | object (a : Action T)
  | default (i : Nat)
  | first (i o : Nat)
  | last (i o : Nat)
  | copy (i other : Nat)
  | assign (i other : Nat)
  | move (i : Nat) (m : Move)
  | deref (i : Nat)
  | equal (i other : Nat)
  | destroy (i : Nat)

/-- One deed. Constructions are of an iterator that is not live, and whatever else is used is live; any other deed does
    nothing. -/
def Scene.step (s : Scene T) : Deed T → Checked (Scene T)
  | .object a => do
    let w ← AnyBuffers.step s.world a
    return { s with world := w }
  | .default i =>
    match s.iterators i with
    | some _ => .ok s
    | none => s.default i
  | .first i o =>
    match s.iterators i, s.world.objects o with
    | none, some _ => s.construct i o Impl.first
    | _, _ => .ok s
  | .last i o =>
    match s.iterators i, s.world.objects o with
    | none, some _ => s.construct i o Impl.last
    | _, _ => .ok s
  | .copy i other =>
    match s.iterators i, s.iterators other with
    | none, some other => s.copy i other
    | _, _ => .ok s
  | .assign i other =>
    match s.iterators i, s.iterators other with
    | some it, some jt => if i = other then .ok s else s.assign i it jt
    | _, _ => .ok s
  | .move i m =>
    match s.iterators i with
    | some it => do
      let p ← s.world.holder it
      let st ← p.move it.storage_ m
      return s.withIterator i (some { it with storage_ := st })
    | none => .ok s
  | .deref i =>
    match s.iterators i with
    | some it => do
      let p ← s.world.holder it
      let b ← p.deref it.storage_
      return s.see (.buffer b)
    | none => .ok s
  | .equal i other =>
    match s.iterators i, s.iterators other with
    | some it, some jt =>
      if it.sp_ ≠ jt.sp_ then
        return s.see (.equal false)
      else do
        let p ← s.world.holder it
        -- The iterator in the storage of the other is read as well.
        let _ ← s.world.holder jt
        let b ← p.equal it.storage_ jt.storage_
        return s.see (.equal b)
    | _, _ => .ok s
  | .destroy i =>
    match s.iterators i with
    | some it => s.destroy i it
    | none => .ok s

end Buffers.AnyBuffers
