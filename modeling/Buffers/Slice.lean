import Buffers.Buffer
import Buffers.Lib.Loop
import Mathlib.Data.List.DropRight

/-! # Slices (`slice.hpp`, `buffer_pair.cpp`)

`slice_of` wraps a sequence and narrows it from both ends. Its iterators are positions in the wrapped
sequence, and each read of the wrapped sequence is checked against the window that the slice had when the
operation started. The slicing algorithms go through `tag_invoke`, which single buffers, buffer pairs and
`slice_of` customise. -/

namespace Buffers
open Checked

/-- `*it` for an iterator at position `i` of `bs` that may only read the positions from `lo` up to `hi`. -/
def deref (bs : List Buffer) (lo hi i : Int) : Checked Buffer :=
  if 0 ≤ i ∧ lo ≤ i ∧ i < hi then get bs i.toNat else .error .outOfRange

structure SliceOf where
  bs_ : List Buffer
  begin_ : Int
  end_ : Int
  len_ : Nat
  size_ : Nat
  prefix_ : Nat
  suffix_ : Nat
  deriving DecidableEq, Repr

namespace SliceOf

/-- `slice_of(bs)`. -/
def ofSequence (bs : List Buffer) : SliceOf :=
  bs.foldl (fun s b => { s with size_ := s.size_ + b.size, len_ := s.len_ + 1 })
    { bs_ := bs, begin_ := 0, end_ := bs.length, len_ := 0, size_ := 0, prefix_ := 0, suffix_ := 0 }

/-- One round of the loop of `remove_prefix_impl`, on the slice, the iterator and `n`. -/
def removePrefixBody (lo hi : Int) : SliceOf × Int × Nat → Checked (Next (SliceOf × Int × Nat) SliceOf)
  | (s, it, n) =>
    if n > 0 ∧ s.begin_ ≠ s.end_ then do
      let b ← deref s.bs_ lo hi it
      if n < b.size then
        let size ← sub s.size_ n
        return .done { s with prefix_ := n, size_ := size }
      else
        let n ← sub n b.size
        let size ← sub s.size_ b.size
        let len ← sub s.len_ 1
        return .again ({ s with size_ := size, begin_ := s.begin_ + 1, len_ := len }, it + 1, n)
    else
      return .done s

def removePrefixImpl (s : SliceOf) (n : Nat) : Checked SliceOf :=
  let n := if n > s.size_ then s.size_ else n
  let n := n + s.prefix_
  let t := { s with size_ := s.size_ + s.prefix_, prefix_ := 0 }
  loop (removePrefixBody s.begin_ s.end_) (s.bs_.length + 1) (t, t.begin_, n)

/-- One round of the loop of `remove_suffix_impl`. The round that finds the iterator at the first buffer
    leaves the loop and does what follows it. -/
def removeSuffixBody (lo hi : Int) : SliceOf × Int × Nat → Checked (Next (SliceOf × Int × Nat) SliceOf)
  | (s, it, n) => do
    let b ← deref s.bs_ lo hi it
    if it ≠ lo then
      if n < b.size then
        let size ← sub s.size_ n
        return .done { s with suffix_ := n, size_ := size }
      else
        let n ← sub n b.size
        let size ← sub s.size_ b.size
        let len ← sub s.len_ 1
        return .again ({ s with size_ := size, end_ := s.end_ - 1, len_ := len }, it - 1, n)
    else
      let m ← sub b.size s.prefix_
      if n < m then
        let size ← sub s.size_ n
        return .done { s with suffix_ := n, size_ := size }
      else
        return .done { s with end_ := s.begin_, len_ := 0, size_ := 0 }

def removeSuffixImpl (s : SliceOf) (n : Nat) : Checked SliceOf :=
  if s.size_ = 0 then do
    assert (s.begin_ = s.end_)
    return s
  else do
    assert (s.begin_ ≠ s.end_)
    let n := if n > s.size_ then s.size_ else n
    let n := n + s.suffix_
    let t := { s with size_ := s.size_ + s.suffix_, suffix_ := 0 }
    loop (removeSuffixBody s.begin_ s.end_) (s.bs_.length + 1) (t, t.end_ - 1, n)

def keepPrefixImpl (s : SliceOf) (n : Nat) : Checked SliceOf :=
  if n ≥ s.size_ then
    return s
  else if n = 0 then
    return { s with end_ := s.begin_, len_ := 0, size_ := 0 }
  else do
    let k ← sub s.size_ n
    removeSuffixImpl s k

def sliceImpl (s : SliceOf) (how : SliceHow) (n : Nat) : Checked SliceOf :=
  match how with
  | .removePrefix => removePrefixImpl s n
  | .keepPrefix => keepPrefixImpl s n

/-! ### Iteration -/

structure ConstIterator where
  it_ : Int
  prefix_ : Nat
  suffix_ : Nat
  i_ : Nat
  n_ : Nat
  deriving DecidableEq, Repr

/-- `begin()`. -/
def first (s : SliceOf) : ConstIterator := ⟨s.begin_, s.prefix_, s.suffix_, 0, s.len_⟩

/-- `end()`. -/
def last (s : SliceOf) : ConstIterator := ⟨s.end_, s.prefix_, s.suffix_, s.len_, s.len_⟩

namespace ConstIterator

/-- `operator*`, for an iterator of `s`. -/
def deref (s : SliceOf) (it : ConstIterator) : Checked Buffer := do
  let v ← Buffers.deref s.bs_ s.begin_ s.end_ it.it_
  let p := if it.i_ = 0 then v.data + it.prefix_ else v.data
  let n ← if it.i_ = 0 then sub v.size it.prefix_ else .ok v.size
  let top ← sub it.n_ 1
  let n ← if it.i_ = top then sub n it.suffix_ else .ok n
  return { data := p, size := n }

/-- `operator++`. -/
def inc (it : ConstIterator) : Checked ConstIterator := do
  assert (it.i_ < it.n_)
  return { it with it_ := it.it_ + 1, i_ := it.i_ + 1 }

/-- `operator--`. -/
def dec (it : ConstIterator) : Checked ConstIterator := do
  assert (it.i_ > 0)
  return { it with it_ := it.it_ - 1, i_ := it.i_ - 1 }

end ConstIterator

def readForwardBody (s : SliceOf) :
    ConstIterator × List Buffer → Checked (Next (ConstIterator × List Buffer) (List Buffer))
  | (it, acc) =>
    if it ≠ s.last then do
      let b ← it.deref s
      let it ← it.inc
      return .again (it, acc ++ [b])
    else
      return .done acc

/-- The buffers read by incrementing from `begin()` to `end()`. -/
def readForward (s : SliceOf) : Checked (List Buffer) :=
  loop (readForwardBody s) (s.bs_.length + 1) (s.first, [])

def readBackwardBody (s : SliceOf) :
    ConstIterator × List Buffer → Checked (Next (ConstIterator × List Buffer) (List Buffer))
  | (it, acc) =>
    if it ≠ s.first then do
      let it ← it.dec
      let b ← it.deref s
      return .again (it, acc ++ [b])
    else
      return .done acc

/-- The buffers read by decrementing from `end()` to `begin()`, in the order in which they are read. -/
def readBackward (s : SliceOf) : Checked (List Buffer) :=
  loop (readBackwardBody s) (s.bs_.length + 1) (s.last, [])

end SliceOf

/-! ### The slicing algorithms -/

/-- A sequence type that customises `tag_invoke` for slicing, with what is read from `begin` to `end`. -/
class Sliceable (T : Type) where
  read : T → Checked (List Buffer)
  tagInvoke : T → SliceHow → Nat → Checked T

section
variable {T : Type} [Sliceable T]

def keepPrefix (bs : T) (n : Nat) : Checked T := Sliceable.tagInvoke bs .keepPrefix n

def keepSuffix (bs : T) (n : Nat) : Checked T := do
  let n0 := size (← Sliceable.read bs)
  if n < n0 then
    let k ← sub n0 n
    Sliceable.tagInvoke bs .removePrefix k
  else
    return bs

def removePrefix (bs : T) (n : Nat) : Checked T := Sliceable.tagInvoke bs .removePrefix n

def removeSuffix (bs : T) (n : Nat) : Checked T := do
  let n0 := size (← Sliceable.read bs)
  if n > 0 then
    let n := if n > n0 then n0 else n
    let k ← sub n0 n
    Sliceable.tagInvoke bs .keepPrefix k
  else
    return bs

end

instance : Sliceable Buffer where
  read b := .ok [b]
  tagInvoke b how n := .ok (b.doSlice how n)

instance : Sliceable SliceOf where
  read := SliceOf.readForward
  tagInvoke := SliceOf.sliceImpl

/-- `tag_invoke` of `buffer_pair.cpp`, the same for both pair types. -/
def BufferPair.tagInvoke (bs : BufferPair) (how : SliceHow) (n : Nat) : Checked BufferPair :=
  match how with
  | .removePrefix =>
    if n < bs.fst.size then do
      let p ← removePrefix bs.fst n
      return { bs with fst := p }
    else do
      let n ← sub n bs.fst.size
      let p ← removePrefix bs.snd n
      return { fst := p, snd := ⟨0, 0⟩ }
  | .keepPrefix =>
    if n ≤ bs.fst.size then do
      let p ← keepPrefix bs.fst n
      return { fst := p, snd := ⟨0, 0⟩ }
    else do
      let n ← sub n bs.fst.size
      let p ← keepPrefix bs.snd n
      return { bs with snd := p }

instance : Sliceable BufferPair where
  read bs := .ok bs.toList
  tagInvoke := BufferPair.tagInvoke

/-! ### In-place operations -/

/-- The four operations that modify a sequence in place. -/
inductive SliceOp
  | removePrefix (n : Nat)
  | keepPrefix (n : Nat)
  | removeSuffix (n : Nat)
  | keepSuffix (n : Nat)
  deriving DecidableEq, Repr

def SliceOp.apply {T : Type} [Sliceable T] (bs : T) : SliceOp → Checked T
  | .removePrefix n => Buffers.removePrefix bs n
  | .keepPrefix n => Buffers.keepPrefix bs n
  | .removeSuffix n => Buffers.removeSuffix bs n
  | .keepSuffix n => Buffers.keepSuffix bs n

/-- What each operation is for: the part of a list that it keeps. -/
def SliceOp.window {α : Type} (l : List α) : SliceOp → List α
  | .removePrefix n => l.drop n
  | .keepPrefix n => l.take n
  | .removeSuffix n => l.rdrop n
  | .keepSuffix n => l.rtake n

end Buffers
