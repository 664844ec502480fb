import Buffers.Lib.Iterator
import Buffers.Slice

/-! # Slices over iterators (`slice.hpp`)

`slice_of` is a template: it knows the sequence that it wraps through its iterators only, whatever they are. Here
`bs_` is what they do, and every step of an iterator is one of theirs. -/

namespace Buffers
open Checked

/-- `slice_of<BufferSequence>`. -/
structure SliceOver (It : Type) where
  bs_ : Iteration It Buffer
  begin_ : Int
  end_ : Int
  len_ : Nat := 0
  size_ : Nat := 0
  prefix_ : Nat := 0
  suffix_ : Nat := 0

namespace SliceOver
variable {It : Type}

/-- `slice_of(bs)`. -/
def ofSequence (bs : Iteration It Buffer) (fuel : Nat) : Checked (SliceOver It) := do
  let it ← bs.first
  let eit ← bs.last
  let distance ← bs.distance it eit fuel
  loop (bs.forBody (fun s b => { s with size_ := s.size_ + b.size, len_ := s.len_ + 1 }) eit) fuel
    (it, { bs_ := bs, begin_ := 0, end_ := distance })

def beginIterImpl (s : SliceOver It) : Checked It := do
  let it ← s.bs_.first
  s.bs_.advance it s.begin_

def endIterImpl (s : SliceOver It) : Checked It := do
  let it ← s.bs_.first
  s.bs_.advance it s.end_

/-- One round of the loop of `remove_prefix_impl`, on the slice, the iterator and `n`. -/
def removePrefixBody : SliceOver It × It × Nat → Checked (Next (SliceOver It × It × Nat) (SliceOver It))
  | (s, it, n) =>
    if n > 0 ∧ s.begin_ ≠ s.end_ then do
      let b ← s.bs_.deref it
      if n < b.size then
        let size ← sub s.size_ n
        return .done { s with prefix_ := n, size_ := size }
      else
        let n ← sub n b.size
        let size ← sub s.size_ b.size
        let it ← s.bs_.inc it
        let len ← sub s.len_ 1
        return .again ({ s with size_ := size, begin_ := s.begin_ + 1, len_ := len }, it, n)
    else
      return .done s

def removePrefixImpl (fuel : Nat) (s : SliceOver It) (n : Nat) : Checked (SliceOver It) := do
  let n := if n > s.size_ then s.size_ else n
  let n := n + s.prefix_
  let t := { s with size_ := s.size_ + s.prefix_, prefix_ := 0 }
  let it ← t.beginIterImpl
  loop removePrefixBody fuel (t, it, n)

/-- One round of the loop of `remove_suffix_impl`, where `bit` is the iterator at the first buffer. The round that finds
    the iterator there leaves the loop and does what follows it. -/
def removeSuffixBody (bit : It) : SliceOver It × It × Nat → Checked (Next (SliceOver It × It × Nat) (SliceOver It))
  | (s, it, n) => do
    if ← s.bs_.equal it bit then
      let b ← s.bs_.deref it
      let m ← sub b.size s.prefix_
      if n < m then
        let size ← sub s.size_ n
        return .done { s with suffix_ := n, size_ := size }
      else
        return .done { s with end_ := s.begin_, len_ := 0, size_ := 0 }
    else
      let b ← s.bs_.deref it
      if n < b.size then
        let size ← sub s.size_ n
        return .done { s with suffix_ := n, size_ := size }
      else
        let n ← sub n b.size
        let size ← sub s.size_ b.size
        let it ← s.bs_.dec it
        let len ← sub s.len_ 1
        return .again ({ s with size_ := size, end_ := s.end_ - 1, len_ := len }, it, n)

def removeSuffixImpl (fuel : Nat) (s : SliceOver It) (n : Nat) : Checked (SliceOver It) :=
  if s.size_ = 0 then do
    assert (s.begin_ = s.end_)
    return s
  else do
    assert (s.begin_ ≠ s.end_)
    let n := if n > s.size_ then s.size_ else n
    let n := n + s.suffix_
    let t := { s with size_ := s.size_ + s.suffix_, suffix_ := 0 }
    let bit ← t.beginIterImpl
    let it ← t.endIterImpl
    let it ← t.bs_.dec it
    loop (removeSuffixBody bit) fuel (t, it, n)

def keepPrefixImpl (fuel : Nat) (s : SliceOver It) (n : Nat) : Checked (SliceOver It) :=
  if n ≥ s.size_ then
    return s
  else if n = 0 then
    return { s with end_ := s.begin_, len_ := 0, size_ := 0 }
  else do
    let k ← sub s.size_ n
    removeSuffixImpl fuel s k

def sliceImpl (fuel : Nat) (s : SliceOver It) (how : SliceHow) (n : Nat) : Checked (SliceOver It) :=
  match how with
  | .removePrefix => removePrefixImpl fuel s n
  | .keepPrefix => keepPrefixImpl fuel s n

/-! ### Iteration -/

/-- `slice_of::const_iterator`. -/
structure ConstIterator (It : Type) where
  it_ : It
  prefix_ : Nat
  suffix_ : Nat
  i_ : Nat
  n_ : Nat

def iterators (s : SliceOver It) : Iteration (ConstIterator It) Buffer where
  first := do
    let it ← s.beginIterImpl
    return ⟨it, s.prefix_, s.suffix_, 0, s.len_⟩
  last := do
    let it ← s.endIterImpl
    return ⟨it, s.prefix_, s.suffix_, s.len_, s.len_⟩
  inc it := do
    assert (it.i_ < it.n_)
    let jt ← s.bs_.inc it.it_
    return { it with it_ := jt, i_ := it.i_ + 1 }
  dec it := do
    assert (it.i_ > 0)
    let jt ← s.bs_.dec it.it_
    return { it with it_ := jt, i_ := it.i_ - 1 }
  deref it := do
    let v ← s.bs_.deref it.it_
    let p := if it.i_ = 0 then v.data + it.prefix_ else v.data
    let n ← if it.i_ = 0 then sub v.size it.prefix_ else .ok v.size
    let top ← sub it.n_ 1
    let n ← if it.i_ = top then sub n it.suffix_ else .ok n
    return { data := p, size := n }
  equal it jt := do
    if ← s.bs_.equal it.it_ jt.it_ then
      return decide (it.prefix_ = jt.prefix_ ∧ it.suffix_ = jt.suffix_ ∧ it.i_ = jt.i_ ∧ it.n_ = jt.n_)
    else
      return false

/-- The buffers read from `begin()` to `end()`. -/
def read (fuel : Nat) (s : SliceOver It) : Checked (List Buffer) := s.iterators.forEach (fun bs b => bs ++ [b]) [] fuel

@[reducible] def sliceable (It : Type) (fuel : Nat) : Sliceable (SliceOver It) where
  read := read fuel
  tagInvoke := sliceImpl fuel

def apply (fuel : Nat) (s : SliceOver It) (op : SliceOp) : Checked (SliceOver It) :=
  let _ := sliceable It fuel
  op.apply s

end SliceOver
end Buffers
