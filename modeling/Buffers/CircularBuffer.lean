import Buffers.DynamicBuffer

/-! # The circular buffer (`circular_buffer.hpp`, `circular_buffer.cpp`)

Readable bytes start at `in_pos_` and wrap around at the end of the storage; the output area follows them.
The operations below take sums of unbounded numbers. A position plus a number of bytes can reach twice the
capacity, so up to a capacity of half the words these are the sums of the code (`Inv.word_prepare_eq`); the
operations on words are in `CircularBuffer/Word.lean`. -/

namespace Buffers
open Checked

structure CircularBuffer where
  base_ : Nat := 0
  cap_ : Nat := 0
  in_pos_ : Nat := 0
  in_len_ : Nat := 0
  out_size_ : Nat := 0
  deriving DecidableEq, Repr

namespace CircularBuffer

/-- `circular_buffer(base, capacity)`. -/
def ofStorage (base capacity : Nat) : CircularBuffer := { base_ := base, cap_ := capacity }

/-- `circular_buffer(base, capacity, initial_size)`. -/
def ofReadable (base capacity initial_size : Nat) : Except Exn CircularBuffer :=
  let b : CircularBuffer := { base_ := base, cap_ := capacity, in_len_ := initial_size }
  if b.in_len_ > capacity then .error .invalidArgument else .ok b

def size (b : CircularBuffer) : Nat := b.in_len_

def maxSize (b : CircularBuffer) : Nat := b.cap_

def capacity (b : CircularBuffer) : Checked Nat := sub b.cap_ b.in_len_

def data (b : CircularBuffer) : Checked BufferPair := do
  if b.in_pos_ + b.in_len_ ≤ b.cap_ then
    return ⟨⟨b.base_ + b.in_pos_, b.in_len_⟩, ⟨b.base_, 0⟩⟩
  let first ← sub b.cap_ b.in_pos_
  let second ← sub b.in_len_ first
  return ⟨⟨b.base_ + b.in_pos_, first⟩, ⟨b.base_, second⟩⟩

def prepare (b : CircularBuffer) (n : Nat) : Checked (Except Exn BufferPair × CircularBuffer) := do
  let room ← sub b.cap_ b.in_len_
  -- Buffer is too small for n
  if n > room then
    return (.error .lengthError, b)
  let b := { b with out_size_ := n }
  let pos ← mod (b.in_pos_ + b.in_len_) b.cap_
  if pos + n ≤ b.cap_ then
    return (.ok ⟨⟨b.base_ + pos, n⟩, ⟨b.base_, 0⟩⟩, b)
  let first ← sub b.cap_ pos
  let second ← sub n first
  return (.ok ⟨⟨b.base_ + pos, first⟩, ⟨b.base_, second⟩⟩, b)

def commit (b : CircularBuffer) (n : Nat) : CircularBuffer :=
  { b with in_len_ := commitSize b.in_len_ b.out_size_ n, out_size_ := 0 }

def consume (b : CircularBuffer) (n : Nat) : Checked CircularBuffer := do
  if n < b.in_len_ then
    let pos ← mod (b.in_pos_ + n) b.cap_
    let len ← sub b.in_len_ n
    return { b with in_pos_ := pos, in_len_ := len }
  else if b.out_size_ ≠ 0 then
    -- preserve in_pos_ if there is a prepared buffer
    let pos ← mod (b.in_pos_ + b.in_len_) b.cap_
    return { b with in_pos_ := pos, in_len_ := 0 }
  else
    -- make prepare return a bigger single buffer
    return { b with in_pos_ := 0, in_len_ := 0 }

end CircularBuffer

instance : DynamicBuffer CircularBuffer where
  size := CircularBuffer.size
  maxSize := CircularBuffer.maxSize
  capacity := CircularBuffer.capacity
  data b := BufferPair.toList <$> b.data
  prepare b n := (fun r => (BufferPair.toList <$> r.1, r.2)) <$> b.prepare n
  commit b n := .ok (b.commit n)
  consume := CircularBuffer.consume

end Buffers
