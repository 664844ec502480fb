import Buffers.DynamicBuffer

/-! # The flat buffer (`flat_buffer.hpp`)

Readable bytes start at `in_pos_`, and the output area follows them. The window slides forward as bytes are
consumed and goes back to the start of the storage when it is emptied. -/

namespace Buffers
open Checked

structure FlatBuffer where
  data_ : Nat := 0
  cap_ : Nat := 0
  in_pos_ : Nat := 0
  in_size_ : Nat := 0
  out_size_ : Nat := 0
  deriving DecidableEq, Repr

namespace FlatBuffer

/-- `flat_buffer(data, capacity, initial_size)`. -/
def ofStorage (data capacity initial_size : Nat) : Except Exn FlatBuffer :=
  let b : FlatBuffer := { data_ := data, cap_ := capacity, in_size_ := initial_size }
  if b.in_size_ > b.cap_ then .error .invalidArgument else .ok b

def size (b : FlatBuffer) : Nat := b.in_size_

def maxSize (b : FlatBuffer) : Nat := b.cap_

def capacity (b : FlatBuffer) : Checked Nat := sub b.cap_ (b.in_pos_ + b.in_size_)

def data (b : FlatBuffer) : ConstBuffer := ⟨b.data_ + b.in_pos_, b.in_size_⟩

def prepare (b : FlatBuffer) (n : Nat) : Checked (Except Exn MutableBuffer × FlatBuffer) := do
  let room ← b.capacity
  if n > room then
    return (.error .invalidArgument, b)
  let b := { b with out_size_ := n }
  return (.ok ⟨b.data_ + b.in_pos_ + b.in_size_, n⟩, b)

def commit (b : FlatBuffer) (n : Nat) : FlatBuffer :=
  { b with in_size_ := commitSize b.in_size_ b.out_size_ n, out_size_ := 0 }

def consume (b : FlatBuffer) (n : Nat) : Checked FlatBuffer := do
  if n < b.in_size_ then
    let size ← sub b.in_size_ n
    return { b with in_pos_ := b.in_pos_ + n, in_size_ := size }
  else
    return { b with in_pos_ := 0, in_size_ := 0 }

end FlatBuffer

instance : DynamicBuffer FlatBuffer where
  size := FlatBuffer.size
  maxSize := FlatBuffer.maxSize
  capacity := FlatBuffer.capacity
  data b := .ok [b.data]
  prepare b n := (fun r => ((fun o => [o]) <$> r.1, r.2)) <$> b.prepare n
  commit b n := .ok (b.commit n)
  consume := FlatBuffer.consume

end Buffers
