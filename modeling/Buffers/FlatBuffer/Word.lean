import Buffers.FlatBuffer
import Buffers.Lib.Word

/-! # The flat buffer on machine words (`flat_buffer.hpp`)

The operations again, with each sum of two `size_t` taken as a sum of words. Sums with the pointer `data_` are not of
this kind. -/

namespace Buffers
open Checked Word

namespace FlatBuffer.Word
variable (o : Overflow)

def capacity (b : FlatBuffer) : Checked Nat := do
  let used ← add o b.in_pos_ b.in_size_
  sub b.cap_ used

def prepare (b : FlatBuffer) (n : Nat) : Checked (Except Exn MutableBuffer × FlatBuffer) := do
  let room ← capacity o b
  if n > room then
    return (.error .invalidArgument, b)
  let b := { b with out_size_ := n }
  return (.ok ⟨b.data_ + b.in_pos_ + b.in_size_, n⟩, b)

def commit (b : FlatBuffer) (n : Nat) : Checked FlatBuffer := do
  let size ← if n < b.out_size_ then add o b.in_size_ n else add o b.in_size_ b.out_size_
  return { b with in_size_ := size, out_size_ := 0 }

def consume (b : FlatBuffer) (n : Nat) : Checked FlatBuffer := do
  if n < b.in_size_ then
    let pos ← add o b.in_pos_ n
    let size ← sub b.in_size_ n
    return { b with in_pos_ := pos, in_size_ := size }
  else
    return { b with in_pos_ := 0, in_size_ := 0 }

end FlatBuffer.Word

/-- A flat buffer whose operations are these. -/
structure WordFlatBuffer (o : Overflow) where
  val : FlatBuffer

instance (o : Overflow) : DynamicBuffer (WordFlatBuffer o) where
  size b := b.val.size
  maxSize b := b.val.maxSize
  capacity b := FlatBuffer.Word.capacity o b.val
  data b := .ok [b.val.data]
  prepare b n := (fun r => ((fun o => [o]) <$> r.1, ⟨r.2⟩)) <$> FlatBuffer.Word.prepare o b.val n
  commit b n := WordFlatBuffer.mk <$> FlatBuffer.Word.commit o b.val n
  consume b n := WordFlatBuffer.mk <$> FlatBuffer.Word.consume o b.val n

end Buffers
