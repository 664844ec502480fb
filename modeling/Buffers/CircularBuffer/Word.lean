import Buffers.CircularBuffer
import Buffers.Lib.Word

/-! # The circular buffer on machine words (`circular_buffer.cpp`)

The operations again, with each sum of two `size_t` taken as a sum of words. Nothing bounds the capacity but
`size_t` itself. Sums with the pointer `base_` are not of this kind. -/

namespace Buffers
open Checked Word

namespace CircularBuffer.Word
variable (o : Overflow)

def data (b : CircularBuffer) : Checked BufferPair := do
  if (← add o b.in_pos_ b.in_len_) ≤ b.cap_ then
    return ⟨⟨b.base_ + b.in_pos_, b.in_len_⟩, ⟨b.base_, 0⟩⟩
  let first ← sub b.cap_ b.in_pos_
  let second ← sub b.in_len_ first
  return ⟨⟨b.base_ + b.in_pos_, first⟩, ⟨b.base_, second⟩⟩

def prepare (b : CircularBuffer) (n : Nat) : Checked (Except Exn BufferPair × CircularBuffer) := do
  let room ← sub b.cap_ b.in_len_
  if n > room then
    return (.error .lengthError, b)
  let b := { b with out_size_ := n }
  let pos ← mod (← add o b.in_pos_ b.in_len_) b.cap_
  if (← add o pos n) ≤ b.cap_ then
    return (.ok ⟨⟨b.base_ + pos, n⟩, ⟨b.base_, 0⟩⟩, b)
  let first ← sub b.cap_ pos
  let second ← sub n first
  return (.ok ⟨⟨b.base_ + pos, first⟩, ⟨b.base_, second⟩⟩, b)

def commit (b : CircularBuffer) (n : Nat) : Checked CircularBuffer := do
  let len ← if n < b.out_size_ then add o b.in_len_ n else add o b.in_len_ b.out_size_
  return { b with in_len_ := len, out_size_ := 0 }

def consume (b : CircularBuffer) (n : Nat) : Checked CircularBuffer := do
  if n < b.in_len_ then
    let pos ← mod (← add o b.in_pos_ n) b.cap_
    let len ← sub b.in_len_ n
    return { b with in_pos_ := pos, in_len_ := len }
  else if b.out_size_ ≠ 0 then
    let pos ← mod (← add o b.in_pos_ b.in_len_) b.cap_
    return { b with in_pos_ := pos, in_len_ := 0 }
  else
    return { b with in_pos_ := 0, in_len_ := 0 }

end CircularBuffer.Word

/-- A circular buffer whose operations are these. -/
structure WordCircularBuffer (o : Overflow) where
  val : CircularBuffer

instance (o : Overflow) : DynamicBuffer (WordCircularBuffer o) where
  size b := b.val.size
  maxSize b := b.val.maxSize
  capacity b := b.val.capacity
  data b := BufferPair.toList <$> CircularBuffer.Word.data o b.val
  prepare b n := (fun r => (BufferPair.toList <$> r.1, ⟨r.2⟩)) <$> CircularBuffer.Word.prepare o b.val n
  commit b n := WordCircularBuffer.mk <$> CircularBuffer.Word.commit o b.val n
  consume b n := WordCircularBuffer.mk <$> CircularBuffer.Word.consume o b.val n

/-! ### Runs -/

inductive CircularCall
  | data
  | prepare (n : Nat)
  | commit (n : Nat)
  | consume (n : Nat)
  deriving DecidableEq, Repr

/-- One call, and the buffer after it. -/
def CircularBuffer.Word.step (o : Overflow) (b : CircularBuffer) : CircularCall → Checked CircularBuffer
  | .data => (fun _ => b) <$> CircularBuffer.Word.data o b
  | .prepare n => Prod.snd <$> CircularBuffer.Word.prepare o b n
  | .commit n => CircularBuffer.Word.commit o b n
  | .consume n => CircularBuffer.Word.consume o b n

/-- What the constructors make. -/
inductive CircularBuffer.Constructed : CircularBuffer → Prop
  | empty : Constructed {}
  | storage (base capacity : Nat) : Constructed (ofStorage base capacity)
  | readable {base capacity initial_size : Nat} {b : CircularBuffer} (h : ofReadable base capacity initial_size = .ok b) :
      Constructed b

end Buffers
