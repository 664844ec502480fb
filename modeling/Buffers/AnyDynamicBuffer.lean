import Buffers.DynamicBuffer

/-! # Type-erased dynamic buffers (`dynamic_buffer.hpp`)

`any_dynamic_buffer_impl` wraps a dynamic buffer and answers with arrays of `N` buffers, into which it copies
the sequences of the wrapped buffer. It is itself a dynamic buffer. -/

namespace Buffers
open Checked

/-- The loop of `unroll`, at index `i`. -/
def unrollFrom (len : Nat) : Nat → List Buffer → List Buffer → Checked (Nat × List Buffer)
  | i, [], dest => .ok (i, dest)
  | i, b :: bs, dest => do
    let dest ← set dest i b
    if i + 1 = len then
      return (i + 1, dest)
    else
      unrollFrom len (i + 1) bs dest

/-- `unroll`: the number of entries that it fills, and the array. -/
def unroll (bs dest : List Buffer) (len : Nat) : Checked (Nat × List Buffer) := unrollFrom len 0 bs dest

/-- `any_dynamic_buffer_impl<B, N>`; the arrays have `N` entries. -/
structure AnyDynamicBufferImpl (B : Type) (N : Nat) where
  b_ : B
  data_ : List Buffer
  out_ : List Buffer
  data_len_ : Nat := 0
  out_len_ : Nat := 0

namespace AnyDynamicBufferImpl
variable {B : Type} {N : Nat}

/-- `any_dynamic_buffer_impl(b)`; `make_any` with `N = 8`. -/
def wrap (b : B) : AnyDynamicBufferImpl B N :=
  { b_ := b, data_ := List.replicate N ⟨0, 0⟩, out_ := List.replicate N ⟨0, 0⟩ }

def data (w : AnyDynamicBufferImpl B N) : List Buffer := w.data_.take w.data_len_

variable [DynamicBuffer B]

def prepare (w : AnyDynamicBufferImpl B N) (n : Nat) :
    Checked (Except Exn (List Buffer) × AnyDynamicBufferImpl B N) := do
  match ← DynamicBuffer.prepare w.b_ n with
  | (.error e, b) => return (.error e, { w with b_ := b })
  | (.ok bs, b) =>
    let (len, out) ← unroll bs w.out_ N
    return (.ok (out.take len), { w with b_ := b, out_ := out, out_len_ := len })

/-- The cached sequence, read again from the wrapped buffer. -/
def refresh (w : AnyDynamicBufferImpl B N) (b : B) : Checked (AnyDynamicBufferImpl B N) := do
  let bs ← DynamicBuffer.data b
  let (len, data) ← unroll bs w.data_ N
  return { w with b_ := b, data_ := data, data_len_ := len }

def commit (w : AnyDynamicBufferImpl B N) (n : Nat) : Checked (AnyDynamicBufferImpl B N) := do
  let b ← DynamicBuffer.commit w.b_ n
  w.refresh b

def consume (w : AnyDynamicBufferImpl B N) (n : Nat) : Checked (AnyDynamicBufferImpl B N) := do
  let b ← DynamicBuffer.consume w.b_ n
  w.refresh b

end AnyDynamicBufferImpl

instance {B : Type} {N : Nat} [DynamicBuffer B] : DynamicBuffer (AnyDynamicBufferImpl B N) where
  size w := DynamicBuffer.size w.b_
  maxSize w := DynamicBuffer.maxSize w.b_
  capacity w := DynamicBuffer.capacity w.b_
  data w := .ok w.data
  prepare := AnyDynamicBufferImpl.prepare
  commit := AnyDynamicBufferImpl.commit
  consume := AnyDynamicBufferImpl.consume

/-! ### Runs -/

inductive Call
  | prepare (n : Nat)
  | commit (n : Nat)
  | consume (n : Nat)
  deriving DecidableEq, Repr

def DynamicBuffer.step {B : Type} [DynamicBuffer B] (b : B) : Call → Checked B
  | .prepare n => Prod.snd <$> DynamicBuffer.prepare b n
  | .commit n => DynamicBuffer.commit b n
  | .consume n => DynamicBuffer.consume b n

end Buffers
