import Buffers.Buffer
import Buffers.Lib.Fifo

/-! # Dynamic buffers (`dynamic_buffer.hpp`, `detail/except.hpp`)

The requirements of `is_dynamic_buffer` are a class. A call that may throw returns its result or the
exception, and the object after it. `Session` is a dynamic buffer over storage in use: the caller also writes
bytes into the region that the last successful `prepare` returned. -/

namespace Buffers

inductive Exn
  | invalidArgument
  | lengthError
  deriving DecidableEq, Repr

class DynamicBuffer (B : Type) where
  size : B → Nat
  maxSize : B → Nat
  capacity : B → Checked Nat
  data : B → Checked (List Buffer)
  prepare : B → Nat → Checked (Except Exn (List Buffer) × B)
  commit : B → Nat → Checked B
  consume : B → Nat → Checked B

/-- What `commit(n)` makes of the readable size, in each of the buffers. -/
def commitSize (in_size out_size n : Nat) : Nat := if n < out_size then in_size + n else in_size + out_size

theorem commitSize_eq (in_size out_size n : Nat) : commitSize in_size out_size n = in_size + min n out_size := by
  unfold commitSize
  split <;> omega

/-- The region is what the last successful `prepare` returned, until it is committed. -/
structure Session (B : Type) where
  buf : B
  mem : Mem
  region : List Nat

/-- One call, or one byte that the caller writes into the region. -/
def Session.step {B : Type} [DynamicBuffer B] (s : Session B) : Cmd Byte → Checked (Session B)
  | .prepare n => do
    match ← DynamicBuffer.prepare s.buf n with
    | (.ok bufs, b) => return { s with buf := b, region := addresses bufs }
    | (.error _, b) => return { s with buf := b }
  | .write i x =>
    match s.region[i]? with
    | some a => return { s with mem := Function.update s.mem a x }
    | none => return s
  | .commit n => do
    let b ← DynamicBuffer.commit s.buf n
    return { s with buf := b, region := [] }
  | .consume n => do
    let b ← DynamicBuffer.consume s.buf n
    return { s with buf := b }

end Buffers
