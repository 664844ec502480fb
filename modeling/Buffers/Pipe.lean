import Buffers.AnySource
import Buffers.Copy
import Buffers.DynamicBuffer

/-! # Bytes through a dynamic buffer (`dynamic_buffer.hpp`, `copy.hpp`, the tests)

A program puts bytes into a dynamic buffer with `b.commit(copy(b.prepare(n), bs))`, or with a read from a source into
what `b.prepare(n)` returned, and takes them out with `b.consume(copy(dest, b.data()))`. -/

namespace Buffers

/-- A dynamic buffer and a source in use, with what the last call returned: the number of bytes that it moved, or the
    exception of `prepare`. -/
structure Pipe (B σ : Type) where
  buf : B
  src : AnySource σ
  mem : Mem
  moved : Except Exn Nat := .ok 0
  ec : ErrorCode := .cleared

inductive PipeCall
  | put (n : Nat) (bs : List Buffer)
  | pull (n : Nat) (ec : ErrorCode)
  | take (dest : List Buffer)

def Pipe.step {B σ : Type} [DynamicBuffer B] [ReadSource σ] (p : Pipe B σ) : PipeCall → Checked (Pipe B σ)
  | .put n bs => do
    match ← DynamicBuffer.prepare p.buf n with
    | (.error e, b) => return { p with buf := b, moved := .error e }
    | (.ok dest, b) => do
      let (k, mem) ← copy dest bs p.mem none
      let b ← DynamicBuffer.commit b k
      return { p with buf := b, mem := mem, moved := .ok k }
  | .pull n ec => do
    match ← DynamicBuffer.prepare p.buf n with
    | (.error e, b) => return { p with buf := b, moved := .error e }
    | (.ok dest, b) => do
      let r ← AnySource.read p.src dest ec p.mem
      let b ← DynamicBuffer.commit b r.count
      return { buf := b, src := r.src, mem := r.mem, moved := .ok r.count, ec := r.ec }
  | .take dest => do
    let bufs ← DynamicBuffer.data p.buf
    let (k, mem) ← copy dest bufs p.mem none
    let b ← DynamicBuffer.consume p.buf k
    return { p with buf := b, mem := mem, moved := .ok k }

end Buffers
