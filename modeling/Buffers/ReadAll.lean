import Buffers.Lib.Loop
import Buffers.Wrapped

/-! # Reading a source to its end (`to_string.hpp`, the `read` of the tests)

The loop reads into the same buffers again and again, and appends what `to_string` makes of the part that each read
filled, until a read fails. -/

namespace Buffers
open Checked

/-- The loop of `to_string`, with the string so far. -/
def appendBytes (mem : Mem) : List Byte → List Buffer → List Byte
  | s, [] => s
  | s, b :: it => appendBytes mem (s ++ b.addresses.map mem) it

/-- `to_string`. -/
def SliceType.toString (bs : SliceType) (mem : Mem) : Checked (List Byte) := do
  let bufs ← Sliceable.read bs
  return appendBytes mem [] bufs

structure ReadState (σ : Type) where
  sr : ReadSourceImpl σ
  ec : ErrorCode
  result : List Byte
  mem : Mem

variable {σ : Type} [ReadSource σ]

/-- One round of `read`. -/
def readBody (temp : Sequence) (s : ReadState σ) : Checked (Next (ReadState σ) (ReadState σ)) := do
  let dest ← temp.read
  let r ← AnyReadSource.read s.sr dest s.ec s.mem
  let part ← prefixOf temp r.count
  let str ← part.toString r.mem
  let s := { sr := r.src, ec := r.ec, result := s.result ++ str, mem := r.mem }
  if r.ec = .eof then
    return .done s
  if r.ec.failed then
    return .done s
  return .again s

/-- `read(source, temp)`, with a bound on its rounds. -/
def readAll (fuel : Nat) (source : σ) (temp : Sequence) (mem : Mem) : Checked (ReadState σ) :=
  loop (readBody temp) fuel { sr := makeAnyReadSource source, ec := .cleared, result := [], mem := mem }

end Buffers
