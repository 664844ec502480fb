import Buffers.AnyReadSource
import Buffers.DynamicBuffer

/-! # Optional members of read sources (`read_source.hpp`, `any_read_source.hpp`)

A read source may have `size` and `rewind` or not. `read_source_impl` has both, and what it does depends on the
members that `has_size` and `has_rewind` detect: for one that is missing it throws. -/

namespace Buffers
open Checked

/-- A read source with its optional members, of which `size` may throw. Without a member `rewind`, the `rewind` of the
    class stands for nothing and is never called. -/
class PartialSource (σ : Type) extends ReadSource σ where
  hasRewind : Bool
  size : Option (σ → Except Exn Nat)

namespace PartialSource
variable {σ : Type} [PartialSource σ]

/-! ### The virtual functions of `read_source_impl` -/

def implHasSize (_ : ReadSourceImpl σ) : Bool := (PartialSource.size (σ := σ)).isSome

def implHasRewind (_ : ReadSourceImpl σ) : Bool := PartialSource.hasRewind σ

def implSize (s : ReadSourceImpl σ) : Except Exn Nat :=
  match PartialSource.size (σ := σ) with
  | some size => size s.source_
  | none => .error .invalidArgument

def implRewind (s : ReadSourceImpl σ) : Except Exn (ReadSourceImpl σ) :=
  if PartialSource.hasRewind σ then .ok s.rewind else .error .invalidArgument

/-! ### Runs -/

inductive Call
  | read (dest : List Buffer) (ec : ErrorCode)
  | rewind
  | size

/-- A program that catches what the calls throw; the count, the code and the size are those that it got last. -/
structure Reader (σ : Type) where
  sr : ReadSourceImpl σ
  mem : Mem
  count : Nat := 0
  ec : ErrorCode := .cleared
  size : Nat := 0
  thrown : Option Exn := none

/-- After a read that returned `s`. -/
def Reader.took (r : Reader σ) (s : ReadResult (ReadSourceImpl σ)) : Reader σ :=
  { r with sr := s.src, mem := s.mem, count := s.count, ec := s.ec, thrown := none }

def Reader.step (r : Reader σ) : Call → Checked (Reader σ)
  | .read dest ec => do
    let s ← AnyReadSource.read r.sr dest ec r.mem
    return r.took s
  | .rewind =>
    match implRewind r.sr with
    | .ok sr => return { r with sr := sr, thrown := none }
    | .error x => return { r with thrown := some x }
  | .size =>
    match implSize r.sr with
    | .ok n => return { r with size := n, thrown := none }
    | .error x => return { r with thrown := some x }

end PartialSource
end Buffers
