import Buffers.Buffer
import Buffers.Lib.Checked

/-! # Read sources (`error.hpp`, `read_source.hpp`)

A read source writes bytes into the buffers of its caller, counts them and assigns an error code. `readBatch`
is the step that both type-erased read loops make: one call of `read`, with its assertion. -/

namespace Buffers
open Checked

/-! ### Error codes -/

/-- `system::error_code`. No category of the library overrides `failed`. -/
structure ErrorCode where
  value : Int
  category : Nat
  deriving DecidableEq, Repr

namespace ErrorCode

def failed (ec : ErrorCode) : Bool := ec.value != 0

/-- `error_code{}`. -/
def cleared : ErrorCode := { value := 0, category := 0 }

/-- `make_error_code(error::eof)`. -/
def eof : ErrorCode := { value := 1, category := 0x884562ca8e2fc5fd }

end ErrorCode

/-! ### Reading -/

/-- What a call of `read` returns and leaves: the count, the error code, the source and the memory. -/
structure ReadResult (σ : Type) where
  count : Nat
  ec : ErrorCode
  src : σ
  mem : Mem

def ReadResult.mapSrc {σ τ : Type} (f : σ → τ) (r : ReadResult σ) : ReadResult τ := { r with src := f r.src }

abbrev Read (σ : Type) := σ → List Buffer → ErrorCode → Mem → Checked (ReadResult σ)

/-- The requirements of `is_read_source`, with the optional `rewind`. -/
class ReadSource (σ : Type) where
  read : Read σ
  rewind : σ → σ

def batchSize : Nat := 16

/-- `mb[n++] = b`. -/
def pushBatch (mb : List Buffer) (b : Buffer) : Checked (List Buffer) :=
  if mb.length < batchSize then .ok (mb ++ [b]) else .error .outOfRange

/-- One call of `read` in a loop that has read `r.count` bytes. -/
def readBatch {σ : Type} (read : Read σ) (mb : List Buffer) (r : ReadResult σ) : Checked (ReadResult σ) := do
  let s ← read r.src mb r.ec r.mem
  assert (s.ec.failed = true ∨ s.count = size mb)
  return { s with count := r.count + s.count }

/-! ### Runs -/

inductive SourceCall
  | read (dest : List Buffer) (ec : ErrorCode)
  | rewind

/-- One call; the count and the error code are those of the last read. -/
def SourceCall.step {σ : Type} (read : Read σ) (rewind : σ → σ) (r : ReadResult σ) : SourceCall → Checked (ReadResult σ)
  | .read dest ec => read r.src dest ec r.mem
  | .rewind => .ok { r with src := rewind r.src }

end Buffers
