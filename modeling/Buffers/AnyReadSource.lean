import Buffers.Source

/-! # Type-erased read sources (`any_read_source.hpp`)

`read_source_impl` keeps the error code of the last call of its source and answers with it, without another
call, once it is a failure. Only `rewind` clears it. -/

namespace Buffers

/-- `detail::read_source_impl`. -/
structure ReadSourceImpl (σ : Type) where
  source_ : σ
  ec_ : ErrorCode := .cleared

namespace ReadSourceImpl
variable {σ : Type} [ReadSource σ]

def rewind (s : ReadSourceImpl σ) : ReadSourceImpl σ := { source_ := ReadSource.rewind s.source_, ec_ := .cleared }

def doRead (s : ReadSourceImpl σ) (dest : List Buffer) (ec : ErrorCode) (mem : Mem) :
    Checked (ReadResult (ReadSourceImpl σ)) := do
  if s.ec_.failed then
    return { count := 0, ec := s.ec_, src := s, mem := mem }
  let r ← ReadSource.read s.source_ dest ec mem
  return { r with src := { source_ := r.src, ec_ := r.ec } }

end ReadSourceImpl

/-! ### `any_read_source::read` -/

namespace AnyReadSource
variable {σ : Type}

/-- The loop and what follows it, with the destination from `it` on and the batch `mb` begun. -/
def readLoop (doRead : Read σ) : List Buffer → List Buffer → ReadResult σ → Checked (ReadResult σ)
  | [], mb, r =>
    if mb.length > 0 then do
      let r ← readBatch doRead mb r
      if r.ec.failed then
        return r
      return r
    else .ok r
  | b :: it, mb, r => do
    let mb ← pushBatch mb b
    if mb.length < batchSize then
      readLoop doRead it mb r
    else
      let r ← readBatch doRead mb r
      if r.ec.failed then
        return r
      readLoop doRead it [] r

def read [ReadSource σ] (s : ReadSourceImpl σ) (dest : List Buffer) (ec : ErrorCode) (mem : Mem) :
    Checked (ReadResult (ReadSourceImpl σ)) :=
  readLoop ReadSourceImpl.doRead dest [] { count := 0, ec := ec, src := s, mem := mem }

end AnyReadSource

/-- `make_any_read_source`. -/
def makeAnyReadSource {σ : Type} (source : σ) : ReadSourceImpl σ := { source_ := source }

end Buffers
