import Buffers.Copy
import Buffers.Sequence
import Buffers.Source

/-! # Type-erased sources (`any_source.hpp`)

`any_source` reads through an `any_impl`. A data source becomes a `data_model`, which copies from its sequence
and keeps the number of bytes read; a read source becomes a `read_model`, which forwards. -/

namespace Buffers

/-- `any_source::any_impl`. -/
class AnyImpl (σ : Type) where
  read : Read σ
  rewind : σ → σ

/-! ### `data_model` -/

structure DataModel where
  source_ : Sequence
  size_ : Nat := 0
  nread_ : Nat := 0

namespace DataModel

def ofSource (source : Sequence) : Checked DataModel := do
  let bufs ← source.read
  return { source_ := source, size_ := size bufs }

def read (s : DataModel) (dest : List Buffer) (_ : ErrorCode) (mem : Mem) : Checked (ReadResult DataModel) := do
  let rest ← sansPrefix s.source_ s.nread_
  let bufs ← Sliceable.read rest
  let (n, mem) ← copy dest bufs mem none
  let s := { s with nread_ := s.nread_ + n }
  let ec := if s.nread_ ≥ s.size_ then ErrorCode.eof else ErrorCode.cleared
  return { count := n, ec := ec, src := s, mem := mem }

def rewind (s : DataModel) : DataModel := { s with nread_ := 0 }

end DataModel

instance : AnyImpl DataModel where
  read := DataModel.read
  rewind := DataModel.rewind

/-! ### `read_model` -/

structure ReadModel (σ : Type) where
  source_ : σ

instance {σ : Type} [ReadSource σ] : AnyImpl (ReadModel σ) where
  read s dest ec mem := do
    let r ← ReadSource.read s.source_ dest ec mem
    return { r with src := { source_ := r.src } }
  rewind s := { source_ := ReadSource.rewind s.source_ }

structure SizedReadModel (σ : Type) where
  size_ : Nat
  source_ : σ

instance {σ : Type} [ReadSource σ] : AnyImpl (SizedReadModel σ) where
  read s dest ec mem := do
    let r ← ReadSource.read s.source_ dest ec mem
    return { r with src := { s with source_ := r.src } }
  rewind s := { s with source_ := ReadSource.rewind s.source_ }

/-! ### The model of a default-constructed source -/

structure EmptyModel where

instance : AnyImpl EmptyModel where
  read s _ _ mem := .ok { count := 0, ec := .eof, src := s, mem := mem }
  rewind s := s

/-! ### `any_source::read` -/

namespace AnySource
variable {σ : Type}

/-- The loop, with the destination from `it` on and the batch `mb` begun. -/
def readLoop (read : Read σ) : List Buffer → List Buffer → ReadResult σ → Checked (ReadResult σ)
  | [], _, _ => .error .outOfRange
  | b :: it, mb, r => do
    let mb ← pushBatch mb b
    if mb.length < batchSize ∧ it ≠ [] then
      readLoop read it mb r
    else
      let r ← readBatch read mb r
      if r.ec.failed then
        return r
      if it = [] then
        return r
      readLoop read it [] r

def read [AnyImpl σ] (s : σ) (dest : List Buffer) (ec : ErrorCode) (mem : Mem) : Checked (ReadResult σ) :=
  let r : ReadResult σ := { count := 0, ec := ec, src := s, mem := mem }
  if dest = [] then .ok r else readLoop AnyImpl.read dest [] r

def rewind [AnyImpl σ] (s : σ) : σ := AnyImpl.rewind s

end AnySource

/-- `any_source`: the model that its constructor made. -/
inductive AnySource (σ : Type)
  | emptyModel (m : EmptyModel)
  | dataModel (m : DataModel)
  | readModel (m : ReadModel σ)
  | sizedReadModel (m : SizedReadModel σ)

/-- The virtual calls. -/
instance {σ : Type} [ReadSource σ] : AnyImpl (AnySource σ) where
  read
    | .emptyModel m, dest, ec, mem => ReadResult.mapSrc .emptyModel <$> AnyImpl.read m dest ec mem
    | .dataModel m, dest, ec, mem => ReadResult.mapSrc .dataModel <$> AnyImpl.read m dest ec mem
    | .readModel m, dest, ec, mem => ReadResult.mapSrc .readModel <$> AnyImpl.read m dest ec mem
    | .sizedReadModel m, dest, ec, mem => ReadResult.mapSrc .sizedReadModel <$> AnyImpl.read m dest ec mem
  rewind
    | .emptyModel m => .emptyModel (AnyImpl.rewind m)
    | .dataModel m => .dataModel (AnyImpl.rewind m)
    | .readModel m => .readModel (AnyImpl.rewind m)
    | .sizedReadModel m => .sizedReadModel (AnyImpl.rewind m)

end Buffers
