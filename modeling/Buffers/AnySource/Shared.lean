import Buffers.AnySource
import Buffers.DynamicBuffer
import Buffers.Lib.Shared

/-! # Sharing a type-erased source (`any_source.hpp`, `any_source.cpp`)

`any_source` is a `shared_ptr` to its model. Copies point to the same model; a moved-from source points to the static
model of the default constructor, whose deleter does nothing. -/

namespace Buffers
namespace AnySource
open Checked

variable {σ : Type}

/-! ### The other virtual functions -/

/-- The models override `any_impl::has_size`, except `read_model`. -/
def hasSize : AnySource σ → Bool
  | .readModel _ => false
  | .emptyModel _ | .dataModel _ | .sizedReadModel _ => true

def hasBuffers : AnySource σ → Bool
  | .emptyModel _ | .dataModel _ => true
  | .readModel _ | .sizedReadModel _ => false

def size : AnySource σ → Except Exn Nat
  | .emptyModel _ => .ok 0
  | .dataModel m => .ok m.size_
  | .readModel _ => .error .invalidArgument
  | .sizedReadModel m => .ok m.size_

/-- `data`: the sequence that the returned `any_const_buffers` is converted from, or none for an empty one. -/
def data : AnySource σ → Except Exn (Option Sequence)
  | .emptyModel _ => .ok none
  | .dataModel m => .ok (some m.source_)
  | .readModel _ | .sizedReadModel _ => .error .invalidArgument

/-! ### Pointers -/

/-- `sp_`: null, to the static model, or to a model of `make_shared`. -/
inductive Ptr
  | null
  | static
  | model (h : Nat)
  deriving DecidableEq, Repr

/-- The model that goes with the last pointer. -/
def Ptr.handle : Ptr → Option Nat
  | .model h => some h
  | .null | .static => none

/-- The live sources, which a program names by numbers, their models, the memory, and what the last read returned. -/
structure World (σ : Type) where
  sources : Nat → Option Ptr := fun _ => none
  models : Shared (AnySource σ) := {}
  mem : Mem
  count : Nat := 0
  ec : ErrorCode := .cleared

namespace World

def withSource (w : World σ) (o : Nat) (sp? : Option Ptr) : World σ :=
  { w with sources := Function.update w.sources o sp? }

/-- `sp_` of the source `o`, which is live. -/
def sp (w : World σ) (o : Nat) : Checked Ptr :=
  match w.sources o with
  | some sp => .ok sp
  | none => .error .contract

/-- `*sp`. -/
def pointee (w : World σ) : Ptr → Checked (AnySource σ)
  | .null => .error .contract
  | .static => .ok (.emptyModel ⟨⟩)
  | .model h =>
    match w.models.cells.get h with
    | some m => .ok m
    | none => .error .contract

/-- The destructor of `shared_ptr`. -/
def release (w : World σ) (sp : Ptr) : Checked (World σ) := do
  let models ← w.models.drop sp.handle
  return { w with models := models }

/-- `sp_ = sp` in the source `o`: a copy of `sp`, swapped with `sp_` and destroyed. -/
def copySp (w : World σ) (o : Nat) (sp : Ptr) : Checked (World σ) := do
  let w := { w with models := w.models.share sp.handle }
  let old ← w.sp o
  (w.withSource o (some sp)).release old

/-- `sp_ = std::move(other.sp_)` in the source `o`: a pointer that takes over `other.sp_`, swapped with `sp_` and
    destroyed. -/
def moveSp (w : World σ) (o other : Nat) : Checked (World σ) := do
  let r ← w.sp other
  let w := w.withSource other (some .null)
  let old ← w.sp o
  (w.withSource o (some r)).release old

/-- `sp_ = std::make_shared<..>(m)` in the source `o`, which is being constructed. -/
def construct (w : World σ) (o : Nat) (m : AnySource σ) : World σ :=
  { w.withSource o (some (.model w.models.cells.next)) with models := w.models.make m }

/-- A model after a call of a member that changes it. The static one has no members to change. -/
def store (w : World σ) (sp : Ptr) (m : AnySource σ) : World σ :=
  match sp with
  | .model h => { w with models := w.models.set h m }
  | .null | .static => w

end World

/-! ### Runs -/

/-- What a program does with its sources. -/
inductive Action (σ : Type)
  | default (o : Nat)
  | data (o : Nat) (source : Sequence)
  | stream (o : Nat) (source : σ)
  | sized (o : Nat) (known_size : Nat) (source : σ)
  | copy (o other : Nat)
  | assign (o other : Nat)
  | move (o other : Nat)
  | moveAssign (o other : Nat)
  | destroy (o : Nat)
  | read (o : Nat) (dest : List Buffer) (ec : ErrorCode)
  | rewind (o : Nat)

/-- One action. Constructions are of a source that is not live, from a live one; the others are of live sources; any
    other action does nothing. -/
def step [ReadSource σ] (w : World σ) : Action σ → Checked (World σ)
  | .default o =>
    match w.sources o with
    | some _ => .ok w
    | none => .ok (w.withSource o (some .static))
  | .data o source =>
    match w.sources o with
    | some _ => .ok w
    | none => do
      let m ← DataModel.ofSource source
      return w.construct o (.dataModel m)
  | .stream o source =>
    match w.sources o with
    | some _ => .ok w
    | none => .ok (w.construct o (.readModel { source_ := source }))
  | .sized o known_size source =>
    match w.sources o with
    | some _ => .ok w
    | none => .ok (w.construct o (.sizedReadModel { size_ := known_size, source_ := source }))
  | .copy o other =>
    match w.sources o, w.sources other with
    | none, some sp => (w.withSource o (some .null)).copySp o sp
    | _, _ => .ok w
  | .assign o other =>
    match w.sources o, w.sources other with
    | some _, some sp => w.copySp o sp
    | _, _ => .ok w
  | .move o other =>
    match w.sources o, w.sources other with
    | none, some _ => do
      let w ← (w.withSource o (some .null)).moveSp o other
      -- `other.sp_ = any_source().sp_`
      w.copySp other .static
    | _, _ => .ok w
  | .moveAssign o other =>
    match w.sources o, w.sources other with
    | some _, some _ => do
      let w ← w.moveSp o other
      w.copySp other .static
    | _, _ => .ok w
  | .destroy o =>
    match w.sources o with
    | some sp => (w.withSource o none).release sp
    | none => .ok w
  | .read o dest ec =>
    match w.sources o with
    | some sp => do
      let m ← w.pointee sp
      let r ← AnySource.read m dest ec w.mem
      return { w.store sp r.src with mem := r.mem, count := r.count, ec := r.ec }
    | none => .ok w
  | .rewind o =>
    match w.sources o with
    | some sp => do
      let m ← w.pointee sp
      return w.store sp (AnySource.rewind m)
    | none => .ok w

end AnySource
end Buffers
