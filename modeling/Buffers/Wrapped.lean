import Buffers.AnyReadSource.Optional
import Buffers.AnySource.Shared

/-! # Type-erased sources in one another (`any_source.hpp`, `any_read_source.hpp`)

Both erased types meet the requirements of `is_read_source`, but few nestings of them compile. The models of
`any_source` call the `rewind` of their source, and that of `read_source_impl` is private; an `any_source` of an
`any_source` is a copy. So an `any_source` is the innermost layer, and `make_any_read_source` can go around
anything. -/

namespace Buffers
variable {σ : Type}

instance [ReadSource σ] : ReadSource (AnySource σ) where
  read := AnySource.read
  rewind := AnySource.rewind

instance [ReadSource σ] : PartialSource (AnySource σ) where
  toReadSource := inferInstance
  hasRewind := true
  size := some AnySource.size

/-- `read` is a member of `any_read_source`. The overriders of `size` and `rewind` are private, so neither is
    detected. -/
instance [PartialSource σ] : PartialSource (ReadSourceImpl σ) where
  read := AnyReadSource.read
  rewind := id
  hasRewind := false
  size := none

/-- What a program makes of a read source: `make_any_read_source` or an `any_source` of it, with a known size or
    without, and then `make_any_read_source` of that, any number of times. -/
inductive Wrapping
  | anyReadSource
  | anySource
  | sizedSource (known_size : Nat)
  | within (w : Wrapping)

/-- An `any_source` needs a source with a `rewind`. -/
def Wrapping.Compiles (σ : Type) [PartialSource σ] : Wrapping → Prop
  | .anyReadSource => True
  | .anySource | .sizedSource _ => PartialSource.hasRewind σ = true
  | .within w => w.Compiles σ

/-- The type of a read source of type `σ` when it is wrapped. -/
def Wrapped (σ : Type) : Wrapping → Type
  | .anyReadSource => ReadSourceImpl σ
  | .anySource | .sizedSource _ => AnySource σ
  | .within w => ReadSourceImpl (Wrapped σ w)

def wrap (source : σ) : (w : Wrapping) → Wrapped σ w
  | .anyReadSource => makeAnyReadSource source
  | .anySource => .readModel { source_ := source }
  | .sizedSource known_size => .sizedReadModel { size_ := known_size, source_ := source }
  | .within w => makeAnyReadSource (wrap source w)

instance Wrapped.partialSource [PartialSource σ] : (w : Wrapping) → PartialSource (Wrapped σ w)
  | .anyReadSource => inferInstanceAs (PartialSource (ReadSourceImpl σ))
  | .anySource | .sizedSource _ => inferInstanceAs (PartialSource (AnySource σ))
  | .within w =>
    let _ := Wrapped.partialSource w
    inferInstanceAs (PartialSource (ReadSourceImpl (Wrapped σ w)))

/-- `rewind`, called through the public interface: that of `any_source`, or the virtual function of
    `any_read_source`. -/
def Wrapped.rewind [PartialSource σ] : (w : Wrapping) → Wrapped σ w → Except Exn (Wrapped σ w)
  | .anyReadSource, s => PartialSource.implRewind (σ := σ) s
  | .anySource, s | .sizedSource _, s => .ok (AnySource.rewind (σ := AnySource σ) s)
  | .within w, s => PartialSource.implRewind (σ := Wrapped σ w) s

end Buffers
