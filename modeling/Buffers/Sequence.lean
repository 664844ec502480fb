import Buffers.Theorems.Slice.Ops

/-! # Buffer sequences by type (`slice_type`, `prefix`, `suffix`, `sans_prefix`, `sans_suffix`)

A sequence is a single buffer, a buffer pair, a slice, or any other range of buffers. The first three
customise slicing, so their slice type is the type itself; any other range is wrapped in a `slice_of`. -/

namespace Buffers

/-- A `slice_of` in a state that a construction or an in-place operation leaves. -/
structure Slice where
  val : SliceOf
  sound : val.Inv ∨ val.Emptied

inductive Sequence
  | buffer (b : Buffer)
  | pair (p : BufferPair)
  | slice (s : Slice)
  | range (bs : List Buffer)

/-- The buffers read from `begin` to `end`. -/
def Sequence.read : Sequence → Checked (List Buffer)
  | .buffer b => Sliceable.read b
  | .pair p => Sliceable.read p
  | .slice s => Sliceable.read s.val
  | .range bs => .ok bs

/-- `slice_type<T>`. -/
inductive SliceType
  | buffer (b : Buffer)
  | pair (p : BufferPair)
  | slice (s : SliceOf)

instance : Sliceable SliceType where
  read
    | .buffer b => Sliceable.read b
    | .pair p => Sliceable.read p
    | .slice s => Sliceable.read s
  tagInvoke bs how n :=
    match bs with
    | .buffer b => .buffer <$> Sliceable.tagInvoke b how n
    | .pair p => .pair <$> Sliceable.tagInvoke p how n
    | .slice s => .slice <$> Sliceable.tagInvoke s how n

/-- `slice_type<T>(bs)`. -/
def Sequence.toSliceType : Sequence → SliceType
  | .buffer b => .buffer b
  | .pair p => .pair p
  | .slice s => .slice s.val
  | .range bs => .slice (SliceOf.ofSequence bs)

/-- `prefix`. -/
def prefixOf (bs : Sequence) (n : Nat) : Checked SliceType := keepPrefix bs.toSliceType n

/-- `suffix`. -/
def suffixOf (bs : Sequence) (n : Nat) : Checked SliceType := keepSuffix bs.toSliceType n

def sansPrefix (bs : Sequence) (n : Nat) : Checked SliceType := removePrefix bs.toSliceType n

def sansSuffix (bs : Sequence) (n : Nat) : Checked SliceType := removeSuffix bs.toSliceType n

/-- Reading `bs` from `begin` to `end` yields these addresses. -/
def Denotes {T : Type} [Sliceable T] (bs : T) (l : List Nat) : Prop :=
  ∃ bufs, Sliceable.read bs = .ok bufs ∧ addresses bufs = l

end Buffers
