import Buffers.Lib.Cells
import Buffers.Lib.Iterator
import Buffers.Sequence

/-! # Type-erased buffer sequences (`any_buffers.hpp`, `any_buffers.cpp`)

`any_buffers` copies a sequence into a holder (`impl<T>`) and iterates over it through virtual calls. A small
holder is built in the object's own storage, where `sp_` has a `null_deleter`; any other is made on the heap; and
all empty objects share a static instance. The sequences that a program wraps are a family of types. -/

namespace Buffers
open Checked

/-! ### Buffer sequences -/

/-- A type of buffer sequences, with what the erasure asks of it. Its iterators are bidirectional over the
    buffers of each sequence. -/
class BufferSequence (T : Type) where
  Iter : Type
  iterators : T → Iteration Iter Buffer
  /-- `last - first`, where the iterators have it. -/
  minus : Option (Iter → Iter → Checked Nat)
  /-- `sizeof(impl<T>)`. -/
  sizeofImpl : Nat
  sizeofIter : Nat
  buffers : T → List Buffer
  pos : T → Nat → Iter
  iterates : ∀ t, Iterates (iterators t) (pos t) (buffers t)
  minus_eq : ∀ f, minus = some f → ∀ t, f (pos t (buffers t).length) (pos t 0) = .ok (buffers t).length

namespace BufferSequence
variable {T : Type} [BufferSequence T]

/-- `length`, which `length_impl` computes. -/
def length (t : T) : Checked Nat := do
  let first ← (iterators t).first
  let last ← (iterators t).last
  match minus (T := T) with
  | some minus => minus last first
  | none => (iterators t).distance first last ((buffers t).length + 1)

theorem length_eq (t : T) : length t = .ok (buffers t).length := by
  have h := iterates t
  cases hm : minus (T := T) with
  | some f => simp [length, h.first_eq, h.last_eq, hm, minus_eq f hm t]
  | none => simp [length, h.first_eq, h.last_eq, hm, h.distance_eq (Nat.lt_succ_self _)]

end BufferSequence

/-- A sequence of `bs` whose iterators are pointers, on a 64-bit target. -/
@[reducible] def contiguous {T : Type} (toList : T → List Buffer) (sizeof : Nat) : BufferSequence T where
  Iter := Nat
  iterators t := Iteration.ofList (toList t)
  minus := some sub
  sizeofImpl := 8 + sizeof
  sizeofIter := 8
  buffers := toList
  pos _ i := i
  iterates t := iterates_ofList (toList t)
  minus_eq f hf t := by
    obtain rfl := Option.some.inj hf
    exact sub_of_le (Nat.zero_le _)

instance : BufferSequence Buffer := contiguous (fun b => [b]) 16

instance : BufferSequence BufferPair := contiguous BufferPair.toList 32

/-- `std::vector`. -/
instance : BufferSequence (List Buffer) := contiguous id 24

theorem SliceOf.Readable.iterates {s : SliceOf} (h : s.Readable) :
    Iterates ⟨.ok s.first, .ok s.last, ConstIterator.inc, ConstIterator.dec, ConstIterator.deref s,
      fun it jt => .ok (decide (it = jt))⟩ s.iter s.yields where
  first_eq := by rw [iter_zero]
  last_eq := by rw [h.length_yields, h.iter_len]
  inc_at i hi := iter_inc (h.length_yields ▸ hi)
  dec_at i _ := iter_dec i
  deref_at i x hx := by
    obtain ⟨hi, -⟩ := List.getElem?_eq_some_iff.mp hx
    obtain ⟨b, hb, hd⟩ := h.deref_iter (h.length_yields ▸ hi)
    rw [hx] at hb
    exact Option.some.inj hb ▸ hd
  equal_at i j _ _ := by
    refine congrArg Except.ok (decide_eq_decide.mpr ⟨iter_inj, ?_⟩)
    rintro rfl
    rfl

theorem Slice.readable (s : Slice) : s.val.Readable := s.sound.elim (·.readable) (·.toClosed.readable)

/-- `slice_of` over a vector: its iterators are five words. -/
instance : BufferSequence Slice where
  Iter := SliceOf.ConstIterator
  iterators s := ⟨.ok s.val.first, .ok s.val.last, SliceOf.ConstIterator.inc, SliceOf.ConstIterator.dec,
    SliceOf.ConstIterator.deref s.val, fun it jt => .ok (decide (it = jt))⟩
  minus := none
  sizeofImpl := 88
  sizeofIter := 40
  buffers s := s.val.yields
  pos s := s.val.iter
  iterates s := s.readable.iterates
  minus_eq _ hf := nomatch hf

/-! ### Holders -/

namespace AnyBuffers

/-- `sbo_size`: six pointers. -/
def sboSize : Nat := 48

/-- `iter_sbo_size`: four pointers. -/
def iterSboSize : Nat := 32

section
variable {ι : Type} (T : ι → Type) [∀ i, BufferSequence (T i)]

/-- A sequence of one of the types that the program wraps. -/
abbrev Wrapped := Σ i, T i

/-- The classes that derive from `any_impl`: the static instance, `impl<T, true>` and `impl<T, false>`. -/
inductive Impl
  | empty
  | smallIter (i : ι) (t_ : T i)
  | bigIter (i : ι) (t_ : T i) (len_ : Nat)

/-- `storage_` of a `const_iterator`. -/
inductive ItStorage
  | unused
  | native (i : ι) (it : BufferSequence.Iter (T i))
  | index (i : Nat)

end

variable {ι : Type} {T : ι → Type} [∀ i, BufferSequence (T i)]

/-- `impl<T>(t)`. -/
def Impl.make (s : Wrapped T) : Checked (Impl T) :=
  if BufferSequence.sizeofIter (T s.1) ≤ iterSboSize then
    return .smallIter s.1 s.2
  else do
    let len ← BufferSequence.length s.2
    return .bigIter s.1 s.2 len

/-- `static_cast<iter_t*>(p)` where `iter_t` is the iterator type of `T i`. -/
def ItStorage.asNative [DecidableEq ι] (p : ItStorage T) (i : ι) : Checked (BufferSequence.Iter (T i)) :=
  match p with
  | .native j it => if h : j = i then .ok (h ▸ it) else .error .contract
  | _ => .error .contract

/-- `static_cast<iter_t*>(p)->i`. -/
def ItStorage.asIndex (p : ItStorage T) : Checked Nat :=
  match p with
  | .index i => .ok i
  | _ => .error .contract

namespace Impl

/-- The loop of `impl<T, false>::deref`, from the iterator `it`. -/
def rewalk {It : Type} (ops : Iteration It Buffer) (it : It) : Nat → Checked Buffer
  | 0 => ops.deref it
  | i + 1 => ops.inc it >>= fun it => rewalk ops it i

variable [DecidableEq ι]

def first : Impl T → Checked (ItStorage T)
  | .empty => .ok .unused
  | .smallIter i t_ => .native i <$> (BufferSequence.iterators t_).first
  | .bigIter _ _ _ => .ok (.index 0)

def last : Impl T → Checked (ItStorage T)
  | .empty => .ok .unused
  | .smallIter i t_ => .native i <$> (BufferSequence.iterators t_).last
  | .bigIter _ _ len_ => .ok (.index len_)

def inc : Impl T → ItStorage T → Checked (ItStorage T)
  | .empty, p => .ok p
  | .smallIter i t_, p => do
    let it ← p.asNative i
    .native i <$> (BufferSequence.iterators t_).inc it
  | .bigIter _ _ _, p => do
    let i ← p.asIndex
    return .index (i + 1)

def dec : Impl T → ItStorage T → Checked (ItStorage T)
  | .empty, p => .ok p
  | .smallIter i t_, p => do
    let it ← p.asNative i
    .native i <$> (BufferSequence.iterators t_).dec it
  | .bigIter _ _ _, p => do
    let i ← p.asIndex
    .index <$> sub i 1

def deref : Impl T → ItStorage T → Checked Buffer
  | .empty, _ => .ok ⟨0, 0⟩
  | .smallIter i t_, p => do
    let it ← p.asNative i
    (BufferSequence.iterators t_).deref it
  | .bigIter _ t_ _, p => do
    let i ← p.asIndex
    let it ← (BufferSequence.iterators t_).first
    rewalk (BufferSequence.iterators t_) it i

def equal : Impl T → ItStorage T → ItStorage T → Checked Bool
  | .empty, _, _ => .ok true
  | .smallIter i t_, p, q => do
    let it ← p.asNative i
    let jt ← q.asNative i
    (BufferSequence.iterators t_).equal it jt
  | .bigIter _ _ _, p, q => do
    let i ← p.asIndex
    let j ← q.asIndex
    return decide (i = j)

end Impl

/-! ### Objects -/

/-- A `shared_ptr` to a holder: null, to the static instance, to the holder in the storage of the object `o`, or
    to the heap holder `h`. Only the last has a deleter that destroys. -/
inductive Ptr
  | null
  | static
  | storage (o : Nat)
  | heap (h : Nat)
  deriving DecidableEq, Repr

/-- The heap holder that goes with the last pointer. -/
def Ptr.deletes : Ptr → Option Nat
  | .heap h => some h
  | _ => none

/-- `any_buffers`; the storage is named by the holder built in it last. -/
structure Object where
  storage_ : Option Nat := none
  sp_ : Ptr := .null
  deriving DecidableEq, Repr

/-- The live objects, the holders constructed and not destroyed, and the use counts of those on the heap. -/
structure World {ι : Type} (T : ι → Type) [∀ i, BufferSequence (T i)] where
  objects : Nat → Option Object := fun _ => none
  holders : Cells (Impl T) := {}
  uses : Nat → Nat := fun _ => 0

namespace World

def withObject (w : World T) (o : Nat) (x : Option Object) : World T :=
  { w with objects := Function.update w.objects o x }

def target (w : World T) : Ptr → Option Nat
  | .storage o => (w.objects o).bind Object.storage_
  | .heap h => some h
  | _ => none

/-- `*sp`. -/
def pointee (w : World T) (sp : Ptr) : Checked (Impl T) :=
  match sp with
  | .static => .ok .empty
  | sp =>
    match (w.target sp).bind w.holders.get with
    | some p => .ok p
    | none => .error .contract

/-- The copy constructor of `shared_ptr`. -/
def share (w : World T) : Ptr → World T
  | .heap h => { w with uses := Function.update w.uses h (w.uses h + 1) }
  | _ => w

/-- The destructor of `shared_ptr`. -/
def release (w : World T) : Ptr → Checked (World T)
  | .heap h => do
    let n ← sub (w.uses h) 1
    let w := { w with uses := Function.update w.uses h n }
    if n = 0 then
      let holders ← w.holders.destroy h
      return { w with holders := holders }
    else
      return w
  | _ => .ok w

/-- The object `o`, which is live. -/
def object (w : World T) (o : Nat) : Checked Object :=
  match w.objects o with
  | some x => .ok x
  | none => .error .contract

/-- `dest.sp_ = sp`, where the object `o` is the destination. -/
def setSp (w : World T) (o : Nat) (sp : Ptr) : Checked (World T) := do
  let x ← w.object o
  (w.withObject o (some { x with sp_ := sp })).release x.sp_

/-- A holder built in the storage of the object `o`, over what was in it. -/
def emplace (w : World T) (o : Nat) (p : Impl T) : Checked (World T) := do
  let x ← w.object o
  return { w.withObject o (some { x with storage_ := some w.holders.next }) with holders := w.holders.make p }

/-- `make_shared`; the holder is numbered `w.holders.next`. -/
def makeShared (w : World T) (p : Impl T) : World T :=
  { w with holders := w.holders.make p, uses := Function.update w.uses w.holders.next 1 }

/-- `construct`. -/
def construct (w : World T) (o : Nat) (s : Wrapped T) : Checked (World T) := do
  let p ← Impl.make s
  if BufferSequence.sizeofImpl (T s.1) ≤ sboSize then
    let w ← w.emplace o p
    w.setSp o (.storage o)
  else
    (w.makeShared p).setSp o (.heap w.holders.next)

/-- `copy` of the holder `p`, to which `sp` points. The two class templates copy their sequence as `construct`
    does. -/
def copy (w : World T) (o : Nat) (p : Impl T) (sp : Ptr) : Checked (World T) :=
  match p with
  | .empty => (w.share sp).setSp o sp
  | .smallIter i t_ => w.construct o ⟨i, t_⟩
  | .bigIter i t_ _ => w.construct o ⟨i, t_⟩

end World

/-! ### Runs -/

/-- What a program does with the objects, which it names by numbers. -/
inductive Action {ι : Type} (T : ι → Type)
  | default (o : Nat)
  | convert (o : Nat) (s : Wrapped T)
  | copy (o other : Nat)
  | assign (o other : Nat)
  | destroy (o : Nat)

/-- One action. Constructions are of an object that is not live, from a live one; assignments and destructions are
    of live objects; any other action does nothing. -/
def step (w : World T) : Action T → Checked (World T)
  | .default o =>
    match w.objects o with
    | some _ => .ok w
    | none => (w.withObject o (some {})).setSp o .static
  | .convert o s =>
    match w.objects o with
    | some _ => .ok w
    | none => (w.withObject o (some {})).construct o s
  | .copy o other =>
    match w.objects o, w.objects other with
    | none, some y => do
      let p ← w.pointee y.sp_
      (w.withObject o (some {})).copy o p y.sp_
    | _, _ => .ok w
  | .assign o other =>
    match w.objects o, w.objects other with
    | some _, some y =>
      if o = other then
        return w
      else do
        let p ← w.pointee y.sp_
        w.copy o p y.sp_
    | _, _ => .ok w
  | .destroy o =>
    match w.objects o with
    | some x => (w.withObject o none).release x.sp_
    | none => .ok w

/-! ### `any_buffers::const_iterator` -/

structure ConstIterator {ι : Type} (T : ι → Type) [∀ i, BufferSequence (T i)] where
  sp_ : Ptr
  storage_ : ItStorage T

/-- The iterators of the object `o`. -/
def World.iterators [DecidableEq ι] (w : World T) (o : Nat) : Iteration (ConstIterator T) Buffer where
  first := do
    let x ← w.object o
    let p ← w.pointee x.sp_
    ConstIterator.mk x.sp_ <$> p.first
  last := do
    let x ← w.object o
    let p ← w.pointee x.sp_
    ConstIterator.mk x.sp_ <$> p.last
  inc it := do
    let p ← w.pointee it.sp_
    ConstIterator.mk it.sp_ <$> p.inc it.storage_
  dec it := do
    let p ← w.pointee it.sp_
    ConstIterator.mk it.sp_ <$> p.dec it.storage_
  deref it := do
    let p ← w.pointee it.sp_
    p.deref it.storage_
  equal it jt :=
    if it.sp_ ≠ jt.sp_ then
      return false
    else do
      let p ← w.pointee it.sp_
      p.equal it.storage_ jt.storage_

end AnyBuffers
end Buffers
