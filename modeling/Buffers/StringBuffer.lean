import Buffers.DynamicBuffer

/-! # The string buffer (`string_buffer.hpp`)

`basic_string_buffer<char>` borrows a string: it keeps a pointer to it, and the bytes live in the string. The
string follows the C++ standard; what the standard leaves open, the maximum size and the place and capacity of
a string after it is modified, is a `StringImpl`. Allocations succeed. -/

namespace Buffers
open Checked

/-! ### `std::string` -/

structure StdString where
  data : Nat
  chars : List Byte
  capacity : Nat
  length_le : chars.length ≤ capacity

structure StringImpl where
  maxSize : Nat
  place : StdString → Nat → Nat × Nat
  le_capacity : ∀ s n, n ≤ (place s n).2

namespace StdString

def size (s : StdString) : Nat := s.chars.length

/-- The string with other characters, where the implementation puts it. -/
def assign (impl : StringImpl) (s : StdString) (chars : List Byte) : StdString :=
  let place := impl.place s chars.length
  { data := place.1, chars := chars, capacity := place.2, length_le := impl.le_capacity s chars.length }

def resize (impl : StringImpl) (s : StdString) (n : Nat) : Checked StdString := do
  require (n ≤ impl.maxSize)
  return s.assign impl (s.chars.take n ++ List.replicate (n - s.size) 0)

/-- `erase(0, n)`. -/
def eraseFront (impl : StringImpl) (s : StdString) (n : Nat) : StdString := s.assign impl (s.chars.drop n)

/-- `&s[i]`. -/
def addressAt (s : StdString) (i : Nat) : Checked Nat := do
  require (i ≤ s.size)
  return s.data + i

/-- A byte written to the storage of the string. -/
def poke (s : StdString) (a : Nat) (x : Byte) : Checked StdString :=
  if s.data ≤ a ∧ a - s.data < s.size then
    .ok { s with chars := s.chars.set (a - s.data) x, length_le := by simpa using s.length_le }
  else .error .outOfRange

/-- What the storage of the string holds at an address. -/
def view (s : StdString) : Mem := fun a => s.chars.getD (a - s.data) 0

end StdString

/-! ### `basic_string_buffer` -/

/-- `string_type*`: null, or a pointer to the string that the buffer was constructed from. -/
inductive StringPtr
  | null
  | target
  deriving DecidableEq, Repr

def StringPtr.deref (p : StringPtr) (s : StdString) : Checked StdString := do
  require (p = .target)
  return s

structure StringBuffer where
  s_ : StringPtr
  max_size_ : Nat
  in_size_ : Nat := 0
  out_size_ : Nat := 0
  deriving DecidableEq, Repr

namespace StringBuffer

/-- `~basic_string_buffer()`: what it leaves of the string. -/
def destroy (impl : StringImpl) (b : StringBuffer) (s : StdString) : Checked StdString :=
  match b.s_ with
  | .null => .ok s
  | .target => s.resize impl b.in_size_

/-- `basic_string_buffer(basic_string_buffer&&)`: the new buffer, and what is left of the other one. -/
def move (other : StringBuffer) : StringBuffer × StringBuffer :=
  ({ s_ := other.s_, max_size_ := other.max_size_ }, { other with s_ := .null })

/-- `basic_string_buffer(s, max_size)`. -/
def ofString (impl : StringImpl) (s : StdString) (max_size : Nat) : Checked (StringBuffer × StdString) := do
  let max_size_ := if max_size > impl.maxSize then impl.maxSize else max_size
  let s ← if s.size > max_size_ then s.resize impl max_size_ else pure s
  return ({ s_ := .target, max_size_ := max_size_, in_size_ := s.size }, s)

def size (b : StringBuffer) : Nat := b.in_size_

def maxSize (b : StringBuffer) : Nat := b.max_size_

def capacity (b : StringBuffer) (s : StdString) : Checked Nat := do
  let s ← b.s_.deref s
  if s.capacity ≤ b.max_size_ then
    sub s.capacity b.in_size_
  else
    sub b.max_size_ b.in_size_

def data (b : StringBuffer) (s : StdString) : Checked ConstBuffer := do
  let s ← b.s_.deref s
  return ⟨s.data, b.in_size_⟩

def prepare (impl : StringImpl) (b : StringBuffer) (s : StdString) (n : Nat) :
    Checked (Except Exn MutableBuffer × StringBuffer × StdString) := do
  let room ← sub b.max_size_ b.in_size_
  if n > room then
    return (.error .invalidArgument, b, s)
  let s ← b.s_.deref s
  let s ← if s.size < b.in_size_ + n then s.resize impl (b.in_size_ + n) else pure s
  let b := { b with out_size_ := n }
  let p ← s.addressAt b.in_size_
  return (.ok ⟨p, b.out_size_⟩, b, s)

def commit (b : StringBuffer) (n : Nat) : StringBuffer :=
  { b with in_size_ := commitSize b.in_size_ b.out_size_ n, out_size_ := 0 }

def consume (impl : StringImpl) (b : StringBuffer) (s : StdString) (n : Nat) : Checked (StringBuffer × StdString) := do
  if n < b.in_size_ then
    let str ← b.s_.deref s
    let size ← sub b.in_size_ n
    return ({ b with in_size_ := size, out_size_ := 0 }, str.eraseFront impl n)
  else
    return ({ b with in_size_ := 0, out_size_ := 0 }, s)

end StringBuffer

/-- A string buffer together with its string. -/
structure Attached (impl : StringImpl) where
  buf : StringBuffer
  str : StdString

instance (impl : StringImpl) : DynamicBuffer (Attached impl) where
  size b := b.buf.size
  maxSize b := b.buf.maxSize
  capacity b := b.buf.capacity b.str
  data b := (fun o => [o]) <$> b.buf.data b.str
  prepare b n := (fun r => ((fun o => [o]) <$> r.1, ⟨r.2.1, r.2.2⟩)) <$> b.buf.prepare impl b.str n
  commit b n := .ok { b with buf := b.buf.commit n }
  consume b n := (fun r => ⟨r.1, r.2⟩) <$> b.buf.consume impl b.str n

/-! ### Sessions -/

/-- A string buffer in use. Modifying the string invalidates the region, so a consume ends it. -/
structure StringSession where
  buf : StringBuffer
  str : StdString
  region : List Nat

def StringSession.step (impl : StringImpl) (s : StringSession) : Cmd Byte → Checked StringSession
  | .prepare n => do
    match ← s.buf.prepare impl s.str n with
    | (.ok o, b, str) => return { buf := b, str := str, region := o.addresses }
    | (.error _, b, str) => return { s with buf := b, str := str }
  | .write i x =>
    match s.region[i]? with
    | some a => do
      let str ← s.str.poke a x
      return { s with str := str }
    | none => return s
  | .commit n => return { s with buf := s.buf.commit n, region := [] }
  | .consume n => do
    let (b, str) ← s.buf.consume impl s.str n
    return { buf := b, str := str, region := [] }

end Buffers
