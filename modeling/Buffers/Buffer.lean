import Buffers.Lib.Checked
import Buffers.Lib.Memory

/-! # Buffers and buffer sequences (`buffer.hpp`, `buffer_pair.hpp`)

A buffer is a pointer and a size. `const_buffer` and `mutable_buffer` hold the same two fields and share
every operation used here, so both are `Buffer`. A buffer sequence is what an algorithm reads of it from
`begin` to `end`: a list of buffers. `size_t` is `Nat`, and a subtraction that would wrap is a fault. The total
size of a sequence, a pair or a slice is taken to be representable. The sums of positions and sizes in the
circular and the flat buffer are sums of words in `CircularBuffer/Word.lean` and `FlatBuffer/Word.lean`. -/

namespace Buffers

abbrev Byte := UInt8
abbrev Mem := Memory Byte

/-- `basic_buffer`: a contiguous region of memory. -/
structure Buffer where
  data : Nat
  size : Nat
  deriving DecidableEq, Repr

abbrev ConstBuffer := Buffer
abbrev MutableBuffer := Buffer

def Buffer.addresses (b : Buffer) : List Nat := List.range' b.data b.size

/-- `operator+=`: removes a prefix of the region. -/
def Buffer.addAssign (b : Buffer) (n : Nat) : Buffer :=
  let n := if n > b.size then b.size else n
  { data := b.data + n, size := b.size - n }

inductive SliceHow
  | removePrefix
  | keepPrefix
  deriving DecidableEq, Repr

/-- `do_slice`. -/
def Buffer.doSlice (b : Buffer) (how : SliceHow) (n : Nat) : Buffer :=
  match how with
  | .removePrefix => b.addAssign n
  | .keepPrefix => if n < b.size then { b with size := n } else b

def addresses (bs : List Buffer) : List Nat := bs.flatMap Buffer.addresses

/-- `size`: the total number of bytes of a sequence. -/
def size (bs : List Buffer) : Nat := bs.foldl (fun n b => n + b.size) 0

/-- `const_buffer_pair` and `mutable_buffer_pair`. -/
structure BufferPair where
  fst : Buffer
  snd : Buffer
  deriving DecidableEq, Repr

def BufferPair.toList (p : BufferPair) : List Buffer := [p.fst, p.snd]

/-! ### Addresses and sizes -/

@[simp] theorem Buffer.length_addresses (b : Buffer) : b.addresses.length = b.size := List.length_range'

@[simp] theorem addresses_nil : addresses [] = [] := rfl

@[simp] theorem addresses_cons (b : Buffer) (bs : List Buffer) :
    addresses (b :: bs) = b.addresses ++ addresses bs := rfl

@[simp] theorem addresses_append (bs cs : List Buffer) : addresses (bs ++ cs) = addresses bs ++ addresses cs := by
  simp [addresses]

theorem size_eq (bs : List Buffer) : size bs = (addresses bs).length := by
  suffices h : ∀ n, bs.foldl (fun n b => n + b.size) n = n + (addresses bs).length by
    simpa [size] using h 0
  induction bs with
  | nil => intro n; rfl
  | cons b bs ih =>
    intro n
    simp only [List.foldl_cons, ih, addresses_cons, List.length_append, Buffer.length_addresses]
    omega

@[simp] theorem size_nil : size [] = 0 := rfl

@[simp] theorem size_cons (b : Buffer) (bs : List Buffer) : size (b :: bs) = b.size + size bs := by
  simp [size_eq]

@[simp] theorem size_append (bs cs : List Buffer) : size (bs ++ cs) = size bs + size cs := by
  simp [size_eq]

theorem Buffer.addresses_trim (b : Buffer) (p q : Nat) :
    Buffer.addresses ⟨b.data + p, b.size - p - q⟩ = (b.addresses.drop p).take (b.size - p - q) := by
  simp only [Buffer.addresses, List.drop_range', Nat.mul_one]
  rw [List.take_range'_of_length_ge (by omega)]

theorem Buffer.addresses_addAssign (b : Buffer) (n : Nat) : (b.addAssign n).addresses = b.addresses.drop n := by
  unfold Buffer.addAssign Buffer.addresses
  by_cases h : n > b.size
  · simp [h, Nat.le_of_lt h]
  · simp [h, List.drop_range']

@[simp] theorem Buffer.size_addAssign (b : Buffer) (n : Nat) : (b.addAssign n).size = b.size - n := by
  have h := congrArg List.length (b.addresses_addAssign n)
  simpa using h

theorem Buffer.addresses_keepPrefix (b : Buffer) (n : Nat) :
    (b.doSlice .keepPrefix n).addresses = b.addresses.take n := by
  simp only [Buffer.doSlice]
  split
  · rename_i h
    simp only [Buffer.addresses]
    rw [List.take_range'_of_length_ge (by omega)]
  · rename_i h
    rw [List.take_of_length_le (by simpa using h)]

end Buffers
