import Buffers.Buffer
import Buffers.Lib.Loop

/-! # Copying between sequences (`copy.hpp`)

The loop keeps a cursor in each sequence: an iterator, and the offset in the buffer it points to. The
default of `at_most`, the largest `size_t`, bounds nothing and is `none`. -/

namespace Buffers
open Checked

/-- The rest of a sequence from an iterator on, and the offset in its first buffer: `it0` and `pos0`, or
    `it1` and `pos1`. -/
structure Cursor where
  it : List Buffer
  pos : Nat

/-- What follows a block of `amount` bytes: the next buffer when it used up `b`, else the same one. -/
def Cursor.advance (c : Cursor) (b : Buffer) (amount : Nat) : Cursor :=
  if amount = b.size then { it := c.it.tail, pos := 0 } else { c with pos := c.pos + amount }

structure CopyState where
  mem : Mem
  total : Nat
  src : Cursor
  dest : Cursor

/-- `total < at_most`. -/
def below (total : Nat) (atMost : Option Nat) : Bool := atMost.all (total < ·)

/-- The number of bytes of a block between what is left of two buffers. -/
def blockSize (b0 b1 : Buffer) (total : Nat) (atMost : Option Nat) : Checked Nat := do
  let n := b0.size
  let n := if n > b1.size then b1.size else n
  match atMost with
  | none => return n
  | some atMost =>
    let left ← sub atMost total
    return if n > left then left else n

def copyBody (atMost : Option Nat) (s : CopyState) : Checked (Next CopyState (Nat × Mem)) :=
  match below s.total atMost, s.src.it, s.dest.it with
  | true, b0 :: _, b1 :: _ => do
    let b0 := b0.addAssign s.src.pos
    let b1 := b1.addAssign s.dest.pos
    let amount ← blockSize b0 b1 s.total atMost
    let mem := if amount ≠ 0 then s.mem.memcpy b1.data b0.data amount else s.mem
    return .again { mem := mem, total := s.total + amount, dest := s.dest.advance b1 amount,
                    src := s.src.advance b0 amount }
  | _, _, _ => return .done (s.total, s.mem)

/-- `copy`, with the memory that it changes. -/
def copy (dest src : List Buffer) (mem : Mem) (atMost : Option Nat) : Checked (Nat × Mem) :=
  loop (copyBody atMost) (src.length + dest.length + 2)
    { mem := mem, total := 0, src := { it := src, pos := 0 }, dest := { it := dest, pos := 0 } }

end Buffers
