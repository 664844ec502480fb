import Buffers.Copy
import Buffers.Lib.Iterator

/-! # Algorithms over iterators (`buffer.hpp`, `front.hpp`, `to_string.hpp`, `copy.hpp`)

The algorithms are templates that use a sequence through its iterators only, whatever they are. -/

namespace Buffers
namespace Algorithms
open Checked

variable {It It' : Type}

/-- `size`. -/
def size (bs : Iteration It Buffer) (fuel : Nat) : Checked Nat := bs.forEach (fun n b => n + b.size) 0 fuel

def toString (bs : Iteration It Buffer) (mem : Mem) (fuel : Nat) : Checked (List Byte) :=
  bs.forEach (fun s b => s ++ b.addresses.map mem) [] fuel

def front (bs : Iteration It Buffer) : Checked Buffer := do
  let it ← bs.first
  let last ← bs.last
  if ← bs.equal it last then
    return ⟨0, 0⟩
  else
    bs.deref it

/-! ### `copy` -/

structure CopyState (It It' : Type) where
  mem : Mem
  total : Nat
  it0 : It
  pos0 : Nat
  it1 : It'
  pos1 : Nat

/-- `++it` and `pos = 0` when the block used up the buffer `b`, else `pos += amount`. -/
def advance (bs : Iteration It Buffer) (it : It) (pos : Nat) (b : Buffer) (amount : Nat) : Checked (It × Nat) :=
  if amount = b.size then do
    let it ← bs.inc it
    return (it, 0)
  else
    return (it, pos + amount)

def copyBody (dest : Iteration It' Buffer) (src : Iteration It Buffer) (end0 : It) (end1 : It') (atMost : Option Nat)
    (s : CopyState It It') : Checked (Next (CopyState It It') (Nat × Mem)) := do
  if !below s.total atMost then
    return .done (s.total, s.mem)
  else if ← src.equal s.it0 end0 then
    return .done (s.total, s.mem)
  else if ← dest.equal s.it1 end1 then
    return .done (s.total, s.mem)
  else
    let b0 ← src.deref s.it0
    let b1 ← dest.deref s.it1
    let b0 := b0.addAssign s.pos0
    let b1 := b1.addAssign s.pos1
    let amount ← blockSize b0 b1 s.total atMost
    let mem := if amount ≠ 0 then s.mem.memcpy b1.data b0.data amount else s.mem
    let (it1, pos1) ← advance dest s.it1 s.pos1 b1 amount
    let (it0, pos0) ← advance src s.it0 s.pos0 b0 amount
    return .again { mem := mem, total := s.total + amount, it0 := it0, pos0 := pos0, it1 := it1, pos1 := pos1 }

def copy (dest : Iteration It' Buffer) (src : Iteration It Buffer) (mem : Mem) (atMost : Option Nat) (fuel : Nat) :
    Checked (Nat × Mem) := do
  let end0 ← src.last
  let end1 ← dest.last
  let it0 ← src.first
  let it1 ← dest.first
  loop (copyBody dest src end0 end1 atMost) fuel { mem := mem, total := 0, it0 := it0, pos0 := 0, it1 := it1, pos1 := 0 }

end Algorithms
end Buffers
