import Buffers.Algorithms
import Buffers.Theorems.AnyBuffers
import Buffers.Theorems.Copy

/-! # Algorithms over type-erased sequences

An algorithm gives the same over any iterators of a sequence (`copy_eq_plain`), so over the objects of a program it
gives what it gives over the sequences that they go back to (`any_computes`). -/

namespace Buffers
namespace Algorithms
open Checked

section
variable {It It' : Type} {src : Iteration It Buffer} {dest : Iteration It' Buffer} {pos : Nat → It} {pos' : Nat → It'}
  {xs ys : List Buffer} {atMost : Option Nat}

theorem size_eq_plain (h : Iterates src pos xs) {fuel : Nat} (hfuel : xs.length < fuel) :
    size src fuel = .ok (Buffers.size xs) :=
  h.forEach_eq _ 0 hfuel

theorem toString_eq_plain (h : Iterates src pos xs) (mem : Mem) {fuel : Nat} (hfuel : xs.length < fuel) :
    toString src mem fuel = .ok ((addresses xs).map mem) := by
  have hfold (bs : List Buffer) (s : List Byte) :
      bs.foldl (fun s b => s ++ b.addresses.map mem) s = s ++ (addresses bs).map mem := by
    induction bs generalizing s with
    | nil => simp
    | cons b bs ih => rw [List.foldl_cons, ih, addresses_cons, List.map_append, List.append_assoc]
  rw [toString, h.forEach_eq _ [] hfuel, hfold, List.nil_append]

theorem front_eq_plain (h : Iterates src pos xs) : front src = .ok (xs.head?.getD ⟨0, 0⟩) := by
  have heq := h.equal_at 0 xs.length (Nat.zero_le _) (Nat.le_refl _)
  simp only [front, h.first_eq, h.last_eq, ok_bind, heq]
  cases xs with
  | nil => rfl
  | cons b bs => exact h.deref_at 0 b rfl

/-- The iterator `it` with the offset `p` is the cursor `c`. -/
def At (pos : Nat → It) (xs : List Buffer) (it : It) (p : Nat) (c : Cursor) : Prop :=
  ∃ i, i ≤ xs.length ∧ it = pos i ∧ c = ⟨xs.drop i, p⟩

structure Matches (pos : Nat → It) (xs : List Buffer) (pos' : Nat → It') (ys : List Buffer) (s : CopyState It It')
    (t : Buffers.CopyState) : Prop where
  mem : s.mem = t.mem
  total : s.total = t.total
  src : At pos xs s.it0 s.pos0 t.src
  dest : At pos' ys s.it1 s.pos1 t.dest

theorem At.ended {it : It} {p : Nat} {c : Cursor} (h : Iterates src pos xs) (hat : At pos xs it p c) :
    (src.equal it (pos xs.length) = .ok true ∧ c.it = []) ∨
      ∃ b bs, src.equal it (pos xs.length) = .ok false ∧ c.it = b :: bs ∧ src.deref it = .ok b := by
  obtain ⟨i, hi, rfl, rfl⟩ := hat
  have heq := h.equal_at i xs.length hi (Nat.le_refl _)
  by_cases hend : i = xs.length
  · refine Or.inl ⟨?_, ?_⟩
    · rw [heq, decide_eq_true hend]
    · rw [hend]
      exact List.drop_length
  · have hlt : i < xs.length := Nat.lt_of_le_of_ne hi hend
    refine Or.inr ⟨xs[i], xs.drop (i + 1), ?_, List.drop_eq_getElem_cons hlt, ?_⟩
    · rw [heq, decide_eq_false hend]
    · exact h.deref_at i xs[i] (List.getElem?_eq_getElem hlt)

theorem At.advance {it : It} {c : Cursor} (h : Iterates src pos xs) (hat : At pos xs it c.pos c) (hne : c.it ≠ [])
    (b : Buffer) (amount : Nat) :
    ∃ it' p', Algorithms.advance src it c.pos b amount = .ok (it', p') ∧ At pos xs it' p' (c.advance b amount) := by
  obtain ⟨i, hi, rfl, hc⟩ := hat
  have hlt : i < xs.length := by
    by_contra hnot
    rw [hc] at hne
    exact hne (List.drop_eq_nil_of_le (Nat.not_lt.mp hnot))
  unfold Algorithms.advance Cursor.advance
  split
  · refine ⟨pos (i + 1), 0, by rw [h.inc_at i hlt]; rfl, i + 1, hlt, rfl, ?_⟩
    rw [hc, List.tail_drop]
  · refine ⟨pos i, c.pos + amount, rfl, i, hi, rfl, ?_⟩
    rw [hc]

theorem At.pos_eq {it : It} {p : Nat} {c : Cursor} (hat : At pos xs it p c) : p = c.pos := by
  obtain ⟨i, -, -, rfl⟩ := hat
  rfl

theorem copy_round (hsrc : Iterates src pos xs) (hdest : Iterates dest pos' ys) (s : CopyState It It')
    (t : Buffers.CopyState) (h : Matches pos xs pos' ys s t) :
    Lockstep (Matches pos xs pos' ys) (copyBody dest src (pos xs.length) (pos' ys.length) atMost s)
      (Buffers.copyBody atMost t) := by
  unfold copyBody Buffers.copyBody
  rw [h.mem, h.total, h.src.pos_eq, h.dest.pos_eq]
  cases hbelow : below t.total atMost with
  | false => exact Or.inl ⟨(t.total, t.mem), rfl, rfl⟩
  | true =>
    rcases h.src.ended hsrc with ⟨hend, hnil⟩ | ⟨b0, bs0, hgo0, hcons0, hderef0⟩
    · exact Or.inl ⟨(t.total, t.mem), by simp [hend], by simp [hnil]⟩
    · rcases h.dest.ended hdest with ⟨hend, hnil⟩ | ⟨b1, bs1, hgo1, hcons1, hderef1⟩
      · exact Or.inl ⟨(t.total, t.mem), by simp [hgo0, hend], by simp [hcons0, hnil]⟩
      · obtain ⟨amount, hamount, -⟩ := blockSize_spec (b0.addAssign t.src.pos) (b1.addAssign t.dest.pos) hbelow
        have hat0 := h.src
        have hat1 := h.dest
        rw [h.src.pos_eq] at hat0
        rw [h.dest.pos_eq] at hat1
        obtain ⟨it0, p0, hadvance0, hat0⟩ := hat0.advance hsrc (by simp [hcons0]) (b0.addAssign t.src.pos) amount
        obtain ⟨it1, p1, hadvance1, hat1⟩ := hat1.advance hdest (by simp [hcons1]) (b1.addAssign t.dest.pos) amount
        let mem :=
          if amount ≠ 0 then t.mem.memcpy (b1.addAssign t.dest.pos).data (b0.addAssign t.src.pos).data amount else t.mem
        refine Or.inr ⟨⟨mem, t.total + amount, it0, p0, it1, p1⟩, ⟨mem, t.total + amount,
          t.src.advance (b0.addAssign t.src.pos) amount, t.dest.advance (b1.addAssign t.dest.pos) amount⟩, ?_, ?_,
          ⟨rfl, rfl, hat0, hat1⟩⟩
        · simp [hgo0, hgo1, hderef0, hderef1, hamount, hadvance0, hadvance1, mem]
        · simp [hcons0, hcons1, hamount, mem]

/-- `copy` does the same over any iterators of the two sequences. -/
theorem copy_eq_plain (hsrc : Iterates src pos xs) (hdest : Iterates dest pos' ys) (mem : Mem) (atMost : Option Nat) :
    copy dest src mem atMost (xs.length + ys.length + 2) = Buffers.copy ys xs mem atMost := by
  simp only [copy, hsrc.last_eq, hsrc.first_eq, hdest.last_eq, hdest.first_eq, ok_bind]
  exact loop_lockstep (copy_round hsrc hdest)
    ⟨rfl, rfl, ⟨0, Nat.zero_le _, rfl, rfl⟩, ⟨0, Nat.zero_le _, rfl, rfl⟩⟩ _

end

end Algorithms

namespace AnyBuffers
open Checked

variable {ι : Type} {T : ι → Type} [∀ i, BufferSequence (T i)] [DecidableEq ι]

/-- The iterators of a live object are those of the sequence that it goes back to. -/
theorem Inv.iterates {w : World T} {m : Origins T} (h : Inv w m) {o : Nat} {v : Option (Wrapped T)} (hv : m o = some v) :
    ∃ pos, Iterates (w.iterators o) pos (contents v) := by
  cases hx : w.objects o with
  | none =>
    rw [h.origin_of_none hx] at hv
    cases hv
  | some x =>
    obtain ⟨u, hu, hp, -⟩ := h.origin_of_some hx
    rw [hv] at hu
    cases hu
    obtain ⟨pos, hpos⟩ := iterates_ofOrigin v
    exact ⟨_, iterates_object hx hp hpos⟩

/-- After any run, the algorithms give over the objects what they give over the sequences that these go back to; `copy`
    also between an object and a sequence that is not wrapped. -/
theorem any_computes (actions : List (Action T)) :
    ∃ w, Run.run step ({} : World T) actions = .ok w ∧ ∀ o v, origins actions o = some v →
      (∀ fuel, (contents v).length < fuel → Algorithms.size (w.iterators o) fuel = .ok (Buffers.size (contents v)) ∧
        ∀ mem, Algorithms.toString (w.iterators o) mem fuel = .ok ((addresses (contents v)).map mem)) ∧
      Algorithms.front (w.iterators o) = .ok ((contents v).head?.getD ⟨0, 0⟩) ∧
      (∀ o' v', origins actions o' = some v' → ∀ mem atMost,
        Algorithms.copy (w.iterators o') (w.iterators o) mem atMost ((contents v).length + (contents v').length + 2) =
          Buffers.copy (contents v') (contents v) mem atMost) ∧
      ∀ (s : Wrapped T) mem atMost,
        Algorithms.copy (BufferSequence.iterators s.2) (w.iterators o) mem atMost
            ((contents v).length + (BufferSequence.buffers s.2).length + 2) =
          Buffers.copy (BufferSequence.buffers s.2) (contents v) mem atMost ∧
        Algorithms.copy (w.iterators o) (BufferSequence.iterators s.2) mem atMost
            ((BufferSequence.buffers s.2).length + (contents v).length + 2) =
          Buffers.copy (contents v) (BufferSequence.buffers s.2) mem atMost := by
  obtain ⟨w, hw, hinv⟩ := run_inv actions
  refine ⟨w, hw, fun o v hv => ?_⟩
  obtain ⟨pos, hpos⟩ := hinv.iterates hv
  refine ⟨fun fuel hfuel => ⟨Algorithms.size_eq_plain hpos hfuel, fun mem => Algorithms.toString_eq_plain hpos mem hfuel⟩,
    Algorithms.front_eq_plain hpos, fun o' v' hv' mem atMost => ?_, fun s mem atMost => ⟨?_, ?_⟩⟩
  · obtain ⟨pos', hpos'⟩ := hinv.iterates hv'
    exact Algorithms.copy_eq_plain hpos hpos' mem atMost
  · exact Algorithms.copy_eq_plain hpos (BufferSequence.iterates s.2) mem atMost
  · exact Algorithms.copy_eq_plain (BufferSequence.iterates s.2) hpos mem atMost

end AnyBuffers
end Buffers
