import Buffers.Theorems.Algorithms
import Buffers.Theorems.SliceOver

/-! # Slices of type-erased sequences

A slice of an `any_buffers` holds a copy of it, which is an object as well, and is over the iterators of that object
(`sliced_presents`). The algorithms see a slice through its own iterators, so what they do is done to the window of
the run that made it (`any_slices`). -/

namespace Buffers
open Checked

/-! ### Iterators of a byte range -/

section
variable {It It' : Type} {ops : Iteration It Buffer} {ops' : Iteration It' Buffer} {n : Nat} {l l' : List Nat}

/-- The iterators read buffers, `n` of them at most, that hold the addresses `l`. -/
def Presents (ops : Iteration It Buffer) (n : Nat) (l : List Nat) : Prop :=
  ∃ pos xs, Iterates ops pos xs ∧ xs.length ≤ n ∧ addresses xs = l

namespace Presents

theorem size_eq (h : Presents ops n l) {fuel : Nat} (hfuel : n < fuel) : Algorithms.size ops fuel = .ok l.length := by
  obtain ⟨pos, xs, hpos, hle, rfl⟩ := h
  rw [Algorithms.size_eq_plain hpos (Nat.lt_of_le_of_lt hle hfuel), Buffers.size_eq]

theorem toString_eq (h : Presents ops n l) (mem : Mem) {fuel : Nat} (hfuel : n < fuel) :
    Algorithms.toString ops mem fuel = .ok (l.map mem) := by
  obtain ⟨pos, xs, hpos, hle, rfl⟩ := h
  exact Algorithms.toString_eq_plain hpos mem (Nat.lt_of_le_of_lt hle hfuel)

/-- `copy` between two ranges that do not overlap moves the bytes that both have room for. -/
theorem copy_eq {n' : Nat} (hsrc : Presents ops n l) (hdest : Presents ops' n' l') (hdisj : l.Disjoint l') (mem : Mem)
    (atMost : Option Nat) {fuel : Nat} (hfuel : n + n' + 2 ≤ fuel) :
    Algorithms.copy ops' ops mem atMost fuel =
      .ok (capped atMost (min l'.length l.length),
        mem.store (l'.take (capped atMost (min l'.length l.length)))
          ((l.take (capped atMost (min l'.length l.length))).map mem)) := by
  obtain ⟨pos, xs, hpos, hle, rfl⟩ := hsrc
  obtain ⟨pos', ys, hpos', hle', rfl⟩ := hdest
  have hplain := Algorithms.copy_eq_plain hpos hpos' mem atMost
  rw [Buffers.copy_eq ys xs mem atMost hdisj, copySize, Buffers.size_eq, Buffers.size_eq] at hplain
  simp only [Algorithms.copy, hpos.first_eq, hpos.last_eq, hpos'.first_eq, hpos'.last_eq, ok_bind] at hplain ⊢
  exact loop_of_le hplain (by omega)

end Presents
end

namespace AnyBuffers
variable {ι : Type} {T : ι → Type} [∀ i, BufferSequence (T i)] [DecidableEq ι]

/-- A slice of the object `o`, which is the copy that it holds, after operations in place. -/
def World.sliced (w : World T) (o : Nat) (ops : List SliceOp) (fuel : Nat) : Checked (SliceOver (ConstIterator T)) := do
  let s ← SliceOver.ofSequence (w.iterators o) fuel
  Run.run (SliceOver.apply fuel) s ops

theorem Inv.sliced_presents {w : World T} {m : Origins T} (h : Inv w m) {o : Nat} {v : Option (Wrapped T)}
    (hv : m o = some v) {ops : List SliceOp}
    (hops : Run.Always SliceOp.apply (fun p op => ¬Restores p op) (SliceOf.ofSequence (contents v)) ops)
    {fuel : Nat} (hfuel : (contents v).length < fuel) :
    ∃ t, w.sliced o ops fuel = .ok t ∧
      Presents t.iterators (contents v).length (ops.foldl SliceOp.window (addresses (contents v))) := by
  obtain ⟨pos, hpos⟩ := h.iterates hv
  obtain ⟨s, hs, ha⟩ := SliceOver.ofSequence_agrees hpos hfuel
  have hsound : Sound (contents v) (SliceOf.ofSequence (contents v)) := ⟨by rw [ofSequence_eq], Or.inl (inv_ofSequence _)⟩
  obtain ⟨t, p, ht, hp, ha', hsound', hwindow⟩ := SliceOver.run_agrees hpos hfuel ha hsound hops
  refine ⟨t, ?_, _, p.yields, SliceOver.iterates_iterators hpos ha' hsound'.readable, ?_, ?_⟩
  · rw [World.sliced, hs]
    exact ht
  · have hlen := hsound'.readable.len_le
    rw [hsound'.bs_eq] at hlen
    rw [hsound'.readable.length_yields]
    exact hlen
  · rw [hsound'.addresses_yields, hwindow, denote_ofSequence]

/-- In every world that a run reaches, the algorithms give over slices of its objects what the windows say: the
    number of bytes, the bytes, and for `copy` the bytes that both slices have, moved in order, with no other byte
    changed. -/
theorem any_slices (actions : List (Action T)) :
    ∃ w, Run.run step ({} : World T) actions = .ok w ∧
      ∀ o v, origins actions o = some v → ∀ ops,
        Run.Always SliceOp.apply (fun p op => ¬Restores p op) (SliceOf.ofSequence (contents v)) ops →
        ∀ fuel, (contents v).length < fuel → ∃ t, w.sliced o ops fuel = .ok t ∧
          Algorithms.size t.iterators fuel = .ok (ops.foldl SliceOp.window (addresses (contents v))).length ∧
          (∀ mem, Algorithms.toString t.iterators mem fuel =
            .ok ((ops.foldl SliceOp.window (addresses (contents v))).map mem)) ∧
          ∀ o' v', origins actions o' = some v' → ∀ ops',
            Run.Always SliceOp.apply (fun p op => ¬Restores p op) (SliceOf.ofSequence (contents v')) ops' →
            ∀ fuel', (contents v').length < fuel' →
              let src := ops.foldl SliceOp.window (addresses (contents v))
              let dest := ops'.foldl SliceOp.window (addresses (contents v'))
              ∃ t', w.sliced o' ops' fuel' = .ok t' ∧
                (src.Disjoint dest → ∀ mem atMost,
                  Algorithms.copy t'.iterators t.iterators mem atMost (fuel + fuel') =
                    .ok (capped atMost (min dest.length src.length),
                      mem.store (dest.take (capped atMost (min dest.length src.length)))
                        ((src.take (capped atMost (min dest.length src.length))).map mem))) := by
  obtain ⟨w, hw, hinv⟩ := run_inv actions
  refine ⟨w, hw, fun o v hv ops hops fuel hfuel => ?_⟩
  obtain ⟨t, ht, hpresents⟩ := hinv.sliced_presents hv hops hfuel
  refine ⟨t, ht, hpresents.size_eq hfuel, fun mem => hpresents.toString_eq mem hfuel,
    fun o' v' hv' ops' hops' fuel' hfuel' => ?_⟩
  obtain ⟨t', ht', hpresents'⟩ := hinv.sliced_presents hv' hops' hfuel'
  exact ⟨t', ht', fun hdisj mem atMost => hpresents.copy_eq hpresents' hdisj mem atMost (by omega)⟩

/-- Five bytes in two buffers, without the first two, copied to the first two bytes of a third buffer. -/
theorem any_slices_copied :
    ∃ w t t', Run.run step ({} : World fun _ : Unit => List Buffer)
        [.convert 0 ⟨(), [⟨0, 3⟩, ⟨10, 2⟩]⟩, .convert 1 ⟨(), [⟨20, 4⟩]⟩] = .ok w ∧
      w.sliced 0 [.removePrefix 2] 3 = .ok t ∧ w.sliced 1 [.keepPrefix 2] 2 = .ok t' ∧
      Algorithms.size t.iterators 3 = .ok 3 ∧
      ∀ mem, Algorithms.copy t'.iterators t.iterators mem none 5 = .ok (2, mem.store [20, 21] ([2, 10].map mem)) := by
  obtain ⟨w, hw, hslices⟩ := any_slices (T := fun _ : Unit => List Buffer)
    [.convert 0 ⟨(), [⟨0, 3⟩, ⟨10, 2⟩]⟩, .convert 1 ⟨(), [⟨20, 4⟩]⟩]
  obtain ⟨t, ht, hsize, -, hcopies⟩ := hslices 0 (some ⟨(), [⟨0, 3⟩, ⟨10, 2⟩]⟩) rfl [.removePrefix 2]
    ⟨fun h => absurd h.1 (by decide), fun _ _ => trivial⟩ 3 (by decide)
  have hkeep : Run.Always SliceOp.apply (fun p op => ¬Restores p op) (SliceOf.ofSequence [⟨20, 4⟩]) [.keepPrefix 2] :=
    ⟨fun h => absurd h.1 (by decide), fun _ _ => trivial⟩
  obtain ⟨t', ht', hcopy⟩ := hcopies 1 (some ⟨(), [⟨20, 4⟩]⟩) rfl [.keepPrefix 2] hkeep 2 (by decide)
  exact ⟨w, t, t', hw, ht, ht', hsize, fun mem => hcopy (by unfold List.Disjoint; decide) mem none⟩

end AnyBuffers
end Buffers
