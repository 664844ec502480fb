import Buffers.Lib.Cells
import Mathlib.Data.Finset.Card

/-! # Shared cells

A cell may have several owners. Its use count is the number of handles of it: one when it is made, one more for each
handle copied, one less for each handle dropped; with the last one the cell is destroyed. `Counted` says that the use
counts are the numbers of owners. It survives a change of one owner's handle when the counts change as the handle
does (`Counts.update`), whatever the order in which the old handle is dropped and the new one made. -/

structure Shared (κ : Type) where
  cells : Cells κ := {}
  uses : Nat → Nat := fun _ => 0

namespace Shared
open Checked
variable {κ ω : Type}

/-- A new cell, numbered `cells.next`, and the handle of it. -/
def make (s : Shared κ) (x : κ) : Shared κ :=
  { cells := s.cells.make x, uses := Function.update s.uses s.cells.next 1 }

/-- Copies a handle. -/
def share (s : Shared κ) : Option Nat → Shared κ
  | some h => { s with uses := Function.update s.uses h (s.uses h + 1) }
  | none => s

/-- Drops a handle, and the cell with the last one. -/
def drop (s : Shared κ) : Option Nat → Checked (Shared κ)
  | some h => do
    let n ← sub (s.uses h) 1
    let s := { s with uses := Function.update s.uses h n }
    if n = 0 then
      let cells ← s.cells.destroy h
      return { s with cells := cells }
    else
      return s
  | none => .ok s

/-- A new cell that has no handle. -/
def build (s : Shared κ) (x : κ) : Shared κ := { s with cells := s.cells.make x }

/-- Changes what a cell holds. -/
def set (s : Shared κ) (h : Nat) (x : κ) : Shared κ :=
  { s with cells := { s.cells with get := Function.update s.cells.get h (some x) } }

/-- What a handle counts for the cell `h`. -/
def tally (v : Option Nat) (h : Nat) : Nat := if v = some h then 1 else 0

@[simp] theorem tally_none (h : Nat) : tally none h = 0 := rfl

@[simp] theorem tally_self (h : Nat) : tally (some h) h = 1 := if_pos rfl

theorem tally_of_ne {v : Option Nat} {h : Nat} (hne : v ≠ some h) : tally v h = 0 := if_neg hne

/-! ### Counts -/

/-- The cell `h` has `uses h` handles: those of its owners, and one that is on its way from one owner to another. -/
def Counts (uses : Nat → Nat) (handle : ω → Option Nat) (moving : Option Nat) : Prop :=
  ∀ h, ∃ owners : Finset ω, (∀ o, o ∈ owners ↔ handle o = some h) ∧ owners.card + tally moving h = uses h

/-- The use counts are the numbers of handles, and what is in use is live. -/
structure Counted (s : Shared κ) (handle : ω → Option Nat) (moving : Option Nat) : Prop where
  counts : Counts s.uses handle moving
  live : ∀ h, 0 < s.uses h → ∃ x, s.cells.get h = some x
  below : ∀ h x, s.cells.get h = some x → h < s.cells.next

/-- And what is live is in use. -/
structure Tight (s : Shared κ) (handle : ω → Option Nat) (moving : Option Nat) : Prop extends Counted s handle moving where
  used : ∀ h x, s.cells.get h = some x → 0 < s.uses h

section
variable {uses : Nat → Nat} {handle : ω → Option Nat} {moving : Option Nat} {o : ω} {h : Nat}

theorem Counts.pos (hc : Counts uses handle moving) (ho : handle o = some h) : 0 < uses h := by
  obtain ⟨owners, hmem, hcard⟩ := hc h
  have hpos : 0 < owners.card := Finset.card_pos.mpr ⟨o, (hmem o).mpr ho⟩
  omega

theorem Counts.pos_moving (hc : Counts uses handle (some h)) : 0 < uses h := by
  obtain ⟨owners, -, hcard⟩ := hc h
  rw [tally_self] at hcard
  omega

theorem Counts.exists_owner (hc : Counts uses handle none) (hpos : 0 < uses h) : ∃ o, handle o = some h := by
  obtain ⟨owners, hmem, hcard⟩ := hc h
  rw [tally_none, Nat.add_zero] at hcard
  obtain ⟨o, ho⟩ := Finset.card_pos.mp (hcard ▸ hpos)
  exact ⟨o, (hmem o).mp ho⟩

/-- A handle that changes adds to the count of a cell, or takes from it. -/
theorem Counts.move {uses' : Nat → Nat} {moving' : Option Nat} (hc : Counts uses handle moving)
    (huses : ∀ k, uses' k + tally moving k = uses k + tally moving' k) : Counts uses' handle moving' := by
  intro k
  obtain ⟨owners, hmem, hcard⟩ := hc k
  have hsum := huses k
  exact ⟨owners, hmem, by omega⟩

/-- An owner exchanges its handle for the one on its way. -/
theorem Counts.swap [DecidableEq ω] (hc : Counts uses handle moving) (o : ω) :
    Counts uses (Function.update handle o moving) (handle o) := by
  intro k
  obtain ⟨owners, hmem, hcard⟩ := hc k
  have hothers (o' : ω) (hne : o' ≠ o) : Function.update handle o moving o' = handle o' := Function.update_of_ne hne ..
  have hrest : (owners.erase o).card + tally (handle o) k = owners.card := by
    by_cases hold : handle o = some k
    · rw [hold, tally_self]
      exact Finset.card_erase_add_one ((hmem o).mpr hold)
    · rw [tally_of_ne hold, Finset.erase_eq_of_notMem fun ho => hold ((hmem o).mp ho), Nat.add_zero]
  by_cases hnew : moving = some k
  · refine ⟨insert o (owners.erase o), fun o' => ?_, ?_⟩
    · by_cases hne : o' = o
      · subst hne
        simp [hnew]
      · rw [hothers o' hne, Finset.mem_insert, Finset.mem_erase, hmem]
        simp [hne]
    · rw [Finset.card_insert_of_notMem (Finset.notMem_erase o owners)]
      rw [hnew, tally_self] at hcard
      omega
  · refine ⟨owners.erase o, fun o' => ?_, ?_⟩
    · by_cases hne : o' = o
      · subst hne
        simp [hnew]
      · rw [hothers o' hne, Finset.mem_erase, hmem]
        exact and_iff_right hne
    · rw [tally_of_ne hnew] at hcard
      omega

end

/-! ### The operations -/

section
variable {s : Shared κ} {handle : ω → Option Nat} {moving : Option Nat}

@[simp] theorem share_cells (s : Shared κ) (v : Option Nat) : (s.share v).cells = s.cells := by cases v <;> rfl

theorem share_uses (s : Shared κ) (v : Option Nat) (k : Nat) : (s.share v).uses k = s.uses k + tally v k := by
  cases v with
  | none => rfl
  | some h =>
    by_cases hk : k = h
    · subst hk
      simp [share]
    · rw [tally_of_ne fun he => hk (Option.some.inj he).symm]
      exact Function.update_of_ne hk ..

@[simp] theorem make_get_next (s : Shared κ) (x : κ) : (s.make x).cells.get s.cells.next = some x := s.cells.make_get_next x

theorem make_get_of_ne (s : Shared κ) (x : κ) {k : Nat} (hk : k ≠ s.cells.next) : (s.make x).cells.get k = s.cells.get k :=
  s.cells.make_get_of_ne x hk

theorem make_uses_of_ne (s : Shared κ) (x : κ) {k : Nat} (hk : k ≠ s.cells.next) : (s.make x).uses k = s.uses k :=
  Function.update_of_ne hk ..

theorem build_get_of_ne (s : Shared κ) (x : κ) {k : Nat} (hk : k ≠ s.cells.next) :
    (s.build x).cells.get k = s.cells.get k :=
  s.cells.make_get_of_ne x hk

theorem set_get_of_ne (s : Shared κ) (x : κ) {h k : Nat} (hk : k ≠ h) : (s.set h x).cells.get k = s.cells.get k :=
  Function.update_of_ne hk ..

@[simp] theorem set_get_self (s : Shared κ) (h : Nat) (x : κ) : (s.set h x).cells.get h = some x := Function.update_self ..

namespace Counted

theorem init : Counted ({} : Shared κ) (fun _ : ω => none) none where
  counts _ := ⟨∅, fun _ => by simp, rfl⟩
  live _ hpos := absurd hpos (Nat.lt_irrefl 0)
  below := by simp

theorem owned (hc : Counted s handle moving) {o : ω} {h : Nat} (ho : handle o = some h) : ∃ x, s.cells.get h = some x :=
  hc.live h (hc.counts.pos ho)

/-- The next cell is not in use. -/
theorem uses_next (hc : Counted s handle moving) : s.uses s.cells.next = 0 := by
  by_contra hne
  obtain ⟨x, hx⟩ := hc.live _ (Nat.pos_of_ne_zero hne)
  exact Nat.lt_irrefl _ (hc.below _ x hx)

theorem make (hc : Counted s handle none) (x : κ) : Counted (s.make x) handle (some s.cells.next) where
  counts := hc.counts.move fun k => by
    by_cases hk : k = s.cells.next
    · subst hk
      simp [Shared.make, hc.uses_next]
    · rw [s.make_uses_of_ne x hk, tally_of_ne fun he => hk (Option.some.inj he).symm, tally_none]
  live k hk := by
    by_cases hne : k = s.cells.next
    · subst hne
      exact ⟨x, s.make_get_next x⟩
    · rw [s.make_uses_of_ne x hne] at hk
      rw [s.make_get_of_ne x hne]
      exact hc.live k hk
  below k y hy := by
    by_cases hne : k = s.cells.next
    · subst hne
      exact Nat.lt_succ_self _
    · rw [s.make_get_of_ne x hne] at hy
      exact Nat.lt_succ_of_lt (hc.below k y hy)

theorem share (hc : Counted s handle none) {v : Option Nat} (hv : ∀ h, v = some h → 0 < s.uses h) :
    Counted (s.share v) handle v where
  counts := hc.counts.move fun k => by rw [share_uses, tally_none, Nat.add_zero]
  live k hk := by
    rw [share_cells]
    refine hc.live k ?_
    by_cases hvk : v = some k
    · exact hv k hvk
    · rwa [share_uses, tally_of_ne hvk] at hk
  below := by
    rw [share_cells]
    exact hc.below

theorem swap [DecidableEq ω] (hc : Counted s handle moving) (o : ω) :
    Counted s (Function.update handle o moving) (handle o) :=
  ⟨hc.counts.swap o, hc.live, hc.below⟩

theorem set (hc : Counted s handle moving) (h : Nat) (x : κ) (hh : ∃ y, s.cells.get h = some y) :
    Counted (s.set h x) handle moving where
  counts := hc.counts
  live k hk := by
    by_cases hne : k = h
    · subst hne
      exact ⟨x, s.set_get_self k x⟩
    · rw [s.set_get_of_ne x hne]
      exact hc.live k hk
  below k y hy := by
    by_cases hne : k = h
    · subst hne
      obtain ⟨z, hz⟩ := hh
      exact hc.below k z hz
    · rw [s.set_get_of_ne x hne] at hy
      exact hc.below k y hy

/-- A dropped handle takes the cell with it when it is the last one, and nothing else. -/
theorem drop (hc : Counted s handle moving) :
    ∃ t, s.drop moving = .ok t ∧ Counted t handle none ∧ t.cells.next = s.cells.next ∧
      (∀ k, t.uses k + tally moving k = s.uses k) ∧
      ∀ k, t.cells.get k = if moving = some k ∧ t.uses k = 0 then none else s.cells.get k := by
  cases moving with
  | none => exact ⟨s, rfl, hc, rfl, fun k => by simp, fun k => by simp⟩
  | some h =>
    have hpos : 1 ≤ s.uses h := hc.counts.pos_moving
    obtain ⟨x, hx⟩ := hc.live h hpos
    let uses : Nat → Nat := Function.update s.uses h (s.uses h - 1)
    have hself : uses h = s.uses h - 1 := Function.update_self ..
    have hother (k : Nat) (hk : k ≠ h) : uses k = s.uses k := Function.update_of_ne hk ..
    have huses (k : Nat) : uses k + tally (some h) k = s.uses k := by
      by_cases hk : k = h
      · subst hk
        rw [hself, tally_self]
        omega
      · rw [hother k hk, tally_of_ne fun he => hk (Option.some.inj he).symm, Nat.add_zero]
    have hcounts : Counts uses handle none := hc.counts.move fun k => by rw [huses, tally_none, Nat.add_zero]
    by_cases hlast : s.uses h - 1 = 0
    · refine ⟨{ cells := s.cells.remove h, uses := uses }, ?_, ⟨hcounts, fun k hk => ?_, fun k y hy => ?_⟩, rfl, huses,
        fun k => ?_⟩
      · simp [Shared.drop, sub_of_le hpos, hlast, Cells.destroy_of_some hx, uses]
      · have hne : k ≠ h := by
          rintro rfl
          exact absurd (hself.trans hlast) (Nat.ne_of_gt hk)
        rw [s.cells.remove_get_of_ne hne]
        exact hc.live k (hother k hne ▸ hk)
      · have hne : k ≠ h := by
          rintro rfl
          simp at hy
        rw [s.cells.remove_get_of_ne hne] at hy
        exact hc.below k y hy
      · by_cases hne : k = h
        · subst hne
          simp [hself, hlast]
        · rw [if_neg fun hand => hne (Option.some.inj hand.1).symm]
          exact s.cells.remove_get_of_ne hne
    · refine ⟨{ s with uses := uses }, ?_, ⟨hcounts, fun k hk => ?_, hc.below⟩, rfl, huses, fun k => ?_⟩
      · simp [Shared.drop, sub_of_le hpos, hlast, uses]
      · refine hc.live k ?_
        have hsum := huses k
        simp only at hk
        omega
      · rw [if_neg]
        rintro ⟨hk, hz⟩
        cases hk
        exact hlast (hself.symm.trans hz)

/-- A cell that has no handle may be made as well. -/
theorem build (hc : Counted s handle moving) (x : κ) : Counted (s.build x) handle moving where
  counts := hc.counts
  live k hk := by
    have hne : k ≠ s.cells.next := by
      rintro rfl
      exact Nat.ne_of_gt hk hc.uses_next
    rw [s.build_get_of_ne x hne]
    exact hc.live k hk
  below k y hy := by
    by_cases hne : k = s.cells.next
    · subst hne
      exact Nat.lt_succ_self _
    · rw [s.build_get_of_ne x hne] at hy
      exact Nat.lt_succ_of_lt (hc.below k y hy)

end Counted

/-! ### What becomes of the cells -/

/-- From `s` to `t`, a cell is destroyed when its last handle goes, and not otherwise. -/
structure Passes (s t : Shared κ) : Prop where
  next : s.cells.next ≤ t.cells.next
  gone : ∀ k, k < s.cells.next → s.cells.get k = none → t.cells.get k = none
  unused : ∀ k, k < s.cells.next → s.uses k = 0 → t.uses k = 0
  stays : ∀ k x, s.cells.get k = some x → t.cells.get k = if 0 < s.uses k ∧ t.uses k = 0 then none else some x

namespace Passes
variable {t u : Shared κ}

theorem refl (s : Shared κ) : Passes s s where
  next := Nat.le_refl _
  gone _ _ hnone := hnone
  unused _ _ hz := hz
  stays k x hx := by
    rw [hx, if_neg]
    rintro ⟨hpos, hz⟩
    exact Nat.ne_of_gt hpos hz

theorem trans (hst : Passes s t) (htu : Passes t u) (below : ∀ k x, s.cells.get k = some x → k < s.cells.next) :
    Passes s u where
  next := hst.next.trans htu.next
  gone k hk hnone := htu.gone k (hk.trans_le hst.next) (hst.gone k hk hnone)
  unused k hk hz := htu.unused k (hk.trans_le hst.next) (hst.unused k hk hz)
  stays k x hx := by
    have hk := below k x hx
    have hk' := hk.trans_le hst.next
    have hstays := hst.stays k x hx
    by_cases hend : 0 < s.uses k ∧ t.uses k = 0
    · rw [if_pos hend] at hstays
      rw [htu.gone k hk' hstays, if_pos ⟨hend.1, htu.unused k hk' hend.2⟩]
    · rw [if_neg hend] at hstays
      rw [htu.stays k x hstays]
      refine if_congr (and_congr_left fun _ => ?_) rfl rfl
      constructor
      · intro hpos
        by_contra hz
        exact Nat.ne_of_gt hpos (hst.unused k hk (Nat.eq_zero_of_not_pos hz))
      · intro hpos
        by_contra hz
        exact hend ⟨hpos, Nat.eq_zero_of_not_pos hz⟩

theorem make (hc : Counted s handle moving) (x : κ) : Passes s (s.make x) where
  next := Nat.le_succ _
  gone k hk hnone := by rwa [s.make_get_of_ne x (Nat.ne_of_lt hk)]
  unused k hk hz := by rwa [s.make_uses_of_ne x (Nat.ne_of_lt hk)]
  stays k y hy := by
    have hne := Nat.ne_of_lt (hc.below k y hy)
    rw [s.make_get_of_ne x hne, s.make_uses_of_ne x hne]
    exact (refl s).stays k y hy

theorem build (hc : Counted s handle moving) (x : κ) : Passes s (s.build x) where
  next := Nat.le_succ _
  gone k hk hnone := by rwa [s.build_get_of_ne x (Nat.ne_of_lt hk)]
  unused _ _ hz := hz
  stays k y hy := by
    rw [s.build_get_of_ne x (Nat.ne_of_lt (hc.below k y hy))]
    exact (refl s).stays k y hy

theorem share {v : Option Nat} (hv : ∀ h, v = some h → 0 < s.uses h) : Passes s (s.share v) where
  next := by rw [share_cells]
  gone k _ hnone := by rwa [share_cells]
  unused k _ hz := by
    rw [share_uses, hz, tally_of_ne fun he => Nat.ne_of_gt (hv k he) hz]
  stays k x hx := by
    rw [share_cells, hx, if_neg]
    rintro ⟨hpos, hz⟩
    rw [share_uses] at hz
    exact Nat.ne_of_gt hpos (Nat.eq_zero_of_add_eq_zero_right hz)

theorem drop (hnext : t.cells.next = s.cells.next) (huses : ∀ k, t.uses k + tally moving k = s.uses k)
    (hget : ∀ k, t.cells.get k = if moving = some k ∧ t.uses k = 0 then none else s.cells.get k) : Passes s t where
  next := Nat.le_of_eq hnext.symm
  gone k _ hnone := by rw [hget, hnone, ite_self]
  unused k _ hz := Nat.eq_zero_of_add_eq_zero_right ((huses k).trans hz)
  stays k x hx := by
    rw [hget, hx]
    refine if_congr (and_congr_left fun hz => ?_) rfl rfl
    rw [← huses k, hz, Nat.zero_add]
    by_cases hk : moving = some k
    · simp [hk]
    · simp [hk, tally_of_ne hk]

end Passes

namespace Tight

theorem init : Tight ({} : Shared κ) (fun _ : ω => none) none := ⟨.init, by simp⟩

theorem make (hc : Tight s handle none) (x : κ) : Tight (s.make x) handle (some s.cells.next) := by
  refine ⟨hc.toCounted.make x, fun k y hy => ?_⟩
  by_cases hne : k = s.cells.next
  · subst hne
    exact (hc.toCounted.make x).counts.pos_moving
  · rw [s.make_get_of_ne x hne] at hy
    rw [s.make_uses_of_ne x hne]
    exact hc.used k y hy

theorem share (hc : Tight s handle none) {v : Option Nat} (hv : ∀ h, v = some h → 0 < s.uses h) :
    Tight (s.share v) handle v := by
  refine ⟨hc.toCounted.share hv, fun k y hy => ?_⟩
  rw [share_cells] at hy
  rw [share_uses]
  exact Nat.add_pos_left (hc.used k y hy) _

theorem swap [DecidableEq ω] (hc : Tight s handle moving) (o : ω) : Tight s (Function.update handle o moving) (handle o) :=
  ⟨hc.toCounted.swap o, hc.used⟩

theorem set (hc : Tight s handle moving) (h : Nat) (x : κ) (hh : ∃ y, s.cells.get h = some y) :
    Tight (s.set h x) handle moving := by
  refine ⟨hc.toCounted.set h x hh, fun k y hy => ?_⟩
  by_cases hne : k = h
  · subst hne
    obtain ⟨z, hz⟩ := hh
    exact hc.used k z hz
  · rw [s.set_get_of_ne x hne] at hy
    exact hc.used k y hy

theorem drop (hc : Tight s handle moving) :
    ∃ t, s.drop moving = .ok t ∧ Tight t handle none ∧ t.cells.next = s.cells.next ∧
      ∀ k, t.cells.get k = if moving = some k ∧ t.uses k = 0 then none else s.cells.get k := by
  obtain ⟨t, ht, hcounted, hnext, huses, hget⟩ := hc.toCounted.drop
  refine ⟨t, ht, ⟨hcounted, fun k y hy => ?_⟩, hnext, hget⟩
  by_contra hz
  have hzero : t.uses k = 0 := Nat.eq_zero_of_not_pos hz
  by_cases hk : moving = some k
  · rw [hget, if_pos ⟨hk, hzero⟩] at hy
    cases hy
  · rw [hget, if_neg fun hand => hk hand.1] at hy
    have hpos := hc.used k y hy
    rw [← huses k, tally_of_ne hk, hzero] at hpos
    exact Nat.lt_irrefl 0 hpos

/-- The live cells are those that have an owner. -/
theorem live_iff (hc : Tight s handle none) (h : Nat) : (∃ x, s.cells.get h = some x) ↔ ∃ o, handle o = some h := by
  constructor
  · rintro ⟨x, hx⟩
    exact hc.counts.exists_owner (hc.used h x hx)
  · rintro ⟨o, ho⟩
    exact hc.owned ho

end Tight
end

end Shared
