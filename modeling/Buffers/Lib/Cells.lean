import Buffers.Lib.Checked
import Mathlib.Logic.Function.Basic

/-! # Cells and their owners

Cells are made one after the other, under numbers that are never used again, and a live cell may be destroyed.
Each owner has at most one cell. `Balanced` says that the live cells and the owners that have one are in
one-to-one correspondence; an `Exchange`, in which one owner gives up its cell for a new one or for none, keeps
this exactly when it destroys the cell given up (`Exchange.balanced_iff`). -/

structure Cells (κ : Type) where
  get : Nat → Option κ := fun _ => none
  next : Nat := 0

namespace Cells
variable {κ ω : Type}

/-- A new cell, numbered `next`. -/
def make (c : Cells κ) (x : κ) : Cells κ := { get := Function.update c.get c.next (some x), next := c.next + 1 }

def remove (c : Cells κ) (h : Nat) : Cells κ := { c with get := Function.update c.get h none }

/-- The cells after the one given up, if any, is gone. -/
def drop (c : Cells κ) : Option Nat → Cells κ
  | some h => c.remove h
  | none => c

/-- Destroys a live cell. -/
def destroy (c : Cells κ) (h : Nat) : Checked (Cells κ) :=
  match c.get h with
  | some _ => .ok (c.remove h)
  | none => .error .contract

@[simp] theorem make_next (c : Cells κ) (x : κ) : (c.make x).next = c.next + 1 := rfl

@[simp] theorem remove_next (c : Cells κ) (h : Nat) : (c.remove h).next = c.next := rfl

@[simp] theorem make_get_next (c : Cells κ) (x : κ) : (c.make x).get c.next = some x := Function.update_self ..

theorem make_get_of_ne (c : Cells κ) (x : κ) {h : Nat} (hne : h ≠ c.next) : (c.make x).get h = c.get h :=
  Function.update_of_ne hne ..

@[simp] theorem remove_get_self (c : Cells κ) (h : Nat) : (c.remove h).get h = none := Function.update_self ..

theorem remove_get_of_ne (c : Cells κ) {h k : Nat} (hne : k ≠ h) : (c.remove h).get k = c.get k :=
  Function.update_of_ne hne ..

@[simp] theorem drop_next (c : Cells κ) (old : Option Nat) : (c.drop old).next = c.next := by cases old <;> rfl

theorem drop_get_of_ne (c : Cells κ) {old : Option Nat} {k : Nat} (hne : old ≠ some k) : (c.drop old).get k = c.get k := by
  cases old with
  | none => rfl
  | some h => exact c.remove_get_of_ne fun he => hne (congrArg some he.symm)

theorem destroy_of_some {c : Cells κ} {h : Nat} {x : κ} (hx : c.get h = some x) : c.destroy h = .ok (c.remove h) := by
  simp [destroy, hx]

/-! ### Owners -/

/-- Each owner's cell is live and its own. -/
structure Owned (c : Cells κ) (cell : ω → Option Nat) : Prop where
  live : ∀ o h, cell o = some h → ∃ x, c.get h = some x
  distinct : ∀ o o' h, cell o = some h → cell o' = some h → o = o'
  below : ∀ h x, c.get h = some x → h < c.next

/-- The live cells and the owners that have one are in one-to-one correspondence. -/
structure Balanced (c : Cells κ) (cell : ω → Option Nat) : Prop extends Owned c cell where
  covered : ∀ h x, c.get h = some x → ∃ o, cell o = some h

/-- `o` gives up its cell, which may be destroyed, for a new one or for none. -/
structure Exchange (o : ω) (c : Cells κ) (cell : ω → Option Nat) (c' : Cells κ) (cell' : ω → Option Nat) :
    Prop where
  next : c.next ≤ c'.next
  others : ∀ o', o' ≠ o → cell' o' = cell o'
  old : ∀ h, h < c.next → c'.get h = c.get h ∨ cell o = some h ∧ c'.get h = none
  live : ∀ h, cell' o = some h → c.next ≤ h ∧ ∃ x, c'.get h = some x
  fresh : ∀ h x, c.next ≤ h → c'.get h = some x → cell' o = some h ∧ h < c'.next

variable {c c' : Cells κ} {cell cell' : ω → Option Nat} {o : ω}

theorem Owned.lt (h : Owned c cell) {k : Nat} (hk : cell o = some k) : k < c.next := by
  obtain ⟨x, hx⟩ := h.live o k hk
  exact h.below k x hx

namespace Exchange

/-- `o` gives up its cell for none. -/
theorem of_drop (h : Owned c cell) {old : Option Nat} (hold : ∀ k, old = some k → cell o = some k)
    (others : ∀ o', o' ≠ o → cell' o' = cell o') (hnone : cell' o = none) :
    Exchange o c cell (c.drop old) cell' where
  next := Nat.le_of_eq (c.drop_next old).symm
  others := others
  old k _ := by
    by_cases hk : old = some k
    · subst hk
      exact Or.inr ⟨hold k rfl, c.remove_get_self k⟩
    · exact Or.inl (c.drop_get_of_ne hk)
  live k hk := by
    rw [hnone] at hk
    cases hk
  fresh k x hk hx := by
    have hne : old ≠ some k := fun he => Nat.not_lt.mpr hk (h.lt (hold k he))
    rw [c.drop_get_of_ne hne] at hx
    exact absurd (h.below k x hx) (Nat.not_lt.mpr hk)

/-- `o` gives up its cell for a new one. -/
theorem of_make_drop (h : Owned c cell) {old : Option Nat} (hold : ∀ k, old = some k → cell o = some k) {x : κ}
    (others : ∀ o', o' ≠ o → cell' o' = cell o') (hnew : cell' o = some c.next) :
    Exchange o c cell ((c.make x).drop old) cell' where
  next := by simp
  others := others
  old k hlt := by
    by_cases hk : old = some k
    · subst hk
      exact Or.inr ⟨hold k rfl, (c.make x).remove_get_self k⟩
    · rw [drop_get_of_ne _ hk, c.make_get_of_ne x (Nat.ne_of_lt hlt)]
      exact Or.inl rfl
  live k hk := by
    rw [hnew] at hk
    cases hk
    have hne : old ≠ some c.next := fun he => Nat.lt_irrefl _ (h.lt (hold c.next he))
    exact ⟨Nat.le_refl _, x, by rw [drop_get_of_ne _ hne, make_get_next]⟩
  fresh k y hk hy := by
    have hne : old ≠ some k := fun he => Nat.not_lt.mpr hk (h.lt (hold k he))
    rw [drop_get_of_ne _ hne] at hy
    by_cases hkn : k = c.next
    · subst hkn
      exact ⟨hnew, by simp⟩
    · rw [c.make_get_of_ne x hkn] at hy
      exact absurd (h.below k y hy) (Nat.not_lt.mpr hk)

/-- The other owners keep their cells, as they were. -/
theorem kept (e : Exchange o c cell c' cell') (h : Owned c cell) {o' : ω} (hne : o' ≠ o) {k : Nat}
    (hk : cell o' = some k) : c'.get k = c.get k := by
  rcases e.old k (h.lt hk) with hget | ⟨ho, -⟩
  · exact hget
  · exact absurd (h.distinct o' o k hk ho) hne

theorem owned (e : Exchange o c cell c' cell') (h : Owned c cell) : Owned c' cell' where
  live o' k hk := by
    by_cases hne : o' = o
    · subst hne
      exact (e.live k hk).2
    · rw [e.others o' hne] at hk
      rw [e.kept h hne hk]
      exact h.live o' k hk
  distinct o₁ o₂ k h₁ h₂ := by
    by_cases hne₁ : o₁ = o
    · by_cases hne₂ : o₂ = o
      · exact hne₁.trans hne₂.symm
      · rw [e.others o₂ hne₂] at h₂
        subst hne₁
        exact absurd (h.lt h₂) (Nat.not_lt.mpr (e.live k h₁).1)
    · rw [e.others o₁ hne₁] at h₁
      by_cases hne₂ : o₂ = o
      · subst hne₂
        exact absurd (h.lt h₁) (Nat.not_lt.mpr (e.live k h₂).1)
      · rw [e.others o₂ hne₂] at h₂
        exact h.distinct o₁ o₂ k h₁ h₂
  below k x hx := by
    by_cases hk : k < c.next
    · exact Nat.lt_of_lt_of_le hk e.next
    · exact (e.fresh k x (Nat.not_lt.mp hk) hx).2

theorem balanced_iff (e : Exchange o c cell c' cell') (h : Balanced c cell) :
    Balanced c' cell' ↔ ∀ k, cell o = some k → c'.get k = none := by
  constructor
  · intro h' k hk
    cases hget : c'.get k with
    | none => rfl
    | some x =>
      -- Whoever has the old cell afterwards had it before, or has a new one.
      obtain ⟨o', ho'⟩ := h'.covered k x hget
      have hlt := h.lt hk
      by_cases hne : o' = o
      · subst hne
        exact absurd hlt (Nat.not_lt.mpr (e.live k ho').1)
      · rw [e.others o' hne] at ho'
        exact absurd (h.distinct o' o k ho' hk) hne
  · intro hdead
    refine { e.owned h.toOwned with covered := fun k x hx => ?_ }
    by_cases hk : k < c.next
    · rcases e.old k hk with hget | ⟨-, hnone⟩
      · rw [hget] at hx
        obtain ⟨o', ho'⟩ := h.covered k x hx
        refine ⟨o', ?_⟩
        rw [e.others o' ?_, ho']
        rintro rfl
        rw [← hget, hdead k ho'] at hx
        cases hx
      · rw [hnone] at hx
        cases hx
    · exact ⟨o, (e.fresh k x (Nat.not_lt.mp hk) hx).1⟩

end Exchange
end Cells
