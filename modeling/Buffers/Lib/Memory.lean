import Mathlib.Data.List.Nodup
import Mathlib.Data.List.Range

/-! # Memory

A memory gives each address a value. Storing writes values to a list of addresses one after the other;
`memcpy` moves a contiguous block, which is storing what its source range holds. -/

abbrev Memory (α : Type) := Nat → α

namespace Memory
variable {α : Type}

def store (m : Memory α) : List Nat → List α → Memory α
  | a :: as, x :: xs => store (Function.update m a x) as xs
  | _, _ => m

def memcpy (m : Memory α) (dst src n : Nat) : Memory α := fun a =>
  if dst ≤ a ∧ a < dst + n then m (src + (a - dst)) else m a

@[simp] theorem store_nil (m : Memory α) (xs : List α) : m.store [] xs = m := rfl

@[simp] theorem store_cons (m : Memory α) (a : Nat) (as : List Nat) (x : α) (xs : List α) :
    m.store (a :: as) (x :: xs) = store (Function.update m a x) as xs := rfl

theorem store_append {as bs : List Nat} {xs ys : List α} (m : Memory α) (h : as.length = xs.length) :
    m.store (as ++ bs) (xs ++ ys) = (m.store as xs).store bs ys := by
  induction as generalizing m xs with
  | nil =>
    obtain rfl := List.length_eq_zero_iff.mp h.symm
    rfl
  | cons a as ih =>
    cases xs with
    | nil => simp at h
    | cons x xs => exact ih _ (by simpa using h)

theorem store_of_not_mem {as : List Nat} {xs : List α} (m : Memory α) {a : Nat} (h : a ∉ as) :
    m.store as xs a = m a := by
  induction as generalizing m xs with
  | nil => rfl
  | cons b as ih =>
    simp only [List.mem_cons, not_or] at h
    cases xs with
    | nil => rfl
    | cons x xs => rw [store_cons, ih _ h.2, Function.update_of_ne h.1]

theorem map_store_of_disjoint {as bs : List Nat} {xs : List α} (m : Memory α) (h : bs.Disjoint as) :
    bs.map (m.store as xs) = bs.map m :=
  List.map_congr_left fun _ hb => store_of_not_mem m (h hb)

/-- Distinct addresses hold what was stored there. -/
theorem map_store {as : List Nat} {xs : List α} (m : Memory α) (hnodup : as.Nodup)
    (h : as.length = xs.length) : as.map (m.store as xs) = xs := by
  induction as generalizing m xs with
  | nil => exact (List.length_eq_zero_iff.mp h.symm).symm
  | cons a as ih =>
    rw [List.nodup_cons] at hnodup
    cases xs with
    | nil => simp at h
    | cons x xs =>
      rw [store_cons, List.map_cons, store_of_not_mem _ hnodup.1, Function.update_self,
        ih _ hnodup.2 (by simpa using h)]

/-- A block copy stores what its source range holds. -/
theorem memcpy_eq_store (m : Memory α) (dst src n : Nat) :
    m.memcpy dst src n = m.store (List.range' dst n) ((List.range' src n).map m) := by
  funext a
  by_cases ha : dst ≤ a ∧ a < dst + n
  · obtain ⟨i, rfl⟩ := Nat.exists_eq_add_of_le ha.1
    have hi : i < n := by omega
    have hlen : (List.range' dst n).length = ((List.range' src n).map m).length := by simp
    have hmap := map_store m (List.nodup_range' (s := dst) (n := n)) hlen
    have hget := congrArg (fun l => l[i]?) hmap
    simp only [List.getElem?_map, List.getElem?_range' hi, Option.map_some, Option.some.injEq,
      Nat.one_mul] at hget
    rw [hget]
    simp [memcpy, hi]
  · rw [store_of_not_mem m (by simpa [List.mem_range'_1] using ha)]
    simp only [memcpy, ha, if_false]

end Memory
