import Mathlib.Data.List.Nodup
import Mathlib.Data.List.Range
import Mathlib.Data.Nat.ModEq

/-! # Rings

`ring base cap pos n` lists `n` consecutive cells of a circular storage of `cap` cells at `base`, from
position `pos` on. Positions count on past the end of the storage; only their remainder matters. -/

/-- The cells at the positions `pos`, …, `pos + n - 1`, each taken modulo the capacity. -/
def ring (base cap pos n : Nat) : List Nat := (List.range' pos n).map fun p => base + p % cap

variable {base cap pos n : Nat}

@[simp] theorem length_ring : (ring base cap pos n).length = n := by simp [ring]

@[simp] theorem ring_zero : ring base cap pos 0 = [] := rfl

theorem ring_congr {pos' : Nat} (h : pos ≡ pos' [MOD cap]) : ring base cap pos n = ring base cap pos' n := by
  simp only [ring, List.range'_eq_map_range, List.map_map]
  refine List.map_congr_left fun i _ => ?_
  exact congrArg (base + ·) (h.add_right i)

theorem ring_mod : ring base cap (pos % cap) n = ring base cap pos n := ring_congr (Nat.mod_modEq pos cap)

theorem ring_add (m n : Nat) : ring base cap pos (m + n) = ring base cap pos m ++ ring base cap (pos + m) n := by
  simp only [ring, ← List.map_append]
  rw [List.range'_append_1]

theorem take_ring (k : Nat) : (ring base cap pos n).take k = ring base cap pos (min k n) := by
  simp only [ring, ← List.map_take]
  rcases Nat.le_total k n with h | h
  · rw [List.take_range'_of_length_ge h, Nat.min_eq_left h]
  · rw [List.take_range'_of_length_le h, Nat.min_eq_right h]

theorem drop_ring (k : Nat) : (ring base cap pos n).drop k = ring base cap (pos + k) (n - k) := by
  simp only [ring, ← List.map_drop, List.drop_range', Nat.mul_one]

theorem ring_of_le (h : pos + n ≤ cap) : ring base cap pos n = List.range' (base + pos) n := by
  simp only [ring, List.range'_eq_map_range, List.map_map]
  refine List.map_congr_left fun i hi => ?_
  rw [List.mem_range] at hi
  have hlt : pos + i < cap := by omega
  simp only [Function.comp_apply, Nat.mod_eq_of_lt hlt, Nat.add_assoc]

/-- A ring that passes the end of the storage goes on at its start. -/
theorem ring_of_wrap (hpos : pos ≤ cap) (hn : n ≤ cap) (h : cap ≤ pos + n) :
    ring base cap pos n = List.range' (base + pos) (cap - pos) ++ List.range' base (n - (cap - pos)) := by
  have hsplit : n = (cap - pos) + (n - (cap - pos)) := by omega
  have hcap : pos + (cap - pos) ≡ 0 [MOD cap] := by
    rw [Nat.add_sub_cancel' hpos]
    exact Nat.mod_self cap
  rw [hsplit, ring_add, ring_of_le (by omega), ring_congr hcap, ring_of_le (by omega), ← hsplit]
  rfl

theorem nodup_ring (h : n ≤ cap) : (ring base cap pos n).Nodup := by
  refine List.Nodup.map_on (fun p hp p' hp' he => ?_) List.nodup_range'
  rw [List.mem_range'_1] at hp hp'
  have hmod : p ≡ p' [MOD cap] := Nat.add_left_cancel he
  refine hmod.eq_of_abs_lt (abs_lt.mpr ⟨?_, ?_⟩) <;> omega

theorem mem_ring (hcap : 0 < cap) {a : Nat} (h : a ∈ ring base cap pos n) : base ≤ a ∧ a < base + cap := by
  obtain ⟨p, -, rfl⟩ := List.mem_map.mp h
  exact ⟨Nat.le_add_right _ _, Nat.add_lt_add_left (Nat.mod_lt p hcap) base⟩
