import Buffers.Lib.Checked

/-! # Sums of machine words

A word has 64 bits, and a sum that passes the largest word wraps around. Read with `Overflow.faults`, a
program stops at such a sum instead: a run of it that does not fault wraps nowhere. -/

namespace Word
open Checked

/-- The number of words, one past the largest. -/
def count : Nat := 0x10000000000000000

/-- Half of it: two words up to here have a sum that is at most one past the largest. -/
def half : Nat := 0x8000000000000000

inductive Overflow
  | wraps
  | faults
  deriving DecidableEq, Repr

def add (o : Overflow) (a b : Nat) : Checked Nat :=
  match o with
  | .wraps => .ok ((a + b) % count)
  | .faults => if a + b < count then .ok (a + b) else .error .outOfRange

theorem add_of_lt {o : Overflow} {a b : Nat} (h : a + b < count) : add o a b = .ok (a + b) := by
  cases o with
  | wraps => simp [add, Nat.mod_eq_of_lt h]
  | faults => simp [add, h]

/-- A sum of words is exact, or one wrap below. -/
theorem add_ok {o : Overflow} {a b : Nat} (ha : a < count) (hb : b < count) (h : o = .faults → a + b < count) :
    ∃ s, add o a b = .ok s ∧ (s = a + b ∨ a + b = s + count) := by
  rcases Nat.lt_or_ge (a + b) count with hlt | hge
  · exact ⟨a + b, add_of_lt hlt, Or.inl rfl⟩
  · cases o with
    | faults => exact absurd (h rfl) (Nat.not_lt.mpr hge)
    | wraps =>
      refine ⟨a + b - count, ?_, Or.inr (Nat.sub_add_cancel hge).symm⟩
      have hsub : a + b - count < count := by omega
      rw [add, Nat.mod_eq_sub_mod hge, Nat.mod_eq_of_lt hsub]

end Word
