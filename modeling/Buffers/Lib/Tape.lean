import Mathlib.Data.List.Basic

/-! # Tapes

A tape hands out its items in order, as many as are asked for at a time, and says a code with the last one. What it
has handed out since it was opened or rewound is its items from there up to its position, however they were asked for
(`seen_read`). -/

structure Tape (α ε : Type) where
  items : List α
  last : ε
  start : Nat := 0
  pos : Nat := 0

namespace Tape
variable {α ε : Type}

/-- The items that a read of at most `n` hands out. -/
def next (s : Tape α ε) (n : Nat) : List α := (s.items.drop s.pos).take n

/-- After a read of at most `n`. -/
def read (s : Tape α ε) (n : Nat) : Tape α ε := { s with pos := s.pos + (s.next n).length }

def rewind (s : Tape α ε) : Tape α ε := { s with start := 0, pos := 0 }

/-- The items handed out since the tape was opened or rewound. -/
def seen (s : Tape α ε) : List α := (s.items.drop s.start).take (s.pos - s.start)

structure Sound (s : Tape α ε) : Prop where
  start_le : s.start ≤ s.pos
  pos_le : s.pos ≤ s.items.length

variable {s : Tape α ε}

theorem length_next (s : Tape α ε) (n : Nat) : (s.next n).length = min n (s.items.length - s.pos) := by
  rw [next, List.length_take, List.length_drop]

theorem Sound.read (h : s.Sound) (n : Nat) : (s.read n).Sound where
  start_le := Nat.le_trans h.start_le (Nat.le_add_right _ _)
  pos_le := by
    have hle := h.pos_le
    simp only [Tape.read, length_next]
    omega

theorem sound_rewind (s : Tape α ε) : s.rewind.Sound := ⟨Nat.le_refl _, Nat.zero_le _⟩

theorem seen_read (h : s.Sound) (n : Nat) : (s.read n).seen = s.seen ++ s.next n := by
  have hstart := h.start_le
  have hpos : s.pos + (s.next n).length - s.start = (s.pos - s.start) + (s.next n).length := by omega
  have hdrop : (s.items.drop s.start).drop (s.pos - s.start) = s.items.drop s.pos := by
    rw [List.drop_drop, Nat.add_sub_cancel' hstart]
  have hnext : (s.items.drop s.pos).take (s.next n).length = s.next n := by
    rw [length_next, next, ← List.length_drop, ← List.take_take, List.take_length]
  simp only [seen, Tape.read]
  rw [hpos, List.take_add, hdrop, hnext]

/-- A tape at its end has handed out the rest of its items. -/
theorem seen_of_end (h : s.pos = s.items.length) : s.seen = s.items.drop s.start := by
  rw [seen, h, ← List.length_drop, List.take_length]

@[simp] theorem seen_rewind (s : Tape α ε) : s.rewind.seen = [] := rfl

end Tape
