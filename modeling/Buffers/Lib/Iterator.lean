import Buffers.Lib.Loop

/-! # Bidirectional iterators

An iteration is the iterators of one sequence: where they start, how they step in either direction, how they are
read and compared. `Iterates` says what each operation does at each position, which is what an implementation
proves; `Faithful` says what walks over the sequence observe, which is what a user relies on. -/

structure Iteration (It α : Type) where
  first : Checked It
  last : Checked It
  inc : It → Checked It
  dec : It → Checked It
  deref : It → Checked α
  equal : It → It → Checked Bool

inductive Move
  | inc
  | dec
  deriving DecidableEq, Repr

/-- The position after a move in a sequence of length `n`, if the move stays within it. -/
def Move.shift (n : Nat) : Nat → Move → Option Nat
  | i, .inc => if i < n then some (i + 1) else none
  | 0, .dec => none
  | i + 1, .dec => some i

/-- A walk starts at either end of a sequence. -/
structure Walk where
  atEnd : Bool
  moves : List Move
  deriving DecidableEq, Repr

def Walk.position (k : Walk) (n : Nat) : Option Nat := k.moves.foldlM (Move.shift n) (if k.atEnd then n else 0)

namespace Iteration
variable {It α : Type}

def move (ops : Iteration It α) (it : It) : Move → Checked It
  | .inc => ops.inc it
  | .dec => ops.dec it

def walk (ops : Iteration It α) (k : Walk) : Checked It := do
  let it ← if k.atEnd then ops.last else ops.first
  k.moves.foldlM ops.move it

def distanceBody (ops : Iteration It α) (last : It) : It × Nat → Checked (Next (It × Nat) Nat)
  | (it, n) => do
    if ← ops.equal it last then
      return .done n
    else
      let it ← ops.inc it
      return .again (it, n + 1)

/-- The number of increments that lead from `first` to `last`. -/
def distance (ops : Iteration It α) (first last : It) (fuel : Nat) : Checked Nat :=
  loop (ops.distanceBody last) fuel (first, 0)

/-- `std::advance`: that many moves, forward or back. -/
def advance (ops : Iteration It α) (it : It) (n : Int) : Checked It :=
  (List.replicate n.natAbs (if n < 0 then .dec else .inc)).foldlM ops.move it

/-- One round of a loop over the sequence, with the result so far. -/
def forBody {β : Type} (ops : Iteration It α) (f : β → α → β) (last : It) : It × β → Checked (Next (It × β) β)
  | (it, b) => do
    if ← ops.equal it last then
      return .done b
    else
      let x ← ops.deref it
      let it ← ops.inc it
      return .again (it, f b x)

/-- `for(auto it = first; it != last; ++it)`. -/
def forEach {β : Type} (ops : Iteration It α) (f : β → α → β) (b : β) (fuel : Nat) : Checked β := do
  let last ← ops.last
  let first ← ops.first
  loop (ops.forBody f last) fuel (first, b)

/-- The iteration over a list whose iterators are the positions in it. -/
def ofList (xs : List α) : Iteration Nat α where
  first := .ok 0
  last := .ok xs.length
  inc i := Checked.require (i < xs.length) >>= fun _ => .ok (i + 1)
  dec i := Checked.sub i 1
  deref i := Checked.get xs i
  equal i j := .ok (decide (i = j))

end Iteration

/-! ### What an implementation proves -/

section
variable {It It' α : Type} {ops : Iteration It α} {ops' : Iteration It' α} {pos : Nat → It} {xs : List α}

/-- The iterators of `xs` are `pos 0`, ..., `pos xs.length`, in this order. -/
structure Iterates (ops : Iteration It α) (pos : Nat → It) (xs : List α) : Prop where
  first_eq : ops.first = .ok (pos 0)
  last_eq : ops.last = .ok (pos xs.length)
  inc_at : ∀ i < xs.length, ops.inc (pos i) = .ok (pos (i + 1))
  dec_at : ∀ i < xs.length, ops.dec (pos (i + 1)) = .ok (pos i)
  deref_at : ∀ i x, xs[i]? = some x → ops.deref (pos i) = .ok x
  equal_at : ∀ i j, i ≤ xs.length → j ≤ xs.length → ops.equal (pos i) (pos j) = .ok (decide (i = j))

theorem iterates_ofList (xs : List α) : Iterates (Iteration.ofList xs) id xs where
  first_eq := rfl
  last_eq := rfl
  inc_at i hi := by simp [Iteration.ofList, Checked.require_of hi]
  dec_at i _ := Checked.sub_of_le (Nat.le_add_left 1 i)
  deref_at i x hx := Checked.get_of_getElem? hx
  equal_at i j _ _ := rfl

/-- The iterators of `ops'` are those of `ops`, packed by `f`. -/
structure Packs (f : It → It') (ops : Iteration It α) (ops' : Iteration It' α) : Prop where
  first_eq : ops'.first = f <$> ops.first
  last_eq : ops'.last = f <$> ops.last
  inc_eq : ∀ it, ops'.inc (f it) = f <$> ops.inc it
  dec_eq : ∀ it, ops'.dec (f it) = f <$> ops.dec it
  deref_eq : ∀ it, ops'.deref (f it) = ops.deref it
  equal_eq : ∀ it jt, ops'.equal (f it) (f jt) = ops.equal it jt

theorem Packs.iterates {f : It → It'} (p : Packs f ops ops') (h : Iterates ops pos xs) :
    Iterates ops' (fun i => f (pos i)) xs where
  first_eq := by simp [p.first_eq, h.first_eq]
  last_eq := by simp [p.last_eq, h.last_eq]
  inc_at i hi := by simp [p.inc_eq, h.inc_at i hi]
  dec_at i hi := by simp [p.dec_eq, h.dec_at i hi]
  deref_at i x hx := by rw [p.deref_eq, h.deref_at i x hx]
  equal_at i j hi hj := by rw [p.equal_eq, h.equal_at i j hi hj]

/-! ### What a user relies on -/

/-- Walks that stay within the sequence observe `xs`: each reads the element at its position, two compare equal
    exactly when they are at one position, and from `first` to `last` there are as many increments as elements. -/
structure Faithful (ops : Iteration It α) (xs : List α) : Prop where
  reads : ∀ k i x, k.position xs.length = some i → xs[i]? = some x →
    ∃ it, ops.walk k = .ok it ∧ ops.deref it = .ok x
  compares : ∀ k l i j, k.position xs.length = some i → l.position xs.length = some j →
    ∃ it jt, ops.walk k = .ok it ∧ ops.walk l = .ok jt ∧ ops.equal it jt = .ok (decide (i = j))
  measures : ∃ first last, ops.first = .ok first ∧ ops.last = .ok last ∧
    ∀ fuel, xs.length < fuel → ops.distance first last fuel = .ok xs.length

namespace Iterates

theorem move_at (h : Iterates ops pos xs) {i j : Nat} {m : Move} (hi : i ≤ xs.length)
    (hm : m.shift xs.length i = some j) : ops.move (pos i) m = .ok (pos j) ∧ j ≤ xs.length := by
  cases m with
  | inc =>
    simp only [Move.shift] at hm
    split at hm
    · rename_i hlt
      cases hm
      exact ⟨h.inc_at i hlt, hlt⟩
    · cases hm
  | dec =>
    cases i with
    | zero => cases hm
    | succ i =>
      cases hm
      exact ⟨h.dec_at _ hi, Nat.le_of_succ_le hi⟩

theorem moves_at (h : Iterates ops pos xs) {i j : Nat} {ms : List Move} (hi : i ≤ xs.length)
    (hms : ms.foldlM (Move.shift xs.length) i = some j) :
    ms.foldlM ops.move (pos i) = .ok (pos j) ∧ j ≤ xs.length := by
  induction ms generalizing i with
  | nil =>
    cases hms
    exact ⟨rfl, hi⟩
  | cons m ms ih =>
    rw [List.foldlM_cons] at hms ⊢
    obtain ⟨k, hk, hrest⟩ := Option.bind_eq_some_iff.mp hms
    obtain ⟨hmove, hle⟩ := h.move_at hi hk
    rw [hmove]
    exact ih hle hrest

theorem walk_at (h : Iterates ops pos xs) {k : Walk} {i : Nat} (hk : k.position xs.length = some i) :
    ops.walk k = .ok (pos i) ∧ i ≤ xs.length := by
  obtain ⟨atEnd, moves⟩ := k
  cases atEnd with
  | false =>
    have hwalk := h.moves_at (Nat.zero_le _) hk
    simpa [Iteration.walk, h.first_eq] using hwalk
  | true =>
    have hwalk := h.moves_at (Nat.le_refl _) hk
    simpa [Iteration.walk, h.last_eq] using hwalk

theorem distance_round (h : Iterates ops pos xs) {s : It × Nat} (hs : ∃ i, i ≤ xs.length ∧ s = (pos i, i)) :
    Round (ops.distanceBody (pos xs.length)) (fun s => ∃ i, i ≤ xs.length ∧ s = (pos i, i))
      (fun s => xs.length - s.2) (fun n => n = xs.length) s := by
  obtain ⟨i, hi, rfl⟩ := hs
  have heq := h.equal_at i xs.length hi (Nat.le_refl _)
  by_cases hend : i = xs.length
  · refine Or.inl ⟨i, ?_, hend⟩
    rw [decide_eq_true hend] at heq
    simp [Iteration.distanceBody, heq]
  · have hlt : i < xs.length := by omega
    rw [decide_eq_false hend] at heq
    refine Or.inr ⟨(pos (i + 1), i + 1), ?_, ⟨i + 1, hlt, rfl⟩, Nat.sub_lt_sub_left hlt (Nat.lt_succ_self i)⟩
    simp [Iteration.distanceBody, heq, h.inc_at i hlt]

theorem distance_eq (h : Iterates ops pos xs) {fuel : Nat} (hfuel : xs.length < fuel) :
    ops.distance (pos 0) (pos xs.length) fuel = .ok xs.length := by
  obtain ⟨n, hn, rfl⟩ := loop_spec (fun s hs => h.distance_round hs) ⟨0, Nat.zero_le _, rfl⟩ hfuel
  exact hn

theorem advance_first (h : Iterates ops pos xs) {n : Nat} (hn : n ≤ xs.length) :
    ops.advance (pos 0) n = .ok (pos n) := by
  have hshift (i : Nat) (hi : i + n ≤ xs.length) :
      (List.replicate n Move.inc).foldlM (Move.shift xs.length) i = some (i + n) := by
    clear hn
    induction n generalizing i with
    | zero => rfl
    | succ n ih =>
      have hlt : i < xs.length := by omega
      rw [List.replicate_succ, List.foldlM_cons]
      simp only [Move.shift, hlt, if_true, Option.bind_eq_bind, Option.bind_some]
      rw [ih (i + 1) (by omega), Nat.add_right_comm, Nat.add_assoc]
  have hmoves := (h.moves_at (Nat.zero_le _) (hshift 0 (by omega))).1
  have hpos : ¬(n : Int) < 0 := by omega
  rw [Iteration.advance, if_neg hpos, Int.natAbs_natCast]
  rwa [Nat.zero_add] at hmoves

/-- The loop over the rest of the sequence, from a position on. -/
theorem forEach_from (h : Iterates ops pos xs) {β : Type} (f : β → α → β) {i : Nat} (hi : i ≤ xs.length) (b : β)
    {fuel : Nat} (hfuel : xs.length - i < fuel) :
    loop (ops.forBody f (pos xs.length)) fuel (pos i, b) = .ok ((xs.drop i).foldl f b) := by
  induction fuel generalizing i b with
  | zero => exact absurd hfuel (Nat.not_lt_zero _)
  | succ fuel ih =>
    have heq := h.equal_at i xs.length hi (Nat.le_refl _)
    by_cases hend : i = xs.length
    · rw [decide_eq_true hend] at heq
      rw [loop_done (b := b) (by simp [Iteration.forBody, heq]), hend, List.drop_length]
      rfl
    · have hlt : i < xs.length := by omega
      rw [decide_eq_false hend] at heq
      have hderef := h.deref_at i xs[i] (List.getElem?_eq_getElem hlt)
      rw [loop_again (t := (pos (i + 1), f b xs[i])) (by simp [Iteration.forBody, heq, hderef, h.inc_at i hlt]),
        ih hlt (f b xs[i]) (by omega), List.drop_eq_getElem_cons hlt, List.foldl_cons]

theorem forEach_eq (h : Iterates ops pos xs) {β : Type} (f : β → α → β) (b : β) {fuel : Nat} (hfuel : xs.length < fuel) :
    ops.forEach f b fuel = .ok (xs.foldl f b) := by
  simp only [Iteration.forEach, h.last_eq, h.first_eq, Checked.ok_bind]
  exact h.forEach_from f (Nat.zero_le _) b (by omega)

theorem faithful (h : Iterates ops pos xs) : Faithful ops xs where
  reads k i x hk hx := ⟨pos i, (h.walk_at hk).1, h.deref_at i x hx⟩
  compares k l i j hk hl := by
    obtain ⟨hwk, hi⟩ := h.walk_at hk
    obtain ⟨hwl, hj⟩ := h.walk_at hl
    exact ⟨pos i, pos j, hwk, hwl, h.equal_at i j hi hj⟩
  measures := ⟨pos 0, pos xs.length, h.first_eq, h.last_eq, fun _ hfuel => h.distance_eq hfuel⟩

end Iterates

end
