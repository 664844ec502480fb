import Buffers.Lib.Checked

/-! # Batches

`batches n acc xs` cuts the list `acc ++ xs` into consecutive groups of `n`, the last of which may be shorter;
`acc` is a group begun. `untilStop` runs a step on one group after the other until a state says stop. -/

section
variable {α σ : Type}

def batches (n : Nat) : List α → List α → List (List α)
  | acc, [] => if acc.isEmpty then [] else [acc]
  | acc, x :: xs => if acc.length + 1 < n then batches n (acc ++ [x]) xs else (acc ++ [x]) :: batches n [] xs

theorem flatten_batches (n : Nat) (acc xs : List α) : (batches n acc xs).flatten = acc ++ xs := by
  induction xs generalizing acc with
  | nil =>
    cases acc with
    | nil => rfl
    | cons y ys => simp [batches]
  | cons x xs ih =>
    unfold batches
    split
    · rw [ih, List.append_assoc]
      rfl
    · rw [List.flatten_cons, ih, List.append_assoc]
      rfl

/-- Consecutive groups of `n` that make up `xs`, and a last one that may be shorter. -/
structure Grouping (n : Nat) (xs : List α) (gs : List (List α)) : Prop where
  flatten_eq : gs.flatten = xs
  full : ∀ g ∈ gs.dropLast, g.length = n
  last : ∀ g ∈ gs.getLast?, 0 < g.length ∧ g.length ≤ n

theorem Grouping.cons {n : Nat} (hn : 0 < n) {g xs : List α} {gs : List (List α)} (hg : g.length = n)
    (h : Grouping n xs gs) : Grouping n (g ++ xs) (g :: gs) := by
  refine ⟨by rw [List.flatten_cons, h.flatten_eq], ?_, ?_⟩
  · cases gs with
    | nil => exact fun _ hmem => absurd hmem List.not_mem_nil
    | cons g' gs' =>
      rw [List.dropLast_cons_cons]
      exact List.forall_mem_cons.mpr ⟨hg, h.full⟩
  · cases gs with
    | nil =>
      intro g' hg'
      cases hg'
      exact ⟨hg ▸ hn, Nat.le_of_eq hg⟩
    | cons g' gs' =>
      rw [List.getLast?_cons_cons]
      exact h.last

theorem grouping_batches {n : Nat} {acc : List α} (hacc : acc.length < n) (xs : List α) :
    Grouping n (acc ++ xs) (batches n acc xs) := by
  induction xs generalizing acc with
  | nil =>
    refine ⟨flatten_batches n acc [], ?_, ?_⟩
    · cases acc with
      | nil => exact fun _ hmem => absurd hmem List.not_mem_nil
      | cons y ys => exact fun _ hmem => absurd hmem List.not_mem_nil
    · cases acc with
      | nil => exact fun _ hmem => nomatch hmem
      | cons y ys =>
        intro g hg
        cases hg
        exact ⟨Nat.succ_pos _, Nat.le_of_lt hacc⟩
  | cons x xs ih =>
    have hlen : (acc ++ [x]).length = acc.length + 1 := by simp
    rw [show acc ++ x :: xs = (acc ++ [x]) ++ xs by simp]
    unfold batches
    split
    · rename_i hroom
      exact ih (hlen ▸ hroom)
    · have hn : 0 < n := Nat.lt_of_le_of_lt (Nat.zero_le _) hacc
      have hempty : ([] : List α).length < n := hn
      exact (ih hempty).cons hn (by omega)

theorem batches_ne_nil (n : Nat) {acc xs : List α} (h : acc ++ xs ≠ []) : batches n acc xs ≠ [] := by
  intro hnil
  have hflat := flatten_batches n acc xs
  rw [hnil] at hflat
  exact h hflat.symm

theorem batches_nonempty (n : Nat) (acc xs : List α) : ∀ g ∈ batches n acc xs, g ≠ [] := by
  induction xs generalizing acc with
  | nil =>
    cases acc with
    | nil => exact fun _ hg => absurd hg List.not_mem_nil
    | cons y ys => simp [batches]
  | cons x xs ih =>
    unfold batches
    split
    · exact ih _
    · exact List.forall_mem_cons.mpr ⟨by simp, ih []⟩

def untilStop (stop : σ → Bool) (step : List α → σ → Checked σ) : List (List α) → σ → Checked σ
  | [], s => .ok s
  | g :: gs, s => do
    let s ← step g s
    if stop s then
      return s
    untilStop stop step gs s

/-- An invariant that the step on each group keeps holds when the steps stop, and none of them faults. -/
theorem untilStop_invariant {stop : σ → Bool} {step : List α → σ → Checked σ} {I : σ → Prop} {gs : List (List α)}
    (keeps : ∀ g ∈ gs, ∀ s, I s → ∃ t, step g s = .ok t ∧ I t) {s : σ} (hs : I s) :
    ∃ t, untilStop stop step gs s = .ok t ∧ I t := by
  induction gs generalizing s with
  | nil => exact ⟨s, rfl, hs⟩
  | cons g gs ih =>
    rw [List.forall_mem_cons] at keeps
    obtain ⟨t, ht, hI⟩ := keeps.1 s hs
    rw [untilStop, ht, Checked.ok_bind]
    cases hstop : stop t with
    | true => exact ⟨t, if_pos rfl, hI⟩
    | false => exact ih keeps.2 hI

end
