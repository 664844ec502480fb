import Buffers.Lib.Checked

/-! # Loops

A loop is its body, run again and again on a state until the body says that it is done. The fuel bounds
the number of rounds; a loop that uses it up has diverged. `loop_spec` proves a loop from an invariant and a
measure: it ends within the fuel, and the postcondition holds. -/

/-- What a round of a loop does: go on with a state, or leave with a result. -/
inductive Next (σ β : Type)
  | again (s : σ)
  | done (b : β)

def loop {σ β : Type} (body : σ → Checked (Next σ β)) : Nat → σ → Checked β
  | 0, _ => .error .diverged
  | fuel + 1, s => do
    match ← body s with
    | .again t => loop body fuel t
    | .done b => pure b

variable {σ β : Type} {body : σ → Checked (Next σ β)}

theorem loop_again {fuel : Nat} {s t : σ} (h : body s = .ok (.again t)) :
    loop body (fuel + 1) s = loop body fuel t := by
  simp [loop, h]

theorem loop_done {fuel : Nat} {s : σ} {b : β} (h : body s = .ok (.done b)) :
    loop body (fuel + 1) s = .ok b := by
  simp [loop, h]

/-- A round from a state with the invariant either leaves with the postcondition, or keeps the invariant
    and lowers the measure. -/
def Round (body : σ → Checked (Next σ β)) (I : σ → Prop) (μ : σ → Nat) (Q : β → Prop) (s : σ) : Prop :=
  (∃ b, body s = .ok (.done b) ∧ Q b) ∨ ∃ t, body s = .ok (.again t) ∧ I t ∧ μ t < μ s

theorem loop_spec {I : σ → Prop} {μ : σ → Nat} {Q : β → Prop} (round : ∀ s, I s → Round body I μ Q s)
    {fuel : Nat} {s : σ} (hs : I s) (hfuel : μ s < fuel) : ∃ b, loop body fuel s = .ok b ∧ Q b := by
  induction fuel generalizing s with
  | zero => exact absurd hfuel (Nat.not_lt_zero _)
  | succ fuel ih =>
    rcases round s hs with ⟨b, hb, hQ⟩ | ⟨t, ht, hI, hμ⟩
    · exact ⟨b, loop_done hb, hQ⟩
    · rw [loop_again ht]
      exact ih hI (by omega)

/-- Two rounds leave with the same result, or go on in related states. -/
def Lockstep {τ : Type} (R : σ → τ → Prop) (r : Checked (Next σ β)) (r' : Checked (Next τ β)) : Prop :=
  (∃ b, r = .ok (.done b) ∧ r' = .ok (.done b)) ∨ ∃ s t, r = .ok (.again s) ∧ r' = .ok (.again t) ∧ R s t

/-- Loops whose rounds are in lockstep are equal. -/
theorem loop_lockstep {τ : Type} {R : σ → τ → Prop} {body' : τ → Checked (Next τ β)}
    (round : ∀ s t, R s t → Lockstep R (body s) (body' t)) {s : σ} {t : τ} (h : R s t) (fuel : Nat) :
    loop body fuel s = loop body' fuel t := by
  induction fuel generalizing s t with
  | zero => rfl
  | succ fuel ih =>
    rcases round s t h with ⟨b, hs, ht⟩ | ⟨s', t', hs, ht, hR⟩
    · rw [loop_done hs, loop_done ht]
    · rw [loop_again hs, loop_again ht]
      exact ih hR

/-- Two rounds that both go on, in states related by `R`, or both leave, with results related by `Q`. -/
def Next.Both {τ γ : Type} (R : σ → τ → Prop) (Q : β → γ → Prop) : Next σ β → Next τ γ → Prop
  | .again s, .again t => R s t
  | .done b, .done c => Q b c
  | _, _ => False

/-- A loop whose rounds simulate those of another one simulates it. -/
theorem loop_simulates {τ γ : Type} {R : σ → τ → Prop} {Q : β → γ → Prop} {body' : τ → Checked (Next τ γ)}
    (round : ∀ s t, R s t → Checked.Simulates (Next.Both R Q) (body s) (body' t)) {s : σ} {t : τ} (h : R s t)
    {fuel fuel' : Nat} (hle : fuel' ≤ fuel) : Checked.Simulates Q (loop body fuel s) (loop body' fuel' t) := by
  induction fuel' generalizing s t fuel with
  | zero =>
    intro c hc
    cases hc
  | succ fuel' ih =>
    obtain ⟨fuel, rfl⟩ := Nat.exists_eq_add_of_le' (Nat.le_trans (Nat.succ_pos fuel') hle)
    refine (round s t h).bind fun next next' hboth => ?_
    cases next <;> cases next'
    · exact ih hboth (Nat.le_of_succ_le_succ hle)
    · exact hboth.elim
    · exact hboth.elim
    · exact Checked.Simulates.ok hboth

/-- More fuel changes no result. -/
theorem loop_of_le {fuel fuel' : Nat} {s : σ} {b : β} (h : loop body fuel' s = .ok b) (hle : fuel' ≤ fuel) :
    loop body fuel s = .ok b := by
  have hround (s t : σ) (hst : s = t) : Checked.Simulates (Next.Both Eq Eq) (body s) (body t) := by
    subst hst
    intro next hnext
    refine ⟨next, hnext, ?_⟩
    cases next <;> rfl
  obtain ⟨c, hc, rfl⟩ := loop_simulates hround rfl hle b h
  exact hc
