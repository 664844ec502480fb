import Buffers.Lib.Checked

/-! # Runs of a checked step function

A run feeds a list of inputs to a step function. `Every` says that no step faults and each step is in a
relation; `Always` says that each step meets a condition on its input and the state before it. Both follow
a run from an invariant by induction. -/

namespace Run
variable {σ ι : Type} (step : σ → ι → Checked σ)

def run : σ → List ι → Checked σ
  | s, [] => .ok s
  | s, i :: is => step s i >>= fun t => run t is

def Every (T : σ → ι → σ → Prop) : σ → List ι → Prop
  | _, [] => True
  | s, i :: is => ∃ t, step s i = .ok t ∧ T s i t ∧ Every T t is

def Always (C : σ → ι → Prop) : σ → List ι → Prop
  | _, [] => True
  | s, i :: is => C s i ∧ ∀ t, step s i = .ok t → Always C t is

variable {step}

theorem run_cons (s : σ) (i : ι) (is : List ι) : run step s (i :: is) = step s i >>= fun t => run step t is := rfl

theorem run_of_every {T : σ → ι → σ → Prop} {s : σ} {is : List ι} (h : Every step T s is) :
    ∃ t, run step s is = .ok t := by
  induction is generalizing s with
  | nil => exact ⟨s, rfl⟩
  | cons i is ih =>
    obtain ⟨t, ht, -, hrest⟩ := h
    rw [run_cons, ht]
    exact ih hrest

/-- An invariant that each step keeps holds at the end of each run, and no run faults. -/
theorem run_invariant {I : σ → Prop} (keeps : ∀ s i, I s → ∃ t, step s i = .ok t ∧ I t) {s : σ} (hs : I s)
    (is : List ι) : ∃ t, run step s is = .ok t ∧ I t := by
  induction is generalizing s with
  | nil => exact ⟨s, rfl, hs⟩
  | cons i is ih =>
    obtain ⟨t, ht, hI⟩ := keeps s i hs
    rw [run_cons, ht]
    exact ih hI

/-- A machine whose steps are matched by an abstract step ends each run in a state related to the abstract one,
    and no run faults. -/
theorem run_simulates {τ : Type} {abstract : τ → ι → τ} {R : σ → τ → Prop}
    (sim : ∀ s t i, R s t → ∃ s', step s i = .ok s' ∧ R s' (abstract t i)) {s : σ} {t : τ} (h : R s t)
    (is : List ι) : ∃ s', run step s is = .ok s' ∧ R s' (is.foldl abstract t) := by
  induction is generalizing s t with
  | nil => exact ⟨s, rfl, h⟩
  | cons i is ih =>
    obtain ⟨s', hs', hR⟩ := sim s t i h
    rw [run_cons, hs']
    exact ih hR

/-- Two machines whose steps correspond under `f`, as long as an invariant holds, end each run in states that do. -/
theorem run_map {τ : Type} {step' : τ → ι → Checked τ} (f : σ → τ) {I : σ → Prop}
    (same : ∀ s i, I s → ∃ t, step s i = .ok t ∧ step' (f s) i = .ok (f t) ∧ I t) {s : σ} (hs : I s) (is : List ι) :
    ∃ t, run step s is = .ok t ∧ run step' (f s) is = .ok (f t) ∧ I t := by
  induction is generalizing s with
  | nil => exact ⟨s, rfl, rfl, hs⟩
  | cons i is ih =>
    obtain ⟨t, ht, ht', hI⟩ := same s i hs
    rw [run_cons, run_cons, ht, ht']
    exact ih hI

/-- A run on admitted inputs from a state with the invariant is in the relation at every step, when each such
    step is. -/
theorem every_of_invariant {P : ι → Prop} {I : σ → Prop} {T : σ → ι → σ → Prop}
    (keeps : ∀ s i, P i → I s → ∃ t, step s i = .ok t ∧ T s i t ∧ I t) {s : σ} (hs : I s) {is : List ι}
    (his : ∀ i ∈ is, P i) : Every step T s is := by
  induction is generalizing s with
  | nil => trivial
  | cons i is ih =>
    rw [List.forall_mem_cons] at his
    obtain ⟨t, ht, hT, hI⟩ := keeps s i his.1 hs
    exact ⟨t, ht, hT, ih hI his.2⟩

/-- Every input of a run that is in the relation is admitted, when each step in the relation has an admitted
    input and keeps the invariant. -/
theorem forall_of_every {P : ι → Prop} {I : σ → Prop} {T : σ → ι → σ → Prop}
    (keeps : ∀ s i t, I s → step s i = .ok t → T s i t → P i ∧ I t) {s : σ} (hs : I s) {is : List ι}
    (h : Every step T s is) : ∀ i ∈ is, P i := by
  induction is generalizing s with
  | nil => exact fun _ hi => absurd hi List.not_mem_nil
  | cons i is ih =>
    obtain ⟨t, ht, hT, hrest⟩ := h
    obtain ⟨hP, hI⟩ := keeps s i t hs ht hT
    exact List.forall_mem_cons.mpr ⟨hP, ih hI hrest⟩

theorem always_cons {C : σ → ι → Prop} {s t : σ} {i : ι} {is : List ι} (hC : C s i) (ht : step s i = .ok t)
    (h : Always step C t is) : Always step C s (i :: is) := by
  refine ⟨hC, fun u hu => ?_⟩
  rw [ht] at hu
  cases hu
  exact h

theorem always_of_invariant {I : σ → Prop} {C : σ → ι → Prop} (holds : ∀ s i, I s → C s i)
    (keeps : ∀ s i t, I s → step s i = .ok t → I t) {s : σ} (hs : I s) (is : List ι) : Always step C s is := by
  induction is generalizing s with
  | nil => trivial
  | cons i is ih => exact ⟨holds s i hs, fun t ht => ih (keeps s i t hs ht)⟩

/-- When the steps that meet `C` keep the invariant and are in the relation, so is a run whose steps all meet `C`. -/
theorem every_of_always {I : σ → Prop} {T : σ → ι → σ → Prop} {C : σ → ι → Prop}
    (good : ∀ s i, I s → C s i → ∃ t, step s i = .ok t ∧ T s i t ∧ I t) {s : σ} (hs : I s) {is : List ι}
    (h : Always step C s is) : Every step T s is := by
  induction is generalizing s with
  | nil => trivial
  | cons i is ih =>
    obtain ⟨t, ht, hT, hI⟩ := good s i hs h.1
    exact ⟨t, ht, hT, ih hI (h.2 t ht)⟩

/-- When the steps that meet `C` keep the invariant and are in the relation, and no other step from the
    invariant is, a run is in the relation at every step exactly when all its steps meet `C`. -/
theorem every_iff_always {I : σ → Prop} {T : σ → ι → σ → Prop} {C : σ → ι → Prop}
    (good : ∀ s i, I s → C s i → ∃ t, step s i = .ok t ∧ T s i t ∧ I t)
    (bad : ∀ s i t, I s → ¬C s i → step s i = .ok t → ¬T s i t) {s : σ} (hs : I s) (is : List ι) :
    Every step T s is ↔ Always step C s is := by
  induction is generalizing s with
  | nil => exact Iff.rfl
  | cons i is ih =>
    constructor
    · rintro ⟨t, ht, hT, hrest⟩
      by_cases hC : C s i
      · obtain ⟨t', ht', -, hI⟩ := good s i hs hC
        rw [ht] at ht'
        cases ht'
        refine ⟨hC, fun u hu => ?_⟩
        rw [ht] at hu
        cases hu
        exact (ih hI).mp hrest
      · exact absurd hT (bad s i t hs hC ht)
    · exact every_of_always good hs

end Run
