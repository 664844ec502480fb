import Buffers.AnySource.Shared
import Buffers.Theorems.AnySource
import Buffers.Theorems.ReadLoops

/-! # The owners of a type-erased source

Whatever a program does with its sources, the use count of each model is the number of sources that point to it, and the
models that are live are those with a source (`Lives`). Which source points where is a matter of the pointers alone
(`place`), and a change of pointers leaves each model as it is, or destroys it (`Passes`). -/

namespace Buffers.AnySource
open Checked

variable {σ : Type}

/-- The model that the source `o` has a handle of. -/
def World.handle (w : World σ) (o : Nat) : Option Nat := (w.sources o).bind Ptr.handle

/-- No source is null, and the models are counted. -/
structure Lives (w : World σ) : Prop where
  pointed : ∀ o, w.sources o ≠ some .null
  tight : Shared.Tight w.models w.handle none

/-- A change of pointers: the memory and the results stay, and a model stays as it is or is destroyed. -/
structure Passes (w w' : World σ) : Prop where
  tight : Shared.Tight w'.models w'.handle none
  next : w'.models.cells.next = w.models.cells.next
  kept : ∀ k m, w'.models.cells.get k = some m → w.models.cells.get k = some m
  rest : w' = { w with sources := w'.sources, models := w'.models }

section
variable {w w' w'' : World σ} {o other : Nat} {sp old r : Ptr}

theorem handle_of_some (h : w.sources o = some sp) : w.handle o = sp.handle := by simp [World.handle, h]

theorem handle_of_none (h : w.sources o = none) : w.handle o = none := by simp [World.handle, h]

theorem handle_eq_some {k : Nat} : w.handle o = some k ↔ w.sources o = some (.model k) := by
  cases h : w.sources o with
  | none => simp [World.handle, h]
  | some sp => cases sp <;> simp [World.handle, h, Ptr.handle]

theorem handle_withSource (w : World σ) (o : Nat) (sp? : Option Ptr) :
    (w.withSource o sp?).handle = Function.update w.handle o (sp?.bind Ptr.handle) := by
  funext o'
  by_cases hne : o' = o
  · subst hne
    simp [World.handle, World.withSource]
  · simp [World.handle, World.withSource, hne]

theorem Passes.trans (h : Passes w w') (h' : Passes w' w'') : Passes w w'' where
  tight := h'.tight
  next := h'.next.trans h.next
  kept k m hm := h.kept k m (h'.kept k m hm)
  rest := by
    rw [h'.rest, h.rest]

/-! ### Assignments of pointers -/

theorem release_passes (hc : Shared.Tight w.models w.handle sp.handle) :
    ∃ w', w.release sp = .ok w' ∧ w'.sources = w.sources ∧ Passes w w' := by
  obtain ⟨models, hdrop, htight, hnext, hget⟩ := hc.drop
  refine ⟨{ w with models := models }, by simp [World.release, hdrop], rfl, htight, hnext, fun k m hm => ?_, rfl⟩
  simp only [hget] at hm
  split at hm
  · cases hm
  · exact hm

theorem copySp_passes (hc : Shared.Tight w.models w.handle none) (ho : w.sources o = some old)
    (hsp : ∀ h, sp.handle = some h → 0 < w.models.uses h) :
    ∃ w', w.copySp o sp = .ok w' ∧ w'.sources = Function.update w.sources o (some sp) ∧ Passes w w' := by
  have hshared := (hc.share hsp).swap o
  rw [handle_of_some ho] at hshared
  let shared := World.withSource { w with models := w.models.share sp.handle } o (some sp)
  have hlast : Shared.Tight shared.models shared.handle old.handle := by
    rw [show shared.handle = Function.update w.handle o sp.handle from handle_withSource ..]
    exact hshared
  have hcells : shared.models.cells = w.models.cells := w.models.share_cells sp.handle
  obtain ⟨w', hw', hsources, hpasses⟩ := release_passes hlast
  refine ⟨w', ?_, hsources, hpasses.tight, ?_, fun k m hm => ?_, ?_⟩
  · simp only [World.copySp, World.sp, ho, ok_bind]
    exact hw'
  · rw [hpasses.next, hcells]
  · rw [← hcells]
    exact hpasses.kept k m hm
  · rw [hpasses.rest]
    rfl

theorem moveSp_passes (hc : Shared.Tight w.models w.handle none) (ho : w.sources o = some old)
    (hother : w.sources other = some r) :
    ∃ w', w.moveSp o other = .ok w' ∧
      w'.sources = Function.update (Function.update w.sources other (some .null)) o (some r) ∧ Passes w w' := by
  -- The pointer of `other` is on its way until it is swapped with that of `o`, which may be null by then.
  have htaken := hc.swap other
  rw [handle_of_some hother] at htaken
  have hnulled : (w.withSource other (some .null)).handle = Function.update w.handle other none := handle_withSource ..
  obtain ⟨old', hold'⟩ : ∃ old', (w.withSource other (some .null)).sources o = some old' := by
    by_cases hne : o = other
    · exact ⟨.null, by simp [World.withSource, hne]⟩
    · exact ⟨old, by simp [World.withSource, hne, ho]⟩
  have hswapped := htaken.swap o
  rw [← hnulled, handle_of_some hold'] at hswapped
  let swapped := (w.withSource other (some .null)).withSource o (some r)
  have hlast : Shared.Tight swapped.models swapped.handle old'.handle := by
    rw [show swapped.handle = Function.update (w.withSource other (some .null)).handle o r.handle from handle_withSource ..]
    exact hswapped
  obtain ⟨w', hw', hsources, hpasses⟩ := release_passes hlast
  refine ⟨w', ?_, hsources, hpasses.tight, hpasses.next, hpasses.kept, hpasses.rest⟩
  simp only [World.moveSp, World.sp, hother, hold', ok_bind]
  exact hw'

/-- After the pointer of `other` is moved to `o`, `other` points to the static model. -/
theorem update_moved (m : Nat → Option Ptr) (o other : Nat) (sp : Ptr) :
    Function.update (Function.update (Function.update m other (some .null)) o (some sp)) other (some .static) =
      Function.update (Function.update m o (some sp)) other (some .static) := by
  funext o'
  by_cases hother : o' = other
  · simp [hother]
  · by_cases ho : o' = o
    · subst ho
      simp [hother]
    · simp [hother, ho]

end

/-! ### Actions -/

/-- Where the sources point after an action: an empty one to `static`, and one over a new model to `new`. -/
def place {P : Type} (static new : P) (m : Nat → Option P) : Action σ → Nat → Option P
  | .default o =>
    match m o with
    | some _ => m
    | none => Function.update m o (some static)
  | .data o _ | .stream o _ | .sized o _ _ =>
    match m o with
    | some _ => m
    | none => Function.update m o (some new)
  | .copy o other =>
    match m o, m other with
    | none, some sp => Function.update m o (some sp)
    | _, _ => m
  | .assign o other =>
    match m o, m other with
    | some _, some sp => Function.update m o (some sp)
    | _, _ => m
  | .move o other =>
    match m o, m other with
    | none, some sp => Function.update (Function.update m o (some sp)) other (some static)
    | _, _ => m
  | .moveAssign o other =>
    match m o, m other with
    | some _, some sp => Function.update (Function.update m o (some sp)) other (some static)
    | _, _ => m
  | .destroy o => Function.update m o none
  | .read .. | .rewind _ => m

/-- Whether an action makes a new model, if the sources are as they are in `m`. -/
def makes {P : Type} (m : Nat → Option P) : Action σ → Bool
  | .data o _ | .stream o _ | .sized o _ _ => (m o).isNone
  | _ => false

/-- The action constructs a source over the new model `m`. -/
def Opens (w : World σ) (a : Action σ) (m : AnySource σ) : Prop :=
  match a with
  | .data o source => w.sources o = none ∧ ∃ d, DataModel.ofSource source = .ok d ∧ m = .dataModel d
  | .stream o source => w.sources o = none ∧ m = .readModel ⟨source⟩
  | .sized o known_size source => w.sources o = none ∧ m = .sizedReadModel ⟨known_size, source⟩
  | _ => False

/-- What an action that calls no model does. -/
structure Effect (w : World σ) (a : Action σ) (w' : World σ) : Prop where
  sources : w'.sources = place .static (.model w.models.cells.next) w.sources a
  lives : Lives w'
  next_eq : w'.models.cells.next = w.models.cells.next + (makes w.sources a).toNat
  models : ∀ k m, w'.models.cells.get k = some m →
    w.models.cells.get k = some m ∨ k = w.models.cells.next ∧ Opens w a m
  rest : w' = { w with sources := w'.sources, models := w'.models }

section
variable {w : World σ}

theorem Passes.effect {w w' : World σ} (h : Passes w w') {a : Action σ}
    (hsources : w'.sources = place .static (.model w.models.cells.next) w.sources a)
    (hpointed : ∀ o, w'.sources o ≠ some .null) (hmakes : makes w.sources a = false) : Effect w a w' :=
  ⟨hsources, ⟨hpointed, h.tight⟩, by rw [hmakes]; exact h.next, fun k m hm => Or.inl (h.kept k m hm), h.rest⟩

namespace Lives

theorem idle (h : Lives w) {a : Action σ} (hplace : place .static (.model w.models.cells.next) w.sources a = w.sources)
    (hmakes : makes w.sources a = false) : Effect w a w :=
  ⟨hplace.symm, h, by rw [hmakes]; rfl, fun _ _ hm => Or.inl hm, rfl⟩

theorem pointed_update {m : Nat → Option Ptr} (h : ∀ o, m o ≠ some .null) (o : Nat) {sp? : Option Ptr}
    (hsp : sp? ≠ some .null) (o' : Nat) : Function.update m o sp? o' ≠ some .null := by
  by_cases hne : o' = o
  · subst hne
    rwa [Function.update_self]
  · rw [Function.update_of_ne hne]
    exact h o'

/-- The pointer of a live source points to something. -/
theorem pointee (h : Lives w) {o : Nat} {sp : Ptr} (ho : w.sources o = some sp) : ∃ m, w.pointee sp = .ok m := by
  cases sp with
  | null => exact absurd ho (h.pointed o)
  | static => exact ⟨_, rfl⟩
  | model k =>
    obtain ⟨m, hm⟩ := h.tight.owned (handle_eq_some.mpr ho)
    exact ⟨m, by simp [World.pointee, hm]⟩

theorem uses_pos (h : Lives w) {o : Nat} {sp : Ptr} (ho : w.sources o = some sp) :
    ∀ k, sp.handle = some k → 0 < w.models.uses k :=
  fun _ hk => h.tight.counts.pos ((handle_of_some ho).trans hk)

theorem ne_null (h : Lives w) {o : Nat} {sp : Ptr} (ho : w.sources o = some sp) : some sp ≠ some .null := ho ▸ h.pointed o

/-- A source under construction has a null pointer. -/
theorem tight_null (h : Lives w) {o : Nat} (ho : w.sources o = none) :
    Shared.Tight (w.withSource o (some .null)).models (w.withSource o (some .null)).handle none := by
  have hsame : (w.withSource o (some .null)).handle = w.handle := by
    rw [handle_withSource]
    exact Function.update_eq_self_iff.mpr (handle_of_none ho).symm
  rw [hsame]
  exact h.tight

theorem construct (h : Lives w) {o : Nat} (ho : w.sources o = none) {a : Action σ} {m : AnySource σ} (hopens : Opens w a m)
    (hplace : place .static (.model w.models.cells.next) w.sources a =
      Function.update w.sources o (some (.model w.models.cells.next)))
    (hmakes : makes w.sources a = true) : Effect w a (w.construct o m) where
  sources := hplace.symm
  lives := by
    have hmade := (h.tight.make m).swap o
    rw [handle_of_none ho] at hmade
    refine ⟨pointed_update h.pointed o (by simp), ?_⟩
    have hhandle : (w.construct o m).handle = Function.update w.handle o (some w.models.cells.next) :=
      handle_withSource w o (some (.model w.models.cells.next))
    rw [hhandle]
    exact hmade
  next_eq := by
    rw [hmakes]
    rfl
  models k m' hm' := by
    by_cases hk : k = w.models.cells.next
    · subst hk
      have hnew : (w.construct o m).models.cells.get w.models.cells.next = some m := w.models.make_get_next m
      rw [hnew] at hm'
      cases hm'
      exact Or.inr ⟨rfl, hopens⟩
    · exact Or.inl ((w.models.make_get_of_ne m hk).symm.trans hm')
  rest := rfl

/-- What the moves have in common: `other.sp_` is moved to `o`, and `other` is left empty. -/
theorem moved {W : World σ} (hc : Shared.Tight W.models W.handle none) {o other : Nat} {old sp : Ptr}
    (ho : W.sources o = some old) (hother : W.sources other = some sp) :
    ∃ w', (W.moveSp o other >>= fun w => w.copySp other .static) = .ok w' ∧
      w'.sources = Function.update (Function.update W.sources o (some sp)) other (some .static) ∧ Passes W w' := by
  obtain ⟨w₁, hw₁, hsources₁, hpasses₁⟩ := moveSp_passes hc ho hother
  obtain ⟨old', hold'⟩ : ∃ old', w₁.sources other = some old' := by
    rw [hsources₁]
    by_cases hne : other = o
    · exact ⟨sp, by simp [hne]⟩
    · exact ⟨.null, by simp [hne]⟩
  have hstatic : ∀ k, Ptr.static.handle = some k → 0 < w₁.models.uses k := by simp [Ptr.handle]
  obtain ⟨w₂, hw₂, hsources₂, hpasses₂⟩ := copySp_passes hpasses₁.tight hold' hstatic
  refine ⟨w₂, by rw [hw₁, ok_bind, hw₂], ?_, hpasses₁.trans hpasses₂⟩
  rw [hsources₂, hsources₁, update_moved]

end Lives

attribute [simp] step place

section
variable [ReadSource σ]

namespace Lives

theorem step_default (h : Lives w) (o : Nat) : ∃ w', step w (.default o) = .ok w' ∧ Effect w (.default o) w' := by
  cases ho : w.sources o with
  | some sp => exact ⟨w, by simp [step, ho], h.idle (by simp [place, ho]) rfl⟩
  | none =>
    have hhandle : (w.withSource o (some .static)).handle = w.handle := by
      rw [handle_withSource]
      exact Function.update_eq_self_iff.mpr (handle_of_none ho).symm
    refine ⟨w.withSource o (some .static), by simp [step, ho], ?_, ⟨pointed_update h.pointed o (by simp), ?_⟩,
      rfl, fun _ _ hm => Or.inl hm, rfl⟩
    · simp only [place, ho]
      rfl
    · rw [hhandle]
      exact h.tight

theorem step_data (h : Lives w) (o : Nat) (source : Sequence) :
    ∃ w', step w (.data o source) = .ok w' ∧ Effect w (.data o source) w' := by
  cases ho : w.sources o with
  | some sp => exact ⟨w, by simp [step, ho], h.idle (by simp [place, ho]) (by simp [makes, ho])⟩
  | none =>
    obtain ⟨bufs, hbufs⟩ := source.exists_read
    have hmodel : DataModel.ofSource source = .ok { source_ := source, size_ := Buffers.size bufs } := by
      simp [DataModel.ofSource, hbufs]
    exact ⟨_, by simp [step, ho, hmodel], h.construct ho ⟨ho, _, hmodel, rfl⟩ (by simp [place, ho]) (by simp [makes, ho])⟩

theorem step_stream (h : Lives w) (o : Nat) (source : σ) :
    ∃ w', step w (.stream o source) = .ok w' ∧ Effect w (.stream o source) w' := by
  cases ho : w.sources o with
  | some sp => exact ⟨w, by simp [step, ho], h.idle (by simp [place, ho]) (by simp [makes, ho])⟩
  | none => exact ⟨_, by simp [step, ho], h.construct ho ⟨ho, rfl⟩ (by simp [place, ho]) (by simp [makes, ho])⟩

theorem step_sized (h : Lives w) (o known_size : Nat) (source : σ) :
    ∃ w', step w (.sized o known_size source) = .ok w' ∧ Effect w (.sized o known_size source) w' := by
  cases ho : w.sources o with
  | some sp => exact ⟨w, by simp [step, ho], h.idle (by simp [place, ho]) (by simp [makes, ho])⟩
  | none => exact ⟨_, by simp [step, ho], h.construct ho ⟨ho, rfl⟩ (by simp [place, ho]) (by simp [makes, ho])⟩

theorem step_copy (h : Lives w) (o other : Nat) : ∃ w', step w (.copy o other) = .ok w' ∧ Effect w (.copy o other) w' := by
  cases ho : w.sources o with
  | some sp => exact ⟨w, by simp [step, ho], h.idle (by simp [place, ho]) rfl⟩
  | none =>
    cases hother : w.sources other with
    | none => exact ⟨w, by simp [step, ho, hother], h.idle (by simp [place, ho, hother]) rfl⟩
    | some sp =>
      have hnull : (w.withSource o (some .null)).sources o = some .null := Function.update_self ..
      obtain ⟨w', hw', hsources, hpasses⟩ := copySp_passes (h.tight_null ho) hnull (h.uses_pos hother)
      have hplace : w'.sources = Function.update w.sources o (some sp) := by
        rw [hsources]
        exact Function.update_idem ..
      refine ⟨w', by simp [step, ho, hother, hw'], ?_, ⟨?_, hpasses.tight⟩, hpasses.next,
        fun k m hm => Or.inl (hpasses.kept k m hm), hpasses.rest⟩
      · simp only [place, ho, hother, hplace]
      · rw [hplace]
        exact pointed_update h.pointed o (h.ne_null hother)

theorem step_assign (h : Lives w) (o other : Nat) :
    ∃ w', step w (.assign o other) = .ok w' ∧ Effect w (.assign o other) w' := by
  cases ho : w.sources o with
  | none => exact ⟨w, by simp [step, ho], h.idle (by simp [place, ho]) rfl⟩
  | some old =>
    cases hother : w.sources other with
    | none => exact ⟨w, by simp [step, ho, hother], h.idle (by simp [place, ho, hother]) rfl⟩
    | some sp =>
      obtain ⟨w', hw', hsources, hpasses⟩ := copySp_passes h.tight ho (h.uses_pos hother)
      refine ⟨w', by simp [step, ho, hother, hw'], hpasses.effect (by simp only [place, ho, hother, hsources]) ?_ rfl⟩
      rw [hsources]
      exact pointed_update h.pointed o (h.ne_null hother)

theorem step_move (h : Lives w) (o other : Nat) : ∃ w', step w (.move o other) = .ok w' ∧ Effect w (.move o other) w' := by
  cases ho : w.sources o with
  | some sp => exact ⟨w, by simp [step, ho], h.idle (by simp [place, ho]) rfl⟩
  | none =>
    cases hother : w.sources other with
    | none => exact ⟨w, by simp [step, ho, hother], h.idle (by simp [place, ho, hother]) rfl⟩
    | some sp =>
      have hne : other ≠ o := by
        rintro rfl
        rw [ho] at hother
        cases hother
      have hsame : (w.withSource o (some .null)).sources other = some sp := (Function.update_of_ne hne ..).trans hother
      have hnull : (w.withSource o (some .null)).sources o = some .null := Function.update_self ..
      obtain ⟨w', hw', hsources, hpasses⟩ := moved (h.tight_null ho) hnull hsame
      have hplace : w'.sources = Function.update (Function.update w.sources o (some sp)) other (some .static) := by
        rw [hsources]
        simp only [World.withSource, Function.update_idem]
      refine ⟨w', by simp only [step, ho, hother, hw'], ?_, ⟨?_, hpasses.tight⟩, hpasses.next,
        fun k m hm => Or.inl (hpasses.kept k m hm), hpasses.rest⟩
      · simp only [place, ho, hother, hplace]
      · rw [hplace]
        exact pointed_update (pointed_update h.pointed o (h.ne_null hother)) other (by simp)

theorem step_moveAssign (h : Lives w) (o other : Nat) :
    ∃ w', step w (.moveAssign o other) = .ok w' ∧ Effect w (.moveAssign o other) w' := by
  cases ho : w.sources o with
  | none => exact ⟨w, by simp [step, ho], h.idle (by simp [place, ho]) rfl⟩
  | some old =>
    cases hother : w.sources other with
    | none => exact ⟨w, by simp [step, ho, hother], h.idle (by simp [place, ho, hother]) rfl⟩
    | some sp =>
      obtain ⟨w', hw', hsources, hpasses⟩ := moved h.tight ho hother
      refine ⟨w', by simp only [step, ho, hother, hw'], hpasses.effect (by simp only [place, ho, hother, hsources]) ?_ rfl⟩
      rw [hsources]
      exact pointed_update (pointed_update h.pointed o (h.ne_null hother)) other (by simp)

theorem step_destroy (h : Lives w) (o : Nat) : ∃ w', step w (.destroy o) = .ok w' ∧ Effect w (.destroy o) w' := by
  cases ho : w.sources o with
  | none => exact ⟨w, by simp [step, ho], h.idle (Function.update_eq_self_iff.mpr ho.symm) rfl⟩
  | some sp =>
    have hdropped := h.tight.swap o
    rw [handle_of_some ho] at hdropped
    have hhandle : (w.withSource o none).handle = Function.update w.handle o none := handle_withSource ..
    obtain ⟨w', hw', hsources, hpasses⟩ := release_passes (w := w.withSource o none) (by rw [hhandle]; exact hdropped)
    refine ⟨w', by simp [step, ho, hw'], hsources, ⟨?_, hpasses.tight⟩, hpasses.next,
      fun k m hm => Or.inl (hpasses.kept k m hm), hpasses.rest⟩
    rw [hsources]
    exact pointed_update h.pointed o (by simp)

end Lives

/-! ### Calls of a model -/

/-- What a call of the model that `sp` points to leaves. -/
structure Called (w : World σ) (sp : Ptr) (w' : World σ) : Prop where
  sources : w'.sources = w.sources
  lives : Lives w'
  next_eq : w'.models.cells.next = w.models.cells.next
  others : ∀ k, sp ≠ .model k → w'.models.cells.get k = w.models.cells.get k

end

theorem Lives.store (h : Lives w) {o : Nat} {sp : Ptr} (ho : w.sources o = some sp) (m : AnySource σ) (mem : Mem)
    (count : Nat) (ec : ErrorCode) : Called w sp { w.store sp m with mem := mem, count := count, ec := ec } := by
  cases sp with
  | null => exact absurd ho (h.pointed o)
  | static => exact ⟨rfl, ⟨h.pointed, h.tight⟩, rfl, fun _ _ => rfl⟩
  | model k =>
    have htight := h.tight.set k m (h.tight.owned (handle_eq_some.mpr ho))
    refine ⟨rfl, ⟨h.pointed, htight⟩, rfl, fun j hne => w.models.set_get_of_ne m ?_⟩
    rintro rfl
    exact hne rfl

end

/-! ### Reads -/

section
variable {src : List Nat} [ReadSource σ]

/-- A data source stays where it can be read, in memory that no destination overlaps. -/
def Placed (src : List Nat) : AnySource σ → Prop
  | .dataModel m => ∃ bufs, m.source_.read = .ok bufs ∧ m.size_ = Buffers.size bufs ∧ m.nread_ ≤ m.size_ ∧
      addresses bufs ⊆ src
  | .emptyModel _ | .readModel _ | .sizedReadModel _ => True

/-- One call fills its destination or reports a failure. -/
theorem Placed.read (hσ : FillsOrFails σ) {m : AnySource σ} (hm : Placed src m) {dest : List Buffer}
    (hdest : src.Disjoint (addresses dest)) (ec : ErrorCode) (mem : Mem) :
    ∃ r, AnyImpl.read m dest ec mem = .ok r ∧ (r.ec.failed = true ∨ r.count = Buffers.size dest) ∧ Placed src r.src := by
  cases m with
  | emptyModel m => exact ⟨_, rfl, Or.inl rfl, trivial⟩
  | readModel m =>
    obtain ⟨r, hr, hfills⟩ := hσ m.source_ dest ec mem
    exact ⟨r.mapSrc fun s => .readModel ⟨s⟩, by simp only [AnyImpl.read, hr]; rfl, hfills, trivial⟩
  | sizedReadModel m =>
    obtain ⟨r, hr, hfills⟩ := hσ m.source_ dest ec mem
    exact ⟨r.mapSrc fun s => .sizedReadModel { m with source_ := s }, by simp only [AnyImpl.read, hr]; rfl, hfills, trivial⟩
  | dataModel m =>
    obtain ⟨bufs, hbufs, hsize, hle, hsub⟩ := hm
    have hlen : ((addresses bufs).map mem).length = m.size_ := by rw [List.length_map, ← size_eq, hsize]
    have hp : m.nread_ ≤ ((addresses bufs).map mem).length := hlen ▸ hle
    obtain ⟨t, ht, hat, -⟩ := DataModel.reads hbufs ((addresses bufs).map mem) m dest ec mem m.nread_
      ⟨by rw [hlen], rfl⟩ hp (fun a ha hd => hdest (hsub ha) hd)
    refine ⟨(deliver _ .eof m.nread_ dest mem t).mapSrc .dataModel,
      by simp only [AnyImpl.read] at ht ⊢; rw [ht]; rfl, ?_, ?_⟩
    · by_cases hend : m.nread_ + delivered ((addresses bufs).map mem) m.nread_ dest = ((addresses bufs).map mem).length
      · exact Or.inl (by simp only [ReadResult.mapSrc, deliver, if_pos hend]; rfl)
      · exact Or.inr (delivered_eq_size hp hend)
    · have hnext := delivered_le dest hp
      refine ⟨bufs, ?_, ?_, ?_, hsub⟩
      · simp only [deliver, hat.1, hbufs]
      · simp only [deliver, hat.1, hlen, hsize]
      · simp only [deliver, hat.1]
        exact hnext

theorem addresses_subset_flatten {g : List Buffer} {gs : List (List Buffer)} (hg : g ∈ gs) :
    addresses g ⊆ addresses gs.flatten := by
  intro a ha
  obtain ⟨b, hb, hab⟩ := List.mem_flatMap.mp ha
  exact List.mem_flatMap.mpr ⟨b, List.mem_flatten.mpr ⟨g, hg, hb⟩, hab⟩

/-- No batch of a read faults. -/
theorem Placed.read_all (hσ : FillsOrFails σ) {m : AnySource σ} (hm : Placed src m) {dest : List Buffer}
    (hdest : src.Disjoint (addresses dest)) (ec : ErrorCode) (mem : Mem) :
    ∃ r, AnySource.read m dest ec mem = .ok r ∧ Placed src r.src := by
  rw [anySource_read_eq]
  refine untilStop_invariant (I := fun r : ReadResult (AnySource σ) => Placed src r.src) (fun g hg r hr => ?_) hm
  have hflat := flatten_batches batchSize [] dest
  have hsub := addresses_subset_flatten hg
  rw [hflat, List.nil_append] at hsub
  obtain ⟨t, ht, hfills, hplaced⟩ := hr.read hσ (fun a ha hd => hdest ha (hsub hd)) r.ec r.mem
  exact ⟨{ t with count := r.count + t.count }, by simp only [readBatch, ht, ok_bind, assert_of hfills]; rfl, hplaced⟩

/-! ### Runs -/

/-- The data of the sources is in the memory `src`, and no destination overlaps it. -/
def Action.Apart (src : List Nat) : Action σ → Prop
  | .data _ source => ∀ bufs, source.read = .ok bufs → addresses bufs ⊆ src
  | .read _ dest _ => src.Disjoint (addresses dest)
  | _ => True

/-- The action calls the model `k`. -/
def Calls (w : World σ) (a : Action σ) (k : Nat) : Prop :=
  match a with
  | .read o _ _ | .rewind o => w.sources o = some (.model k)
  | _ => False

/-- What the steps must be: each source points where the action puts it, and to something; a model has as many uses as
    sources that point to it, and is live as long as it has one; none comes back, and none changes unless it is
    called. -/
structure Lifetimes (w : World σ) (a : Action σ) (w' : World σ) : Prop where
  placed : w'.sources = place .static (.model w.models.cells.next) w.sources a
  pointed : ∀ o sp, w'.sources o = some sp → ∃ m, w'.pointee sp = .ok m
  counts : ∀ k, ∃ owners : Finset Nat, (∀ o, o ∈ owners ↔ w'.sources o = some (.model k)) ∧ owners.card = w'.models.uses k
  live_iff : ∀ k, (∃ m, w'.models.cells.get k = some m) ↔ ∃ o, w'.sources o = some (.model k)
  once : ∀ k, k < w.models.cells.next → w.models.cells.get k = none → w'.models.cells.get k = none
  kept : ∀ k m, w.models.cells.get k = some m → ¬Calls w a k →
    w'.models.cells.get k = some m ∨ w'.models.cells.get k = none

section
variable {w w' : World σ} {a : Action σ}

omit [ReadSource σ] in
theorem Lives.lifetimes (h : Lives w') (hplaced : w'.sources = place .static (.model w.models.cells.next) w.sources a)
    (honce : ∀ k, k < w.models.cells.next → w.models.cells.get k = none → w'.models.cells.get k = none)
    (hkept : ∀ k m, w.models.cells.get k = some m → ¬Calls w a k →
      w'.models.cells.get k = some m ∨ w'.models.cells.get k = none) : Lifetimes w a w' where
  placed := hplaced
  pointed _ _ ho := h.pointee ho
  counts k := by
    obtain ⟨owners, hmem, hcard⟩ := h.tight.counts k
    exact ⟨owners, fun o => (hmem o).trans handle_eq_some, hcard⟩
  live_iff k := (h.tight.live_iff k).trans (exists_congr fun _ => handle_eq_some)
  once := honce
  kept := hkept

omit [ReadSource σ] in
theorem Effect.lifetimes (e : Effect w a w') (h : Lives w) : Lifetimes w a w' := by
  refine e.lives.lifetimes e.sources (fun k hk hnone => ?_) fun k m hm _ => ?_
  · cases hget : w'.models.cells.get k with
    | none => rfl
    | some m =>
      rcases e.models k m hget with hold | ⟨rfl, -⟩
      · rw [hnone] at hold
        cases hold
      · exact absurd hk (Nat.lt_irrefl _)
  · cases hget : w'.models.cells.get k with
    | none => exact Or.inr rfl
    | some m' =>
      rcases e.models k m' hget with hold | ⟨rfl, -⟩
      · exact Or.inl (hold.symm.trans hm)
      · exact absurd (h.tight.below _ m hm) (Nat.lt_irrefl _)

omit [ReadSource σ] in
theorem Called.lifetimes {sp : Ptr} {o : Nat} (c : Called w sp w') (h : Lives w) (ho : w.sources o = some sp)
    (hplace : place .static (.model w.models.cells.next) w.sources a = w.sources)
    (hcalls : ∀ k, w.sources o = some (.model k) → Calls w a k) :
    Lifetimes w a w' := by
  refine c.lives.lifetimes (c.sources.trans hplace.symm) (fun k _ hnone => ?_) fun k m hm hcall => Or.inl ?_
  · have hne : sp ≠ .model k := by
      rintro rfl
      obtain ⟨m, hm⟩ := h.tight.owned (handle_eq_some.mpr ho)
      rw [hnone] at hm
      cases hm
    rw [c.others k hne, hnone]
  · have hne : sp ≠ .model k := by
      rintro rfl
      exact hcall (hcalls k ho)
    rw [c.others k hne, hm]

/-- What holds between actions. -/
structure Inv (src : List Nat) (w : World σ) : Prop where
  lives : Lives w
  placed : ∀ k m, w.models.cells.get k = some m → Placed src m

omit [ReadSource σ] in
theorem Inv.pointee_placed (h : Inv src w) {sp : Ptr} {m : AnySource σ} (hm : w.pointee sp = .ok m) : Placed src m := by
  cases sp with
  | null => cases hm
  | static =>
    cases hm
    trivial
  | model k =>
    simp only [World.pointee] at hm
    split at hm
    · rename_i m' hget
      cases hm
      exact h.placed k m hget
    · cases hm

omit [ReadSource σ] in
theorem Inv.effect (h : Inv src w) (ha : a.Apart src) (e : Effect w a w') : Lifetimes w a w' ∧ Inv src w' := by
  refine ⟨e.lifetimes h.lives, e.lives, fun k m hm => ?_⟩
  rcases e.models k m hm with hold | ⟨rfl, hopens⟩
  · exact h.placed k m hold
  · cases a with
    | data o source =>
      obtain ⟨-, d, hd, rfl⟩ := hopens
      obtain ⟨bufs, hbufs⟩ := source.exists_read
      simp only [DataModel.ofSource, hbufs, ok_bind, pure_eq, Except.ok.injEq] at hd
      subst hd
      exact ⟨bufs, hbufs, rfl, Nat.zero_le _, ha bufs hbufs⟩
    | stream o source =>
      obtain ⟨-, rfl⟩ := hopens
      trivial
    | sized o known_size source =>
      obtain ⟨-, rfl⟩ := hopens
      trivial
    | _ => exact absurd hopens id

omit [ReadSource σ] in
theorem Inv.call (h : Inv src w) {o : Nat} {sp : Ptr} (ho : w.sources o = some sp) {m : AnySource σ} (hm : Placed src m)
    (mem : Mem) (count : Nat) (ec : ErrorCode) : Inv src { w.store sp m with mem := mem, count := count, ec := ec } := by
  have c := h.lives.store ho m mem count ec
  refine ⟨c.lives, fun k m' hm' => ?_⟩
  by_cases hk : sp = .model k
  · subst hk
    have hnew : (w.models.set k m).cells.get k = some m := w.models.set_get_self k m
    have hsame : some m' = some m := hm'.symm.trans hnew
    cases hsame
    exact hm
  · rw [c.others k hk] at hm'
    exact h.placed k m' hm'

theorem Inv.step (hσ : FillsOrFails σ) (h : Inv src w) (ha : a.Apart src) :
    ∃ w', step w a = .ok w' ∧ Lifetimes w a w' ∧ Inv src w' := by
  have heffect : (∃ w', AnySource.step w a = .ok w' ∧ Effect w a w') →
      ∃ w', AnySource.step w a = .ok w' ∧ Lifetimes w a w' ∧ Inv src w' := by
    rintro ⟨w', hw', e⟩
    exact ⟨w', hw', h.effect ha e⟩
  cases a with
  | default o => exact heffect (h.lives.step_default o)
  | data o source => exact heffect (h.lives.step_data o source)
  | stream o source => exact heffect (h.lives.step_stream o source)
  | sized o known_size source => exact heffect (h.lives.step_sized o known_size source)
  | copy o other => exact heffect (h.lives.step_copy o other)
  | assign o other => exact heffect (h.lives.step_assign o other)
  | move o other => exact heffect (h.lives.step_move o other)
  | moveAssign o other => exact heffect (h.lives.step_moveAssign o other)
  | destroy o => exact heffect (h.lives.step_destroy o)
  | read o dest ec =>
    cases ho : w.sources o with
    | none => exact heffect ⟨w, by simp [AnySource.step, ho], h.lives.idle rfl rfl⟩
    | some sp =>
      obtain ⟨m, hm⟩ := h.lives.pointee ho
      obtain ⟨r, hr, hplaced⟩ := (h.pointee_placed hm).read_all hσ ha ec w.mem
      refine ⟨{ w.store sp r.src with mem := r.mem, count := r.count, ec := r.ec }, by simp [AnySource.step, ho, hm, hr],
        (h.lives.store ho r.src r.mem r.count r.ec).lifetimes h.lives ho rfl fun _ hk => hk,
        h.call ho hplaced r.mem r.count r.ec⟩
  | rewind o =>
    cases ho : w.sources o with
    | none => exact heffect ⟨w, by simp [AnySource.step, ho], h.lives.idle rfl rfl⟩
    | some sp =>
      obtain ⟨m, hm⟩ := h.lives.pointee ho
      have hplaced : Placed src (AnySource.rewind m) := by
        have hp := h.pointee_placed hm
        cases m with
        | dataModel m =>
          obtain ⟨bufs, hbufs, hsize, -, hsub⟩ := hp
          exact ⟨bufs, hbufs, hsize, Nat.zero_le _, hsub⟩
        | _ => trivial
      have hsame : { w.store sp (AnySource.rewind m) with mem := w.mem, count := w.count, ec := w.ec } =
          w.store sp (AnySource.rewind m) := by cases sp <;> rfl
      have hcall := (h.lives.store ho (AnySource.rewind m) w.mem w.count w.ec).lifetimes (a := .rewind o) h.lives ho rfl
        fun _ hk => hk
      have hinv := h.call ho hplaced w.mem w.count w.ec
      rw [hsame] at hcall hinv
      exact ⟨w.store sp (AnySource.rewind m), by simp [AnySource.step, ho, hm], hcall, hinv⟩

end

/-- Whatever a program does with its sources, their models are shared and destroyed as their pointers say. -/
theorem any_source_lifetimes (hσ : FillsOrFails σ) (src : List Nat) (mem : Mem) (actions : List (Action σ))
    (h : ∀ a ∈ actions, a.Apart src) : Run.Every step Lifetimes ({ mem := mem } : World σ) actions := by
  refine Run.every_of_invariant (P := Action.Apart src) (I := Inv src) (fun _ _ ha hw => hw.step hσ ha) ⟨⟨?_, .init⟩, ?_⟩ h
  · simp
  · simp

end

/-- Two sources share data, one of them is moved over, and moved to itself; the other reads on and goes last. -/
theorem any_source_lifetimes_moved :
    Run.Every step Lifetimes ({ mem := fun a => a.toUInt8 } : World MyReadSource)
      [.data 0 (.range [⟨0, 2⟩, ⟨10, 3⟩]), .copy 1 0, .read 1 [⟨20, 3⟩] .cleared, .stream 2 ⟨[7, 8], 0⟩, .moveAssign 0 2,
        .moveAssign 0 0, .read 1 [⟨20, 9⟩] .cleared, .destroy 0, .destroy 1] := by
  refine any_source_lifetimes myReadSource_fillsOrFails [0, 1, 10, 11, 12] (fun a => a.toUInt8) _ ?_
  simp [Action.Apart, Sequence.read, List.Disjoint, Buffer.addresses, List.range']

end Buffers.AnySource
