import Buffers.Lib.Run
import Buffers.Theorems.AnyBuffers.Plan
import Buffers.Theorems.Slice

/-! # Iterators that outlive their objects

An iterator of a sequence that is in the storage of an object is stale once that storage holds another one, or none;
the other iterators never are. A deed that uses no stale iterator does as planned (`Stands.step`), and so does a
program that never uses one (`any_iterators_outlive`). No program gets past the default constructor of an iterator. -/

namespace Buffers.AnyBuffers
open Checked

variable {ι : Type} {T : ι → Type} [∀ i, BufferSequence (T i)] [DecidableEq ι]

section
variable {s : Scene T} {m : Plan T} {i o other : Nat}

attribute [simp] Scene.step Plan.step

/-! ### Deeds that use no stale iterator -/

omit [DecidableEq ι] in
/-- A new iterator of the object `o`, at the position `n`. -/
theorem Stands.construct_visit (h : Stands s m) (hi : s.iterators i = none) {x : Object} (hx : s.world.objects o = some x)
    {start : Impl T → Checked (ItStorage T)} {v : Option (Holding T)} (hv : m.objects o = some v) {n : Nat}
    (hn : n ≤ (contents (v.map Holding.sequence)).length)
    (hstart : start (Impl.ofOrigin (v.map Holding.sequence)) = .ok (Holding.itStorage v n)) :
    ∃ s', s.construct i o start = .ok s' ∧ Stands s' (m.withVisit i (some ⟨v, n⟩)) ∧
      Shared.Passes s.world.shared s'.world.shared := by
  obtain ⟨u, hu, hsp, -, hfresh, hp⟩ := h.object_of_some hx
  rw [hv] at hu
  cases hu
  have hheld : ∀ a, v = some a → m.Holds a := fun a ha => Or.inl ⟨o, hv.trans (congrArg some ha)⟩
  have hold : handles s.world.objects s.iterators (.inr i) = Ptr.null.deletes := by simp [handles, hi, Ptr.deletes]
  obtain ⟨w', hw', hobjects, hnext, hpassage⟩ := exchange_passage _ _ h.counted hold (h.uses_pos hheld)
  cases hw'
  have htarget : s.world.target (Holding.ptr v) = (⟨v, n⟩ : Visit T).number :=
    (target_eq_iff h.storage ⟨v, n⟩).mpr (hfresh n)
  refine ⟨Scene.withIterator { s with world := s.world.share (Holding.ptr v) } i
    (some ⟨⟨Holding.ptr v, Holding.itStorage v n⟩, (⟨v, n⟩ : Visit T).number⟩), ?_, ?_, hpassage.passes⟩
  · rw [hsp] at hp
    simp [Scene.construct, World.object, hx, hsp, share_pointee, share_target, hp, hstart, htarget]
  · refine h.visit hobjects hnext ⟨?_, hpassage.passes⟩ (.live ⟨v, n⟩ hn) ?_
    · rw [handles_iterator, hobjects]
      exact hpassage.counted
    · rintro k a hk ha
      cases hk
      exact hheld a ha

theorem Stands.copy_visit (h : Stands s m) (hi : s.iterators i = none) {k : Visit T} (hk : m.visits other = some k)
    (hle : k.pos ≤ k.contents.length) (hfresh : m.Fresh k) :
    ∃ s', s.copy i ⟨⟨Holding.ptr k.holding, Holding.itStorage k.holding k.pos⟩, k.number⟩ = .ok s' ∧
      Stands s' (m.withVisit i (some k)) ∧ Shared.Passes s.world.shared s'.world.shared := by
  have hheld : ∀ a, k.holding = some a → m.Holds a := fun a ha => Or.inr ⟨other, k, hk, ha⟩
  have hold : handles s.world.objects s.iterators (.inr i) = Ptr.null.deletes := by simp [handles, hi, Ptr.deletes]
  obtain ⟨w', hw', hobjects, hnext, hpassage⟩ := exchange_passage _ _ h.counted hold (h.uses_pos hheld)
  cases hw'
  have hholder := holder_of_fresh h.storage (h.visit_kept hk) hfresh (Holding.itStorage k.holding k.pos)
  refine ⟨_, ?_, h.visit hobjects hnext ⟨?_, hpassage.passes⟩ (.live k hle) ?_, hpassage.passes⟩
  · simp [Scene.copy, share_holder, hholder, itCopy_itStorage]
  · rw [handles_iterator, hobjects]
    exact hpassage.counted
  · rintro l a hl ha
    cases hl
    exact hheld a ha

theorem Stands.assign_visit (h : Stands s m) {k l : Visit T} (hk : m.visits i = some k) (hl : m.visits other = some l)
    (hle : l.pos ≤ l.contents.length) (hk_fresh : m.Fresh k) (hl_fresh : m.Fresh l)
    (hi : s.iterators i = some ⟨⟨Holding.ptr k.holding, Holding.itStorage k.holding k.pos⟩, k.number⟩) :
    ∃ s', s.assign i ⟨⟨Holding.ptr k.holding, Holding.itStorage k.holding k.pos⟩, k.number⟩
        ⟨⟨Holding.ptr l.holding, Holding.itStorage l.holding l.pos⟩, l.number⟩ = .ok s' ∧
      Stands s' (m.withVisit i (some l)) ∧ Shared.Passes s.world.shared s'.world.shared := by
  have hheld : ∀ a, l.holding = some a → m.Holds a := fun a ha => Or.inr ⟨other, l, hl, ha⟩
  have hold : handles s.world.objects s.iterators (.inr i) = (Holding.ptr k.holding).deletes := by simp [handles, hi]
  obtain ⟨w', hw', hobjects, hnext, hpassage⟩ := exchange_passage _ _ h.counted hold (h.uses_pos hheld)
  have hstands : Stands (Scene.withIterator { s with world := w' } i
      (some ⟨⟨Holding.ptr l.holding, Holding.itStorage l.holding l.pos⟩, l.number⟩)) (m.withVisit i (some l)) := by
    refine h.visit hobjects hnext ⟨?_, hpassage.passes⟩ (.live l hle) ?_
    · rw [handles_iterator, hobjects]
      exact hpassage.counted
    · rintro k' a hk' ha
      cases hk'
      exact hheld a ha
  have hholder := holder_of_fresh h.storage (h.visit_kept hk) hk_fresh (Holding.itStorage k.holding k.pos)
  -- The holder of the other iterator is there after the assignment of `sp_` as well.
  have hholder' : w'.holder ⟨⟨Holding.ptr l.holding, Holding.itStorage l.holding l.pos⟩, l.number⟩ =
      .ok (Impl.ofOrigin (l.holding.map Holding.sequence)) :=
    holder_of_fresh hstands.storage (hstands.visit_kept (Function.update_self ..)) hl_fresh _
  refine ⟨_, ?_, hstands, hpassage.passes⟩
  simp [Scene.assign, hholder, itDestroy_itStorage, hw', hholder', itCopy_itStorage]

theorem Stands.destroy_visit (h : Stands s m) {k : Visit T} (hk : m.visits i = some k) (hfresh : m.Fresh k)
    (hi : s.iterators i = some ⟨⟨Holding.ptr k.holding, Holding.itStorage k.holding k.pos⟩, k.number⟩) :
    ∃ s', s.destroy i ⟨⟨Holding.ptr k.holding, Holding.itStorage k.holding k.pos⟩, k.number⟩ = .ok s' ∧
      Stands s' (m.withVisit i none) ∧ Shared.Passes s.world.shared s'.world.shared := by
  have hold : handles s.world.objects s.iterators (.inr i) = (Holding.ptr k.holding).deletes := by simp [handles, hi]
  obtain ⟨w', hw', hobjects, hnext, hpassage⟩ := exchange_passage _ .null h.counted hold (by simp [Ptr.deletes])
  have hrelease : s.world.release (Holding.ptr k.holding) = .ok w' := hw'
  have hholder := holder_of_fresh h.storage (h.visit_kept hk) hfresh (Holding.itStorage k.holding k.pos)
  refine ⟨_, ?_, h.visit hobjects hnext ⟨?_, hpassage.passes⟩ .dead (by simp), hpassage.passes⟩
  · simp [Scene.destroy, hholder, itDestroy_itStorage, hrelease]
  · rw [handles_iterator, hobjects]
    exact hpassage.counted

omit [DecidableEq ι] in
theorem Stands.move_visit (h : Stands s m) {k : Visit T} (hk : m.visits i = some k)
    (hi : s.iterators i = some ⟨⟨Holding.ptr k.holding, Holding.itStorage k.holding k.pos⟩, k.number⟩) {n : Nat}
    (hn : n ≤ k.contents.length) :
    Stands (s.withIterator i (some ⟨⟨Holding.ptr k.holding, Holding.itStorage k.holding n⟩, k.number⟩))
      (m.withVisit i (some { k with pos := n })) := by
  refine h.visit rfl rfl ⟨?_, .refl _⟩ (.live { k with pos := n } hn) ?_
  · rw [handles_iterator, Function.update_eq_self_iff.mpr (by simp [handles, hi])]
    exact h.counted
  · rintro l a hl ha
    cases hl
    exact Or.inr ⟨i, k, hk, ha⟩

omit [DecidableEq ι] in
theorem Stands.see (h : Stands s m) (x : Seen) : Stands (s.see x) { m with seen := x :: m.seen } :=
  ⟨h.counted, h.next, h.objects, h.iterators, h.kept, h.numbered, congrArg (x :: ·) h.seen⟩

/-- What a move within the sequence does to the storage of an iterator; those of the empty one stay as they are. -/
theorem move_itStorage {k : Visit T} (hle : k.pos ≤ k.contents.length) {mv : Move}
    (hrange : k.holding = none ∨ (mv.shift k.contents.length k.pos).isSome) :
    (Impl.ofOrigin (k.holding.map Holding.sequence)).move (Holding.itStorage k.holding k.pos) mv =
        .ok (Holding.itStorage k.holding ((mv.shift k.contents.length k.pos).getD k.pos)) ∧
      (mv.shift k.contents.length k.pos).getD k.pos ≤ k.contents.length := by
  have hiterates := iterates_itStorage k.holding
  cases hshift : mv.shift k.contents.length k.pos with
  | some n =>
    obtain ⟨hmove, hn⟩ := hiterates.move_at hle hshift
    refine ⟨?_, hn⟩
    rw [Option.getD_some, ← hmove]
    cases mv <;> rfl
  | none =>
    have hnone : k.holding = none := by
      rcases hrange with hnone | hsome
      · exact hnone
      · rw [hshift] at hsome
        cases hsome
    refine ⟨?_, hle⟩
    rw [hnone]
    cases mv <;> rfl

theorem deref_itStorage {k : Visit T} (hrange : k.holding = none ∨ k.pos < k.contents.length) :
    (Impl.ofOrigin (k.holding.map Holding.sequence)).deref (Holding.itStorage k.holding k.pos) =
      .ok (k.contents[k.pos]?.getD ⟨0, 0⟩) := by
  rcases hrange with hnone | hlt
  · simp [hnone, Visit.contents, contents, Impl.ofOrigin, Impl.deref]
  · rw [List.getElem?_eq_getElem hlt]
    exact (iterates_itStorage k.holding).deref_at k.pos _ (List.getElem?_eq_getElem hlt)

omit [DecidableEq ι] in
/-- Iterators of sequences with one number are of one sequence. -/
theorem Stands.holding_eq (h : Stands s m) {k l : Visit T} (hk : m.visits i = some k) (hl : m.visits other = some l)
    (hnumber : k.number = l.number) : k.holding = l.holding := by
  cases hv : k.holding with
  | none =>
    rw [Visit.number, hv] at hnumber
    exact (Option.map_eq_none_iff.mp hnumber.symm).symm
  | some a =>
    rw [Visit.number, hv] at hnumber
    obtain ⟨b, hu, hb⟩ := Option.map_eq_some_iff.mp hnumber.symm
    rw [hu, h.numbered a b (Or.inr ⟨i, k, hk, hv⟩) (Or.inr ⟨other, l, hl, hu⟩) hb.symm]

omit [DecidableEq ι] in
/-- Fresh iterators with one pointer are of one sequence, and those of one sequence have one pointer. -/
theorem Stands.number_eq_iff (h : Stands s m) {k l : Visit T} (hk : m.visits i = some k) (hl : m.visits other = some l)
    (hfresh : Holding.ptr k.holding = Holding.ptr l.holding → m.Fresh k ∧ m.Fresh l) :
    k.number = l.number ↔ Holding.ptr k.holding = Holding.ptr l.holding := by
  constructor
  · intro hnumber
    rw [h.holding_eq hk hl hnumber]
  · intro hptr
    obtain ⟨hk_fresh, hl_fresh⟩ := hfresh hptr
    rw [← (target_eq_iff h.storage k).mpr hk_fresh, ← (target_eq_iff h.storage l).mpr hl_fresh, hptr]

omit [∀ i, BufferSequence (T i)] [DecidableEq ι] in
theorem home_of_ptr {v u : Option (Holding T)} (hptr : Holding.ptr v = Holding.ptr u) :
    v.bind Holding.home = u.bind Holding.home := by
  have hhome (v : Option (Holding T)) :
      v.bind Holding.home = match Holding.ptr v with | .storage o => some o | _ => none := by
    rcases v with - | a
    · rfl
    · cases hhome : a.home <;> simp [Holding.ptr, hhome]
  rw [hhome, hhome, hptr]

/-! ### Each deed -/

/-- The deed does as planned, and destroys only what it leaves without an owner. -/
def Performs (s : Scene T) (m : Plan T) (d : Deed T) : Prop :=
  ∃ s', s.step d = .ok s' ∧ Stands s' (m.step d) ∧ Shared.Passes s.world.shared s'.world.shared

theorem Stands.idle (h : Stands s m) {d : Deed T} (hs : s.step d = .ok s) (hm : m.step d = m) : Performs s m d :=
  ⟨s, hs, hm.symm ▸ h, .refl _⟩

omit [DecidableEq ι] [∀ i, BufferSequence (T i)] in
theorem staleAt_iff {k : Visit T} (hk : m.visits i = some k) : m.StaleAt i ↔ ¬m.Fresh k := by
  constructor
  · rintro ⟨l, hl, hstale⟩
    rw [hk] at hl
    cases hl
    exact hstale
  · exact fun hstale => ⟨k, hk, hstale⟩

omit [DecidableEq ι] [∀ i, BufferSequence (T i)] in
theorem fresh_of_not {k : Visit T} (hk : m.visits i = some k) (hfresh : ¬m.StaleAt i) : m.Fresh k :=
  not_not.mp fun hstale => hfresh ((staleAt_iff hk).mpr hstale)

theorem Stands.step_object (h : Stands s m) (a : Action T) : Performs s m (.object a) := by
  obtain ⟨w', hw', hstands, hpasses⟩ := h.act a
  exact ⟨{ s with world := w' }, by simp [Scene.step, hw'], hstands, hpasses⟩

theorem Stands.step_default (h : Stands s m) (i : Nat) (huse : ¬m.Misuses (.default i)) : Performs s m (.default i) := by
  cases hi : s.iterators i with
  | some it => exact h.idle (by simp [hi]) (by simp)
  | none => exact absurd (h.visit_none hi) huse

theorem Stands.step_first (h : Stands s m) (i o : Nat) : Performs s m (.first i o) := by
  cases hi : s.iterators i with
  | some it =>
    obtain ⟨k, hk, -⟩ := h.visit_some hi
    exact h.idle (by simp [Scene.step, hi]) (by simp [Plan.step, hk])
  | none =>
    have hk := h.visit_none hi
    cases hx : s.world.objects o with
    | none =>
      obtain ⟨hv, -⟩ := h.object_of_none hx
      exact h.idle (by simp [Scene.step, hi, hx]) (by simp [Plan.step, hk, hv])
    | some x =>
      obtain ⟨v, hv, -⟩ := h.object_of_some hx
      simpa only [Performs, Scene.step, hi, hx, Plan.step, hk, hv] using
        h.construct_visit hi hx hv (Nat.zero_le _) (iterates_itStorage v).first_eq

theorem Stands.step_last (h : Stands s m) (i o : Nat) : Performs s m (.last i o) := by
  cases hi : s.iterators i with
  | some it =>
    obtain ⟨k, hk, -⟩ := h.visit_some hi
    exact h.idle (by simp [Scene.step, hi]) (by simp [Plan.step, hk])
  | none =>
    have hk := h.visit_none hi
    cases hx : s.world.objects o with
    | none =>
      obtain ⟨hv, -⟩ := h.object_of_none hx
      exact h.idle (by simp [Scene.step, hi, hx]) (by simp [Plan.step, hk, hv])
    | some x =>
      obtain ⟨v, hv, -⟩ := h.object_of_some hx
      simpa only [Performs, Scene.step, hi, hx, Plan.step, hk, hv] using
        h.construct_visit hi hx hv (Nat.le_refl _) (iterates_itStorage v).last_eq

theorem Stands.step_copy (h : Stands s m) (i other : Nat) (hfresh : ¬m.Misuses (.copy i other)) :
    Performs s m (.copy i other) := by
  cases hi : s.iterators i with
  | some it =>
    obtain ⟨k, hk, -⟩ := h.visit_some hi
    exact h.idle (by simp [Scene.step, hi]) (by simp [Plan.step, hk])
  | none =>
    have hk := h.visit_none hi
    cases hj : s.iterators other with
    | none => exact h.idle (by simp [Scene.step, hi, hj]) (by simp [Plan.step, hk, h.visit_none hj])
    | some jt =>
      obtain ⟨l, hl, hle, rfl⟩ := h.visit_some hj
      have hl_fresh := fresh_of_not hl fun hstale => hfresh ⟨hk, hstale⟩
      simpa only [Performs, Scene.step, hi, hj, Plan.step, hk, hl] using h.copy_visit hi hl hle hl_fresh

theorem Stands.step_assign (h : Stands s m) (i other : Nat) (hfresh : ¬m.Misuses (.assign i other)) :
    Performs s m (.assign i other) := by
  cases hi : s.iterators i with
  | none => exact h.idle (by simp [Scene.step, hi]) (by simp [Plan.step, h.visit_none hi])
  | some it =>
    obtain ⟨k, hk, -, rfl⟩ := h.visit_some hi
    cases hj : s.iterators other with
    | none => exact h.idle (by simp [Scene.step, hi, hj]) (by simp [Plan.step, hk, h.visit_none hj])
    | some jt =>
      obtain ⟨l, hl, hle, rfl⟩ := h.visit_some hj
      by_cases heq : i = other
      · -- An assignment to itself leaves the iterator as it is.
        have hsame : Function.update m.visits i (some l) = m.visits := Function.update_eq_self_iff.mpr (heq ▸ hl.symm)
        exact h.idle (by simp [Scene.step, hj, heq]) (by simp only [Plan.step, hk, hl, Plan.withVisit, hsame])
      · have hlive : (m.visits i).isSome ∧ (m.visits other).isSome := by simp [hk, hl]
        have hk_fresh := fresh_of_not hk fun hstale => hfresh ⟨heq, hlive.1, hlive.2, Or.inl hstale⟩
        have hl_fresh := fresh_of_not hl fun hstale => hfresh ⟨heq, hlive.1, hlive.2, Or.inr hstale⟩
        simpa only [Performs, Scene.step, hi, hj, if_neg heq, Plan.step, hk, hl] using
          h.assign_visit hk hl hle hk_fresh hl_fresh hi

theorem Stands.step_move (h : Stands s m) (i : Nat) (mv : Move) (hrange : m.inRange (.move i mv)) (hfresh : ¬m.StaleAt i) :
    Performs s m (.move i mv) := by
  cases hi : s.iterators i with
  | none => exact h.idle (by simp [Scene.step, hi]) (by simp [Plan.step, h.visit_none hi])
  | some it =>
    obtain ⟨k, hk, hle, rfl⟩ := h.visit_some hi
    have hrange' : k.holding = none ∨ (mv.shift k.contents.length k.pos).isSome := by
      simpa [Plan.inRange, hk] using hrange
    obtain ⟨hmove, hn⟩ := move_itStorage hle hrange'
    have hholder := holder_of_fresh h.storage (h.visit_kept hk) (fresh_of_not hk hfresh) (Holding.itStorage k.holding k.pos)
    have hstands := h.move_visit hk hi hn
    simpa only [Performs, Scene.step, hi, hholder, ok_bind, hmove, pure_eq, Plan.step, hk] using ⟨_, rfl, hstands, .refl _⟩

theorem Stands.step_deref (h : Stands s m) (i : Nat) (hrange : m.inRange (.deref i)) (hfresh : ¬m.StaleAt i) :
    Performs s m (.deref i) := by
  cases hi : s.iterators i with
  | none => exact h.idle (by simp [Scene.step, hi]) (by simp [Plan.step, h.visit_none hi])
  | some it =>
    obtain ⟨k, hk, -, rfl⟩ := h.visit_some hi
    have hrange' : k.holding = none ∨ k.pos < k.contents.length := by simpa [Plan.inRange, hk] using hrange
    have hholder := holder_of_fresh h.storage (h.visit_kept hk) (fresh_of_not hk hfresh) (Holding.itStorage k.holding k.pos)
    have hsee := h.see (.buffer (k.contents[k.pos]?.getD ⟨0, 0⟩))
    simpa only [Performs, Scene.step, hi, hholder, ok_bind, deref_itStorage hrange', pure_eq, Plan.step, hk] using
      ⟨_, rfl, hsee, .refl _⟩

theorem Stands.step_equal (h : Stands s m) (i other : Nat) (hfresh : ¬m.Misuses (.equal i other)) :
    Performs s m (.equal i other) := by
  cases hi : s.iterators i with
  | none => exact h.idle (by simp [Scene.step, hi]) (by simp [Plan.step, h.visit_none hi])
  | some it =>
    obtain ⟨k, hk, hkle, rfl⟩ := h.visit_some hi
    cases hj : s.iterators other with
    | none => exact h.idle (by simp [Scene.step, hi, hj]) (by simp [Plan.step, hk, h.visit_none hj])
    | some jt =>
      obtain ⟨l, hl, hlle, rfl⟩ := h.visit_some hj
      have hboth : Holding.ptr k.holding = Holding.ptr l.holding → m.Fresh k ∧ m.Fresh l := by
        intro hptr
        have hhome : (m.visits i).map Visit.home = (m.visits other).map Visit.home := by
          simp [hk, hl, Visit.home, home_of_ptr hptr]
        exact ⟨fresh_of_not hk fun hstale => hfresh ⟨hhome, Or.inl hstale⟩,
          fresh_of_not hl fun hstale => hfresh ⟨hhome, Or.inr hstale⟩⟩
      have hnumber := h.number_eq_iff hk hl hboth
      have hsee := h.see (.equal (decide (k.number = l.number ∧ k.pos = l.pos)))
      by_cases hptr : Holding.ptr k.holding = Holding.ptr l.holding
      · obtain ⟨hk_fresh, hl_fresh⟩ := hboth hptr
        have hi_holder := holder_of_fresh h.storage (h.visit_kept hk) hk_fresh (Holding.itStorage k.holding k.pos)
        have hj_holder := holder_of_fresh h.storage (h.visit_kept hl) hl_fresh (Holding.itStorage l.holding l.pos)
        have hholding := h.holding_eq hk hl (hnumber.mpr hptr)
        have hequal : (Impl.ofOrigin (k.holding.map Holding.sequence)).equal (Holding.itStorage k.holding k.pos)
            (Holding.itStorage l.holding l.pos) = .ok (decide (k.pos = l.pos)) := by
          rw [Visit.contents, ← hholding] at hlle
          rw [← hholding]
          exact (iterates_itStorage k.holding).equal_at k.pos l.pos hkle hlle
        have hsame : decide (k.number = l.number ∧ k.pos = l.pos) = decide (k.pos = l.pos) := by simp [hnumber.mpr hptr]
        rw [hsame] at hsee
        rw [hptr] at hi hi_holder
        simpa only [Performs, Scene.step, hi, hj, ne_eq, not_true_eq_false, if_false, hi_holder, hj_holder, ok_bind, hequal,
          pure_eq, Plan.step, hk, hl, hsame] using ⟨_, rfl, hsee, .refl _⟩
      · have hne : ¬(k.number = l.number ∧ k.pos = l.pos) := fun hand => hptr (hnumber.mp hand.1)
        simp only [decide_eq_false hne] at hsee
        simpa only [Performs, Scene.step, hi, hj, ne_eq, hptr, not_false_eq_true, if_true, pure_eq, Plan.step, hk, hl,
          decide_eq_false hne] using ⟨_, rfl, hsee, .refl _⟩

theorem Stands.step_destroy (h : Stands s m) (i : Nat) (hfresh : ¬m.StaleAt i) : Performs s m (.destroy i) := by
  cases hi : s.iterators i with
  | none =>
    have hsame : Function.update m.visits i none = m.visits := Function.update_eq_self_iff.mpr (h.visit_none hi).symm
    exact h.idle (by simp [Scene.step, hi]) (by simp only [Plan.step, Plan.withVisit, hsame])
  | some it =>
    obtain ⟨k, hk, -, rfl⟩ := h.visit_some hi
    simpa only [Performs, Scene.step, hi, Plan.step] using h.destroy_visit hk (fresh_of_not hk hfresh) hi

/-- A deed that uses no stale iterator does as planned. -/
theorem Stands.step (h : Stands s m) (d : Deed T) (hrange : m.inRange d) (hfresh : ¬m.Misuses d) : Performs s m d := by
  cases d with
  | object a => exact h.step_object a
  | default i => exact h.step_default i hfresh
  | first i o => exact h.step_first i o
  | last i o => exact h.step_last i o
  | copy i other => exact h.step_copy i other hfresh
  | assign i other => exact h.step_assign i other hfresh
  | move i mv => exact h.step_move i mv hrange hfresh
  | deref i => exact h.step_deref i hrange hfresh
  | equal i other => exact h.step_equal i other hfresh
  | destroy i => exact h.step_destroy i hfresh

end

/-! ### Large sequences -/

/-- No sequence of the plan is in the storage of an object. -/
def Plan.Large (m : Plan T) : Prop := ∀ a, m.Holds a → a.home = none

section
variable {m : Plan T}

omit [∀ i, BufferSequence (T i)] [DecidableEq ι] in
theorem Plan.Large.withVisit (h : m.Large) (i : Nat) {k? : Option (Visit T)}
    (hk : ∀ k a, k? = some k → k.holding = some a → m.Holds a) : (m.withVisit i k?).Large := by
  rintro a (ho | ⟨j, k, hj, ha⟩)
  · exact h a (Or.inl ho)
  · by_cases hne : j = i
    · subst hne
      exact h a (hk k a (by simpa [Plan.withVisit] using hj) ha)
    · exact h a (Or.inr ⟨j, k, by simpa [Plan.withVisit, hne] using hj, ha⟩)

omit [DecidableEq ι] in
theorem Plan.Large.give (h : m.Large) (hlarge : ∀ i, sboSize < BufferSequence.sizeofImpl (T i)) (o : Nat)
    (v : Option (Wrapped T)) : (m.give o v).Large := by
  intro a ha
  cases v with
  | none => exact h a ((holds_update ha).resolve_right (by simp))
  | some s =>
    rcases holds_update ha with hold | hnew
    · exact h a hold
    · cases hnew
      exact if_neg (Nat.not_le.mpr (hlarge s.1))

omit [DecidableEq ι] in
theorem Plan.Large.act (h : m.Large) (hlarge : ∀ i, sboSize < BufferSequence.sizeofImpl (T i)) (a : Action T) :
    (m.act a).Large := by
  cases a with
  | default o | convert o s =>
    simp only [Plan.act]
    split
    · exact h
    · exact h.give hlarge o _
  | copy o other =>
    simp only [Plan.act]
    split
    · exact h.give hlarge o _
    · exact h
  | assign o other =>
    simp only [Plan.act]
    split
    · split
      · exact h
      · exact h.give hlarge o _
    · exact h
  | destroy o => exact fun a ha => h a ((holds_update ha).resolve_right (by simp))

omit [DecidableEq ι] in
theorem Plan.Large.step (h : m.Large) (hlarge : ∀ i, sboSize < BufferSequence.sizeofImpl (T i)) (d : Deed T) :
    (m.step d).Large := by
  cases d with
  | object a => exact h.act hlarge a
  | default i => exact h
  | first i o | last i o =>
    simp only [Plan.step]
    split
    · rename_i v _ hv
      refine h.withVisit i fun k a hk ha => ?_
      cases hk
      cases ha
      exact Or.inl ⟨o, hv⟩
    · exact h
  | copy i other | assign i other =>
    simp only [Plan.step]
    split
    · rename_i k _ hk
      refine h.withVisit i fun l a hl ha => ?_
      cases hl
      exact Or.inr ⟨other, k, hk, ha⟩
    · exact h
  | move i mv =>
    simp only [Plan.step]
    split
    · rename_i k hk
      refine h.withVisit i fun l a hl ha => ?_
      cases hl
      exact Or.inr ⟨i, k, hk, ha⟩
    · exact h
  | deref i | equal i other =>
    simp only [Plan.step]
    split
    · exact h
    · exact h
  | destroy i => exact h.withVisit i fun k a hk => by cases hk

omit [∀ i, BufferSequence (T i)] [DecidableEq ι] in
theorem Plan.Large.not_stale (h : m.Large) (i : Nat) : ¬m.StaleAt i := by
  rintro ⟨k, hk, hstale⟩
  refine hstale fun o ho => ?_
  obtain ⟨a, ha, ho⟩ := Option.bind_eq_some_iff.mp ho
  rw [h a (Or.inr ⟨i, k, hk, ha⟩)] at ho
  cases ho

omit [∀ i, BufferSequence (T i)] [DecidableEq ι] in
/-- Then only a default construction is a misuse. -/
theorem Plan.Large.uses (h : m.Large) {d : Deed T} (hd : ∀ i, d ≠ .default i) : ¬m.Misuses d := by
  cases d with
  | default i => exact absurd rfl (hd i)
  | object a | first i o | last i o => exact id
  | copy i other => exact fun huse => h.not_stale other huse.2
  | assign i other => exact fun huse => huse.2.2.2.elim (h.not_stale i) (h.not_stale other)
  | move i mv | deref i | destroy i => exact h.not_stale i
  | equal i other => exact fun huse => huse.2.elim (h.not_stale i) (h.not_stale other)

end

/-! ### Runs -/

structure Tandem {ι : Type} (T : ι → Type) [∀ i, BufferSequence (T i)] where
  scene : Scene T := {}
  plan : Plan T := {}

/-- A program and its plan take a step. What the documentation rules out, a program does not do. -/
def Tandem.step (t : Tandem T) (d : Deed T) : Checked (Tandem T) :=
  if t.plan.inRange d then do
    let scene ← t.scene.step d
    return ⟨scene, t.plan.step d⟩
  else
    return t

def Tandem.handle (t : Tandem T) : Nat ⊕ Nat → Option Nat := handles t.scene.world.objects t.scene.iterators

theorem Scene.step_default (s : Scene T) {i : Nat} (hi : s.iterators i = none) :
    s.step (.default i) = .error .contract := by
  simp only [Scene.step, hi]
  rfl

/-- An iterator of a vector does not outlive the object, not even to be destroyed. -/
example : Run.run Scene.step ({} : Scene fun _ : Unit => List Buffer)
    [.object (.convert 0 ⟨(), [⟨0, 1⟩]⟩), .first 0 0, .object (.destroy 0), .destroy 0] = .error .contract := rfl

end Buffers.AnyBuffers
