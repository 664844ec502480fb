import Buffers.Lib.Run
import Buffers.Theorems.AnyBuffers.Steps

/-! # Type-erased buffer sequences

Whatever a program does with its objects, the iterators of each show the sequence that it goes back to
(`any_faithful`). The objects and their holders stay in one-to-one correspondence until an object that keeps its
holder in its own storage is destroyed or assigned over: then the holder stays (`any_balances_iff`). -/

namespace Buffers.AnyBuffers
open Checked

variable {ι : Type} {T : ι → Type} [∀ i, BufferSequence (T i)]

/-! ### Sequences -/

def origins (actions : List (Action T)) : Origins T := actions.foldl Origins.step fun _ => none

theorem run_inv (actions : List (Action T)) :
    ∃ w, Run.run step ({} : World T) actions = .ok w ∧ Inv w (origins actions) := by
  refine Run.run_simulates (R := Inv) (fun w m a h => ?_) inv_init actions
  obtain ⟨w', hw', -, hinv⟩ := step_spec h a
  exact ⟨w', hw', hinv⟩

theorem iterates_ofOrigin [DecidableEq ι] (v : Option (Wrapped T)) :
    ∃ pos, Iterates (Impl.ofOrigin v).iteration pos (contents v) := by
  cases v with
  | none => exact ⟨_, iterates_empty⟩
  | some s => exact iterates_of s

/-- After any run, walks over an object observe the buffers of the sequence that the object was converted from,
    or from which it was copied or assigned; those over a default-constructed one observe none. The number of
    increments from `begin` to `end` is what `length` gives for the sequence. -/
theorem any_faithful [DecidableEq ι] (actions : List (Action T)) :
    ∃ w, Run.run step ({} : World T) actions = .ok w ∧ ∀ o v, origins actions o = some v →
      Faithful (w.iterators o) (contents v) ∧
        ∀ s, v = some s → BufferSequence.length s.2 = .ok (contents v).length := by
  obtain ⟨w, hw, hinv⟩ := run_inv actions
  refine ⟨w, hw, fun o v hv => ⟨?_, ?_⟩⟩
  · cases hx : w.objects o with
    | none =>
      have hnone := hinv.origin_of_none hx
      rw [hv] at hnone
      cases hnone
    | some x =>
      obtain ⟨u, hu, hp, -⟩ := hinv.origin_of_some hx
      rw [hv] at hu
      cases hu
      obtain ⟨pos, hpos⟩ := iterates_ofOrigin v
      exact (iterates_object hx hp hpos).faithful
  · rintro s rfl
    exact BufferSequence.length_eq s.2

/-! ### Lifetimes -/

/-- What the steps must be: the live holders and the live objects that are not empty are in one-to-one
    correspondence, a holder is destroyed when the object that has it is, or is assigned over, and not otherwise,
    none is destroyed twice, and none is left without an object. -/
structure Balances (w : World T) (a : Action T) (w' : World T) : Prop where
  owner : ∀ o x, w'.objects o = some x → x.sp_ ≠ .static → ∃ h, w'.owned o = some h
  balanced : Cells.Balanced w'.holders w'.owned
  ended : ∀ h p, w.holders.get h = some p → (w'.holders.get h = none ↔ ∃ o, Ends w a o ∧ w.owned o = some h)
  once : ∀ h, h < w.holders.next → w.holders.get h = none → w'.holders.get h = none
  none_left : (∀ o, w'.objects o = none) → ∀ h, w'.holders.get h = none

/-- The action ends an object that keeps its holder in its own storage. -/
def Leaks (w : World T) (a : Action T) : Prop := ∃ o x, Ends w a o ∧ w.objects o = some x ∧ x.sp_ = .storage o

section
variable {w w' : World T} {m : Origins T} {a : Action T} {o : Nat} {x : Object}

theorem Inv.owner (h : Inv w m) (hx : w.objects o = some x) (hsp : x.sp_ ≠ .static) : ∃ k, w.owned o = some k := by
  have hw := h.holds o
  generalize m o = v at hw
  rw [hx] at hw
  cases hw with
  | empty sp => exact absurd sp hsp
  | small sp storage _ => exact ⟨_, (owned_of_storage hx sp).trans storage⟩
  | big sp _ _ => exact ⟨_, owned_of_heap hx sp⟩

/-- The holder of an object is released with a deleter that does nothing exactly when it is in the object's own
    storage. -/
theorem Inv.deletes_iff (h : Inv w m) {k : Nat} (hk : w.owned o = some k) :
    (w.spOf o).deletes = some k ↔ ¬∃ x, w.objects o = some x ∧ x.sp_ = .storage o := by
  cases hx : w.objects o with
  | none =>
    rw [owned_of_none hx] at hk
    cases hk
  | some x =>
    have hw := h.holds o
    generalize m o = v at hw
    rw [hx] at hw
    rw [spOf_of_some hx]
    cases hw with
    | empty sp =>
      rw [owned_of_static hx sp] at hk
      cases hk
    | small sp _ _ =>
      rw [sp]
      exact ⟨fun hd => (nomatch hd), fun hnot => absurd ⟨x, rfl, sp⟩ hnot⟩
    | big sp _ _ =>
      rw [owned_of_heap hx sp] at hk
      refine ⟨?_, fun _ => by rw [sp, ← hk]; rfl⟩
      rintro - ⟨y, hy, hstorage⟩
      cases hy
      rw [sp] at hstorage
      cases hstorage

/-- A step keeps the correspondence exactly when it does not leak. -/
theorem Acts.balanced_iff (hacts : Acts w a w') (h : Inv w m) (hb : Cells.Balanced w.holders w.owned) :
    Cells.Balanced w'.holders w'.owned ↔ ¬Leaks w a := by
  rcases hacts with ⟨rfl, hends⟩ | ⟨o, e, honly, hended⟩
  · refine iff_of_true hb ?_
    rintro ⟨o, x, ho, -⟩
    exact hends o ho
  · rw [e.exchange.balanced_iff hb]
    constructor
    · rintro hdead ⟨o', x, ho', hx, hsp⟩
      obtain rfl := honly o' ho'
      obtain ⟨k, hk⟩ := h.owner hx (by rw [hsp]; exact fun hs => nomatch hs)
      exact (h.deletes_iff hk).mp ((e.destroyed k hk).mp (hdead k hk)) ⟨x, hx, hsp⟩
    · intro hleak k hk
      rw [e.destroyed k hk, h.deletes_iff hk]
      rintro ⟨x, hx, hsp⟩
      exact hleak ⟨o, x, hended k hk, hx, hsp⟩

/-- A step that does not leak destroys the holder of the object that it ends, and no other. -/
theorem Acts.ended (hacts : Acts w a w') (h : Inv w m) (hb : Cells.Balanced w.holders w.owned) (hleak : ¬Leaks w a)
    {k : Nat} {p : Impl T} (hp : w.holders.get k = some p) :
    w'.holders.get k = none ↔ ∃ o, Ends w a o ∧ w.owned o = some k := by
  rcases hacts with ⟨rfl, hends⟩ | ⟨o, e, honly, hended⟩
  · refine iff_of_false (by rw [hp]; exact fun hs => nomatch hs) ?_
    rintro ⟨o, ho, -⟩
    exact hends o ho
  · constructor
    · intro hnone
      obtain ⟨o', ho'⟩ := hb.covered k p hp
      by_cases hne : o' = o
      · subst hne
        exact ⟨o', hended k ho', ho'⟩
      · rw [e.exchange.kept h.owned hne ho', hp] at hnone
        cases hnone
    · rintro ⟨o', ho', hk⟩
      obtain rfl := honly o' ho'
      rw [e.destroyed k hk, h.deletes_iff hk]
      rintro ⟨x, hx, hsp⟩
      exact hleak ⟨o', x, ho', hx, hsp⟩

theorem Acts.once (hacts : Acts w a w') {k : Nat} (hk : k < w.holders.next) (hnone : w.holders.get k = none) :
    w'.holders.get k = none := by
  rcases hacts with ⟨rfl, -⟩ | ⟨o, e, -, -⟩
  · exact hnone
  · rcases e.exchange.old k hk with hget | ⟨-, hdead⟩
    · rw [hget, hnone]
    · exact hdead

theorem none_left (hb : Cells.Balanced w.holders w.owned) (hall : ∀ o, w.objects o = none) (k : Nat) :
    w.holders.get k = none := by
  cases hget : w.holders.get k with
  | none => rfl
  | some p =>
    obtain ⟨o, ho⟩ := hb.covered k p hget
    rw [owned_of_none (hall o)] at ho
    cases ho

end

/-- A run keeps the holders and the objects in balance exactly when no step of it ends an object that keeps its
    holder in its own storage. -/
theorem any_balances_iff (actions : List (Action T)) :
    Run.Every step Balances ({} : World T) actions ↔
      Run.Always step (fun w a => ¬Leaks w a) ({} : World T) actions := by
  refine Run.every_iff_always (I := fun w => Cells.Balanced w.holders w.owned ∧ ∃ m, Inv w m) ?_ ?_ ?_ actions
  · rintro w a ⟨hb, m, h⟩ hleak
    obtain ⟨w', hw', hacts, hinv⟩ := step_spec h a
    have hb' := (hacts.balanced_iff h hb).mpr hleak
    refine ⟨w', hw', ?_, hb', _, hinv⟩
    exact { owner := fun o x hx hsp => hinv.owner hx hsp
            balanced := hb'
            ended := fun k p hp => hacts.ended h hb hleak hp
            once := fun k hk hnone => hacts.once hk hnone
            none_left := none_left hb' }
  · rintro w a w' ⟨hb, m, h⟩ hleak hw' hbal
    obtain ⟨w'', hw'', hacts, -⟩ := step_spec h a
    rw [hw'] at hw''
    cases hw''
    exact hleak ((hacts.balanced_iff h hb).mp hbal.balanced)
  · exact ⟨⟨inv_init.owned, fun _ _ hget => nomatch hget⟩, _, inv_init⟩

/-- The holder of a vector is small. -/
theorem any_balances_counterexample :
    ¬Run.Every step Balances ({} : World fun _ : Unit => List Buffer) [.convert 0 ⟨(), [⟨0, 1⟩]⟩, .destroy 0] := by
  rintro ⟨w₁, h₁, -, w₂, h₂, hbal, -⟩
  cases h₁
  cases h₂
  have hleft := hbal.none_left (fun o => ?_) 0
  · cases hleft
  · cases o <;> rfl

end Buffers.AnyBuffers
