import Buffers.Theorems.AnyBuffers.Iterators

/-! # Steps of a program with type-erased buffer sequences

An action either does nothing or changes one object, which exchanges its holder for a new one or for none
(`Effect`). In every state that actions reach, each object holds the sequence that its origin says, in a holder of
its own (`Inv`). -/

namespace Buffers.AnyBuffers
open Checked

variable {ι : Type} {T : ι → Type} [∀ i, BufferSequence (T i)]

/-- Each live object, with the sequence that it goes back to; none for a default-constructed one. -/
abbrev Origins (T : ι → Type) := Nat → Option (Option (Wrapped T))

def Origins.step (m : Origins T) : Action T → Origins T
  | .default o =>
    match m o with
    | some _ => m
    | none => Function.update m o (some none)
  | .convert o s =>
    match m o with
    | some _ => m
    | none => Function.update m o (some (some s))
  | .copy o other =>
    match m o, m other with
    | none, some s => Function.update m o (some s)
    | _, _ => m
  | .assign o other =>
    match m o, m other with
    | some _, some s => Function.update m o (some s)
    | _, _ => m
  | .destroy o => Function.update m o none

/-- The holder of an object that was made from `v`. -/
def Impl.ofOrigin : Option (Wrapped T) → Impl T
  | none => .empty
  | some s => Impl.of s

namespace World

/-- The holder that the object `o` points to. -/
def owned (w : World T) (o : Nat) : Option Nat := (w.objects o).bind fun x => w.target x.sp_

/-- The pointer of the object `o`; null before it is constructed. -/
def spOf (w : World T) (o : Nat) : Ptr := (w.objects o).elim .null Object.sp_

end World

/-- The object `o` is `x`, and holds the sequence of its origin. -/
inductive Holds (w : World T) (o : Nat) : Option Object → Option (Option (Wrapped T)) → Prop
  | dead : Holds w o none none
  | empty {x : Object} (sp : x.sp_ = .static) : Holds w o (some x) (some none)
  | small {x : Object} {h : Nat} {s : Wrapped T} (sp : x.sp_ = .storage o) (storage : x.storage_ = some h)
      (get : w.holders.get h = some (Impl.of s)) : Holds w o (some x) (some (some s))
  | big {x : Object} {h : Nat} {s : Wrapped T} (sp : x.sp_ = .heap h) (unique : w.uses h = 1)
      (get : w.holders.get h = some (Impl.of s)) : Holds w o (some x) (some (some s))

structure Inv (w : World T) (m : Origins T) : Prop where
  holds : ∀ o, Holds w o (w.objects o) (m o)
  owned : Cells.Owned w.holders w.owned

/-- What a step that changes the object `o` does. -/
structure Effect (w : World T) (o : Nat) (w' : World T) : Prop where
  exchange : Cells.Exchange o w.holders w.owned w'.holders w'.owned
  objects : ∀ o', o' ≠ o → w'.objects o' = w.objects o'
  uses : ∀ o' h, o' ≠ o → w.owned o' = some h → w'.uses h = w.uses h
  destroyed : ∀ h, w.owned o = some h → (w'.holders.get h = none ↔ (w.spOf o).deletes = some h)

/-! ### An object and its holder -/

section
variable {w w' : World T} {o : Nat} {x : Object} {x? : Option Object} {v : Option (Option (Wrapped T))}

theorem spOf_of_some (hx : w.objects o = some x) : w.spOf o = x.sp_ := by simp [World.spOf, hx]

theorem owned_of_some (hx : w.objects o = some x) : w.owned o = w.target x.sp_ := by simp [World.owned, hx]

theorem owned_of_none (hx : w.objects o = none) : w.owned o = none := by simp [World.owned, hx]

theorem owned_of_deletes {h : Nat} (hd : (w.spOf o).deletes = some h) : w.owned o = some h := by
  cases hx : w.objects o with
  | none => simp [World.spOf, hx, Ptr.deletes] at hd
  | some x =>
    rw [spOf_of_some hx] at hd
    rw [owned_of_some hx]
    cases hsp : x.sp_ with
    | heap k =>
      rw [hsp] at hd
      exact hd
    | null | static | storage =>
      rw [hsp] at hd
      cases hd

theorem owned_of_heap {h : Nat} (hx : w.objects o = some x) (hsp : x.sp_ = .heap h) : w.owned o = some h := by
  rw [owned_of_some hx, hsp]
  rfl

theorem owned_of_storage (hx : w.objects o = some x) (hsp : x.sp_ = .storage o) : w.owned o = x.storage_ := by
  rw [owned_of_some hx, hsp]
  simp [World.target, hx]

theorem owned_of_static (hx : w.objects o = some x) (hsp : x.sp_ = .static) : w.owned o = none := by
  rw [owned_of_some hx, hsp]
  rfl

theorem Holds.owned_congr (hw : Holds w o (w.objects o) v) (hobj : w'.objects o = w.objects o) :
    w'.owned o = w.owned o := by
  cases hx : w.objects o with
  | none => rw [owned_of_none hx, owned_of_none (hobj.trans hx)]
  | some x =>
    have hx' := hobj.trans hx
    rw [hx] at hw
    cases hw with
    | empty sp => rw [owned_of_static hx sp, owned_of_static hx' sp]
    | small sp _ _ => rw [owned_of_storage hx sp, owned_of_storage hx' sp]
    | big sp _ _ => rw [owned_of_heap hx sp, owned_of_heap hx' sp]

/-- A pointer whose release destroys the heap holder that it points to. -/
def Droppable (w : World T) (sp : Ptr) : Prop :=
  ∀ h, sp.deletes = some h → w.uses h = 1 ∧ ∃ p, w.holders.get h = some p

theorem Holds.droppable (hw : Holds w o (w.objects o) v) : Droppable w (w.spOf o) := by
  intro k hk
  cases hx : w.objects o with
  | none => simp [World.spOf, hx, Ptr.deletes] at hk
  | some x =>
    rw [hx] at hw
    rw [spOf_of_some hx] at hk
    cases hw with
    | empty sp =>
      rw [sp] at hk
      cases hk
    | small sp _ _ =>
      rw [sp] at hk
      cases hk
    | big sp unique get =>
      rw [sp] at hk
      cases hk
      exact ⟨unique, _, get⟩

end

/-! ### What the operations leave -/

namespace World

/-- After the release of `sp`. -/
def released (w : World T) (sp : Ptr) : World T :=
  { w with holders := w.holders.drop sp.deletes, uses := sp.deletes.elim w.uses fun h => Function.update w.uses h 0 }

/-- With a new holder of `s` for the object `o`, whose storage named `st`. -/
def filled (w : World T) (o : Nat) (st : Option Nat) (s : Wrapped T) : World T :=
  if BufferSequence.sizeofImpl (T s.1) ≤ sboSize then
    { w.withObject o (some ⟨some w.holders.next, .storage o⟩) with holders := w.holders.make (Impl.of s) }
  else
    (w.makeShared (Impl.of s)).withObject o (some ⟨st, .heap w.holders.next⟩)

variable {w : World T} {o : Nat} {x : Object}

@[simp] theorem withObject_objects_self (x? : Option Object) : (w.withObject o x?).objects o = x? :=
  Function.update_self ..

theorem withObject_objects_of_ne (x? : Option Object) {o' : Nat} (hne : o' ≠ o) :
    (w.withObject o x?).objects o' = w.objects o' := Function.update_of_ne hne ..

@[simp] theorem withObject_idem (x? y? : Option Object) : (w.withObject o x?).withObject o y? = w.withObject o y? := by
  simp [withObject]

theorem makeShared_uses_of_ne (p : Impl T) {h : Nat} (hne : h ≠ w.holders.next) :
    (w.makeShared p).uses h = w.uses h := Function.update_of_ne hne ..

theorem release_eq {sp : Ptr} (hd : Droppable w sp) : w.release sp = .ok (w.released sp) := by
  cases sp with
  | heap h =>
    obtain ⟨hone, p, hp⟩ := hd h rfl
    simp [release, hone, sub_of_le, Cells.destroy_of_some hp, released, Ptr.deletes, Cells.drop]
  | null | static | storage => rfl

theorem setSp_eq (hx : w.objects o = some x) (hd : Droppable w x.sp_) (sp : Ptr) :
    w.setSp o sp = .ok ((w.withObject o (some { x with sp_ := sp })).released x.sp_) := by
  simp only [setSp, object, hx, ok_bind]
  exact release_eq hd

theorem construct_eq (hx : w.objects o = some x) (hd : Droppable w x.sp_)
    (hlt : ∀ h, x.sp_.deletes = some h → h < w.holders.next)
    (s : Wrapped T) : w.construct o s = .ok ((w.filled o x.storage_ s).released x.sp_) := by
  have hget : ∀ h, x.sp_.deletes = some h → ∃ p, (w.holders.make (Impl.of s)).get h = some p := by
    intro h hh
    obtain ⟨-, p, hp⟩ := hd h hh
    exact ⟨p, by rw [Cells.make_get_of_ne _ _ (Nat.ne_of_lt (hlt h hh)), hp]⟩
  unfold construct filled
  rw [Impl.make_eq, ok_bind]
  split
  · let w₁ : World T :=
      { w.withObject o (some { x with storage_ := some w.holders.next }) with holders := w.holders.make (Impl.of s) }
    have hx₁ : w₁.objects o = some { x with storage_ := some w.holders.next } := withObject_objects_self _
    have hd₁ : Droppable w₁ x.sp_ := fun h hh => ⟨(hd h hh).1, hget h hh⟩
    have hemplace : w.emplace o (Impl.of s) = .ok w₁ := by
      simp only [emplace, object, hx, ok_bind]
      rfl
    rw [hemplace, ok_bind, setSp_eq hx₁ hd₁]
    simp [w₁, withObject]
  · have hx₁ : (w.makeShared (Impl.of s)).objects o = some x := hx
    have hd₁ : Droppable (w.makeShared (Impl.of s)) x.sp_ := by
      intro h hh
      refine ⟨?_, hget h hh⟩
      rw [makeShared_uses_of_ne _ (Nat.ne_of_lt (hlt h hh))]
      exact (hd h hh).1
    exact setSp_eq hx₁ hd₁ _

theorem filled_objects_of_ne (st : Option Nat) (s : Wrapped T) {o' : Nat} (hne : o' ≠ o) :
    (w.filled o st s).objects o' = w.objects o' := by
  unfold filled
  split
  · exact withObject_objects_of_ne _ hne
  · exact withObject_objects_of_ne _ hne

theorem filled_holders (st : Option Nat) (s : Wrapped T) :
    (w.filled o st s).holders = w.holders.make (Impl.of s) := by
  unfold filled
  split <;> rfl

theorem filled_uses_of_ne (st : Option Nat) (s : Wrapped T) {h : Nat} (hne : h ≠ w.holders.next) :
    (w.filled o st s).uses h = w.uses h := by
  unfold filled
  split
  · rfl
  · exact makeShared_uses_of_ne (Impl.of s) hne

theorem filled_owned (st : Option Nat) (s : Wrapped T) : (w.filled o st s).owned o = some w.holders.next := by
  unfold filled
  split
  · exact owned_of_storage (withObject_objects_self _) rfl
  · exact owned_of_heap (withObject_objects_self _) rfl

theorem released_uses_of_ne {sp : Ptr} {h : Nat} (hne : sp.deletes ≠ some h) : (w.released sp).uses h = w.uses h := by
  unfold released
  cases hd : sp.deletes with
  | none => rfl
  | some k => exact Function.update_of_ne (fun he => hne (by rw [hd, he])) ..

end World

/-! ### Steps keep the invariant -/

section
variable {w w' : World T} {m : Origins T} {o : Nat} {x : Object}

theorem Inv.step (h : Inv w m) (e : Effect w o w') {v : Option (Option (Wrapped T))} (hv : Holds w' o (w'.objects o) v) :
    Inv w' (Function.update m o v) := by
  refine ⟨fun o' => ?_, e.exchange.owned h.owned⟩
  by_cases hne : o' = o
  · subst hne
    rwa [Function.update_self]
  · rw [Function.update_of_ne hne, e.objects o' hne]
    have hw := h.holds o'
    generalize m o' = v' at hw
    cases hx : w.objects o' with
    | none =>
      rw [hx] at hw
      cases hw
      exact .dead
    | some x =>
      rw [hx] at hw
      cases hw with
      | empty sp => exact .empty sp
      | small sp storage get =>
        have hown := (owned_of_storage hx sp).trans storage
        exact .small sp storage ((e.exchange.kept h.owned hne hown).trans get)
      | big sp unique get =>
        have hown := owned_of_heap hx sp
        exact .big sp ((e.uses o' _ hne hown).trans unique) ((e.exchange.kept h.owned hne hown).trans get)

theorem Inv.deletes_lt (h : Inv w m) {k : Nat} (hk : (w.spOf o).deletes = some k) : k < w.holders.next :=
  h.owned.lt (owned_of_deletes hk)

/-- A step that leaves the other objects alone, makes only new holders, and releases the old pointer of `o`. -/
theorem Inv.effect (h : Inv w m) {c : Cells (Impl T)} (objects : ∀ o', o' ≠ o → w'.objects o' = w.objects o')
    (kept : ∀ k, k < w.holders.next → c.get k = w.holders.get k) (holders : w'.holders = c.drop (w.spOf o).deletes)
    (uses : ∀ k, k < w.holders.next → (w.spOf o).deletes ≠ some k → w'.uses k = w.uses k)
    (exchange : (∀ o', o' ≠ o → w'.owned o' = w.owned o') → Cells.Exchange o w.holders w.owned w'.holders w'.owned) :
    Effect w o w' where
  exchange := exchange fun o' hne => (h.holds o').owned_congr (objects o' hne)
  objects := objects
  uses o' k hne hk := by
    refine uses k (h.owned.lt hk) fun hd => ?_
    exact hne (h.owned.distinct o' o k hk (owned_of_deletes hd))
  destroyed k hk := by
    obtain ⟨p, hp⟩ := h.owned.live o k hk
    rw [holders]
    constructor
    · intro hnone
      by_contra hne
      rw [c.drop_get_of_ne hne, kept k (h.owned.lt hk), hp] at hnone
      cases hnone
    · intro hd
      rw [hd]
      exact c.remove_get_self k

/-- The object `o` is left without a holder. -/
theorem Inv.effect_drop (h : Inv w m) (x? : Option Object) (hx? : ∀ x, x? = some x → x.sp_ = .static) :
    Effect w o ((w.withObject o x?).released (w.spOf o)) := by
  have hobj : (w.withObject o x?).objects o = x? := World.withObject_objects_self x?
  have hnone : (w.withObject o x?).owned o = none := by
    cases x? with
    | none => exact owned_of_none hobj
    | some x => exact owned_of_static hobj (hx? x rfl)
  refine h.effect (fun o' hne => World.withObject_objects_of_ne _ hne) (fun _ _ => rfl) rfl
    (fun k _ hne => World.released_uses_of_ne hne) fun others => ?_
  exact .of_drop h.owned (fun k hk => owned_of_deletes hk) others hnone

/-- The object `o` is left with a new holder. -/
theorem Inv.effect_fill (h : Inv w m) (st : Option Nat) (s : Wrapped T) :
    Effect w o ((w.filled o st s).released (w.spOf o)) := by
  refine h.effect (c := w.holders.make (Impl.of s)) ?_ ?_ ?_ ?_ ?_
  · exact fun o' hne => World.filled_objects_of_ne st s hne
  · exact fun k hk => Cells.make_get_of_ne _ _ (Nat.ne_of_lt hk)
  · rw [← World.filled_holders st s]
    rfl
  · intro k hk hne
    rw [World.released_uses_of_ne hne, World.filled_uses_of_ne st s (Nat.ne_of_lt hk)]
  · intro others
    have hholders : ((w.filled o st s).released (w.spOf o)).holders =
        (w.holders.make (Impl.of s)).drop (w.spOf o).deletes := by
      rw [← World.filled_holders st s]
      rfl
    rw [hholders]
    exact .of_make_drop h.owned (fun k hk => owned_of_deletes hk) others (World.filled_owned st s)

theorem Inv.holds_fill (h : Inv w m) (st : Option Nat) (s : Wrapped T) :
    Holds ((w.filled o st s).released (w.spOf o)) o (((w.filled o st s).released (w.spOf o)).objects o)
      (some (some s)) := by
  have hne : (w.spOf o).deletes ≠ some w.holders.next := fun hd => Nat.lt_irrefl _ (h.deletes_lt hd)
  have hget : ((w.filled o st s).released (w.spOf o)).holders.get w.holders.next = some (Impl.of s) := by
    rw [World.released, World.filled_holders, Cells.drop_get_of_ne _ hne, Cells.make_get_next]
  have huses : ¬BufferSequence.sizeofImpl (T s.1) ≤ sboSize →
      ((w.filled o st s).released (w.spOf o)).uses w.holders.next = 1 := by
    intro hbig
    rw [World.released_uses_of_ne hne, World.filled, if_neg hbig]
    exact Function.update_self ..
  by_cases hsize : BufferSequence.sizeofImpl (T s.1) ≤ sboSize
  · have hobj : (w.filled o st s).objects o = some ⟨some w.holders.next, .storage o⟩ := by
      rw [World.filled, if_pos hsize]
      exact World.withObject_objects_self _
    rw [show ((w.filled o st s).released (w.spOf o)).objects o = _ from hobj]
    exact .small rfl rfl hget
  · have hobj : (w.filled o st s).objects o = some ⟨st, .heap w.holders.next⟩ := by
      rw [World.filled, if_neg hsize]
      exact World.withObject_objects_self _
    rw [show ((w.filled o st s).released (w.spOf o)).objects o = _ from hobj]
    exact .big rfl (huses hsize) hget

/-- The object `o`, before the operation that gives it a sequence, is `x` in `W`: as it is in `w` when it is
    live, and with an empty pointer when it is being constructed. -/
structure Ready (w : World T) (o : Nat) (x : Object) (W : World T) : Prop where
  object : W.objects o = some x
  sp : x.sp_ = w.spOf o
  rest : ∀ x?, W.withObject o x? = w.withObject o x?
  holders : W.holders = w.holders
  uses : W.uses = w.uses

theorem ready_live (hx : w.objects o = some x) : Ready w o x w :=
  ⟨hx, (spOf_of_some hx).symm, fun _ => rfl, rfl, rfl⟩

theorem ready_dead (hx : w.objects o = none) : Ready w o {} (w.withObject o (some {})) :=
  ⟨World.withObject_objects_self _, by simp [World.spOf, hx], fun _ => World.withObject_idem _ _, rfl, rfl⟩

namespace Ready
variable {W : World T}

theorem droppable (r : Ready w o x W) (h : Inv w m) : Droppable W x.sp_ := by
  rw [Droppable, r.holders, r.uses, r.sp]
  exact (h.holds o).droppable

theorem setStatic (r : Ready w o x W) (h : Inv w m) :
    ∃ w', W.setSp o .static = .ok w' ∧ Effect w o w' ∧ Inv w' (Function.update m o (some none)) := by
  rw [World.setSp_eq r.object (r.droppable h), r.rest, r.sp]
  have heffect := h.effect_drop (o := o) (some { x with sp_ := .static }) fun _ hx => Option.some.inj hx ▸ rfl
  refine ⟨_, rfl, heffect, h.step heffect ?_⟩
  rw [show ((w.withObject o _).released (w.spOf o)).objects o = _ from World.withObject_objects_self _]
  exact .empty rfl

theorem construct (r : Ready w o x W) (h : Inv w m) (s : Wrapped T) :
    ∃ w', W.construct o s = .ok w' ∧ Effect w o w' ∧ Inv w' (Function.update m o (some (some s))) := by
  have hfilled : W.filled o x.storage_ s = w.filled o x.storage_ s := by
    have hobjects : ∀ x?, Function.update W.objects o x? = Function.update w.objects o x? :=
      fun x? => congrArg World.objects (r.rest x?)
    simp only [World.filled, World.withObject, World.makeShared, r.holders, r.uses, hobjects]
  rw [World.construct_eq r.object (r.droppable h), hfilled, r.sp]
  · have heffect := h.effect_fill (o := o) x.storage_ s
    exact ⟨_, rfl, heffect, h.step heffect (h.holds_fill x.storage_ s)⟩
  · rw [r.holders, r.sp]
    exact fun k hk => h.deletes_lt hk

/-- `copy` of a holder that was made from `v`. -/
theorem copy (r : Ready w o x W) (h : Inv w m) (v : Option (Wrapped T)) {sp : Ptr} (hsp : v = none → sp = .static) :
    ∃ w', W.copy o (Impl.ofOrigin v) sp = .ok w' ∧ Effect w o w' ∧ Inv w' (Function.update m o (some v)) := by
  cases v with
  | none =>
    rw [hsp rfl]
    exact r.setStatic h
  | some s =>
    have hcopy : W.copy o (Impl.of s) sp = W.construct o s := by
      unfold Impl.of
      split <;> rfl
    rw [Impl.ofOrigin, hcopy]
    exact r.construct h s

end Ready

theorem Inv.origin_of_none (h : Inv w m) (hx : w.objects o = none) : m o = none := by
  have hw := h.holds o
  generalize m o = v at hw
  rw [hx] at hw
  cases hw
  rfl

/-- The origin of a live object, and what its pointer leads to. -/
theorem Inv.origin_of_some (h : Inv w m) (hx : w.objects o = some x) :
    ∃ v, m o = some v ∧ w.pointee x.sp_ = .ok (Impl.ofOrigin v) ∧ (v = none → x.sp_ = .static) := by
  have hw := h.holds o
  generalize m o = v at hw
  rw [hx] at hw
  cases hw with
  | empty sp => exact ⟨none, rfl, by rw [sp]; rfl, fun _ => sp⟩
  | small sp storage get =>
    refine ⟨some _, rfl, ?_, fun hnone => nomatch hnone⟩
    simp [sp, World.pointee, World.target, hx, storage, get, Impl.ofOrigin]
  | big sp _ get =>
    refine ⟨some _, rfl, ?_, fun hnone => nomatch hnone⟩
    simp [sp, World.pointee, World.target, get, Impl.ofOrigin]

/-! ### Each action -/

def World.Live (w : World T) (o : Nat) : Prop := ∃ x, w.objects o = some x

/-- The action destroys the object `o`, or assigns over it. -/
def Ends (w : World T) (a : Action T) (o : Nat) : Prop :=
  match a with
  | .assign dest other => dest = o ∧ o ≠ other ∧ w.Live o ∧ w.Live other
  | .destroy dest => dest = o ∧ w.Live o
  | _ => False

/-- An action does nothing, or changes one object; if that had a holder, then the action ends it. -/
def Acts (w : World T) (a : Action T) (w' : World T) : Prop :=
  (w' = w ∧ ∀ o, ¬Ends w a o) ∨
    ∃ o, Effect w o w' ∧ (∀ o', Ends w a o' → o' = o) ∧ ∀ k, w.owned o = some k → Ends w a o

theorem acts_idle {a : Action T} (hends : ∀ o, ¬Ends w a o) : Acts w a w := Or.inl ⟨rfl, hends⟩

theorem acts_dead {a : Action T} (hx : w.objects o = none) (e : Effect w o w') (hends : ∀ o', ¬Ends w a o') :
    Acts w a w' := by
  refine Or.inr ⟨o, e, fun o' h => absurd h (hends o'), fun k hk => ?_⟩
  rw [owned_of_none hx] at hk
  cases hk

theorem acts_live {a : Action T} (e : Effect w o w') (hends : ∀ o', Ends w a o' ↔ o' = o) : Acts w a w' :=
  Or.inr ⟨o, e, fun o' => (hends o').mp, fun _ _ => (hends o).mpr rfl⟩

theorem step_default (h : Inv w m) (o : Nat) :
    ∃ w', step w (.default o) = .ok w' ∧ Acts w (.default o) w' ∧ Inv w' (m.step (.default o)) := by
  cases hx : w.objects o with
  | some x =>
    obtain ⟨v, hv, -⟩ := h.origin_of_some hx
    simp only [step, hx, Origins.step, hv]
    exact ⟨w, rfl, acts_idle fun _ => id, h⟩
  | none =>
    obtain ⟨w', hw', e, hinv⟩ := (ready_dead hx).setStatic h
    simp only [step, hx, Origins.step, h.origin_of_none hx]
    exact ⟨w', hw', acts_dead hx e fun _ => id, hinv⟩

theorem step_convert (h : Inv w m) (o : Nat) (s : Wrapped T) :
    ∃ w', step w (.convert o s) = .ok w' ∧ Acts w (.convert o s) w' ∧ Inv w' (m.step (.convert o s)) := by
  cases hx : w.objects o with
  | some x =>
    obtain ⟨v, hv, -⟩ := h.origin_of_some hx
    simp only [step, hx, Origins.step, hv]
    exact ⟨w, rfl, acts_idle fun _ => id, h⟩
  | none =>
    obtain ⟨w', hw', e, hinv⟩ := (ready_dead hx).construct h s
    simp only [step, hx, Origins.step, h.origin_of_none hx]
    exact ⟨w', hw', acts_dead hx e fun _ => id, hinv⟩

theorem step_copy (h : Inv w m) (o other : Nat) :
    ∃ w', step w (.copy o other) = .ok w' ∧ Acts w (.copy o other) w' ∧ Inv w' (m.step (.copy o other)) := by
  cases hx : w.objects o with
  | some x =>
    obtain ⟨v, hv, -⟩ := h.origin_of_some hx
    simp only [step, hx, Origins.step, hv]
    exact ⟨w, rfl, acts_idle fun _ => id, h⟩
  | none =>
    cases hy : w.objects other with
    | none =>
      simp only [step, hx, hy, Origins.step, h.origin_of_none hx, h.origin_of_none hy]
      exact ⟨w, rfl, acts_idle fun _ => id, h⟩
    | some y =>
      obtain ⟨v, hv, hp, hsp⟩ := h.origin_of_some hy
      obtain ⟨w', hw', e, hinv⟩ := (ready_dead hx).copy h v hsp
      simp only [step, hx, hy, hp, ok_bind, Origins.step, h.origin_of_none hx, hv]
      exact ⟨w', hw', acts_dead hx e fun _ => id, hinv⟩

theorem step_assign (h : Inv w m) (o other : Nat) :
    ∃ w', step w (.assign o other) = .ok w' ∧ Acts w (.assign o other) w' ∧ Inv w' (m.step (.assign o other)) := by
  cases hx : w.objects o with
  | none =>
    simp only [step, hx, Origins.step, h.origin_of_none hx]
    refine ⟨w, rfl, acts_idle ?_, h⟩
    rintro o' ⟨rfl, -, ⟨x, hx'⟩, -⟩
    rw [hx] at hx'
    cases hx'
  | some x =>
    obtain ⟨u, hu, -⟩ := h.origin_of_some hx
    cases hy : w.objects other with
    | none =>
      simp only [step, hx, hy, Origins.step, hu, h.origin_of_none hy]
      refine ⟨w, rfl, acts_idle ?_, h⟩
      rintro o' ⟨-, -, -, ⟨y, hy'⟩⟩
      rw [hy] at hy'
      cases hy'
    | some y =>
      obtain ⟨v, hv, hp, hsp⟩ := h.origin_of_some hy
      simp only [step, hx, hy, hp, ok_bind, Origins.step, hu, hv]
      by_cases heq : o = other
      · -- An assignment to itself leaves the object as it is.
        rw [if_pos heq, Function.update_eq_self_iff.mpr (heq ▸ hv.symm)]
        refine ⟨w, rfl, acts_idle ?_, h⟩
        rintro o' ⟨rfl, hne, -⟩
        exact hne heq
      · obtain ⟨w', hw', e, hinv⟩ := (ready_live hx).copy h v hsp
        rw [if_neg heq]
        refine ⟨w', hw', acts_live e fun o' => ?_, hinv⟩
        constructor
        · exact fun hends => hends.1.symm
        · rintro rfl
          exact ⟨rfl, heq, ⟨x, hx⟩, ⟨y, hy⟩⟩

theorem step_destroy (h : Inv w m) (o : Nat) :
    ∃ w', step w (.destroy o) = .ok w' ∧ Acts w (.destroy o) w' ∧ Inv w' (m.step (.destroy o)) := by
  cases hx : w.objects o with
  | none =>
    have hsame : m.step (.destroy o) = m := Function.update_eq_self_iff.mpr (h.origin_of_none hx).symm
    rw [hsame]
    simp only [step, hx]
    refine ⟨w, rfl, acts_idle ?_, h⟩
    rintro o' ⟨rfl, x, hx'⟩
    rw [hx] at hx'
    cases hx'
  | some x =>
    have heffect := h.effect_drop (o := o) none fun _ hx => nomatch hx
    have hdrop : Droppable (w.withObject o none) (w.spOf o) := (h.holds o).droppable
    have hdead : Holds ((w.withObject o none).released (w.spOf o)) o
        (((w.withObject o none).released (w.spOf o)).objects o) none := by
      rw [show ((w.withObject o none).released (w.spOf o)).objects o = none from World.withObject_objects_self _]
      exact .dead
    simp only [step, hx, ← spOf_of_some hx]
    refine ⟨_, World.release_eq hdrop, acts_live heffect fun o' => ?_, h.step heffect hdead⟩
    constructor
    · exact fun hends => hends.1.symm
    · rintro rfl
      exact ⟨rfl, x, hx⟩

theorem step_spec (h : Inv w m) (a : Action T) :
    ∃ w', step w a = .ok w' ∧ Acts w a w' ∧ Inv w' (m.step a) := by
  cases a with
  | default o => exact step_default h o
  | convert o s => exact step_convert h o s
  | copy o other => exact step_copy h o other
  | assign o other => exact step_assign h o other
  | destroy o => exact step_destroy h o

theorem inv_init : Inv ({} : World T) fun _ => none where
  holds _ := .dead
  owned := ⟨fun _ _ h => (nomatch h), fun _ _ _ h => (nomatch h), fun _ _ h => (nomatch h)⟩

end

end Buffers.AnyBuffers
