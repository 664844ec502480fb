import Buffers.Theorems.AnyBuffers.Shared

/-! # The plan of a program with type-erased buffer sequences

A plan says what a program means by its deeds: each object holds a sequence or none, and each iterator is at a
position of one. A program stands at a plan when its pointers lead to the holders of those sequences, each counted by
its owners (`Stands`). The actions on objects keep it there (`Stands.act`), and so does each change of one iterator
(`Stands.visit`). -/

namespace Buffers.AnyBuffers
open Checked

variable {ι : Type} {T : ι → Type} [∀ i, BufferSequence (T i)]

/-! ### Plans -/

/-- A sequence that an object was given, with a number of its own, and the object in whose storage it is, if it is
    small. -/
structure Holding {ι : Type} (T : ι → Type) where
  sequence : Wrapped T
  number : Nat
  home : Option Nat

/-- An iterator at a position of a sequence, or of the empty one. -/
structure Visit {ι : Type} (T : ι → Type) where
  holding : Option (Holding T)
  pos : Nat

def Visit.contents (k : Visit T) : List Buffer := AnyBuffers.contents (k.holding.map Holding.sequence)

def Visit.home (k : Visit T) : Option Nat := k.holding.bind Holding.home

def Visit.number (k : Visit T) : Option Nat := k.holding.map Holding.number

structure Plan {ι : Type} (T : ι → Type) where
  objects : Nat → Option (Option (Holding T)) := fun _ => none
  /-- The number of the sequence in the storage of an object. -/
  storage : Nat → Option Nat := fun _ => none
  visits : Nat → Option (Visit T) := fun _ => none
  next : Nat := 0
  seen : List Seen := []

namespace Plan

def withVisit (m : Plan T) (i : Nat) (k? : Option (Visit T)) : Plan T := { m with visits := Function.update m.visits i k? }

/-- A new sequence for the object `o`. -/
def newHolding (m : Plan T) (o : Nat) (s : Wrapped T) : Holding T :=
  ⟨s, m.next, if BufferSequence.sizeofImpl (T s.1) ≤ sboSize then some o else none⟩

/-- The object `o` is given a sequence, or the empty one. -/
def give (m : Plan T) (o : Nat) : Option (Wrapped T) → Plan T
  | none => { m with objects := Function.update m.objects o (some none) }
  | some s =>
    { m with
      objects := Function.update m.objects o (some (some (m.newHolding o s)))
      storage :=
        if BufferSequence.sizeofImpl (T s.1) ≤ sboSize then Function.update m.storage o (some m.next) else m.storage
      next := m.next + 1 }

def act (m : Plan T) : Action T → Plan T
  | .default o =>
    match m.objects o with
    | some _ => m
    | none => m.give o none
  | .convert o s =>
    match m.objects o with
    | some _ => m
    | none => m.give o (some s)
  | .copy o other =>
    match m.objects o, m.objects other with
    | none, some v => m.give o (v.map Holding.sequence)
    | _, _ => m
  | .assign o other =>
    match m.objects o, m.objects other with
    | some _, some v => if o = other then m else m.give o (v.map Holding.sequence)
    | _, _ => m
  | .destroy o => { m with objects := Function.update m.objects o none, storage := Function.update m.storage o none }

def step (m : Plan T) : Deed T → Plan T
  | .object a => m.act a
  -- No program comes past a default construction.
  | .default _ => m
  | .first i o =>
    match m.visits i, m.objects o with
    | none, some v => m.withVisit i (some ⟨v, 0⟩)
    | _, _ => m
  | .last i o =>
    match m.visits i, m.objects o with
    | none, some v => m.withVisit i (some ⟨v, (contents (v.map Holding.sequence)).length⟩)
    | _, _ => m
  | .copy i other =>
    match m.visits i, m.visits other with
    | none, some k => m.withVisit i (some k)
    | _, _ => m
  | .assign i other =>
    match m.visits i, m.visits other with
    | some _, some k => m.withVisit i (some k)
    | _, _ => m
  | .move i mv =>
    match m.visits i with
    | some k => m.withVisit i (some { k with pos := (mv.shift k.contents.length k.pos).getD k.pos })
    | none => m
  | .deref i =>
    match m.visits i with
    | some k => { m with seen := .buffer (k.contents[k.pos]?.getD ⟨0, 0⟩) :: m.seen }
    | none => m
  | .equal i other =>
    match m.visits i, m.visits other with
    -- Two iterators are equal when they are at the same element of the same sequence.
    | some k, some l => { m with seen := .equal (decide (k.number = l.number ∧ k.pos = l.pos)) :: m.seen }
    | _, _ => m
  | .destroy i => m.withVisit i none

/-- A deed that stays within the sequence, as the documentation asks; an iterator of the empty one may be moved and
    read. -/
def inRange (m : Plan T) : Deed T → Bool
  | .move i mv => (m.visits i).all fun k => k.holding.isNone || (mv.shift k.contents.length k.pos).isSome
  | .deref i => (m.visits i).all fun k => k.holding.isNone || k.pos < k.contents.length
  | _ => true

/-- The storage that the iterator depends on, if it does on any, still holds its sequence. -/
def Fresh (m : Plan T) (k : Visit T) : Prop := ∀ o, k.home = some o → m.storage o = k.number

def StaleAt (m : Plan T) (i : Nat) : Prop := ∃ k, m.visits i = some k ∧ ¬m.Fresh k

/-- The deed uses a stale iterator, or constructs one by default. Copies, assignments and destructions are uses; a
    comparison is one unless it is of iterators of different objects. -/
def Misuses (m : Plan T) : Deed T → Prop
  | .copy i other => m.visits i = none ∧ m.StaleAt other
  | .assign i other =>
    i ≠ other ∧ (m.visits i).isSome ∧ (m.visits other).isSome ∧ (m.StaleAt i ∨ m.StaleAt other)
  | .move i _ | .deref i | .destroy i => m.StaleAt i
  | .equal i other =>
    (m.visits i).map Visit.home = (m.visits other).map Visit.home ∧ (m.StaleAt i ∨ m.StaleAt other)
  | .default i => m.visits i = none
  | .object _ | .first _ _ | .last _ _ => False

/-- Some object or iterator of the plan has the sequence. -/
def Holds (m : Plan T) (a : Holding T) : Prop :=
  (∃ o, m.objects o = some (some a)) ∨ ∃ i k, m.visits i = some k ∧ k.holding = some a

end Plan

/-! ### The pointers of a plan -/

/-- The pointer to a holder of the sequence. -/
def Holding.ptr : Option (Holding T) → Ptr
  | none => .static
  | some a => a.home.elim (.heap a.number) .storage

/-- The storage of an iterator at a position. -/
def Holding.itStorage : Option (Holding T) → Nat → ItStorage T
  | none => fun _ => .unused
  | some a =>
    if BufferSequence.sizeofIter (T a.sequence.1) ≤ iterSboSize then
      fun n => .native a.sequence.1 (BufferSequence.pos a.sequence.2 n)
    else
      .index

section
variable [DecidableEq ι]

theorem iterates_itStorage (v : Option (Holding T)) :
    Iterates (Impl.ofOrigin (v.map Holding.sequence)).iteration (Holding.itStorage v)
      (contents (v.map Holding.sequence)) := by
  rcases v with - | a
  · exact iterates_empty
  · by_cases hsize : BufferSequence.sizeofIter (T a.sequence.1) ≤ iterSboSize
    · have h := iterates_smallIter a.sequence.1 a.sequence.2
      simpa [Impl.ofOrigin, Impl.of, contents, Holding.itStorage, hsize] using h
    · have h := iterates_bigIter a.sequence.1 a.sequence.2
      simpa [Impl.ofOrigin, Impl.of, contents, Holding.itStorage, hsize] using h

theorem itCopy_itStorage (v : Option (Holding T)) (n : Nat) :
    (Impl.ofOrigin (v.map Holding.sequence)).itCopy .unused (Holding.itStorage v n) = .ok (Holding.itStorage v n) := by
  rcases v with - | a
  · rfl
  · by_cases hsize : BufferSequence.sizeofIter (T a.sequence.1) ≤ iterSboSize
    · simp [Impl.ofOrigin, Impl.of, Holding.itStorage, hsize, Impl.itCopy]
    · simp [Impl.ofOrigin, Impl.of, Holding.itStorage, hsize, Impl.itCopy]

theorem itDestroy_itStorage (v : Option (Holding T)) (n : Nat) :
    (Impl.ofOrigin (v.map Holding.sequence)).itDestroy (Holding.itStorage v n) = .ok .unused := by
  rcases v with - | a
  · rfl
  · by_cases hsize : BufferSequence.sizeofIter (T a.sequence.1) ≤ iterSboSize
    · simp [Impl.ofOrigin, Impl.of, Holding.itStorage, hsize, Impl.itDestroy]
    · simp [Impl.ofOrigin, Impl.of, Holding.itStorage, hsize, Impl.itDestroy]

end

/-! ### The state of a program, and its plan -/

/-- The holder of a sequence is where it was made; one in the storage of an object has no owner. -/
structure Kept (w : World T) (a : Holding T) : Prop where
  get : w.holders.get a.number = some (Impl.of a.sequence)
  unused : ∀ o, a.home = some o → w.uses a.number = 0

/-- An object with what it holds, and with what is in its storage. -/
inductive Placed (o : Nat) : Option Object → Option (Option (Holding T)) → Option Nat → Prop
  | dead : Placed o none none none
  | live (x : Object) (v : Option (Holding T)) (sp : x.sp_ = Holding.ptr v)
      (home : ∀ a o', v = some a → a.home = some o' → o' = o ∧ x.storage_ = some a.number) :
      Placed o (some x) (some v) x.storage_

/-- An iterator at a position of what it visits. -/
inductive Follows : Option (LiveIterator T) → Option (Visit T) → Prop
  | dead : Follows none none
  | live (k : Visit T) (le : k.pos ≤ k.contents.length) :
      Follows (some ⟨⟨Holding.ptr k.holding, Holding.itStorage k.holding k.pos⟩, k.number⟩) (some k)

structure Stands (s : Scene T) (m : Plan T) : Prop where
  counted : Shared.Counted s.world.shared (handles s.world.objects s.iterators) none
  next : m.next = s.world.holders.next
  objects : ∀ o, Placed o (s.world.objects o) (m.objects o) (m.storage o)
  iterators : ∀ i, Follows (s.iterators i) (m.visits i)
  kept : ∀ a, m.Holds a → Kept s.world a
  numbered : ∀ a b, m.Holds a → m.Holds b → a.number = b.number → a = b
  seen : s.seen = m.seen

section
variable {s s' : Scene T} {m m' : Plan T} {w w' : World T} {a : Holding T} {o i : Nat}

theorem Kept.lt {handle : Nat ⊕ Nat → Option Nat} {moving : Option Nat} (h : Kept w a)
    (hc : Shared.Counted w.shared handle moving) : a.number < w.holders.next := hc.below _ _ h.get

/-- What has an owner, or is in the storage of an object, is not destroyed. -/
theorem Kept.passes {handle : Nat ⊕ Nat → Option Nat} {moving : Option Nat} (h : Kept w a)
    (hc : Shared.Counted w.shared handle moving) (hp : Shared.Passes w.shared w'.shared)
    (howner : a.home = none → 0 < w'.uses a.number) : Kept w' a where
  get := by
    have hstays := hp.stays a.number _ h.get
    rw [if_neg] at hstays
    · exact hstays
    · rintro ⟨hpos, hz⟩
      cases hhome : a.home with
      | none => exact Nat.ne_of_gt (howner hhome) hz
      | some o => exact Nat.ne_of_gt hpos (h.unused o hhome)
  unused o ho := hp.unused a.number (h.lt hc) (h.unused o ho)

omit [∀ i, BufferSequence (T i)] in
theorem ptr_deletes (v : Option (Holding T)) :
    (Holding.ptr v).deletes = v.bind fun a => if a.home = none then some a.number else none := by
  rcases v with - | a
  · rfl
  · cases hhome : a.home <;> simp [Holding.ptr, hhome, Ptr.deletes]

theorem Placed.owner {objects : Nat → Option Object} {iterators : Nat → Option (LiveIterator T)} {st : Option Nat}
    (h : Placed o (objects o) (some (some a)) st) (hhome : a.home = none) :
    handles objects iterators (.inl o) = some a.number := by
  generalize hx : objects o = x? at h
  cases h with
  | live x v sp home => simp [handles, hx, sp, ptr_deletes, hhome]

theorem Follows.owner {objects : Nat → Option Object} {iterators : Nat → Option (LiveIterator T)} {k : Visit T}
    (h : Follows (iterators i) (some k)) (hk : k.holding = some a) (hhome : a.home = none) :
    handles objects iterators (.inr i) = some a.number := by
  generalize hx : iterators i = it? at h
  cases h with
  | live k le => simp [handles, hx, hk, ptr_deletes, hhome]

/-- After a step that changes one pointer, the program stands at a plan that has one new sequence at most. -/
theorem Stands.after (h : Stands s m) (new : Option (Holding T))
    (hp : Passage s.world (handles s'.world.objects s'.iterators) s'.world)
    (next : m'.next = s'.world.holders.next) (objects : ∀ o, Placed o (s'.world.objects o) (m'.objects o) (m'.storage o))
    (iterators : ∀ i, Follows (s'.iterators i) (m'.visits i))
    (hnew : ∀ a, new = some a → a.number = m.next ∧ Kept s'.world a) (hold : ∀ a, m'.Holds a → m.Holds a ∨ new = some a)
    (seen : s'.seen = m'.seen) : Stands s' m' := by
  have hkept : ∀ a, m'.Holds a → Kept s'.world a := by
    intro a ha
    rcases hold a ha with hm | hn
    · refine (h.kept a hm).passes h.counted hp.passes fun hhome => ?_
      rcases ha with ⟨o, ho⟩ | ⟨i, k, hi, hk⟩
      · have hplaced := objects o
        rw [ho] at hplaced
        exact hp.counted.counts.pos (hplaced.owner hhome)
      · have hfollows := iterators i
        rw [hi] at hfollows
        exact hp.counted.counts.pos (hfollows.owner hk hhome)
    · exact (hnew a hn).2
  have hold_ne : ∀ a b, m.Holds a → new = some b → a.number ≠ b.number := by
    intro a b ha hb heq
    have hlt := (h.kept a ha).lt h.counted
    rw [heq, (hnew b hb).1, h.next] at hlt
    exact Nat.lt_irrefl _ hlt
  refine ⟨hp.counted, next, objects, iterators, hkept, fun a b ha hb heq => ?_, seen⟩
  rcases hold a ha with ha | ha
  · rcases hold b hb with hb | hb
    · exact h.numbered a b ha hb heq
    · exact absurd heq (hold_ne a b ha hb)
  · rcases hold b hb with hb | hb
    · exact absurd heq.symm (hold_ne b a hb ha)
    · exact Option.some.inj (ha.symm.trans hb)

/-! ### Virtual calls of iterators -/

theorem Stands.storage (h : Stands s m) (o : Nat) : (s.world.objects o).bind Object.storage_ = m.storage o := by
  have hplaced := h.objects o
  generalize s.world.objects o = x? at hplaced
  generalize m.objects o = v at hplaced
  generalize m.storage o = st at hplaced
  cases hplaced with
  | dead => rfl
  | live x v sp home => rfl

theorem target_eq_iff (hstorage : ∀ o, (w.objects o).bind Object.storage_ = m.storage o) (k : Visit T) :
    w.target (Holding.ptr k.holding) = k.number ↔ m.Fresh k := by
  obtain ⟨v, pos⟩ := k
  rcases v with - | a
  · simp [Holding.ptr, World.target, Visit.number, Plan.Fresh, Visit.home]
  · cases hhome : a.home with
    | none => simp [Holding.ptr, World.target, Visit.number, Plan.Fresh, Visit.home, hhome]
    | some o => simp [Holding.ptr, World.target, Visit.number, Plan.Fresh, Visit.home, hhome, hstorage]

theorem pointee_of_fresh (hstorage : ∀ o, (w.objects o).bind Object.storage_ = m.storage o) {k : Visit T}
    (hkept : ∀ a, k.holding = some a → Kept w a) (hfresh : m.Fresh k) :
    w.pointee (Holding.ptr k.holding) = .ok (Impl.ofOrigin (k.holding.map Holding.sequence)) := by
  have htarget := (target_eq_iff hstorage k).mpr hfresh
  obtain ⟨v, pos⟩ := k
  rcases v with - | a
  · rfl
  · have hget := (hkept a rfl).get
    cases hhome : a.home with
    | none => simp [Holding.ptr, World.pointee, World.target, hhome, hget, Impl.ofOrigin]
    | some o =>
      simp only [Holding.ptr, hhome, Visit.number, Option.map_some, Option.elim] at htarget
      simp [Holding.ptr, World.pointee, hhome, htarget, hget, Impl.ofOrigin]

theorem holder_of_fresh (hstorage : ∀ o, (w.objects o).bind Object.storage_ = m.storage o) {k : Visit T}
    (hkept : ∀ a, k.holding = some a → Kept w a) (hfresh : m.Fresh k) (st : ItStorage T) :
    w.holder ⟨⟨Holding.ptr k.holding, st⟩, k.number⟩ = .ok (Impl.ofOrigin (k.holding.map Holding.sequence)) := by
  rw [World.holder, if_pos ((target_eq_iff hstorage k).mpr hfresh)]
  exact pointee_of_fresh hstorage hkept hfresh

theorem Stands.visit_kept (h : Stands s m) {k : Visit T} (hk : m.visits i = some k) :
    ∀ a, k.holding = some a → Kept s.world a :=
  fun a ha => h.kept a (Or.inr ⟨i, k, hk, ha⟩)

end

/-! ### Actions on objects -/

section
variable {s : Scene T} {m : Plan T} {W : World T} {o : Nat} {x : Object}

theorem Ready.handles (r : Ready s.world o x W) : handles W.objects s.iterators = handles s.world.objects s.iterators := by
  have hobjects : W.objects = Function.update s.world.objects o (some x) := calc
    W.objects = Function.update W.objects o (some x) := (Function.update_eq_self_iff.mpr r.object.symm).symm
    _ = Function.update s.world.objects o (some x) := congrArg World.objects (r.rest (some x))
  rw [hobjects]
  refine handles_same ?_
  cases hx : s.world.objects o with
  | none => simp [r.sp, World.spOf, hx, Ptr.deletes]
  | some y => simp [r.sp, World.spOf, hx]

theorem Stands.ready_counted (h : Stands s m) (r : Ready s.world o x W) :
    Shared.Counted W.shared (AnyBuffers.handles W.objects s.iterators) none := by
  have hshared : W.shared = s.world.shared := by simp [World.shared, r.holders, r.uses]
  rw [hshared, r.handles]
  exact h.counted

theorem Ready.passage (r : Ready s.world o x W) {w' : World T} {handle : Nat ⊕ Nat → Option Nat}
    (hp : Passage W handle w') :
    Passage s.world handle w' := by
  have hshared : W.shared = s.world.shared := by simp [World.shared, r.holders, r.uses]
  exact ⟨hp.counted, hshared ▸ hp.passes⟩

omit [∀ i, BufferSequence (T i)] in
theorem placed_update {objects : Nat → Option Object} {held : Nat → Option (Option (Holding T))}
    {storage : Nat → Option Nat}
    (h : ∀ o, Placed o (objects o) (held o) (storage o)) {x? : Option Object} {v? : Option (Option (Holding T))}
    {st : Option Nat} (hself : Placed o x? v? st) (o' : Nat) :
    Placed o' (Function.update objects o x? o') (Function.update held o v? o') (Function.update storage o st o') := by
  by_cases hne : o' = o
  · subst hne
    simpa using hself
  · simpa [Function.update_of_ne hne] using h o'

omit [∀ i, BufferSequence (T i)] in
theorem holds_update {v? : Option (Option (Holding T))} {storage : Nat → Option Nat} {next : Nat} {a : Holding T}
    (ha : ({ m with objects := Function.update m.objects o v?, storage := storage, next := next } : Plan T).Holds a) :
    m.Holds a ∨ v? = some (some a) := by
  rcases ha with ⟨o', ho'⟩ | hvisit
  · by_cases hne : o' = o
    · subst hne
      exact Or.inr (by simpa using ho')
    · exact Or.inl (Or.inl ⟨o', by simpa [hne] using ho'⟩)
  · exact Or.inl (Or.inr hvisit)

/-- The object `o` is left empty. -/
theorem Stands.setStatic (h : Stands s m) (r : Ready s.world o x W) (hst : x.storage_ = m.storage o) :
    ∃ w', W.setSp o .static = .ok w' ∧ Stands { s with world := w' } (m.give o none) ∧
      Shared.Passes s.world.shared w'.shared := by
  obtain ⟨w', hw', hobjects, hnext, hpassage⟩ := setSp_passage .static r.object (h.ready_counted r)
  have hobjects' : w'.objects = Function.update s.world.objects o (some { x with sp_ := .static }) :=
    hobjects.trans (congrArg World.objects (r.rest _))
  have hself : Placed o (some { x with sp_ := .static }) (some (none : Option (Holding T))) x.storage_ :=
    .live { x with sp_ := .static } none rfl (by simp)
  refine ⟨w', hw', h.after none (r.passage hpassage) ?_ (fun o' => ?_) h.iterators (by simp) (fun a ha => ?_) h.seen,
    (r.passage hpassage).passes⟩
  · exact h.next.trans ((hnext.trans (congrArg Cells.next r.holders)).symm)
  · have hplaced := placed_update h.objects hself o'
    rwa [← hobjects', hst, Function.update_eq_self] at hplaced
  · exact (holds_update ha).imp_right fun hnew => by simp at hnew

/-- The object `o` is given a new sequence. -/
theorem Stands.construct (h : Stands s m) (r : Ready s.world o x W) (hst : x.storage_ = m.storage o) (seq : Wrapped T) :
    ∃ w', W.construct o seq = .ok w' ∧ Stands { s with world := w' } (m.give o (some seq)) ∧
      Shared.Passes s.world.shared w'.shared := by
  obtain ⟨w', hw', hobjects, hnext, hpassage, hget, hunused⟩ := construct_passage r.object (h.ready_counted r) seq
  have hobjects' : w'.objects = Function.update s.world.objects o (some (W.given o x seq.1)) :=
    hobjects.trans (congrArg World.objects (r.rest _))
  have hnumber : m.next = W.holders.next := h.next.trans (congrArg Cells.next r.holders).symm
  have hself : Placed o (some (W.given o x seq.1)) (some (some (m.newHolding o seq))) (W.given o x seq.1).storage_ := by
    refine .live _ _ ?_ fun a o' ha ho' => ?_
    · by_cases hsize : BufferSequence.sizeofImpl (T seq.1) ≤ sboSize
      · simp [World.given, Plan.newHolding, Holding.ptr, hsize]
      · simp [World.given, Plan.newHolding, Holding.ptr, hsize, hnumber]
    · cases ha
      by_cases hsize : BufferSequence.sizeofImpl (T seq.1) ≤ sboSize
      · simp only [Plan.newHolding, if_pos hsize, Option.some.injEq] at ho'
        simp [World.given, Plan.newHolding, hsize, ho', hnumber]
      · simp [Plan.newHolding, hsize] at ho'
  have hstorage : (m.give o (some seq)).storage = Function.update m.storage o (W.given o x seq.1).storage_ := by
    by_cases hsize : BufferSequence.sizeofImpl (T seq.1) ≤ sboSize
    · simp [Plan.give, World.given, hsize, hnumber]
    · simp [Plan.give, World.given, hsize, hst]
  refine ⟨w', hw', h.after (some (m.newHolding o seq)) (r.passage hpassage) ?_ (fun o' => ?_) h.iterators (fun a ha => ?_)
    (fun a ha => ?_) h.seen, (r.passage hpassage).passes⟩
  · exact (congrArg (· + 1) hnumber).trans hnext.symm
  · have hplaced := placed_update h.objects hself o'
    rwa [← hobjects', ← hstorage] at hplaced
  · cases ha
    refine ⟨rfl, ?_, fun o' ho' => ?_⟩
    · simpa [Plan.newHolding, hnumber] using hget
    · by_cases hsize : BufferSequence.sizeofImpl (T seq.1) ≤ sboSize
      · simpa [Plan.newHolding, hnumber] using hunused hsize
      · simp [Plan.newHolding, hsize] at ho'
  · exact (holds_update ha).imp_right Option.some.inj

/-- The object `o` is given the sequence of the holder that it is copied from. -/
theorem Stands.copy (h : Stands s m) (r : Ready s.world o x W) (hst : x.storage_ = m.storage o)
    (v : Option (Wrapped T)) {sp : Ptr} (hsp : v = none → sp = .static) :
    ∃ w', W.copy o (Impl.ofOrigin v) sp = .ok w' ∧ Stands { s with world := w' } (m.give o v) ∧
      Shared.Passes s.world.shared w'.shared := by
  cases v with
  | none =>
    rw [hsp rfl]
    exact h.setStatic r hst
  | some seq =>
    have hcopy : W.copy o (Impl.of seq) sp = W.construct o seq := by
      unfold Impl.of
      split <;> rfl
    rw [Impl.ofOrigin, hcopy]
    exact h.construct r hst seq

theorem Stands.object_of_none (h : Stands s m) (hx : s.world.objects o = none) :
    m.objects o = none ∧ m.storage o = none := by
  have hplaced := h.objects o
  rw [hx] at hplaced
  generalize m.objects o = v at hplaced
  generalize m.storage o = st at hplaced
  cases hplaced
  exact ⟨rfl, rfl⟩

theorem Stands.object_of_some (h : Stands s m) (hx : s.world.objects o = some x) :
    ∃ v, m.objects o = some v ∧ x.sp_ = Holding.ptr v ∧ x.storage_ = m.storage o ∧
      (∀ n, m.Fresh ⟨v, n⟩) ∧ s.world.pointee x.sp_ = .ok (Impl.ofOrigin (v.map Holding.sequence)) := by
  have hplaced := h.objects o
  rw [hx] at hplaced
  obtain ⟨v, hv, hsp, hst, hfresh⟩ : ∃ v, m.objects o = some v ∧ x.sp_ = Holding.ptr v ∧ x.storage_ = m.storage o ∧
      ∀ n, m.Fresh ⟨v, n⟩ := by
    generalize hv : m.objects o = v? at hplaced
    generalize hst : m.storage o = st at hplaced
    cases hplaced with
    | live x v sp home =>
      refine ⟨v, rfl, sp, rfl, fun n o' ho' => ?_⟩
      obtain ⟨a, ha, ho'⟩ := Option.bind_eq_some_iff.mp ho'
      obtain ⟨rfl, hnumber⟩ := home a o' ha ho'
      have ha : v = some a := ha
      rw [hst, hnumber, Visit.number, ha]
      rfl
  refine ⟨v, hv, hsp, hst, hfresh, ?_⟩
  rw [hsp]
  exact pointee_of_fresh (k := ⟨v, 0⟩) h.storage (fun a ha => h.kept a (Or.inl ⟨o, hv.trans (congrArg some ha)⟩)) (hfresh 0)

theorem Stands.destroyed (h : Stands s m) (hx : s.world.objects o = some x) :
    ∃ w', (s.world.withObject o none).release x.sp_ = .ok w' ∧ Stands { s with world := w' } (m.act (.destroy o)) ∧
      Shared.Passes s.world.shared w'.shared := by
  have hswap := h.counted.swap (.inl o)
  have hhandle : AnyBuffers.handles s.world.objects s.iterators (.inl o) = x.sp_.deletes := by
    simp [AnyBuffers.handles, hx]
  rw [hhandle] at hswap
  have hupdate : AnyBuffers.handles (Function.update s.world.objects o none) s.iterators =
      Function.update (AnyBuffers.handles s.world.objects s.iterators) (.inl o) none := handles_object o none
  rw [← hupdate] at hswap
  obtain ⟨w', hw', hobjects, hnext, hpassage⟩ := release_passage (w := s.world.withObject o none) x.sp_ hswap
  have hobjects' : w'.objects = Function.update s.world.objects o none := hobjects
  refine ⟨w', hw', h.after none ⟨?_, hpassage.passes⟩ (h.next.trans hnext.symm) (fun o' => ?_) h.iterators (by simp)
    (fun a ha => ?_) h.seen, hpassage.passes⟩
  · rw [hobjects']
    exact hpassage.counted
  · have hplaced := placed_update h.objects .dead (o := o) o'
    rwa [← hobjects'] at hplaced
  · exact (holds_update ha).imp_right fun hnew => by simp at hnew

/-- An action on the objects does as planned, whatever iterators there are. -/
theorem Stands.act (h : Stands s m) (a : Action T) :
    ∃ w', AnyBuffers.step s.world a = .ok w' ∧ Stands { s with world := w' } (m.act a) ∧
      Shared.Passes s.world.shared w'.shared := by
  cases a with
  | default o =>
    cases hx : s.world.objects o with
    | some x =>
      obtain ⟨v, hv, -⟩ := h.object_of_some hx
      exact ⟨s.world, by simp [AnyBuffers.step, hx], by simpa only [Plan.act, hv] using h, .refl _⟩
    | none =>
      obtain ⟨hv, hst⟩ := h.object_of_none hx
      simpa only [AnyBuffers.step, hx, Plan.act, hv] using h.setStatic (ready_dead hx) hst.symm
  | convert o seq =>
    cases hx : s.world.objects o with
    | some x =>
      obtain ⟨v, hv, -⟩ := h.object_of_some hx
      exact ⟨s.world, by simp [AnyBuffers.step, hx], by simpa only [Plan.act, hv] using h, .refl _⟩
    | none =>
      obtain ⟨hv, hst⟩ := h.object_of_none hx
      simpa only [AnyBuffers.step, hx, Plan.act, hv] using h.construct (ready_dead hx) hst.symm seq
  | copy o other =>
    cases hx : s.world.objects o with
    | some x =>
      obtain ⟨v, hv, -⟩ := h.object_of_some hx
      exact ⟨s.world, by simp [AnyBuffers.step, hx], by simpa only [Plan.act, hv] using h, .refl _⟩
    | none =>
      obtain ⟨hv, hst⟩ := h.object_of_none hx
      cases hy : s.world.objects other with
      | none =>
        obtain ⟨hu, -⟩ := h.object_of_none hy
        exact ⟨s.world, by simp [AnyBuffers.step, hx, hy], by simpa only [Plan.act, hv, hu] using h, .refl _⟩
      | some y =>
        obtain ⟨u, hu, hsp, -, -, hp⟩ := h.object_of_some hy
        have hstatic : u.map Holding.sequence = none → y.sp_ = .static := by
          intro hnone
          rw [hsp, Option.map_eq_none_iff.mp hnone]
          rfl
        simpa only [AnyBuffers.step, hx, hy, hp, ok_bind, Plan.act, hv, hu] using h.copy (ready_dead hx) hst.symm _ hstatic
  | assign o other =>
    cases hx : s.world.objects o with
    | none =>
      obtain ⟨hv, -⟩ := h.object_of_none hx
      exact ⟨s.world, by simp [AnyBuffers.step, hx], by simpa only [Plan.act, hv] using h, .refl _⟩
    | some x =>
      obtain ⟨v, hv, -, hst, -⟩ := h.object_of_some hx
      cases hy : s.world.objects other with
      | none =>
        obtain ⟨hu, -⟩ := h.object_of_none hy
        exact ⟨s.world, by simp [AnyBuffers.step, hx, hy], by simpa only [Plan.act, hv, hu] using h, .refl _⟩
      | some y =>
        obtain ⟨u, hu, hsp, -, -, hp⟩ := h.object_of_some hy
        have hstatic : u.map Holding.sequence = none → y.sp_ = .static := by
          intro hnone
          rw [hsp, Option.map_eq_none_iff.mp hnone]
          rfl
        by_cases heq : o = other
        · exact ⟨s.world, by simp [AnyBuffers.step, hy, heq], by simpa only [Plan.act, hv, hu, if_pos heq] using h, .refl _⟩
        · simpa only [AnyBuffers.step, hx, hy, hp, ok_bind, if_neg heq, Plan.act, hv, hu] using
            h.copy (ready_live hx) hst _ hstatic
  | destroy o =>
    cases hx : s.world.objects o with
    | none =>
      obtain ⟨hv, hst⟩ := h.object_of_none hx
      have hobjects : Function.update m.objects o none = m.objects := Function.update_eq_self_iff.mpr hv.symm
      have hstorage : Function.update m.storage o none = m.storage := Function.update_eq_self_iff.mpr hst.symm
      have hsame : m.act (.destroy o) = m := by simp only [Plan.act, hobjects, hstorage]
      exact ⟨s.world, by simp [AnyBuffers.step, hx], by simpa only [hsame] using h, .refl _⟩
    | some x => simpa only [AnyBuffers.step, hx] using h.destroyed hx

end

/-! ### Iterators -/

section
variable {s : Scene T} {m : Plan T} {i : Nat}

theorem share_holder {w : World T} (sp : Ptr) (it : LiveIterator T) : (w.share sp).holder it = w.holder it := by
  simp [World.holder, share_target, share_pointee]

/-- A pointer is copied, and then an old one is released, which may be null. -/
theorem exchange_passage {w : World T} (old sp : Ptr) {handle : Nat ⊕ Nat → Option Nat}
    (hc : Shared.Counted w.shared handle none) (hold : handle (.inr i) = old.deletes)
    (hsp : ∀ k, sp.deletes = some k → 0 < w.uses k) :
    ∃ w', (w.share sp).release old = .ok w' ∧ w'.objects = w.objects ∧ w'.holders.next = w.holders.next ∧
      Passage w (Function.update handle (.inr i) sp.deletes) w' := by
  have hswap := (hc.share hsp).swap (.inr i)
  rw [hold, ← share_shared] at hswap
  obtain ⟨w', hw', hobjects, hnext, hpassage⟩ := release_passage old hswap
  refine ⟨w', hw', hobjects.trans (share_objects sp), hnext.trans (congrArg Cells.next (share_holders sp)),
    hpassage.counted, ?_⟩
  have hpasses := hpassage.passes
  rw [share_shared] at hpasses
  exact (Shared.Passes.share hsp).trans hpasses hc.below

theorem Stands.visit_none (h : Stands s m) (hi : s.iterators i = none) : m.visits i = none := by
  have hfollows := h.iterators i
  rw [hi] at hfollows
  generalize m.visits i = k? at hfollows
  cases hfollows
  rfl

theorem Stands.visit_some (h : Stands s m) {it : LiveIterator T} (hi : s.iterators i = some it) :
    ∃ k, m.visits i = some k ∧ k.pos ≤ k.contents.length ∧
      it = ⟨⟨Holding.ptr k.holding, Holding.itStorage k.holding k.pos⟩, k.number⟩ := by
  have hfollows := h.iterators i
  rw [hi] at hfollows
  generalize m.visits i = k? at hfollows
  cases hfollows with
  | live k le => exact ⟨k, rfl, le, rfl⟩

/-- What is held has an owner, if it is on the heap. -/
theorem Stands.uses_pos (h : Stands s m) {v : Option (Holding T)} (hv : ∀ a, v = some a → m.Holds a) :
    ∀ k, (Holding.ptr v).deletes = some k → 0 < s.world.uses k := by
  intro k hk
  rw [ptr_deletes] at hk
  obtain ⟨a, ha, hk⟩ := Option.bind_eq_some_iff.mp hk
  obtain ⟨hhome, hk⟩ := Option.ite_none_right_eq_some.mp hk
  cases hk
  rcases hv a ha with ⟨o, ho⟩ | ⟨i, l, hi, hl⟩
  · have hplaced := h.objects o
    rw [ho] at hplaced
    exact h.counted.counts.pos (hplaced.owner hhome)
  · have hfollows := h.iterators i
    rw [hi] at hfollows
    exact h.counted.counts.pos (hfollows.owner hl hhome)

/-- A change of the iterator `i`. -/
theorem Stands.visit (h : Stands s m) {w' : World T} {it? : Option (LiveIterator T)} {k? : Option (Visit T)}
    (hobjects : w'.objects = s.world.objects) (hnext : w'.holders.next = s.world.holders.next)
    (hp : Passage s.world (handles w'.objects (Function.update s.iterators i it?)) w') (hfollows : Follows it? k?)
    (hk : ∀ k a, k? = some k → k.holding = some a → m.Holds a) :
    Stands (Scene.withIterator { s with world := w' } i it?) (m.withVisit i k?) := by
  refine h.after none hp (h.next.trans hnext.symm) (fun o => ?_) (fun i' => ?_) (by simp) (fun a ha => ?_) h.seen
  · have hplaced := h.objects o
    rwa [← hobjects] at hplaced
  · by_cases hne : i' = i
    · subst hne
      simpa [Scene.withIterator, Plan.withVisit] using hfollows
    · simpa [Scene.withIterator, Plan.withVisit, hne] using h.iterators i'
  · refine Or.inl ?_
    rcases ha with ho | ⟨i', k, hi', ha⟩
    · exact Or.inl ho
    · by_cases hne : i' = i
      · subst hne
        exact hk k a (by simpa [Plan.withVisit] using hi') ha
      · exact Or.inr ⟨i', k, by simpa [Plan.withVisit, hne] using hi', ha⟩

end

end Buffers.AnyBuffers
