import Buffers.Theorems.AnySource.Streams
import Buffers.Wrapped

/-! # Wrapping is transparent

A source that delivers a stream delivers it through one layer of type erasure, and so through each nesting of them
that compiles (`DeliversAt.wrapped`): the batches of batches that reach it come to the same bytes and the same code. A
rewind is passed on by the first two layers, and throws from the third one on, or when the source has none
(`rewind_wrapped`). So no call tells a wrapped source from the source in it, except for a rewind that throws
(`wrapped_transparent`). -/

namespace Buffers
open Checked

section
variable {τ : Type} {read : Read τ} {src : List Nat} {D : List Byte} {e : ErrorCode} {At : τ → Mem → Nat → Prop}

/-- From a state that stands at a position, a read into some buffers, apart from the memory `src`, delivers. -/
structure DeliversAt (read : Read τ) (src : List Nat) (D : List Byte) (e : ErrorCode) (At : τ → Mem → Nat → Prop) :
    Prop where
  failed : e.failed = true
  read : ∀ s dest ec mem p, At s mem p → p ≤ D.length → dest ≠ [] → src.Disjoint (addresses dest) →
    ∃ t, read s dest ec mem = .ok (deliver D e p dest mem t) ∧
      At t (deliver D e p dest mem t).mem (p + delivered D p dest)

/-- And a rewind goes back to the start. -/
structure Delivers (read : Read τ) (rewind : τ → τ) (src : List Nat) (D : List Byte) (e : ErrorCode)
    (At : τ → Mem → Nat → Prop) : Prop extends DeliversAt read src D e At where
  rewind : ∀ s mem p, At s mem p → At (rewind s) mem 0

theorem DeliversAt.reads (h : DeliversAt read src D e At) :
    Reads read D e (fun dest => dest ≠ [] ∧ src.Disjoint (addresses dest)) At At := by
  intro s dest ec mem p hat hp hdest
  obtain ⟨t, ht, hat'⟩ := h.read s dest ec mem p hat hp hdest.1 hdest.2
  exact ⟨t, ht, hat', fun _ => hat'⟩

theorem DeliversStream.deliversAt [ReadSource τ] {valid : τ → Prop} {pos : τ → Nat} (h : DeliversStream D e valid pos)
    (src : List Nat) : DeliversAt ReadSource.read src D e fun s _ p => valid s ∧ pos s = p where
  failed := h.failed
  read := by
    rintro s dest ec mem _ ⟨hvalid, rfl⟩ hp - -
    exact h.read s dest ec mem hvalid hp

end

/-! ### One layer -/

section
variable {σ : Type} [ReadSource σ] {src : List Nat} {D : List Byte} {e : ErrorCode} {At : σ → Mem → Nat → Prop}

/-- Where the source of an `any_source` stands. -/
def AnySource.Around (At : σ → Mem → Nat → Prop) : AnySource σ → Mem → Nat → Prop
  | .readModel m, mem, p => At m.source_ mem p
  | .sizedReadModel m, mem, p => At m.source_ mem p
  | .emptyModel _, _, _ | .dataModel _, _, _ => False

/-- Where the source of a `read_source_impl` stands: at the end, if the code that it keeps is a failure. -/
def ReadSourceImpl.Around (D : List Byte) (e : ErrorCode) (At : σ → Mem → Nat → Prop) (s : ReadSourceImpl σ) (mem : Mem)
    (p : Nat) : Prop :=
  At s.source_ mem p ∧ (s.ec_.failed = true → s.ec_ = e ∧ p = D.length)

namespace DeliversAt

theorem virtual (h : DeliversAt ReadSource.read src D e At) : DeliversAt AnyImpl.read src D e (AnySource.Around At) where
  failed := h.failed
  read m dest ec mem p hat hp hne hdisj := by
    cases m with
    | emptyModel m | dataModel m => exact absurd hat id
    | readModel m =>
      obtain ⟨t, ht, hat'⟩ := h.read m.source_ dest ec mem p hat hp hne hdisj
      refine ⟨.readModel ⟨t⟩, ?_, hat'⟩
      simp only [AnyImpl.read, ht]
      rfl
    | sizedReadModel m =>
      obtain ⟨t, ht, hat'⟩ := h.read m.source_ dest ec mem p hat hp hne hdisj
      refine ⟨.sizedReadModel ⟨m.size_, t⟩, ?_, hat'⟩
      simp only [AnyImpl.read, ht]
      rfl

theorem anySource (h : DeliversAt ReadSource.read src D e At) :
    DeliversAt (AnySource.read : Read (AnySource σ)) src D e (AnySource.Around At) where
  failed := h.failed
  read _ _ ec _ _ hat hp hne hdisj :=
    anySource_read_deliver h.virtual.reads h.failed (splits_disjoint src).and_ne_nil hne ec hat hp ⟨hne, hdisj⟩

theorem doRead (h : DeliversAt ReadSource.read src D e At) :
    DeliversAt ReadSourceImpl.doRead src D e (ReadSourceImpl.Around D e At) where
  failed := h.failed
  read s dest ec mem p hat hp hne hdisj := by
    obtain ⟨hsource, hstuck⟩ := hat
    cases hfailed : s.ec_.failed with
    | true =>
      obtain ⟨hec, rfl⟩ := hstuck hfailed
      have hnone : delivered D D.length dest = 0 := by simp [delivered]
      have hsame : deliver D e D.length dest mem s = { count := 0, ec := e, src := s, mem := mem } := by
        simp [deliver, hnone]
      refine ⟨s, ?_, ?_⟩
      · rw [hsame, ← hec]
        simp [ReadSourceImpl.doRead, hfailed]
      · rw [hsame, hnone]
        exact ⟨hsource, hstuck⟩
    | false =>
      obtain ⟨t, ht, hat'⟩ := h.read s.source_ dest ec mem p hsource hp hne hdisj
      refine ⟨⟨t, (deliver D e p dest mem t).ec⟩, ?_, hat', fun hkept => ?_⟩
      · simp only [ReadSourceImpl.doRead, hfailed, Bool.false_eq_true, if_false, ht, ok_bind, pure_eq]
        rfl
      · by_cases hend : p + delivered D p dest = D.length
        · exact ⟨if_pos hend, hend⟩
        · simp [deliver, hend, ErrorCode.failed, ErrorCode.cleared] at hkept

theorem anyReadSource (h : DeliversAt ReadSource.read src D e At) :
    DeliversAt (AnyReadSource.read (σ := σ)) src D e (ReadSourceImpl.Around D e At) where
  failed := h.failed
  read _ _ ec _ _ hat hp hne hdisj :=
    anyReadSource_read_deliver h.doRead.reads h.failed (splits_disjoint src).and_ne_nil hne ec hat hp ⟨hne, hdisj⟩

end DeliversAt

theorem AnySource.Around.rewind (hrewind : ∀ s mem p, At s mem p → At (ReadSource.rewind s) mem 0) {m : AnySource σ}
    {mem : Mem} {p : Nat} (h : Around At m mem p) : Around At (AnySource.rewind m) mem 0 := by
  cases m with
  | emptyModel m | dataModel m => exact h
  | readModel m => exact hrewind m.source_ mem p h
  | sizedReadModel m => exact hrewind m.source_ mem p h

theorem ReadSourceImpl.Around.rewind (hrewind : ∀ s mem p, At s mem p → At (ReadSource.rewind s) mem 0)
    {s : ReadSourceImpl σ} {mem : Mem} {p : Nat} (h : s.Around D e At mem p) : s.rewind.Around D e At mem 0 :=
  ⟨hrewind s.source_ mem p h.1, fun hkept => absurd hkept Bool.false_ne_true⟩

end

/-! ### Nestings -/

section
variable {σ : Type} [PartialSource σ] {src : List Nat} {D : List Byte} {e : ErrorCode} {At : σ → Mem → Nat → Prop}
  {w : Wrapping}

def Wrapped.Around (D : List Byte) (e : ErrorCode) (At : σ → Mem → Nat → Prop) :
    (w : Wrapping) → Wrapped σ w → Mem → Nat → Prop
  | .anyReadSource => ReadSourceImpl.Around D e At
  | .anySource | .sizedSource _ => AnySource.Around At
  | .within w => ReadSourceImpl.Around D e (Wrapped.Around D e At w)

theorem DeliversAt.wrapped (h : DeliversAt ReadSource.read src D e At) (w : Wrapping) :
    DeliversAt (ReadSource.read : Read (Wrapped σ w)) src D e (Wrapped.Around D e At w) := by
  induction w with
  | anyReadSource => exact h.anyReadSource
  | anySource => exact h.anySource
  | sizedSource known_size => exact h.anySource
  | within w ih => exact ih.anyReadSource

omit [PartialSource σ] in
theorem around_wrap {s : σ} {mem : Mem} {p : Nat} (h : At s mem p) (w : Wrapping) :
    Wrapped.Around D e At w (wrap s w) mem p := by
  induction w with
  | anyReadSource => exact ⟨h, fun hkept => absurd hkept Bool.false_ne_true⟩
  | anySource => exact h
  | sizedSource known_size => exact h
  | within w ih => exact ⟨ih, fun hkept => absurd hkept Bool.false_ne_true⟩

/-- Whether the wrapper rewinds: if the source does, unless a `read_source_impl` is inside another one. -/
def Wrapping.rewinds (σ : Type) [PartialSource σ] : Wrapping → Bool
  | .anyReadSource => PartialSource.hasRewind σ
  | .anySource | .sizedSource _ | .within .anySource | .within (.sizedSource _) => true
  | .within .anyReadSource | .within (.within _) => false

theorem Wrapping.Compiles.hasRewind (hw : w.Compiles σ) (h : w.rewinds σ = true) : PartialSource.hasRewind σ = true := by
  cases w with
  | anyReadSource => exact h
  | anySource | sizedSource known_size => exact hw
  | within w =>
    cases w with
    | anyReadSource | within w => exact absurd h Bool.false_ne_true
    | anySource | sizedSource known_size => exact hw

theorem rewind_impl {s : ReadSourceImpl σ} {mem : Mem} {p : Nat} (hs : s.Around D e At mem p)
    (hrewind : PartialSource.hasRewind σ = true → ∀ s mem p, At s mem p → At (ReadSource.rewind s) mem 0) :
    if PartialSource.hasRewind σ
    then ∃ t, PartialSource.implRewind s = .ok t ∧ t.Around D e At mem 0
    else PartialSource.implRewind s = .error .invalidArgument := by
  unfold PartialSource.implRewind
  split
  · rename_i hcan
    exact ⟨s.rewind, rfl, hs.rewind (hrewind hcan)⟩
  · rfl

/-- A rewind goes through, or throws. -/
theorem rewind_wrapped (hrewind : PartialSource.hasRewind σ = true → ∀ s mem p, At s mem p → At (ReadSource.rewind s) mem 0)
    (hw : w.Compiles σ) {s : Wrapped σ w} {mem : Mem} {p : Nat} (hs : Wrapped.Around D e At w s mem p) :
    if w.rewinds σ
    then ∃ t, Wrapped.rewind w s = .ok t ∧ Wrapped.Around D e At w t mem 0
    else Wrapped.rewind w s = .error .invalidArgument := by
  cases w with
  | anyReadSource => exact rewind_impl hs hrewind
  | anySource | sizedSource known_size => exact ⟨_, rfl, AnySource.Around.rewind (hrewind hw) hs⟩
  | within w =>
    cases w with
    | anyReadSource | within w => exact rewind_impl hs fun hcan => absurd hcan Bool.false_ne_true
    | anySource | sizedSource known_size =>
      exact rewind_impl hs fun _ _ _ _ hat => AnySource.Around.rewind (hrewind hw) hat

/-! ### Runs -/

/-- A wrapped source and the source in it, side by side, and what the last call threw. -/
structure Twins (σ : Type) (w : Wrapping) where
  outer : ReadResult (Wrapped σ w)
  inner : ReadResult σ
  thrown : Option Exn := none

/-- One call of both. A rewind that the wrapper throws at is not made. -/
def Twins.step (t : Twins σ w) : SourceCall → Checked (Twins σ w)
  | .read dest ec => do
    let outer ← ReadSource.read t.outer.src dest ec t.outer.mem
    let inner ← ReadSource.read t.inner.src dest ec t.inner.mem
    return { outer := outer, inner := inner }
  | .rewind =>
    match Wrapped.rewind w t.outer.src with
    | .ok s => return { outer := { t.outer with src := s }, inner := { t.inner with src := ReadSource.rewind t.inner.src } }
    | .error x => return { t with thrown := some x }

/-- The last read returned the same from both, and left the same memory. -/
structure Twins.Alike (t : Twins σ w) : Prop where
  count : t.outer.count = t.inner.count
  ec : t.outer.ec = t.inner.ec
  mem : t.outer.mem = t.inner.mem

/-- Only a rewind throws. -/
def Throws (σ : Type) [PartialSource σ] (w : Wrapping) : SourceCall → Option Exn
  | .read _ _ => none
  | .rewind => if w.rewinds σ then none else some .invalidArgument

/-- A destination has buffers, and is apart from the memory that the source reads. -/
def SourceCall.Apart (src : List Nat) : SourceCall → Prop
  | .read dest _ => dest ≠ [] ∧ src.Disjoint (addresses dest)
  | .rewind => True

/-- Both stand at the same position. -/
structure Twins.Inv (D : List Byte) (e : ErrorCode) (At : σ → Mem → Nat → Prop) (t : Twins σ w) : Prop where
  alike : t.Alike
  stands : ∃ p, p ≤ D.length ∧ Wrapped.Around D e At w t.outer.src t.outer.mem p ∧ At t.inner.src t.inner.mem p

theorem Twins.Inv.step {t : Twins σ w} (ht : t.Inv D e At) (h : DeliversAt ReadSource.read src D e At)
    (hrewind : PartialSource.hasRewind σ = true → ∀ s mem p, At s mem p → At (ReadSource.rewind s) mem 0)
    (hw : w.Compiles σ) {c : SourceCall} (hc : c.Apart src) :
    ∃ t', t.step c = .ok t' ∧ (t'.Alike ∧ t'.thrown = Throws σ w c) ∧ t'.Inv D e At := by
  obtain ⟨halike, p, hp, houter, hinner⟩ := ht
  cases c with
  | rewind =>
    have hpass := rewind_wrapped hrewind hw houter
    cases hcan : w.rewinds σ with
    | true =>
      simp only [hcan, if_true] at hpass
      obtain ⟨s, hs, hstart⟩ := hpass
      have halike' : Twins.Alike (w := w)
          ⟨{ t.outer with src := s }, { t.inner with src := ReadSource.rewind t.inner.src }, none⟩ :=
        ⟨halike.count, halike.ec, halike.mem⟩
      refine ⟨_, by simp only [Twins.step, hs, pure_eq], ⟨halike', by simp [Throws, hcan]⟩, halike', 0,
        Nat.zero_le _, hstart, ?_⟩
      exact hrewind (hw.hasRewind hcan) t.inner.src t.inner.mem p hinner
    | false =>
      simp only [hcan, Bool.false_eq_true, if_false] at hpass
      have halike' : Twins.Alike { t with thrown := some .invalidArgument } := ⟨halike.count, halike.ec, halike.mem⟩
      exact ⟨_, by simp only [Twins.step, hpass, pure_eq], ⟨halike', by simp [Throws, hcan]⟩, halike', p, hp,
        houter, hinner⟩
  | read dest ec =>
    obtain ⟨s, hs, hat⟩ := (h.wrapped w).read t.outer.src dest ec t.outer.mem p houter hp hc.1 hc.2
    obtain ⟨u, hu, hat'⟩ := h.read t.inner.src dest ec t.inner.mem p hinner hp hc.1 hc.2
    have hsame : (deliver D e p dest t.outer.mem s).mem = (deliver D e p dest t.inner.mem u).mem := by
      rw [halike.mem]
      rfl
    have halike' : Twins.Alike (w := w) ⟨deliver D e p dest t.outer.mem s, deliver D e p dest t.inner.mem u, none⟩ :=
      ⟨rfl, rfl, hsame⟩
    refine ⟨_, ?_, ⟨halike', rfl⟩, halike', p + delivered D p dest, delivered_le dest hp, hat, hat'⟩
    simp only [Twins.step, hs, hu, ok_bind, pure_eq]

/-- Through any run of reads and rewinds, a source returns what it returns by itself, wrapped in any way that
    compiles. A rewind throws when the source has none, or through a `read_source_impl` inside another one. -/
theorem wrapped_transparent (h : DeliversAt ReadSource.read src D e At)
    (hrewind : PartialSource.hasRewind σ = true → ∀ s mem p, At s mem p → At (ReadSource.rewind s) mem 0) (w : Wrapping)
    (hw : w.Compiles σ) {s : σ} {mem : Mem} {p : Nat} (hs : At s mem p) (hp : p ≤ D.length) (calls : List SourceCall)
    (hcalls : ∀ c ∈ calls, c.Apart src) :
    Run.Every Twins.step (fun _ c t => t.Alike ∧ t.thrown = Throws σ w c)
      ({ outer := ⟨0, .cleared, wrap s w, mem⟩, inner := ⟨0, .cleared, s, mem⟩ } : Twins σ w) calls := by
  refine Run.every_of_invariant (P := SourceCall.Apart src) (I := Twins.Inv D e At)
    (fun _ _ hc ht => ht.step h hrewind hw hc) ?_ hcalls
  exact ⟨⟨rfl, rfl, rfl⟩, p, hp, around_wrap hs w, hs⟩

end

/-! ### What delivers -/

instance : PartialSource MyReadSource where
  hasRewind := true
  size := some fun s => .ok s.data_.length

/-- Two layers, with a rewind that goes through, and three, with one that throws. -/
theorem wrapped_transparent_three :
    Run.Every Twins.step (fun _ c t => t.Alike ∧ t.thrown = Throws MyReadSource (.within (.sizedSource 9)) c)
      { outer := ⟨0, .cleared, wrap (⟨[7, 8, 9], 0⟩ : MyReadSource) (.within (.sizedSource 9)), fun _ => 0⟩,
        inner := ⟨0, .cleared, ⟨[7, 8, 9], 0⟩, fun _ => 0⟩ }
      [.read [⟨20, 2⟩] .cleared, .rewind, .read [⟨22, 1⟩, ⟨30, 8⟩] .eof, .read [⟨22, 2⟩] .cleared] ∧
    Run.Every Twins.step (fun _ c t => t.Alike ∧ t.thrown = Throws MyReadSource (.within (.within (.sizedSource 9))) c)
      { outer := ⟨0, .cleared, wrap (⟨[7, 8, 9], 0⟩ : MyReadSource) (.within (.within (.sizedSource 9))), fun _ => 0⟩,
        inner := ⟨0, .cleared, ⟨[7, 8, 9], 0⟩, fun _ => 0⟩ }
      [.read [⟨20, 2⟩] .cleared, .rewind, .read [⟨22, 1⟩, ⟨30, 8⟩] .eof, .read [⟨22, 2⟩] .cleared] := by
  have hstream := myReadSource_delivers [7, 8, 9]
  have hrewind : ∀ (s : MyReadSource) (mem : Mem) p, s.data_ = [7, 8, 9] ∧ s.pos_ = p →
      (ReadSource.rewind s).data_ = [7, 8, 9] ∧ (ReadSource.rewind s).pos_ = 0 := fun s _ _ hs => hstream.rewind s hs.1
  constructor
  · exact wrapped_transparent (hstream.deliversAt []) (fun _ => hrewind) (.within (.sizedSource 9)) rfl ⟨rfl, rfl⟩
      (Nat.zero_le _) _ (by simp [SourceCall.Apart])
  · exact wrapped_transparent (hstream.deliversAt []) (fun _ => hrewind) (.within (.within (.sizedSource 9))) rfl ⟨rfl, rfl⟩
      (Nat.zero_le _) _ (by simp [SourceCall.Apart])

end Buffers
