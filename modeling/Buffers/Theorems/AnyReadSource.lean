import Buffers.Lib.Run
import Buffers.Theorems.Source

/-! # A type-erased read source is sticky and rewindable

Around a source that delivers a stream and fails with its last byte, `read_source_impl` keeps an error code that
is a failure exactly when the source has reported one since the last rewind. While it is none, the batches of
`any_read_source` deliver what one call of the source delivers; then they stop at the first batch, without a
call (`any_read_source_sticky`). -/

namespace Buffers
open Checked

/-! ### Sources -/

/-- A source that records the destinations of its calls. -/
structure Logged (σ : Type) where
  src : σ
  calls : List (List Buffer)

instance {σ : Type} [ReadSource σ] : ReadSource (Logged σ) where
  read s dest ec mem := do
    let r ← ReadSource.read s.src dest ec mem
    return { r with src := { src := r.src, calls := s.calls ++ [dest] } }
  rewind s := { s with src := ReadSource.rewind s.src }

section
variable {σ : Type} [ReadSource σ] {D : List Byte} {e : ErrorCode} {valid : σ → Prop} {pos : σ → Nat}

/-- A source that delivers the bytes `D` and fails with `e` when it has delivered the last one. -/
structure DeliversStream (D : List Byte) (e : ErrorCode) (valid : σ → Prop) (pos : σ → Nat) : Prop where
  failed : e.failed = true
  read : ∀ s dest ec mem, valid s → pos s ≤ D.length →
    ∃ t, ReadSource.read s dest ec mem = .ok (deliver D e (pos s) dest mem t) ∧ valid t ∧
      pos t = pos s + delivered D (pos s) dest
  rewind : ∀ s, valid s → valid (ReadSource.rewind s) ∧ pos (ReadSource.rewind s) = 0

/-! ### One call -/

/-- An implementation that is ready to call its source at position `p`. -/
def ReadyAt (valid : σ → Prop) (pos : σ → Nat) (s : ReadSourceImpl (Logged σ)) (_ : Mem) (p : Nat) : Prop :=
  valid s.source_.src ∧ pos s.source_.src = p ∧ s.ec_.failed = false

/-- An implementation after a call that left its source at position `p`. -/
def CalledTo (D : List Byte) (e : ErrorCode) (valid : σ → Prop) (pos : σ → Nat) (s : ReadSourceImpl (Logged σ)) (_ : Mem)
    (p : Nat) : Prop :=
  valid s.source_.src ∧ pos s.source_.src = p ∧ s.ec_ = if p = D.length then e else .cleared

/-- Without a pending failure, `do_read` delivers and keeps the error code. -/
theorem DeliversStream.reads (h : DeliversStream D e valid pos) :
    Reads ReadSourceImpl.doRead D e (fun _ => True) (ReadyAt valid pos) (CalledTo D e valid pos) := by
  rintro s dest ec mem p ⟨hvalid, rfl, hready⟩ hp -
  obtain ⟨t, ht, hvalid', hpos⟩ := h.read s.source_.src dest ec mem hvalid hp
  refine ⟨{ source_ := { src := t, calls := s.source_.calls ++ [dest] },
            ec_ := if pos s.source_.src + delivered D (pos s.source_.src) dest = D.length then e else .cleared }, ?_,
    ⟨hvalid', hpos, rfl⟩, fun hne => ⟨hvalid', hpos, ?_⟩⟩
  · simp only [ReadSourceImpl.doRead, hready, Bool.false_eq_true, if_false, ReadSource.read, ht, ok_bind, pure_eq]
    rfl
  · rw [if_neg hne]
    rfl

/-- With a failure pending, `read` answers with it and calls nothing. -/
theorem read_of_pending {s : ReadSourceImpl σ} (hfailed : s.ec_.failed = true) {dest : List Buffer} (hdest : dest ≠ [])
    (ec : ErrorCode) (mem : Mem) :
    AnyReadSource.read s dest ec mem = .ok { count := 0, ec := s.ec_, src := s, mem := mem } := by
  rw [AnyReadSource.read, anyReadSource_readLoop_eq (by decide), readBatches]
  cases hgs : batches batchSize [] dest with
  | nil => exact absurd hgs (batches_ne_nil batchSize (List.append_ne_nil_of_right_ne_nil [] hdest))
  | cons g gs =>
    have hbatch : readBatch ReadSourceImpl.doRead g { count := 0, ec := ec, src := s, mem := mem } =
        .ok { count := 0, ec := s.ec_, src := s, mem := mem } := by
      simp [readBatch, ReadSourceImpl.doRead, hfailed, assert_of]
    rw [untilStop, hbatch, ok_bind]
    exact if_pos hfailed

/-! ### Runs -/

/-- A type-erased read source in use, with the failure that a read has reported since the last rewind. -/
structure Followed (σ : Type) where
  ses : ReadResult (ReadSourceImpl (Logged σ))
  pending : Option ErrorCode

def Followed.source (w : Followed σ) : Logged σ := w.ses.src.source_

def Followed.step (w : Followed σ) (c : SourceCall) : Checked (Followed σ) := do
  let ses ← c.step AnyReadSource.read ReadSourceImpl.rewind w.ses
  match c with
  | .read _ _ => return ⟨ses, if ses.ec.failed then some ses.ec else w.pending⟩
  | .rewind => return ⟨ses, none⟩

/-- A read with no failure pending is one unbatched read of the source, which depends on its position alone. -/
def FreshRead (D : List Byte) (e : ErrorCode) (pos : σ → Nat) (dest : List Buffer) (ec : ErrorCode)
    (w t : Followed σ) : Prop :=
  ∃ u, ReadSource.read w.source.src dest ec w.ses.mem = .ok (deliver D e (pos w.source.src) dest w.ses.mem u) ∧
    t.ses.count = (deliver D e (pos w.source.src) dest w.ses.mem u).count ∧
    t.ses.mem = (deliver D e (pos w.source.src) dest w.ses.mem u).mem ∧
    t.ses.ec = (deliver D e (pos w.source.src) dest w.ses.mem u).ec ∧ pos t.source.src = pos u

/-- A read with a failure pending reports it again; it changes no memory, and neither calls nor changes the
    source. -/
def StuckRead (f : ErrorCode) (w t : Followed σ) : Prop :=
  t.ses.count = 0 ∧ t.ses.ec = f ∧ t.ses.mem = w.ses.mem ∧ t.source.src = w.source.src ∧ t.source.calls = w.source.calls

/-- The calls of a sticky, rewindable source. -/
def Sticky (D : List Byte) (e : ErrorCode) (pos : σ → Nat) (w : Followed σ) (c : SourceCall) (t : Followed σ) : Prop :=
  match c with
  | .read dest ec =>
    match w.pending with
    | none => FreshRead D e pos dest ec w t
    | some f => StuckRead f w t
  | .rewind => pos t.source.src = 0 ∧ t.pending = none ∧ t.ses.mem = w.ses.mem

def SourceCall.HasBuffers : SourceCall → Prop
  | .read dest _ => dest ≠ []
  | .rewind => True

/-- The kept error code is the pending failure, or none. -/
structure Followed.Inv (D : List Byte) (valid : σ → Prop) (pos : σ → Nat) (w : Followed σ) : Prop where
  valid : valid w.source.src
  pos_le : pos w.source.src ≤ D.length
  ready : w.pending = none → w.ses.src.ec_.failed = false
  stuck : ∀ f ∈ w.pending, w.ses.src.ec_ = f ∧ f.failed = true

namespace Followed.Inv
variable {w : Followed σ}

theorem step_rewind (h : DeliversStream D e valid pos) (hw : w.Inv D valid pos) :
    ∃ t, w.step .rewind = .ok t ∧ Sticky D e pos w .rewind t ∧ t.Inv D valid pos := by
  obtain ⟨hvalid, hzero⟩ := h.rewind w.source.src hw.valid
  exact ⟨⟨{ w.ses with src := w.ses.src.rewind }, none⟩, rfl, ⟨hzero, rfl, rfl⟩, hvalid, hzero.trans_le (Nat.zero_le _),
    fun _ => rfl, fun f hf => nomatch hf⟩

theorem step_stuck (hw : w.Inv D valid pos) {f : ErrorCode} (hp : w.pending = some f) {dest : List Buffer}
    (hc : dest ≠ []) (ec : ErrorCode) :
    ∃ t, w.step (.read dest ec) = .ok t ∧ Sticky D e pos w (.read dest ec) t ∧ t.Inv D valid pos := by
  obtain ⟨hec, hfailed⟩ := hw.stuck f hp
  have hread := read_of_pending (s := w.ses.src) (hec ▸ hfailed) hc ec w.ses.mem
  rw [hec] at hread
  refine ⟨⟨{ count := 0, ec := f, src := w.ses.src, mem := w.ses.mem }, some f⟩, ?_, ?_, hw.valid, hw.pos_le,
    fun hnone => ?_, fun f' hf' => ?_⟩
  · simp [Followed.step, SourceCall.step, hread, hfailed, hp]
  · simp only [Sticky, hp]
    exact ⟨rfl, rfl, rfl, rfl, rfl⟩
  · cases hnone
  · cases hf'
    exact ⟨hec, hfailed⟩

theorem step_fresh (h : DeliversStream D e valid pos) (hw : w.Inv D valid pos) (hp : w.pending = none)
    {dest : List Buffer} (hc : dest ≠ []) (ec : ErrorCode) :
    ∃ t, w.step (.read dest ec) = .ok t ∧ Sticky D e pos w (.read dest ec) t ∧ t.Inv D valid pos := by
  obtain ⟨u, hu, -, hpos⟩ := h.read w.source.src dest ec w.ses.mem hw.valid hw.pos_le
  have hready : ReadyAt valid pos w.ses.src w.ses.mem _ := ⟨hw.valid, rfl, hw.ready hp⟩
  obtain ⟨t, ht, hvalid, hpos', hkept⟩ := anyReadSource_read_deliver h.reads h.failed splits_true hc ec
    hready hw.pos_le trivial
  refine ⟨⟨deliver D e (pos w.source.src) dest w.ses.mem t, if t.ec_.failed then some t.ec_ else none⟩, ?_, ?_, hvalid, ?_,
    fun hnone => ?_, fun f hf => ?_⟩
  · have hsame : t.ec_ = (deliver D e (pos w.source.src) dest w.ses.mem t).ec := hkept
    simp only [Followed.step, SourceCall.step, ht, ok_bind, pure_eq, hp, hsame]
    rfl
  · simp only [Sticky, hp]
    exact ⟨u, hu, rfl, rfl, rfl, hpos'.trans hpos.symm⟩
  · exact hpos'.trans_le (delivered_le dest hw.pos_le)
  · cases hf : t.ec_.failed with
    | false => exact hf
    | true => simp [hf] at hnone
  · cases hfailed : t.ec_.failed with
    | false => simp [hfailed] at hf
    | true =>
      simp only [hfailed, if_true, Option.mem_def, Option.some.injEq] at hf
      cases hf
      exact ⟨rfl, hfailed⟩

theorem step (h : DeliversStream D e valid pos) (hw : w.Inv D valid pos) {c : SourceCall} (hc : c.HasBuffers) :
    ∃ t, w.step c = .ok t ∧ Sticky D e pos w c t ∧ t.Inv D valid pos := by
  cases c with
  | rewind => exact hw.step_rewind h
  | read dest ec =>
    cases hp : w.pending with
    | some f => exact hw.step_stuck hp hc ec
    | none => exact hw.step_fresh h hp hc ec

end Followed.Inv

/-- Every run of reads and rewinds through `make_any_read_source` is one of a sticky, rewindable source. -/
theorem any_read_source_sticky (h : DeliversStream D e valid pos) {src : σ} (hvalid : valid src) (hsrc : pos src = 0)
    (mem : Mem) (calls : List SourceCall) (hcalls : ∀ c ∈ calls, c.HasBuffers) :
    Run.Every Followed.step (Sticky D e pos) ⟨⟨0, .cleared, makeAnyReadSource ⟨src, []⟩, mem⟩, none⟩ calls := by
  have hstart : Followed.Inv D valid pos ⟨⟨0, .cleared, makeAnyReadSource ⟨src, []⟩, mem⟩, none⟩ :=
    ⟨hvalid, hsrc.trans_le (Nat.zero_le _), fun _ => rfl, fun f hf => nomatch hf⟩
  exact Run.every_of_invariant (P := SourceCall.HasBuffers) (fun _ _ hc hw => hw.step h hc) hstart hcalls

end

/-! ### An example -/

/-- The read source of the documentation: a string and a position. -/
structure MyReadSource where
  data_ : List Byte
  pos_ : Nat := 0

instance : ReadSource MyReadSource where
  read s dest _ mem :=
    let n := min (size dest) (s.data_.length - s.pos_)
    let t := { s with pos_ := s.pos_ + n }
    .ok { count := n, ec := if t.pos_ ≥ s.data_.length then .eof else .cleared, src := t,
          mem := mem.store ((addresses dest).take n) ((s.data_.drop s.pos_).take n) }
  rewind s := { s with pos_ := 0 }

theorem myReadSource_delivers (D : List Byte) : DeliversStream D .eof (fun s => s.data_ = D) MyReadSource.pos_ := by
  refine ⟨rfl, fun s dest ec mem hs hp => ⟨{ s with pos_ := s.pos_ + delivered D s.pos_ dest }, ?_, hs, rfl⟩,
    fun s hs => ⟨hs, rfl⟩⟩
  subst hs
  have hle := delivered_le dest hp
  have hend : s.pos_ + delivered s.data_ s.pos_ dest ≥ s.data_.length ↔
      s.pos_ + delivered s.data_ s.pos_ dest = s.data_.length := by omega
  simp only [ReadSource.read, deliver]
  simp only [delivered] at hend ⊢
  simp only [hend]
  rfl

/-- Three bytes read into two destinations, once more after the end, and again after a rewind. -/
theorem any_read_source_sticky_three :
    Run.Every Followed.step (Sticky [7, 8, 9] .eof MyReadSource.pos_)
      ⟨⟨0, .cleared, makeAnyReadSource ⟨{ data_ := [7, 8, 9] }, []⟩, fun _ => 0⟩, none⟩
      [.read [⟨0, 2⟩] .cleared, .read [⟨2, 0⟩, ⟨4, 5⟩] .cleared, .read [⟨9, 1⟩] .cleared, .rewind, .read [⟨0, 9⟩] .eof] :=
  any_read_source_sticky (myReadSource_delivers [7, 8, 9]) rfl rfl (fun _ => 0)
    [.read [⟨0, 2⟩] .cleared, .read [⟨2, 0⟩, ⟨4, 5⟩] .cleared, .read [⟨9, 1⟩] .cleared, .rewind, .read [⟨0, 9⟩] .eof]
    (by simp [SourceCall.HasBuffers])

end Buffers
