import Buffers.AnyReadSource.Optional
import Buffers.Theorems.AnyReadSource
import Mathlib.Data.List.TakeDrop

/-! # Reading a source that may not rewind

What a program has heard of the stream is all that `read_source_impl` knows of its source, whatever members that has:
each read returns the next bytes after it, a rewind starts it again or throws and changes nothing, and a failure is
kept (`partial_source_answers`). A source without `rewind` is heard once. -/

namespace Buffers
namespace PartialSource
open Checked

variable {σ : Type} [PartialSource σ] {D : List Byte} {e : ErrorCode} {valid : σ → Prop} {pos : σ → Nat}

/-- A source that delivers the bytes `D`, fails with `e` when it has delivered the last one, and starts again if it can
    rewind. -/
structure DeliversOnce (D : List Byte) (e : ErrorCode) (valid : σ → Prop) (pos : σ → Nat) : Prop where
  failed : e.failed = true
  read : ∀ s dest ec mem, valid s → pos s ≤ D.length →
    ∃ t, ReadSource.read s dest ec mem = .ok (deliver D e (pos s) dest mem t) ∧ valid t ∧
      pos t = pos s + delivered D (pos s) dest
  rewind : hasRewind σ = true → ∀ s, valid s → valid (ReadSource.rewind s) ∧ pos (ReadSource.rewind s) = 0

/-! ### What a program hears -/

/-- A program, with the bytes that its reads have returned since the source was made or rewound. -/
structure Listener (σ : Type) where
  reader : Reader σ
  heard : List Byte := []

/-- What is heard after the call. -/
def Call.hears (heard : List Byte) (c : Call) (r : Reader σ) : List Byte :=
  match c with
  | .read dest _ => heard ++ ((addresses dest).take r.count).map r.mem
  | .rewind => if r.thrown = none then [] else heard
  | .size => heard

def Listener.step (l : Listener σ) (c : Call) : Checked (Listener σ) := do
  let r ← l.reader.step c
  return { reader := r, heard := c.hears l.heard r }

/-- The destinations of a read do not overlap. -/
def Call.Fits : Call → Prop
  | .read dest _ => (addresses dest).Nodup
  | _ => True

/-- A read of some buffers: the next bytes are heard, and the code is `e` exactly when nothing is left. With a failure
    kept, the source is as it was. -/
structure Continues (D : List Byte) (e : ErrorCode) (dest : List Buffer) (l l' : Listener σ) : Prop where
  heard : l'.heard = D.take (l.heard.length + Buffers.size dest)
  count : l'.heard.length = l.heard.length + l'.reader.count
  code : l'.reader.ec = if l'.heard = D then e else .cleared
  unchanged : ∀ a, a ∉ addresses dest → l'.reader.mem a = l.reader.mem a
  kept : l.reader.sr.ec_.failed = true → l.heard = D ∧ l'.reader.sr = l.reader.sr

/-- What each call does. -/
def Answers (D : List Byte) (e : ErrorCode) (l : Listener σ) (c : Call) (l' : Listener σ) : Prop :=
  match c with
  | .read dest ec =>
    if dest = [] then
      l' = { l with reader := { l.reader with count := 0, ec := ec, thrown := none } }
    else
      l'.reader.thrown = none ∧ Continues D e dest l l'
  | .rewind =>
    if implHasRewind l.reader.sr then
      l'.reader.thrown = none ∧ l'.heard = [] ∧ l'.reader.mem = l.reader.mem
    else
      l' = { l with reader := { l.reader with thrown := some .invalidArgument } }
  | .size =>
    if implHasSize l.reader.sr then
      ∃ size ∈ PartialSource.size (σ := σ), match size l.reader.sr.source_ with
        | .ok n => l' = { l with reader := { l.reader with size := n, thrown := none } }
        | .error x => l' = { l with reader := { l.reader with thrown := some x } }
    else
      l' = { l with reader := { l.reader with thrown := some .invalidArgument } }

/-- What is heard is the stream up to the position of the source, and a failure is kept only at its end. -/
structure Listener.Inv (D : List Byte) (e : ErrorCode) (valid : σ → Prop) (pos : σ → Nat) (l : Listener σ) : Prop where
  valid : valid l.reader.sr.source_
  pos_le : pos l.reader.sr.source_ ≤ D.length
  heard : l.heard = D.take (pos l.reader.sr.source_)
  kept : l.reader.sr.ec_.failed = true → l.reader.sr.ec_ = e ∧ l.heard = D

/-! ### One call -/

/-- Without a failure kept, `do_read` delivers and keeps the code. -/
theorem DeliversOnce.reads (h : DeliversOnce D e valid pos) :
    Reads ReadSourceImpl.doRead D e (fun _ => True)
      (fun s _ p => valid s.source_ ∧ pos s.source_ = p ∧ s.ec_.failed = false)
      (fun s _ p => valid s.source_ ∧ pos s.source_ = p ∧ s.ec_ = if p = D.length then e else .cleared) := by
  rintro s dest ec mem p ⟨hvalid, rfl, hready⟩ hp -
  obtain ⟨t, ht, hvalid', hpos⟩ := h.read s.source_ dest ec mem hvalid hp
  refine ⟨{ source_ := t, ec_ := (deliver D e (pos s.source_) dest mem t).ec }, ?_, ⟨hvalid', hpos, rfl⟩,
    fun hne => ⟨hvalid', hpos, ?_⟩⟩
  · simp only [ReadSourceImpl.doRead, hready, Bool.false_eq_true, if_false, ht, ok_bind, pure_eq]
    rfl
  · simp only [deliver]
    rw [if_neg hne]
    rfl

namespace Listener.Inv
variable {l : Listener σ}

omit [PartialSource σ] in
theorem length_heard (hl : l.Inv D e valid pos) : l.heard.length = pos l.reader.sr.source_ := by
  rw [hl.heard, List.length_take, Nat.min_eq_left hl.pos_le]

theorem read_nil (hl : l.Inv D e valid pos) (ec : ErrorCode) :
    ∃ l', l.step (.read [] ec) = .ok l' ∧ Answers D e l (.read [] ec) l' ∧ l'.Inv D e valid pos := by
  refine ⟨{ l with reader := { l.reader with count := 0, ec := ec, thrown := none } }, ?_, ?_,
    ⟨hl.valid, hl.pos_le, hl.heard, hl.kept⟩⟩
  · simp [Listener.step, Reader.step, AnyReadSource.read, AnyReadSource.readLoop, Reader.took, Call.hears]
  · simp [Answers]

/-- With a failure kept, a read answers with it. -/
theorem read_kept (hl : l.Inv D e valid pos) (hkept : l.reader.sr.ec_.failed = true) {dest : List Buffer} (hne : dest ≠ [])
    (ec : ErrorCode) :
    ∃ l', l.step (.read dest ec) = .ok l' ∧ Answers D e l (.read dest ec) l' ∧ l'.Inv D e valid pos := by
  obtain ⟨hcode, hall⟩ := hl.kept hkept
  have hread := read_of_pending hkept hne ec l.reader.mem
  refine ⟨{ l with reader := { l.reader with count := 0, ec := l.reader.sr.ec_, thrown := none } }, ?_, ?_,
    ⟨hl.valid, hl.pos_le, hl.heard, hl.kept⟩⟩
  · simp [Listener.step, Reader.step, hread, Reader.took, Call.hears]
  · simp only [Answers, hne, if_false]
    refine ⟨trivial, ?_, rfl, ?_, fun _ _ => rfl, fun _ => ⟨hall, rfl⟩⟩
    · rw [hall, List.take_of_length_le (Nat.le_add_right _ _)]
    · rw [if_pos hall]
      exact hcode

/-- Without one, it goes on where the last read stopped. -/
theorem read_on (h : DeliversOnce D e valid pos) (hl : l.Inv D e valid pos) (hgo : l.reader.sr.ec_.failed = false)
    {dest : List Buffer} (hne : dest ≠ []) (hnodup : (addresses dest).Nodup) (ec : ErrorCode) :
    ∃ l', l.step (.read dest ec) = .ok l' ∧ Answers D e l (.read dest ec) l' ∧ l'.Inv D e valid pos := by
  have hlen := hl.length_heard
  have hle := hl.pos_le
  have hheard := hl.heard
  obtain ⟨p, hp⟩ : ∃ p, pos l.reader.sr.source_ = p := ⟨_, rfl⟩
  rw [hp] at hlen hle hheard
  obtain ⟨t, ht, hvalid, hpos, hcode⟩ : ∃ t,
      AnyReadSource.read l.reader.sr dest ec l.reader.mem = .ok (deliver D e p dest l.reader.mem t) ∧ valid t.source_ ∧
        pos t.source_ = p + delivered D p dest ∧ t.ec_ = if p + delivered D p dest = D.length then e else .cleared :=
    anyReadSource_read_deliver h.reads h.failed splits_true hne ec ⟨hl.valid, hp, hgo⟩ hle trivial
  have hle' := delivered_le dest hle
  have hroom : delivered D p dest ≤ (addresses dest).length := by
    rw [← Buffers.size_eq]
    exact Nat.min_le_left _ _
  have hstored : ((addresses dest).take (delivered D p dest)).map (deliver D e p dest l.reader.mem t).mem =
      (D.drop p).take (delivered D p dest) := by
    refine Memory.map_store l.reader.mem (hnodup.sublist (List.take_sublist _ _)) ?_
    simp only [List.length_take, List.length_drop]
    omega
  have hnext : l.heard ++ ((addresses dest).take (delivered D p dest)).map (deliver D e p dest l.reader.mem t).mem =
      D.take (p + delivered D p dest) := by rw [hheard, hstored, List.take_add]
  have hsize : D.take (p + delivered D p dest) = D.take (p + Buffers.size dest) := by
    rw [List.take_eq_take_iff]
    unfold delivered
    omega
  have hend : D.take (p + delivered D p dest) = D ↔ p + delivered D p dest = D.length := by
    rw [List.take_eq_self_iff]
    omega
  refine ⟨⟨l.reader.took (deliver D e p dest l.reader.mem t), D.take (p + delivered D p dest)⟩, ?_, ?_,
    ⟨hvalid, ?_, ?_, fun hfailed => ?_⟩⟩
  · simp only [Listener.step, Reader.step, ht, ok_bind, pure_eq, Call.hears]
    rw [← hnext]
    rfl
  · simp only [Answers, hne, if_false]
    refine ⟨rfl, ?_, ?_, ?_, fun a ha => ?_, fun hfailed => ?_⟩
    · rw [hlen]
      exact hsize
    · simp only [Reader.took, deliver, List.length_take]
      omega
    · simp only [Reader.took, deliver, hend]
    · exact Memory.store_of_not_mem l.reader.mem fun hmem => ha (List.mem_of_mem_take hmem)
    · rw [hgo] at hfailed
      cases hfailed
  · exact hpos.trans_le hle'
  · exact congrArg (fun n => D.take n) hpos.symm
  · change t.ec_.failed = true at hfailed
    change t.ec_ = e ∧ _
    by_cases hlast : p + delivered D p dest = D.length
    · rw [hcode, if_pos hlast]
      exact ⟨rfl, hend.mpr hlast⟩
    · rw [hcode, if_neg hlast] at hfailed
      cases hfailed

theorem step (h : DeliversOnce D e valid pos) (hl : l.Inv D e valid pos) {c : Call} (hc : c.Fits) :
    ∃ l', l.step c = .ok l' ∧ Answers D e l c l' ∧ l'.Inv D e valid pos := by
  cases c with
  | read dest ec =>
    by_cases hne : dest = []
    · subst hne
      exact hl.read_nil ec
    · cases hkept : l.reader.sr.ec_.failed with
      | true => exact hl.read_kept hkept hne ec
      | false => exact hl.read_on h hkept hne hc ec
  | rewind =>
    cases hrewind : hasRewind σ with
    | true =>
      obtain ⟨hvalid, hzero⟩ := h.rewind hrewind _ hl.valid
      refine ⟨⟨{ l.reader with sr := l.reader.sr.rewind, thrown := none }, []⟩, ?_, ?_, ⟨hvalid, ?_, ?_, fun hfailed => ?_⟩⟩
      · simp [Listener.step, Reader.step, implRewind, hrewind, Call.hears]
      · simp [Answers, implHasRewind, hrewind]
      · exact hzero.trans_le (Nat.zero_le _)
      · exact (congrArg (fun n => D.take n) hzero).symm
      · cases hfailed
    | false =>
      refine ⟨{ l with reader := { l.reader with thrown := some .invalidArgument } }, ?_, ?_,
        ⟨hl.valid, hl.pos_le, hl.heard, hl.kept⟩⟩
      · simp [Listener.step, Reader.step, implRewind, hrewind, Call.hears]
      · simp [Answers, implHasRewind, hrewind]
  | size =>
    cases hsize : PartialSource.size (σ := σ) with
    | some size =>
      cases hn : size l.reader.sr.source_ with
      | ok n =>
        refine ⟨{ l with reader := { l.reader with size := n, thrown := none } }, ?_, ?_,
          ⟨hl.valid, hl.pos_le, hl.heard, hl.kept⟩⟩
        · simp [Listener.step, Reader.step, implSize, hsize, hn, Call.hears]
        · simp [Answers, implHasSize, hsize, hn]
      | error x =>
        refine ⟨{ l with reader := { l.reader with thrown := some x } }, ?_, ?_, ⟨hl.valid, hl.pos_le, hl.heard, hl.kept⟩⟩
        · simp [Listener.step, Reader.step, implSize, hsize, hn, Call.hears]
        · simp [Answers, implHasSize, hsize, hn]
    | none =>
      refine ⟨{ l with reader := { l.reader with thrown := some .invalidArgument } }, ?_, ?_,
        ⟨hl.valid, hl.pos_le, hl.heard, hl.kept⟩⟩
      · simp [Listener.step, Reader.step, implSize, hsize, Call.hears]
      · simp [Answers, implHasSize, hsize]

end Listener.Inv

/-- In every run of reads, rewinds and questions for the size, through `make_any_read_source` of a source with or
    without the optional members, what the program hears is the stream from its start, in order and each byte once
    since the last rewind that did not throw; what throws changes nothing. -/
theorem partial_source_answers (h : DeliversOnce D e valid pos) {source : σ} (hvalid : valid source) (hpos : pos source = 0)
    (mem : Mem) (calls : List Call) (hcalls : ∀ c ∈ calls, c.Fits) :
    Run.Every Listener.step (Answers D e) { reader := { sr := makeAnyReadSource source, mem := mem } } calls := by
  refine Run.every_of_invariant (P := Call.Fits) (I := Listener.Inv D e valid pos) (fun _ _ hc hl => hl.step h hc) ?_ hcalls
  refine ⟨hvalid, hpos.trans_le (Nat.zero_le _), ?_, fun hfailed => ?_⟩
  · exact (congrArg (fun n => D.take n) hpos).symm
  · cases hfailed

/-! ### An example -/

/-- The source of the documentation without its `rewind`. -/
def OneWaySource : Type := MyReadSource

instance : PartialSource OneWaySource where
  toReadSource := inferInstanceAs (ReadSource MyReadSource)
  hasRewind := false
  size := some fun s => .ok (MyReadSource.data_ s).length

def OneWaySource.ofBytes (D : List Byte) : OneWaySource := ({ data_ := D } : MyReadSource)

theorem oneWaySource_delivers (D : List Byte) :
    DeliversOnce D .eof (fun s : OneWaySource => MyReadSource.data_ s = D) MyReadSource.pos_ where
  failed := rfl
  read := (myReadSource_delivers D).read
  rewind hrewind := absurd hrewind Bool.false_ne_true

/-- Three bytes read one after the other, with a rewind that throws in between. -/
theorem partial_source_answers_forward :
    Run.Every Listener.step (Answers [7, 8, 9] .eof)
      { reader := { sr := makeAnyReadSource (OneWaySource.ofBytes [7, 8, 9]), mem := fun _ => 0 } }
      [.read [⟨0, 2⟩] .cleared, .rewind, .size, .read [⟨2, 4⟩] .cleared, .rewind, .read [⟨0, 1⟩] .cleared] :=
  partial_source_answers (oneWaySource_delivers [7, 8, 9]) rfl rfl (fun _ => 0) _
    (by simp [Call.Fits, Buffer.addresses, List.nodup_range'])

end PartialSource
end Buffers
