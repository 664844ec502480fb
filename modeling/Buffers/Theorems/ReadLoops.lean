import Buffers.Theorems.AnyReadSource

/-! # The two read loops, and the code they are called with

`any_source::read` and `any_read_source::read` make the same calls on a read source, batch by batch until one
fails, so they agree up to and including the first read that fails (`read_loops_agree`). A source that assigns
its error code on every call makes the outcome of a read independent of the code that the caller passes,
except for a read into no buffers, which calls nothing and leaves that code (`stale_codes_iff`). -/

namespace Buffers
open Checked

theorem anySource_read_eq {σ : Type} [AnyImpl σ] (s : σ) (dest : List Buffer) (ec : ErrorCode) (mem : Mem) :
    AnySource.read s dest ec mem = readBatches AnyImpl.read [] dest { count := 0, ec := ec, src := s, mem := mem } := by
  unfold AnySource.read
  split
  · rename_i hnil
    subst hnil
    rfl
  · rename_i hne
    exact anySource_readLoop_eq hne (by decide) _

theorem anyReadSource_read_eq {σ : Type} [ReadSource σ] (s : ReadSourceImpl σ) (dest : List Buffer) (ec : ErrorCode)
    (mem : Mem) :
    AnyReadSource.read s dest ec mem =
      readBatches ReadSourceImpl.doRead [] dest { count := 0, ec := ec, src := s, mem := mem } :=
  anyReadSource_readLoop_eq (by decide) _

/-! ### The calls of a read -/

/-- A source that records the destination of each call, and the error code that it left. -/
structure Traced (σ : Type) where
  src : σ
  calls : List (List Buffer × ErrorCode)

instance {σ : Type} [ReadSource σ] : ReadSource (Traced σ) where
  read s dest ec mem := do
    let r ← ReadSource.read s.src dest ec mem
    return { r with src := { src := r.src, calls := s.calls ++ [(dest, r.ec)] } }
  rewind s := { s with src := ReadSource.rewind s.src }

/-- Calls on the groups in turn, all of them unless one fails, and none after a failed one. -/
structure CallsOn (gs : List (List Buffer)) (calls : List (List Buffer × ErrorCode)) : Prop where
  dests : calls.map Prod.fst <+: gs
  all : (∀ c ∈ calls, c.2.failed = false) → calls.map Prod.fst = gs
  stops : ∀ c ∈ calls.dropLast, c.2.failed = false

namespace CallsOn

theorem nil : CallsOn [] [] := ⟨List.prefix_refl _, fun _ => rfl, fun _ hc => absurd hc List.not_mem_nil⟩

theorem failed {g : List Buffer} (gs : List (List Buffer)) {ec : ErrorCode} (hec : ec.failed = true) :
    CallsOn (g :: gs) [(g, ec)] := by
  refine ⟨List.prefix_append [g] gs, fun hall => ?_, fun _ hc => absurd hc List.not_mem_nil⟩
  have hok := hall (g, ec) (List.mem_singleton_self _)
  rw [hec] at hok
  cases hok

theorem cons {g : List Buffer} {gs : List (List Buffer)} {ec : ErrorCode} {calls : List (List Buffer × ErrorCode)}
    (hec : ec.failed = false) (h : CallsOn gs calls) : CallsOn (g :: gs) ((g, ec) :: calls) := by
  refine ⟨?_, fun hall => ?_, ?_⟩
  · rw [List.map_cons]
    exact (List.prefix_cons_inj g).mpr h.dests
  · rw [List.map_cons, h.all fun c hc => hall c (List.mem_cons_of_mem _ hc)]
  · cases calls with
    | nil => exact fun _ hc => absurd hc List.not_mem_nil
    | cons c cs =>
      rw [List.dropLast_cons_cons]
      exact List.forall_mem_cons.mpr ⟨hec, h.stops⟩

end CallsOn

/-! ### Agreement -/

section
variable {σ : Type} [ReadSource σ]

/-- A source whose read fills its destination or reports a failure, as both loops assert. -/
def FillsOrFails (σ : Type) [ReadSource σ] : Prop :=
  ∀ (s : σ) (dest : List Buffer) (ec : ErrorCode) (mem : Mem), ∃ r, ReadSource.read s dest ec mem = .ok r ∧
    (r.ec.failed = true ∨ r.count = size dest)

/-- The batches of a destination, read through either wrapper of a source in the same state. -/
theorem batches_agree (h : FillsOrFails σ) (gs : List (List Buffer)) (r : ReadResult (Traced σ)) {e : ErrorCode}
    (he : e.failed = false) :
    ∃ (t : ReadResult (Traced σ)) (e' : ErrorCode) (calls : List (List Buffer × ErrorCode)),
      untilStop (fun r => r.ec.failed) (readBatch AnyImpl.read) gs (r.mapSrc ReadModel.mk) = .ok (t.mapSrc ReadModel.mk) ∧
      untilStop (fun r => r.ec.failed) (readBatch ReadSourceImpl.doRead) gs (r.mapSrc (ReadSourceImpl.mk · e)) =
        .ok (t.mapSrc (ReadSourceImpl.mk · e')) ∧
      (t.ec.failed = false → e'.failed = false) ∧ t.src.calls = r.src.calls ++ calls ∧ CallsOn gs calls := by
  induction gs generalizing r e with
  | nil => exact ⟨r, e, [], rfl, rfl, fun _ => he, (List.append_nil _).symm, .nil⟩
  | cons g gs ih =>
    obtain ⟨q, hq, hfills⟩ := h r.src.src g r.ec r.mem
    -- What either wrapper is left with after this batch.
    let t : ReadResult (Traced σ) := { count := r.count + q.count, ec := q.ec, mem := q.mem,
                                       src := { src := q.src, calls := r.src.calls ++ [(g, q.ec)] } }
    have hmodel : readBatch AnyImpl.read g (r.mapSrc ReadModel.mk) = .ok (t.mapSrc ReadModel.mk) := by
      simp [readBatch, AnyImpl.read, ReadSource.read, ReadResult.mapSrc, hq, assert_of hfills, t]
    have himpl : readBatch ReadSourceImpl.doRead g (r.mapSrc (ReadSourceImpl.mk · e)) =
        .ok (t.mapSrc (ReadSourceImpl.mk · q.ec)) := by
      simp [readBatch, ReadSourceImpl.doRead, ReadSource.read, ReadResult.mapSrc, he, hq, assert_of hfills, t]
    rw [untilStop, untilStop, hmodel, himpl, ok_bind, ok_bind]
    cases hec : q.ec.failed with
    | true => exact ⟨t, q.ec, [(g, q.ec)], if_pos hec, if_pos hec, fun hok => hok, rfl, .failed gs hec⟩
    | false =>
      have hgo : ¬q.ec.failed = true := by simp [hec]
      obtain ⟨u, e', calls, hu, hu', hok, hcalls, hon⟩ := ih t hec
      refine ⟨u, e', (g, q.ec) :: calls, (if_neg hgo).trans hu, (if_neg hgo).trans hu', hok, ?_, hon.cons hec⟩
      rw [hcalls]
      exact List.append_assoc _ _ _

/-- The calls that one read into `dest` may make: on consecutive groups of sixteen buffers and a last shorter
    one, until a call fails. -/
def ReadCalls (dest : List Buffer) (calls : List (List Buffer × ErrorCode)) : Prop :=
  ∃ gs, Grouping batchSize dest gs ∧ CallsOn gs calls

/-- Through a list of reads the two wrappers return the same counts and codes, store the same bytes, make the
    same calls and leave their sources in the same state, up to and including the first read that fails. -/
def Agree (a : ReadModel (Traced σ)) (b : ReadSourceImpl (Traced σ)) (mem : Mem) : List (List Buffer × ErrorCode) → Prop
  | [] => True
  | (dest, ec) :: reads => ∃ r s calls, AnySource.read a dest ec mem = .ok r ∧ AnyReadSource.read b dest ec mem = .ok s ∧
      r.count = s.count ∧ r.ec = s.ec ∧ r.mem = s.mem ∧ r.src.source_ = s.src.source_ ∧
      r.src.source_.calls = a.source_.calls ++ calls ∧ ReadCalls dest calls ∧
      (r.ec.failed = false → Agree r.src s.src r.mem reads)

/-- Around a source that fills or fails, the two read loops agree. -/
theorem read_loops_agree (h : FillsOrFails σ) (s : Traced σ) {e : ErrorCode} (he : e.failed = false) (mem : Mem)
    (reads : List (List Buffer × ErrorCode)) : Agree ⟨s⟩ ⟨s, e⟩ mem reads := by
  induction reads generalizing s e mem with
  | nil => trivial
  | cons read reads ih =>
    obtain ⟨dest, ec⟩ := read
    have hempty : ([] : List Buffer).length < batchSize := by decide
    have hgroups : Grouping batchSize dest (batches batchSize [] dest) := grouping_batches hempty dest
    obtain ⟨t, e', calls, hmodel, himpl, hok, hcalls, hon⟩ :=
      batches_agree h (batches batchSize [] dest) { count := 0, ec := ec, src := s, mem := mem } he
    refine ⟨t.mapSrc ReadModel.mk, t.mapSrc (ReadSourceImpl.mk · e'), calls, (anySource_read_eq _ _ _ _).trans hmodel,
      (anyReadSource_read_eq _ _ _ _).trans himpl, rfl, rfl, rfl, rfl, hcalls, ⟨_, hgroups, hon⟩,
      fun hec => ih t.src (hok hec) t.mem⟩

end

theorem myReadSource_fillsOrFails : FillsOrFails MyReadSource := by
  intro s dest ec mem
  refine ⟨_, rfl, ?_⟩
  by_cases hend : s.pos_ + min (size dest) (s.data_.length - s.pos_) ≥ s.data_.length
  · exact Or.inl (by rw [if_pos hend]; rfl)
  · refine Or.inr ?_
    simp only
    omega

/-- Seventeen buffers, two batches, with the end of the data in the second one, and a read after it. -/
theorem read_loops_agree_seventeen :
    Agree ⟨⟨(⟨[1, 2, 3], 0⟩ : MyReadSource), []⟩⟩ ⟨⟨⟨[1, 2, 3], 0⟩, []⟩, .cleared⟩ (fun _ => 0)
      [(List.replicate 16 ⟨0, 0⟩ ++ [⟨8, 4⟩], .eof), ([], .cleared), ([⟨0, 1⟩], .cleared)] :=
  read_loops_agree myReadSource_fillsOrFails ⟨⟨[1, 2, 3], 0⟩, []⟩ rfl (fun _ => 0)
    [(List.replicate 16 ⟨0, 0⟩ ++ [⟨8, 4⟩], .eof), ([], .cleared), ([⟨0, 1⟩], .cleared)]

/-! ### The code before a read -/

/-- The outcome of a read does not depend on the code that it is called with. -/
def IgnoresCode {σ : Type} (read : ErrorCode → Mem → Checked (ReadResult σ)) : Prop :=
  ∀ ec ec' mem, read ec mem = read ec' mem

section
variable {σ : Type}

theorem readBatch_ignores {read : Read σ} (h : ∀ s dest, IgnoresCode (read s dest)) (mb : List Buffer) (r : ReadResult σ)
    (ec : ErrorCode) : readBatch read mb r = readBatch read mb { r with ec := ec } := by
  simp only [readBatch, h r.src mb r.ec ec r.mem]

/-- Of the code before it a read into some buffers passes on nothing: its first batch assigns the code. -/
theorem readBatches_ignores {read : Read σ} (h : ∀ s dest, IgnoresCode (read s dest)) {dest : List Buffer}
    (hdest : dest ≠ [])
    (s : σ) : IgnoresCode fun ec mem => readBatches read [] dest { count := 0, ec := ec, src := s, mem := mem } := by
  intro ec ec' mem
  simp only [readBatches]
  cases hgs : batches batchSize [] dest with
  | nil => exact absurd hgs (batches_ne_nil batchSize (List.append_ne_nil_of_right_ne_nil [] hdest))
  | cons g gs =>
    rw [untilStop, untilStop]
    exact congrArg (· >>= _) (readBatch_ignores h g { count := 0, ec := ec, src := s, mem := mem } ec')

/-- A read into no buffers leaves the code as it was. -/
theorem not_readBatches_ignores_nil (read : Read σ) (s : σ) :
    ¬IgnoresCode fun ec mem => readBatches read [] [] { count := 0, ec := ec, src := s, mem := mem } := by
  intro h
  have hcodes : some ErrorCode.cleared = some ErrorCode.eof :=
    congrArg (fun x : Checked (ReadResult σ) => x.toOption.map ReadResult.ec) (h .cleared .eof fun _ => 0)
  exact absurd hcodes (by decide)

theorem readBatches_ignores_iff {read : Read σ} (h : ∀ s dest, IgnoresCode (read s dest)) (dest : List Buffer) (s : σ) :
    (IgnoresCode fun ec mem => readBatches read [] dest { count := 0, ec := ec, src := s, mem := mem }) ↔ dest ≠ [] := by
  constructor
  · rintro hignores rfl
    exact not_readBatches_ignores_nil read s hignores
  · intro hdest
    exact readBatches_ignores h hdest s

/-- A source that assigns its error code on every call, whatever the code was. -/
def AssignsCode (σ : Type) [ReadSource σ] : Prop := ∀ (s : σ) (dest : List Buffer), IgnoresCode (ReadSource.read s dest)

variable [ReadSource σ]

theorem AssignsCode.anySource (h : AssignsCode σ) (s : AnySource σ) (dest : List Buffer) :
    IgnoresCode (AnyImpl.read s dest) := by
  intro ec ec' mem
  cases s with
  | emptyModel m => rfl
  | dataModel m => rfl
  | readModel m => simp only [AnyImpl.read, h m.source_ dest ec ec' mem]
  | sizedReadModel m => simp only [AnyImpl.read, h m.source_ dest ec ec' mem]

theorem AssignsCode.readSourceImpl (h : AssignsCode σ) (s : ReadSourceImpl σ) (dest : List Buffer) :
    IgnoresCode (ReadSourceImpl.doRead s dest) := by
  intro ec ec' mem
  simp only [ReadSourceImpl.doRead, h s.source_ dest ec ec' mem]

/-- In every state of every type-erased source over sources that assign their error codes, the outcome of a
    read is independent of the code that it is called with exactly when it has buffers to read into. -/
theorem stale_codes_iff (h : AssignsCode σ) (dest : List Buffer) :
    (∀ s : AnySource σ, IgnoresCode (AnySource.read s dest) ↔ dest ≠ []) ∧
      ∀ s : ReadSourceImpl σ, IgnoresCode (AnyReadSource.read s dest) ↔ dest ≠ [] := by
  constructor
  · intro s
    have hread : AnySource.read s dest = fun ec mem =>
        readBatches AnyImpl.read [] dest { count := 0, ec := ec, src := s, mem := mem } :=
      funext fun ec => funext fun mem => anySource_read_eq s dest ec mem
    rw [hread]
    exact readBatches_ignores_iff h.anySource dest s
  · intro s
    have hread : AnyReadSource.read s dest =
        fun ec mem => readBatches ReadSourceImpl.doRead [] dest { count := 0, ec := ec, src := s, mem := mem } :=
      funext fun ec => funext fun mem => anyReadSource_read_eq s dest ec mem
    rw [hread]
    exact readBatches_ignores_iff h.readSourceImpl dest s

end

/-- A read of a default-constructed source into no buffers returns the code it was called with. -/
theorem stale_codes_counterexample :
    AssignsCode MyReadSource ∧
      AnySource.read (.emptyModel ⟨⟩ : AnySource MyReadSource) [] .eof (fun _ => 0) =
        .ok { count := 0, ec := .eof, src := .emptyModel ⟨⟩, mem := fun _ => 0 } ∧
      AnySource.read (.emptyModel ⟨⟩ : AnySource MyReadSource) [] .cleared (fun _ => 0) =
        .ok { count := 0, ec := .cleared, src := .emptyModel ⟨⟩, mem := fun _ => 0 } ∧
      ¬IgnoresCode (AnySource.read (.emptyModel ⟨⟩ : AnySource MyReadSource) []) := by
  refine ⟨fun _ _ _ _ _ => rfl, rfl, rfl, ?_⟩
  intro h
  have hcodes : some ErrorCode.cleared = some ErrorCode.eof :=
    congrArg (fun x : Checked (ReadResult (AnySource MyReadSource)) => x.toOption.map ReadResult.ec)
      (h .cleared .eof fun _ => 0)
  exact absurd hcodes (by decide)

theorem stale_codes_one_buffer :
    (∀ s : AnySource MyReadSource, IgnoresCode (AnySource.read s [⟨0, 1⟩]) ↔ [(⟨0, 1⟩ : Buffer)] ≠ []) ∧
      ∀ s : ReadSourceImpl MyReadSource, IgnoresCode (AnyReadSource.read s [⟨0, 1⟩]) ↔ [(⟨0, 1⟩ : Buffer)] ≠ [] :=
  stale_codes_iff (fun _ _ _ _ _ => rfl) [⟨0, 1⟩]

end Buffers
