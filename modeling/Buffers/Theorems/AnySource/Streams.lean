import Buffers.Lib.Tape
import Buffers.Theorems.AnySource.Shared

/-! # Shared sources are shared streams

For a program its sources go to tapes: a construction from a data source or a read source opens one, copies share it,
a moved-from source is empty. A read through any source of a tape goes on where the last one stopped (`Desk`). The
models behind the pointers do exactly this (`any_source_shares`), so whatever the order in which the copies of a
source are read, their reads together return its bytes, each once and in order (`any_source_heard`). -/

namespace Buffers

/-- Read sources whose reads deliver a stream, from a position on. -/
class StreamSource (σ : Type) extends ReadSource σ where
  contents : σ → List Byte
  code : σ → ErrorCode
  pos : σ → Nat
  delivers : ∀ s, DeliversStream (contents s) (code s) (fun t => contents t = contents s ∧ code t = code s) pos

namespace AnySource
open Checked

variable {σ : Type}

/-! ### Tapes -/

def emptyTape : Tape Byte ErrorCode := { items := [], last := .eof }

/-- The bytes of a sequence. -/
def bytesOf (mem : Mem) (source : Sequence) : List Byte :=
  match source.read with
  | .ok bufs => (addresses bufs).map mem
  | .error _ => []

/-- The tape of a new model. -/
def Action.tape [StreamSource σ] (mem : Mem) : Action σ → Tape Byte ErrorCode
  | .data _ source => { items := bytesOf mem source, last := .eof }
  | .stream _ s | .sized _ _ s =>
    { items := StreamSource.contents s, last := StreamSource.code s,
      start := StreamSource.pos s, pos := StreamSource.pos s }
  | _ => emptyTape

/-- The sources of a program: each is empty or goes to a tape. -/
structure Desk where
  sources : Nat → Option (Option Nat) := fun _ => none
  tapes : Nat → Tape Byte ErrorCode := fun _ => emptyTape
  next : Nat := 0
  read : List Byte := []
  code : ErrorCode := .cleared

namespace Desk

def tape (d : Desk) : Option Nat → Tape Byte ErrorCode
  | some k => d.tapes k
  | none => emptyTape

def put (d : Desk) (v : Option Nat) (t : Tape Byte ErrorCode) : Desk :=
  match v with
  | some k => { d with tapes := Function.update d.tapes k t }
  | none => d

/-- What an action that calls no model does. -/
def moved [StreamSource σ] (mem : Mem) (d : Desk) (a : Action σ) : Desk :=
  { d with sources := place none (some d.next) d.sources a,
           tapes := if makes d.sources a then Function.update d.tapes d.next (a.tape mem) else d.tapes,
           next := d.next + (makes d.sources a).toNat }

/-- One action. A read into no buffers leaves the code that it is called with. -/
def step [StreamSource σ] (mem : Mem) (d : Desk) (a : Action σ) : Desk :=
  match a with
  | .read o dest ec =>
    match d.sources o with
    | some v =>
      if dest = [] then { d with read := [], code := ec }
      else
        let t := (d.tape v).read (Buffers.size dest)
        { d.put v t with
          read := (d.tape v).next (Buffers.size dest),
          code := if t.pos = t.items.length then t.last else .cleared }
    | none => d
  | .rewind o =>
    match d.sources o with
    | some v => d.put v (d.tape v).rewind
    | none => d
  | a => d.moved mem a

theorem put_tape (d : Desk) (v : Option Nat) : d.put v (d.tape v) = d := by
  cases v with
  | none => rfl
  | some k => simp [put, tape]

end Desk

/-! ### Models and tapes -/

section
variable [StreamSource σ] {src : List Nat} {mem mem' : Mem} {m : AnySource σ} {t : Tape Byte ErrorCode}

/-- The model `m` reads the tape `t`. The data of a data source is in the memory `src`. -/
inductive Stands (src : List Nat) (mem : Mem) : AnySource σ → Tape Byte ErrorCode → Prop
  | empty (m : EmptyModel) : Stands src mem (.emptyModel m) emptyTape
  | data {source : Sequence} {bufs : List Buffer} {m : DataModel} {t : Tape Byte ErrorCode} (read : source.read = .ok bufs)
      (inside : addresses bufs ⊆ src) (stands : DataModel.At source (addresses bufs) t.items m mem t.pos)
      (last : t.last = .eof) (sound : t.Sound) : Stands src mem (.dataModel m) t
  | stream {s : σ} {t : Tape Byte ErrorCode} (items : StreamSource.contents s = t.items)
      (last : StreamSource.code s = t.last)
      (pos : StreamSource.pos s = t.pos) (sound : t.Sound) : Stands src mem (.readModel ⟨s⟩) t
  | sized {n : Nat} {s : σ} {t : Tape Byte ErrorCode} (items : StreamSource.contents s = t.items)
      (last : StreamSource.code s = t.last) (pos : StreamSource.pos s = t.pos) (sound : t.Sound) :
      Stands src mem (.sizedReadModel ⟨n, s⟩) t

namespace Stands

theorem sound (h : Stands src mem m t) : t.Sound := by
  cases h with
  | empty m => exact ⟨Nat.le_refl _, Nat.le_refl _⟩
  | data _ _ _ _ sound => exact sound
  | stream _ _ _ sound => exact sound
  | sized _ _ _ sound => exact sound

theorem failed (h : Stands src mem m t) : t.last.failed = true := by
  cases h with
  | empty m => rfl
  | data _ _ _ last _ =>
    rw [last]
    rfl
  | @stream s _ _ last _ _ =>
    rw [← last]
    exact (StreamSource.delivers s).failed
  | @sized _ s _ _ last _ _ =>
    rw [← last]
    exact (StreamSource.delivers s).failed

/-- A model stands as long as the memory of the data sources stays as it is. -/
theorem congr (h : Stands src mem m t) (hmem : ∀ a ∈ src, mem' a = mem a) : Stands src mem' m t := by
  cases h with
  | empty m => exact .empty m
  | data read inside stands last sound =>
    refine .data read inside ⟨stands.1, ?_⟩ last sound
    rw [← stands.2]
    exact List.map_congr_left fun a ha => hmem a (inside ha)
  | stream items last pos sound => exact .stream items last pos sound
  | sized items last pos sound => exact .sized items last pos sound

theorem rewind (h : Stands src mem m t) : Stands src mem (AnySource.rewind m) t.rewind := by
  have hsound := t.sound_rewind
  cases h with
  | empty m => exact .empty m
  | @data source bufs m _ read inside stands last sound =>
    refine .data read inside ⟨?_, stands.2⟩ last hsound
    simp only [DataModel.rewind, stands.1, AnyImpl.rewind]
    rfl
  | @stream s _ items last pos sound =>
    obtain ⟨⟨hitems, hcode⟩, hpos⟩ := (StreamSource.delivers s).rewind s ⟨rfl, rfl⟩
    exact .stream (hitems.trans items) (hcode.trans last) hpos hsound
  | @sized n s _ items last pos sound =>
    obtain ⟨⟨hitems, hcode⟩, hpos⟩ := (StreamSource.delivers s).rewind s ⟨rfl, rfl⟩
    exact .sized (hitems.trans items) (hcode.trans last) hpos hsound

/-- One call hands out the next bytes of the tape. -/
theorem call (h : Stands src mem m t) {dest : List Buffer} (hdest : src.Disjoint (addresses dest)) (ec : ErrorCode) :
    ∃ m', AnyImpl.read m dest ec mem = .ok (deliver t.items t.last t.pos dest mem m') ∧
      Stands src (deliver t.items t.last t.pos dest mem m').mem m' (t.read (Buffers.size dest)) := by
  have hsound := h.sound.read (Buffers.size dest)
  have hpos : (t.read (Buffers.size dest)).pos = t.pos + delivered t.items t.pos dest :=
    congrArg (t.pos + ·) (t.length_next _)
  cases h with
  | empty m =>
    refine ⟨.emptyModel m, by simp [AnyImpl.read, ReadResult.mapSrc, deliver, delivered, emptyTape], ?_⟩
    have hsame : emptyTape.read (Buffers.size dest) = emptyTape := by simp [Tape.read, Tape.next, emptyTape]
    rw [hsame]
    exact .empty m
  | @data source bufs m _ read inside stands last sound =>
    obtain ⟨s, hs, hat, -⟩ := DataModel.reads read t.items m dest ec mem t.pos stands sound.pos_le
      fun a ha hd => hdest (inside ha) hd
    rw [last]
    refine ⟨.dataModel s, ?_, .data read inside (hpos ▸ hat) last hsound⟩
    simp only [AnyImpl.read] at hs ⊢
    rw [hs]
    rfl
  | @stream s _ items last pos sound =>
    have hle : StreamSource.pos s ≤ (StreamSource.contents s).length := by
      rw [pos, items]
      exact sound.pos_le
    obtain ⟨s', hs', ⟨hitems, hcode⟩, hpos'⟩ := (StreamSource.delivers s).read s dest ec mem ⟨rfl, rfl⟩ hle
    rw [items, last, pos] at hs'
    rw [items, pos] at hpos'
    refine ⟨.readModel ⟨s'⟩, ?_, .stream (hitems.trans items) (hcode.trans last) (hpos'.trans hpos.symm) hsound⟩
    simp only [AnyImpl.read, hs']
    rfl
  | @sized n s _ items last pos sound =>
    have hle : StreamSource.pos s ≤ (StreamSource.contents s).length := by
      rw [pos, items]
      exact sound.pos_le
    obtain ⟨s', hs', ⟨hitems, hcode⟩, hpos'⟩ := (StreamSource.delivers s).read s dest ec mem ⟨rfl, rfl⟩ hle
    rw [items, last, pos] at hs'
    rw [items, pos] at hpos'
    refine ⟨.sizedReadModel ⟨n, s'⟩, ?_, .sized (hitems.trans items) (hcode.trans last) (hpos'.trans hpos.symm) hsound⟩
    simp only [AnyImpl.read, hs']
    rfl

/-- So does a read, batch by batch. -/
theorem readAll (h : Stands src mem m t) {dest : List Buffer} (hne : dest ≠ []) (hdest : src.Disjoint (addresses dest))
    (ec : ErrorCode) :
    ∃ m', AnySource.read m dest ec mem = .ok (deliver t.items t.last t.pos dest mem m') ∧
      Stands src (deliver t.items t.last t.pos dest mem m').mem m' (t.read (Buffers.size dest)) := by
  have hpos : t.read (Buffers.size dest) = { t with pos := t.pos + delivered t.items t.pos dest } := by
    rw [Tape.read, t.length_next]
    rfl
  have hreads : Reads AnyImpl.read t.items t.last (fun dest => src.Disjoint (addresses dest))
      (fun (m : AnySource σ) mem p => Stands src mem m { t with pos := p })
      fun m mem p => Stands src mem m { t with pos := p } := by
    intro m dest ec mem p hat _ hdest
    obtain ⟨m', hm', hstands⟩ := hat.call hdest ec
    have hsame : Tape.read { t with pos := p } (Buffers.size dest) = { t with pos := p + delivered t.items p dest } := by
      rw [Tape.read, Tape.length_next]
      rfl
    rw [hsame] at hstands
    exact ⟨m', hm', hstands, fun _ => hstands⟩
  rw [hpos]
  exact anySource_read_deliver hreads h.failed (splits_disjoint src) hne ec h h.sound.pos_le hdest

end Stands
end

/-- What a read of a tape returns and leaves. -/
theorem deliver_tape (t : Tape Byte ErrorCode) (dest : List Buffer) (mem : Mem) (m : AnySource σ) :
    deliver t.items t.last t.pos dest mem m =
      { count := (t.next (Buffers.size dest)).length,
        ec := if (t.read (Buffers.size dest)).pos = t.items.length then t.last else .cleared,
        src := m,
        mem := mem.store ((addresses dest).take (t.next (Buffers.size dest)).length) (t.next (Buffers.size dest)) } := by
  have hcount : delivered t.items t.pos dest = (t.next (Buffers.size dest)).length := (t.length_next _).symm
  have hnext : (t.items.drop t.pos).take (t.next (Buffers.size dest)).length = t.next (Buffers.size dest) := by
    rw [t.length_next, Tape.next, ← List.length_drop, ← List.take_take, List.take_length]
  simp only [deliver, hcount, hnext, Tape.read]
  rfl

/-! ### Runs -/

/-- The data of the sources is in the memory `src`, a read source starts inside its stream, and a destination has
    distinct bytes apart from the data. -/
def Action.Fits [StreamSource σ] (src : List Nat) : Action σ → Prop
  | .data _ source => ∀ bufs, source.read = .ok bufs → addresses bufs ⊆ src
  | .stream _ s | .sized _ _ s => StreamSource.pos s ≤ (StreamSource.contents s).length
  | .read _ dest _ => (addresses dest).Nodup ∧ src.Disjoint (addresses dest)
  | _ => True

/-- The bytes of a destination that a read of `n` bytes writes. -/
def Action.written (n : Nat) : Action σ → List Nat
  | .read _ dest _ => (addresses dest).take n
  | _ => []

section
variable [StreamSource σ] {src : List Nat} {w w' : World σ} {d : Desk} {a : Action σ}

/-- The desk `d` is what a program sees of its sources. -/
structure Shares (src : List Nat) (w : World σ) (d : Desk) : Prop where
  lives : Lives w
  sources : d.sources = fun o => (w.sources o).map Ptr.handle
  next : d.next = w.models.cells.next
  tapes : ∀ k m, w.models.cells.get k = some m → Stands src w.mem m (d.tapes k)
  count : w.count = d.read.length
  code : w.ec = d.code

omit [StreamSource σ] in
theorem place_map {P Q : Type} (f : P → Q) (static new : P) (m : Nat → Option P) (a : Action σ) :
    place (f static) (f new) (fun o => (m o).map f) a = fun o => (place static new m a o).map f := by
  have hupdate (m : Nat → Option P) (o : Nat) (v : Option P) :
      Function.update (fun o => (m o).map f) o (v.map f) = fun o' => (Function.update m o v o').map f := by
    funext o'
    by_cases hne : o' = o
    · subst hne
      simp
    · simp [hne]
  cases a with
  | default o | data o _ | stream o _ | sized o _ _ =>
    simp only [place]
    cases m o with
    | some sp => rfl
    | none => exact hupdate m o (some _)
  | copy o other | assign o other =>
    simp only [place]
    cases m o with
    | none => cases m other <;> first | rfl | exact hupdate m o (some _)
    | some _ => cases m other <;> first | rfl | exact hupdate m o (some _)
  | move o other | moveAssign o other =>
    have htwice (x y : P) : Function.update (Function.update (fun o => (m o).map f) o (some (f x))) other (some (f y)) =
        fun o' => (Function.update (Function.update m o (some x)) other (some y) o').map f := by
      have hfirst := hupdate m o (some x)
      simp only [Option.map_some] at hfirst
      rw [hfirst]
      exact hupdate _ other (some y)
    simp only [place]
    cases m o with
    | none => cases m other <;> first | rfl | exact htwice _ _
    | some _ => cases m other <;> first | rfl | exact htwice _ _
  | destroy o => exact hupdate m o none
  | read o dest ec => rfl
  | rewind o => rfl

omit [StreamSource σ] in
theorem makes_map {P Q : Type} (f : P → Q) (m : Nat → Option P) (a : Action σ) :
    makes (fun o => (m o).map f) a = makes m a := by
  cases a <;> simp [makes]

/-- The sources of a program beside the desk. -/
structure Tandem (σ : Type) where
  world : World σ
  desk : Desk

def Tandem.step (t : Tandem σ) (a : Action σ) : Checked (Tandem σ) := do
  let w ← AnySource.step t.world a
  return { world := w, desk := t.desk.step t.world.mem a }

/-- The sources do what the desk does: each goes to the same tape, or is empty; a read returns the bytes that the desk
    hands out, and its code, and stores them at the first addresses of its destination; nothing else is written. -/
structure Serves (t : Tandem σ) (a : Action σ) (t' : Tandem σ) : Prop where
  sources : t'.desk.sources = fun o => (t'.world.sources o).map Ptr.handle
  count : t'.world.count = t'.desk.read.length
  code : t'.world.ec = t'.desk.code
  written : ∀ o dest ec, a = .read o dest ec → t.world.sources o ≠ none →
    ((addresses dest).take t'.world.count).map t'.world.mem = t'.desk.read
  unchanged : ∀ x, x ∉ a.written t'.world.count → t'.world.mem x = t.world.mem x

/-- The step is one of the desk. -/
def Served (src : List Nat) (w : World σ) (d : Desk) (a : Action σ) : Prop :=
  ∃ w', AnySource.step w a = .ok w' ∧ Serves ⟨w, d⟩ a ⟨w', d.step w.mem a⟩ ∧ Shares src w' (d.step w.mem a)

namespace Shares

theorem stands (h : Shares src w d) {o : Nat} {sp : Ptr} (ho : w.sources o = some sp) :
    ∃ m, w.pointee sp = .ok m ∧ Stands src w.mem m (d.tape sp.handle) := by
  obtain ⟨m, hm⟩ := h.lives.pointee ho
  refine ⟨m, hm, ?_⟩
  cases sp with
  | null => cases hm
  | static =>
    cases hm
    exact .empty _
  | model k =>
    simp only [World.pointee] at hm
    split at hm
    · rename_i m' hget
      cases hm
      exact h.tapes k m hget
    · cases hm

/-- The tape of a new model. -/
theorem stands_tape (mem : Mem) {m : AnySource σ} (ha : a.Fits src) (hopens : Opens w a m) :
    Stands src mem m (a.tape mem) := by
  cases a with
  | data o source =>
    obtain ⟨-, s, hs, rfl⟩ := hopens
    obtain ⟨bufs, hbufs⟩ := source.exists_read
    obtain ⟨s', hs', hat⟩ := DataModel.ofSource_at hbufs mem
    rw [hs] at hs'
    cases hs'
    have hbytes : bytesOf mem source = (addresses bufs).map mem := by simp [bytesOf, hbufs]
    refine .data hbufs (ha bufs hbufs) ?_ rfl ⟨Nat.le_refl _, Nat.zero_le _⟩
    simp only [Action.tape, hbytes]
    exact hat
  | stream o s =>
    obtain ⟨-, rfl⟩ := hopens
    exact .stream rfl rfl rfl ⟨Nat.le_refl _, ha⟩
  | sized o n s =>
    obtain ⟨-, rfl⟩ := hopens
    exact .sized rfl rfl rfl ⟨Nat.le_refl _, ha⟩
  | _ => exact absurd hopens id

/-- An action that calls no model. -/
theorem effect (h : Shares src w d) (ha : a.Fits src) (e : Effect w a w') (hread : ∀ o dest ec, a ≠ .read o dest ec)
    (hdesk : d.step w.mem a = d.moved w.mem a) :
    Serves ⟨w, d⟩ a ⟨w', d.step w.mem a⟩ ∧ Shares src w' (d.step w.mem a) := by
  have hmakes : makes d.sources a = makes w.sources a := by rw [h.sources, makes_map]
  have hsources : place none (some d.next) d.sources a = fun o => (w'.sources o).map Ptr.handle := by
    rw [h.sources, h.next, e.sources]
    exact place_map Ptr.handle .static (.model w.models.cells.next) w.sources a
  have hcount : w'.count = w.count := by rw [e.rest]
  have hcode : w'.ec = w.ec := by rw [e.rest]
  have hmem : w'.mem = w.mem := by rw [e.rest]
  rw [hdesk]
  simp only [Desk.moved]
  refine ⟨⟨hsources, hcount.trans h.count, hcode.trans h.code, fun o dest ec he => absurd he (hread o dest ec),
    fun x _ => congrFun hmem x⟩, e.lives, hsources, ?_, fun k m hm => ?_, hcount.trans h.count, hcode.trans h.code⟩
  · rw [e.next_eq, hmakes, h.next]
  · rw [hmem, hmakes]
    rcases e.models k m hm with hold | ⟨rfl, hopens⟩
    · have hne : k ≠ d.next := h.next ▸ Nat.ne_of_lt (h.lives.tight.below k m hold)
      have hsame : (if makes w.sources a = true then Function.update d.tapes d.next (a.tape w.mem) else d.tapes) k =
          d.tapes k := by
        split
        · exact Function.update_of_ne hne ..
        · rfl
      simp only [hsame]
      exact h.tapes k m hold
    · have hnew : makes w.sources a = true := by
        cases a with
        | data o source | stream o source | sized o n source => simp [makes, hopens.1]
        | _ => exact absurd hopens id
      simp only [if_pos hnew, ← h.next, Function.update_self]
      exact stands_tape w.mem ha hopens

/-- A call of the model that a source points to. -/
theorem call (h : Shares src w d) {o : Nat} {sp : Ptr} (ho : w.sources o = some sp) {m : AnySource σ}
    {t : Tape Byte ErrorCode}
    {mem : Mem} (hmem : ∀ x ∈ src, mem x = w.mem x) (hstands : Stands src mem m t) {count : Nat} {read : List Byte}
    (hcount : count = read.length) (code : ErrorCode) :
    Shares src { w.store sp m with mem := mem, count := count, ec := code }
      { d.put sp.handle t with read := read, code := code } := by
  have c := h.lives.store ho m mem count code
  have hput : (d.put sp.handle t).sources = d.sources ∧ (d.put sp.handle t).next = d.next := by
    cases sp <;> exact ⟨rfl, rfl⟩
  refine ⟨c.lives, ?_, hput.2.trans (h.next.trans c.next_eq.symm), fun k m' hm' => ?_, hcount, rfl⟩
  · rw [c.sources]
    exact hput.1.trans h.sources
  · by_cases hk : sp = .model k
    · subst hk
      have hnew : (w.models.set k m).cells.get k = some m := w.models.set_get_self k m
      have hsame : some m' = some m := hm'.symm.trans hnew
      cases hsame
      have htape : ({ d.put (Ptr.model k).handle t with read := read, code := code } : Desk).tapes k = t :=
        Function.update_self ..
      rw [htape]
      exact hstands
    · rw [c.others k hk] at hm'
      have htape : (d.put sp.handle t).tapes k = d.tapes k := by
        cases sp with
        | null | static => rfl
        | model j => exact Function.update_of_ne (fun he => hk (congrArg Ptr.model he.symm)) ..
      simp only [htape]
      exact (h.tapes k m' hm').congr hmem

theorem tape_of_some (h : Shares src w d) {o : Nat} {sp : Ptr} (ho : w.sources o = some sp) :
    d.sources o = some sp.handle := by
  rw [h.sources]
  simp [ho]

theorem step_rewind (h : Shares src w d) (o : Nat) : Served src w d (.rewind o) := by
  cases ho : w.sources o with
  | none =>
    have hdesk : d.step w.mem (.rewind o : Action σ) = d := by simp [Desk.step, h.sources, ho]
    refine ⟨w, by simp [AnySource.step, ho], ?_, ?_⟩
    · rw [hdesk]
      exact ⟨h.sources, h.count, h.code, by simp, fun _ _ => rfl⟩
    · rw [hdesk]
      exact h
  | some sp =>
    obtain ⟨m, hm, hstands⟩ := h.stands ho
    have hcall := h.call ho (fun _ _ => rfl) hstands.rewind h.count w.ec
    have hsame : { w.store sp (AnySource.rewind m) with mem := w.mem, count := w.count, ec := w.ec } =
        w.store sp (AnySource.rewind m) := by cases sp <;> rfl
    have hdesk : d.step w.mem (.rewind o : Action σ) =
        { d.put sp.handle (d.tape sp.handle).rewind with read := d.read, code := w.ec } := by
      simp only [Desk.step, h.tape_of_some ho, h.code]
      cases sp <;> rfl
    rw [hsame, ← hdesk] at hcall
    have hmem : (w.store sp (AnySource.rewind m)).mem = w.mem := by cases sp <;> rfl
    refine ⟨w.store sp (AnySource.rewind m), by simp [AnySource.step, ho, hm], ?_, hcall⟩
    exact ⟨hcall.sources, hcall.count, hcall.code, by simp, fun x _ => congrFun hmem x⟩

theorem step_read (h : Shares src w d) (o : Nat) {dest : List Buffer} (ec : ErrorCode) (hnodup : (addresses dest).Nodup)
    (hdisj : src.Disjoint (addresses dest)) : Served src w d (.read o dest ec) := by
  cases ho : w.sources o with
  | none =>
    have hdesk : d.step w.mem (.read o dest ec : Action σ) = d := by simp [Desk.step, h.sources, ho]
    refine ⟨w, by simp [AnySource.step, ho], ?_, ?_⟩
    · rw [hdesk]
      refine ⟨h.sources, h.count, h.code, fun o' _ _ he hlive => ?_, fun _ _ => rfl⟩
      cases he
      exact absurd ho hlive
    · rw [hdesk]
      exact h
  | some sp =>
    obtain ⟨m, hm, hstands⟩ := h.stands ho
    have hdest (x : Nat) (hx : x ∈ src) (n : Nat) : x ∉ (addresses dest).take n :=
      fun hd => hdisj hx (List.mem_of_mem_take hd)
    by_cases hne : dest = []
    · subst hne
      have hcall := h.call ho (fun _ _ => rfl) hstands (show 0 = ([] : List Byte).length from rfl) ec
      have hdesk : d.step w.mem (.read o [] ec : Action σ) =
          { d.put sp.handle (d.tape sp.handle) with read := [], code := ec } := by
        rw [d.put_tape]
        simp [Desk.step, h.tape_of_some ho]
      rw [← hdesk] at hcall
      refine ⟨{ w.store sp m with mem := w.mem, count := 0, ec := ec },
        by simp [AnySource.step, ho, hm, AnySource.read], ?_, hcall⟩
      refine ⟨hcall.sources, hcall.count, hcall.code, fun o' dest' ec' he _ => ?_, fun _ _ => rfl⟩
      cases he
      rw [hdesk]
      rfl
    · obtain ⟨m', hm', hstands'⟩ := hstands.readAll hne hdisj ec
      rw [deliver_tape] at hm' hstands'
      let t := d.tape sp.handle
      have hlen : (t.next (Buffers.size dest)).length ≤ (addresses dest).length := by
        rw [t.length_next, ← size_eq]
        exact Nat.min_le_left _ _
      have hcall := h.call ho (fun x hx => Memory.store_of_not_mem w.mem (hdest x hx _)) hstands'
        (rfl : _ = (t.next (Buffers.size dest)).length)
        (if (t.read (Buffers.size dest)).pos = t.items.length then t.last else .cleared)
      have hdesk : d.step w.mem (.read o dest ec : Action σ) =
          { d.put sp.handle (t.read (Buffers.size dest)) with
            read := t.next (Buffers.size dest),
            code := if (t.read (Buffers.size dest)).pos = t.items.length then t.last else .cleared } := by
        simp only [Desk.step, h.tape_of_some ho, hne, if_false]
        rfl
      rw [← hdesk] at hcall
      refine ⟨_, by simp only [AnySource.step, ho, hm, hm', ok_bind]; rfl, ?_, hcall⟩
      refine ⟨hcall.sources, hcall.count, hcall.code, fun o' dest' ec' he _ => ?_,
        fun x hx => Memory.store_of_not_mem w.mem hx⟩
      cases he
      rw [hdesk]
      refine Memory.map_store w.mem (hnodup.sublist (List.take_sublist _ _)) ?_
      exact List.length_take_of_le hlen

theorem step (h : Shares src w d) (ha : a.Fits src) : Served src w d a := by
  have heffect (e : ∃ w', AnySource.step w a = .ok w' ∧ Effect w a w') (hread : ∀ o dest ec, a ≠ .read o dest ec)
      (hdesk : d.step w.mem a = d.moved w.mem a) : Served src w d a := by
    obtain ⟨w', hw', e⟩ := e
    exact ⟨w', hw', h.effect ha e hread hdesk⟩
  cases a with
  | default o => exact heffect (h.lives.step_default o) (by simp) rfl
  | data o source => exact heffect (h.lives.step_data o source) (by simp) rfl
  | stream o source => exact heffect (h.lives.step_stream o source) (by simp) rfl
  | sized o n source => exact heffect (h.lives.step_sized o n source) (by simp) rfl
  | copy o other => exact heffect (h.lives.step_copy o other) (by simp) rfl
  | assign o other => exact heffect (h.lives.step_assign o other) (by simp) rfl
  | move o other => exact heffect (h.lives.step_move o other) (by simp) rfl
  | moveAssign o other => exact heffect (h.lives.step_moveAssign o other) (by simp) rfl
  | destroy o => exact heffect (h.lives.step_destroy o) (by simp) rfl
  | read o dest ec => exact h.step_read o ec ha.1 ha.2
  | rewind o => exact h.step_rewind o

theorem init (src : List Nat) (mem : Mem) : Shares src ({ mem := mem } : World σ) {} :=
  ⟨⟨by simp, .init⟩, rfl, rfl, by simp, rfl, rfl⟩

end Shares

/-- The sources of a program do what the desk does, through any run of constructions, assignments, moves, destructions,
    reads and rewinds that fits: its read sources deliver a stream, and destinations have distinct bytes apart from
    the data. A read into no buffers returns nothing and keeps the code that it is called with. -/
theorem any_source_shares (src : List Nat) (mem : Mem) (actions : List (Action σ)) (h : ∀ a ∈ actions, a.Fits src) :
    Run.Every Tandem.step Serves ⟨({ mem := mem } : World σ), {}⟩ actions := by
  refine Run.every_of_invariant (P := Action.Fits src) (I := fun t => Shares src t.world t.desk) (fun t a ha ht => ?_)
    (Shares.init src mem) h
  obtain ⟨w', hw', hserves, hshares⟩ := ht.step ha
  exact ⟨⟨w', t.desk.step t.world.mem a⟩, by simp only [Tandem.step, hw', ok_bind, pure_eq], hserves, hshares⟩

end

instance : StreamSource MyReadSource where
  contents s := s.data_
  code _ := .eof
  pos := MyReadSource.pos_
  delivers s := by
    obtain ⟨failed, read, rewind⟩ := myReadSource_delivers s.data_
    refine ⟨failed, fun t dest ec mem ht hp => ?_, fun t ht => ⟨⟨(rewind t ht.1).1, rfl⟩, (rewind t ht.1).2⟩⟩
    obtain ⟨t', ht', hdata, hpos⟩ := read t dest ec mem ht.1 hp
    exact ⟨t', ht', ⟨hdata, rfl⟩, hpos⟩

/-- Two copies of a data source, read in turn, beside a read source that takes over the data source's place. -/
theorem any_source_shares_copies :
    Run.Every Tandem.step Serves ⟨({ mem := fun a => a.toUInt8 } : World MyReadSource), {}⟩
      [.data 0 (.range [⟨0, 2⟩, ⟨10, 3⟩]), .copy 1 0, .read 1 [⟨20, 3⟩] .cleared, .stream 2 ⟨[7, 8], 0⟩, .moveAssign 0 2,
        .read 2 [⟨20, 1⟩] .cleared, .read 1 [⟨20, 9⟩] .cleared, .rewind 1, .destroy 0, .destroy 1] := by
  refine any_source_shares [0, 1, 10, 11, 12] (fun a => a.toUInt8) _ ?_
  simp [Action.Fits, Sequence.read, List.Disjoint, Buffer.addresses, List.range', StreamSource.pos]

section
variable [StreamSource σ] {src : List Nat} {w w' : World σ} {d : Desk} {a : Action σ}

/-! ### What the copies of a source have read together -/

/-- The sources of a program and the desk, with the bytes that the reads of each model have returned since it was made
    or rewound, through whichever source. -/
structure Listener (σ : Type) where
  tandem : Tandem σ
  heard : Nat → List Byte := fun _ => []

omit [StreamSource σ] in
/-- What is heard after the action. -/
def hears (w : World σ) (a : Action σ) (w' : World σ) (heard : Nat → List Byte) : Nat → List Byte :=
  match a with
  | .read o dest _ =>
    match w.handle o with
    | some k => Function.update heard k (heard k ++ ((addresses dest).take w'.count).map w'.mem)
    | none => heard
  | .rewind o =>
    match w.handle o with
    | some k => Function.update heard k []
    | none => heard
  | _ => heard

def Listener.step (l : Listener σ) (a : Action σ) : Checked (Listener σ) := do
  let t ← l.tandem.step a
  return { tandem := t, heard := hears l.tandem.world a t.world l.heard }

/-- The reads of each model together have returned its bytes, from where it was opened or rewound up to its position;
    the one that reports the code of its last byte has returned the last of them. -/
structure Hears (l : Listener σ) (a : Action σ) (l' : Listener σ) : Prop where
  heard : ∀ k, l'.heard k = (l'.tandem.desk.tapes k).seen
  all : ∀ o dest ec k, a = .read o dest ec → dest ≠ [] → l.tandem.world.sources o = some (.model k) →
    l'.tandem.world.ec.failed = true → l'.heard k = (l'.tandem.desk.tapes k).items.drop (l'.tandem.desk.tapes k).start

/-- What holds between actions. -/
structure Listener.Inv (src : List Nat) (l : Listener σ) : Prop where
  shares : Shares src l.tandem.world l.tandem.desk
  heard : ∀ k, l.heard k = (l.tandem.desk.tapes k).seen
  blank : ∀ k, l.tandem.desk.next ≤ k → l.tandem.desk.tapes k = emptyTape

omit [StreamSource σ] in
theorem seen_emptyTape : emptyTape.seen = [] := rfl

/-- Nothing of a new tape has been handed out. -/
theorem seen_tape (mem : Mem) (a : Action σ) : (a.tape mem).seen = [] := by
  cases a <;> simp [Action.tape, Tape.seen, emptyTape]

/-- An action that calls no model leaves each tape as it is, or opens a new one. -/
theorem Desk.seen_step {mem : Mem} (hblank : ∀ k, d.next ≤ k → d.tapes k = emptyTape)
    (hdesk : d.step mem a = d.moved mem a) :
    (∀ k, ((d.step mem a).tapes k).seen = (d.tapes k).seen) ∧
      ∀ k, (d.step mem a).next ≤ k → (d.step mem a).tapes k = emptyTape := by
  simp only [hdesk, Desk.moved]
  cases hmakes : makes d.sources a with
  | false => exact ⟨fun _ => rfl, hblank⟩
  | true =>
    refine ⟨fun k => ?_, fun k hk => ?_⟩
    · by_cases hk : k = d.next
      · subst hk
        simp [seen_tape, hblank d.next (Nat.le_refl _), seen_emptyTape]
      · simp [hk]
    · have hne : k ≠ d.next := by
        simp only [Bool.toNat_true] at hk
        omega
      have hle : d.next ≤ k := by
        simp only [Bool.toNat_true] at hk
        omega
      simp [hne, hblank k hle]

/-- The tapes of a desk with one of them at another place. -/
theorem Desk.tapes_put (d : Desk) (v : Option Nat) (t : Tape Byte ErrorCode) (k : Nat) :
    (d.put v t).tapes k = if v = some k then t else d.tapes k := by
  cases v with
  | none => rfl
  | some j =>
    by_cases hk : k = j
    · subst hk
      simp [put]
    · have hne : some j ≠ some k := fun he => hk (Option.some.inj he).symm
      rw [if_neg hne]
      exact Function.update_of_ne hk ..

theorem Desk.next_put (d : Desk) (v : Option Nat) (t : Tape Byte ErrorCode) : (d.put v t).next = d.next := by
  cases v <;> rfl

namespace Listener.Inv
variable {l : Listener σ}

theorem lt_next (h : l.Inv src) {o k : Nat} (ho : l.tandem.world.sources o = some (.model k)) : k < l.tandem.desk.next := by
  obtain ⟨m, hm⟩ := h.shares.lives.tight.owned (handle_eq_some.mpr ho)
  rw [h.shares.next]
  exact h.shares.lives.tight.below k m hm

/-- A change of one tape that is in use leaves the unused ones blank. -/
theorem blank_put (h : l.Inv src) {o : Nat} {sp : Ptr} (ho : l.tandem.world.sources o = some sp)
    (t : Tape Byte ErrorCode) (k : Nat)
    (hk : l.tandem.desk.next ≤ k) : (l.tandem.desk.put sp.handle t).tapes k = emptyTape := by
  rw [Desk.tapes_put, if_neg]
  · exact h.blank k hk
  · intro hsp
    have hlt := h.lt_next (handle_eq_some.mp ((handle_of_some ho).trans hsp))
    omega

theorem heard_rewind (h : l.Inv src) (o : Nat) (w' : World σ) :
    (∀ k, hears l.tandem.world (.rewind o) w' l.heard k =
      ((l.tandem.desk.step l.tandem.world.mem (.rewind o : Action σ)).tapes k).seen) ∧
      ∀ k, (l.tandem.desk.step l.tandem.world.mem (.rewind o : Action σ)).next ≤ k →
        (l.tandem.desk.step l.tandem.world.mem (.rewind o : Action σ)).tapes k = emptyTape := by
  cases ho : l.tandem.world.sources o with
  | none =>
    have hdesk : l.tandem.desk.sources o = none := by simp [h.shares.sources, ho]
    simp only [hears, handle_of_none ho, Desk.step, hdesk]
    exact ⟨h.heard, h.blank⟩
  | some sp =>
    simp only [hears, handle_of_some ho, Desk.step, h.shares.tape_of_some ho, Desk.next_put]
    refine ⟨fun k => ?_, h.blank_put ho _⟩
    rw [Desk.tapes_put]
    cases hsp : sp.handle with
    | none => exact h.heard k
    | some j =>
      simp only
      by_cases hk : k = j
      · subst hk
        simp
      · have hne : some j ≠ some k := fun he => hk (Option.some.inj he).symm
        rw [if_neg hne, Function.update_of_ne hk]
        exact h.heard k

theorem heard_read (h : l.Inv src) {o : Nat} {dest : List Buffer} {ec : ErrorCode} {w' : World σ}
    (hserves : Serves l.tandem (.read o dest ec) ⟨w', l.tandem.desk.step l.tandem.world.mem (.read o dest ec : Action σ)⟩) :
    (∀ k, hears l.tandem.world (.read o dest ec) w' l.heard k =
        ((l.tandem.desk.step l.tandem.world.mem (.read o dest ec : Action σ)).tapes k).seen) ∧
      ∀ k, (l.tandem.desk.step l.tandem.world.mem (.read o dest ec : Action σ)).next ≤ k →
        (l.tandem.desk.step l.tandem.world.mem (.read o dest ec : Action σ)).tapes k = emptyTape := by
  cases ho : l.tandem.world.sources o with
  | none =>
    have hdesk : l.tandem.desk.sources o = none := by simp [h.shares.sources, ho]
    simp only [hears, handle_of_none ho, Desk.step, hdesk]
    exact ⟨h.heard, h.blank⟩
  | some sp =>
    have hwritten := hserves.written o dest ec rfl (by simp [ho])
    simp only [Desk.step, h.shares.tape_of_some ho] at hwritten ⊢
    simp only [hears, handle_of_some ho]
    by_cases hne : dest = []
    · simp only [hne, if_true] at hwritten ⊢
      refine ⟨fun k => ?_, h.blank⟩
      rw [← h.heard k]
      cases hsp : sp.handle with
      | none => rfl
      | some j =>
        simp only [hwritten, List.append_nil]
        exact congrFun (Function.update_eq_self j l.heard) k
    · simp only [hne, if_false, Desk.next_put] at hwritten ⊢
      refine ⟨fun k => ?_, h.blank_put ho _⟩
      rw [Desk.tapes_put]
      cases hsp : sp.handle with
      | none => exact h.heard k
      | some j =>
        simp only
        by_cases hk : k = j
        · subst hk
          obtain ⟨m, -, hstands⟩ := h.shares.stands ho
          rw [hsp] at hstands hwritten
          rw [if_pos rfl, Function.update_self, hwritten, h.heard k]
          exact (Tape.seen_read hstands.sound _).symm
        · have hne' : some j ≠ some k := fun he => hk (Option.some.inj he).symm
          rw [if_neg hne', Function.update_of_ne hk]
          exact h.heard k

end Listener.Inv

/-- A read that fails is at the end of its tape. -/
theorem Serves.all (h : Shares src w d) {o : Nat} {dest : List Buffer} {ec : ErrorCode} {k : Nat} (hne : dest ≠ [])
    (ho : w.sources o = some (.model k))
    (hserves : Serves ⟨w, d⟩ (.read o dest ec) ⟨w', d.step w.mem (.read o dest ec : Action σ)⟩)
    (hfailed : w'.ec.failed = true) :
    ((d.step w.mem (.read o dest ec : Action σ)).tapes k).pos =
      ((d.step w.mem (.read o dest ec : Action σ)).tapes k).items.length := by
  have hcode := hserves.code
  simp only [Desk.step, h.tape_of_some ho, hne, if_false] at hcode ⊢
  have hk : (Ptr.model k).handle = some k := rfl
  rw [Desk.tapes_put, if_pos hk]
  by_contra hend
  rw [if_neg hend] at hcode
  rw [hcode] at hfailed
  cases hfailed

theorem Listener.Inv.step {l : Listener σ} (h : l.Inv src) (ha : a.Fits src) :
    ∃ l', l.step a = .ok l' ∧ Hears l a l' ∧ l'.Inv src := by
  obtain ⟨w', hw', hserves, hshares⟩ := h.shares.step ha
  have hstep : l.step a = .ok ⟨⟨w', l.tandem.desk.step l.tandem.world.mem a⟩, hears l.tandem.world a w' l.heard⟩ := by
    simp only [Listener.step, Tandem.step, hw', ok_bind, pure_eq]
  have hheard : (∀ k, hears l.tandem.world a w' l.heard k = ((l.tandem.desk.step l.tandem.world.mem a).tapes k).seen) ∧
      ∀ k, (l.tandem.desk.step l.tandem.world.mem a).next ≤ k →
        (l.tandem.desk.step l.tandem.world.mem a).tapes k = emptyTape := by
    have hmoves (hdesk : l.tandem.desk.step l.tandem.world.mem a = l.tandem.desk.moved l.tandem.world.mem a)
        (hheard : hears l.tandem.world a w' l.heard = l.heard) := by
      obtain ⟨hseen, hblank⟩ := Desk.seen_step h.blank hdesk
      exact And.intro (fun k => (congrFun hheard k).trans ((h.heard k).trans (hseen k).symm)) hblank
    cases a with
    | read o dest ec => exact h.heard_read hserves
    | rewind o => exact h.heard_rewind o w'
    | default | data | stream | sized | copy | assign | move | moveAssign | destroy => exact hmoves rfl rfl
  refine ⟨_, hstep, ⟨hheard.1, fun o dest ec k he hne ho hfailed => ?_⟩, ⟨hshares, hheard.1, hheard.2⟩⟩
  subst he
  exact (hheard.1 k).trans (Tape.seen_of_end (Serves.all h.shares hne ho hserves hfailed))

/-- Through whatever sources, in whatever order, the reads of each model together return its bytes in order, each
    once, in every run that fits. A failed read into some buffers has returned the last of them; one into no buffers
    keeps the code that it is called with, and says nothing. -/
theorem any_source_heard (src : List Nat) (mem : Mem) (actions : List (Action σ)) (h : ∀ a ∈ actions, a.Fits src) :
    Run.Every Listener.step Hears { tandem := ⟨({ mem := mem } : World σ), {}⟩ } actions := by
  refine Run.every_of_invariant (P := Action.Fits src) (I := Listener.Inv src) (fun _ _ ha hl => hl.step ha) ?_ h
  exact ⟨Shares.init src mem, fun _ => rfl, fun _ _ => rfl⟩

end

/-- A data source and its copy, of which each reads a part of the data. -/
theorem any_source_heard_copies :
    Run.Every Listener.step Hears { tandem := ⟨({ mem := fun a => a.toUInt8 } : World MyReadSource), {}⟩ }
      [.data 0 (.range [⟨0, 2⟩, ⟨10, 3⟩]), .copy 1 0, .read 1 [⟨20, 3⟩] .cleared, .read 0 [⟨20, 1⟩] .cleared, .destroy 0,
        .read 1 [⟨20, 1⟩] .cleared] := by
  refine any_source_heard [0, 1, 10, 11, 12] (fun a => a.toUInt8) _ ?_
  simp [Action.Fits, Sequence.read, List.Disjoint, Buffer.addresses, List.range']

end AnySource
end Buffers
