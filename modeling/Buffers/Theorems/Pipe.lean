import Buffers.Pipe
import Buffers.Theorems.AnyDynamicBuffer
import Buffers.Theorems.AnySource.Streams
import Buffers.Theorems.CircularBuffer.Word
import Buffers.Theorems.FlatBuffer.Queue

/-! # A dynamic buffer is a pipe

Put together, the calls of a program move bytes through a dynamic buffer in order, each once: what it takes out, and
then what `data` still holds, is what it has put in (`Conduit.conveys`, `Conduit.delivers`). For this a buffer has to
be a queue over its storage (`Conduit`); the circular and the flat buffer are, and so is either behind the type
erasure (`pipe_conveys`, `pipe_delivers`). -/

namespace Buffers
open Checked Word

/-! ### Queues over a storage -/

/-- A kind of dynamic buffer that holds a queue of bytes in `storage`, in sequences of at most `N` buffers. A prepare
    is granted when it asks for no more than `capacity()`, and a commit right after it appends the first bytes of the
    region. -/
structure Conduit (B : Type) [DynamicBuffer B] (storage : List Nat) (N : Nat) (Holds : B → Mem → List Byte → Prop) :
    Prop where
  congr : ∀ {b mem mem' q}, Holds b mem q → (∀ a ∈ storage, mem' a = mem a) → Holds b mem' q
  data : ∀ {b mem q}, Holds b mem q → ∃ bufs, DynamicBuffer.data b = .ok bufs ∧ bufs.length ≤ N ∧ addresses bufs ⊆ storage ∧
    (addresses bufs).map mem = q
  consume : ∀ {b mem q}, Holds b mem q → ∀ n, ∃ b', DynamicBuffer.consume b n = .ok b' ∧ Holds b' mem (q.drop n)
  room : ∀ {b mem q}, Holds b mem q → ∃ room, DynamicBuffer.capacity b = .ok room
  refuses : ∀ {b mem q room n}, Holds b mem q → DynamicBuffer.capacity b = .ok room → room < n →
    ∃ e, DynamicBuffer.prepare b n = .ok (.error e, b)
  grants : ∀ {b mem q room n}, Holds b mem q → DynamicBuffer.capacity b = .ok room → n ≤ room →
    ∃ bufs b', DynamicBuffer.prepare b n = .ok (.ok bufs, b') ∧ bufs ≠ [] ∧ bufs.length ≤ N ∧ addresses bufs ⊆ storage ∧
      (addresses bufs).Nodup ∧ (addresses bufs).length = n ∧
      ∀ mem' k, (∀ a ∈ storage, a ∉ addresses bufs → mem' a = mem a) →
        ∃ b'', DynamicBuffer.commit b' k = .ok b'' ∧ Holds b'' mem' (q ++ ((addresses bufs).take k).map mem')

/-! ### The buffers -/

/-- The circular buffer holds the bytes `q`, and no output is outstanding. -/
structure CircularBuffer.Carries (base capacity : Nat) (b : CircularBuffer) (mem : Mem) (q : List Byte) : Prop where
  inv : b.Inv
  base_eq : b.base_ = base
  cap_eq : b.cap_ = capacity
  idle : b.out_size_ = 0
  bytes : b.live.map mem = q

theorem ring_subset {base cap pos n : Nat} (hcap : 0 < cap) : ring base cap pos n ⊆ List.range' base cap := fun _ ha =>
  List.mem_range'_1.mpr (mem_ring hcap ha)

theorem conduit_circular (o : Overflow) (base : Nat) {capacity : Nat} (hcap : 1 ≤ capacity) (hhalf : capacity ≤ Word.half) :
    Conduit (WordCircularBuffer o) (List.range' base capacity) 2 fun b => CircularBuffer.Carries base capacity b.val where
  congr {b mem mem' q} h hmem := by
    obtain ⟨hinv, rfl, rfl, hidle, rfl⟩ := h
    exact ⟨hinv, rfl, rfl, hidle, List.map_congr_left fun a ha => hmem a (ring_subset hcap ha)⟩
  data {b mem q} h := by
    obtain ⟨hinv, rfl, rfl, hidle, rfl⟩ := h
    obtain ⟨p, hp, haddr⟩ := hinv.data
    have hdata : CircularBuffer.Word.data o b.val = .ok p := (hinv.word_data_eq hhalf).trans hp
    refine ⟨p.toList, by simp [DynamicBuffer.data, hdata], Nat.le_refl _, ?_, by rw [haddr]⟩
    rw [haddr]
    exact ring_subset hcap
  consume {b mem q} h n := by
    obtain ⟨hinv, rfl, rfl, hidle, rfl⟩ := h
    obtain ⟨b', hb', hinv', hbase, hcap', hlive, houts⟩ := hinv.consume hcap n
    have hconsume : CircularBuffer.Word.consume o b.val n = .ok b' := (hinv.word_consume_eq hhalf n).trans hb'
    have hidle' : b'.out_size_ = 0 := by
      have hlen := congrArg List.length houts
      simpa [CircularBuffer.outs, length_ring, hidle] using hlen
    exact ⟨⟨b'⟩, by simp [DynamicBuffer.consume, hconsume], hinv', hbase, hcap', hidle', by rw [hlive, List.map_drop]⟩
  room h := ⟨_, h.inv.capacity⟩
  refuses {b mem q room n} h hroom hn := by
    have hcapacity : room = b.val.cap_ - b.val.in_len_ := Except.ok.inj (hroom.symm.trans h.inv.capacity)
    have hle := h.inv.len_le
    have hthrows := h.inv.word_prepare_throws (o := o) (n := n) (by omega)
    exact ⟨.lengthError, by simp [DynamicBuffer.prepare, hthrows]⟩
  grants {b mem q room n} h hroom hn := by
    obtain ⟨b⟩ := b
    replace h : CircularBuffer.Carries base capacity b mem q := h
    have hcapacity : room = b.cap_ - b.in_len_ := Except.ok.inj (hroom.symm.trans h.inv.capacity)
    have hle := h.inv.len_le
    obtain ⟨hinv, rfl, rfl, hidle, rfl⟩ := h
    have hroom' : b.in_len_ + n ≤ b.cap_ := by omega
    obtain ⟨p, hp, haddr⟩ := hinv.prepare_returns hcap hroom'
    have hprepare : CircularBuffer.Word.prepare o b n = .ok (.ok p, { b with out_size_ := n }) :=
      (hinv.word_prepare_eq hhalf n).trans hp
    have hprepared := hinv.prepared hroom'
    have houts : addresses p.toList = CircularBuffer.outs { b with out_size_ := n } := haddr
    have hnodup := List.nodup_append'.mp hprepared.nodup
    refine ⟨p.toList, ⟨{ b with out_size_ := n }⟩, by simp [DynamicBuffer.prepare, hprepare], List.cons_ne_nil _ _,
      Nat.le_refl _, ?_, ?_, ?_, fun mem' k hmem => ?_⟩
    · rw [haddr]
      exact ring_subset hcap
    · rw [houts]
      exact hnodup.2.1
    · rw [haddr, length_ring]
    · obtain ⟨hinv', hlive, -⟩ := hprepared.commit k
      have hcommit := hprepared.word_commit (o := o) (CircularBuffer.Fits.of_half hhalf) k
      refine ⟨⟨CircularBuffer.commit { b with out_size_ := n } k⟩,
        by simp only [DynamicBuffer.commit, hcommit, map_ok], hinv',
        ?_, ?_, ?_, ?_⟩
      · rw [CircularBuffer.commit_eq]
      · rw [CircularBuffer.commit_eq]
      · rw [CircularBuffer.commit_eq]
      · have hkept : b.live.map mem' = b.live.map mem := List.map_congr_left fun a ha =>
          hmem a (ring_subset hcap ha) fun hout => hnodup.2.2 ha (houts ▸ hout)
        rw [hlive, List.map_append, ← houts]
        exact congrArg (· ++ _) hkept

/-- The flat buffer holds the bytes `q`, and no output is outstanding. -/
structure FlatBuffer.Carries (data capacity : Nat) (b : FlatBuffer) (mem : Mem) (q : List Byte) : Prop where
  inv : b.Inv
  data_eq : b.data_ = data
  cap_eq : b.cap_ = capacity
  idle : b.out_size_ = 0
  bytes : b.live.map mem = q

theorem range'_subset {base cap pos n : Nat} (h : pos + n ≤ cap) : List.range' (base + pos) n ⊆ List.range' base cap := by
  intro a ha
  rw [List.mem_range'_1] at ha ⊢
  omega

theorem conduit_flat (data capacity : Nat) :
    Conduit FlatBuffer (List.range' data capacity) 1 (FlatBuffer.Carries data capacity) where
  congr {b mem mem' q} h hmem := by
    obtain ⟨hinv, rfl, rfl, hidle, rfl⟩ := h
    have hsub : b.live ⊆ List.range' b.data_ b.cap_ := range'_subset (Nat.le_trans (Nat.le_add_right _ _) hinv.fits)
    exact ⟨hinv, rfl, rfl, hidle, List.map_congr_left fun a ha => hmem a (hsub ha)⟩
  data {b mem q} h := by
    obtain ⟨hinv, rfl, rfl, hidle, rfl⟩ := h
    have haddr : addresses [b.data] = b.live := List.append_nil _
    refine ⟨[b.data], rfl, Nat.le_refl _, ?_, by rw [haddr]⟩
    rw [haddr]
    exact range'_subset (Nat.le_trans (Nat.le_add_right _ _) hinv.fits)
  consume {b mem q} h n := by
    obtain ⟨hinv, rfl, rfl, hidle, rfl⟩ := h
    obtain ⟨b', hb', hinv', hlive⟩ := hinv.consume n
    obtain ⟨hdata, hcap⟩ := FlatBuffer.consume_storage hb'
    exact ⟨b', hb', hinv', hdata, hcap, (FlatBuffer.consume_out hb').trans hidle, by rw [hlive, List.map_drop]⟩
  room h := ⟨_, h.inv.capacity⟩
  refuses {b mem q room n} h hroom hn := by
    have hcapacity : room = b.cap_ - (b.in_pos_ + b.in_size_) := Except.ok.inj (hroom.symm.trans h.inv.capacity)
    have hfits := h.inv.fits
    have hthrows := h.inv.prepare_throws (n := n) (by omega)
    exact ⟨.invalidArgument, by simp [DynamicBuffer.prepare, hthrows]⟩
  grants {b mem q room n} h hroom hn := by
    have hcapacity : room = b.cap_ - (b.in_pos_ + b.in_size_) := Except.ok.inj (hroom.symm.trans h.inv.capacity)
    obtain ⟨hinv, rfl, rfl, hidle, rfl⟩ := h
    have hinside := hinv.fits
    have hfits : b.in_pos_ + b.in_size_ + n ≤ b.cap_ := by omega
    have hreturns := hinv.prepare_returns hfits
    let out : MutableBuffer := ⟨b.data_ + b.in_pos_ + b.in_size_, n⟩
    have haddr : addresses [out] = List.range' (b.data_ + b.in_pos_ + b.in_size_) n := List.append_nil _
    have hprepared : FlatBuffer.Inv { b with out_size_ := n } := ⟨hfits, hinv.empty⟩
    refine ⟨[out], { b with out_size_ := n }, by simp [DynamicBuffer.prepare, hreturns, out], List.cons_ne_nil _ _,
      Nat.le_refl _, ?_, ?_, ?_, fun mem' k hmem => ?_⟩
    · rw [haddr, Nat.add_assoc]
      exact range'_subset hfits
    · rw [haddr]
      exact List.nodup_range'
    · rw [haddr, List.length_range']
    · refine ⟨_, rfl, hprepared.commit k, ?_, ?_, ?_, ?_⟩
      · rw [FlatBuffer.commit_eq]
      · rw [FlatBuffer.commit_eq]
      · rw [FlatBuffer.commit_eq]
      · have hkept : b.live.map mem' = b.live.map mem := by
          refine List.map_congr_left fun a ha => ?_
          have hlive : b.data_ + b.in_pos_ ≤ a ∧ a < b.data_ + b.in_pos_ + b.in_size_ := List.mem_range'_1.mp ha
          refine hmem a (List.mem_range'_1.mpr (by omega)) fun hout => ?_
          rw [haddr, List.mem_range'_1] at hout
          omega
        rw [FlatBuffer.live_commit, List.map_append, haddr]
        exact congrArg (· ++ _) hkept

/-! ### Behind the type erasure -/

section
variable {B : Type} [DynamicBuffer B] {storage : List Nat} {N : Nat} {Holds : B → Mem → List Byte → Prop}

/-- The wrapped buffer holds the bytes, and the cache denotes the same ones. -/
structure AnyDynamicBufferImpl.Carries (Holds : B → Mem → List Byte → Prop) (w : AnyDynamicBufferImpl B N) (mem : Mem)
    (q : List Byte) : Prop where
  arrays : w.Arrays
  holds : Holds w.b_ mem q
  cached : ∃ bufs, DynamicBuffer.data w.b_ = .ok bufs ∧ addresses w.data = addresses bufs

namespace Conduit

theorem refresh (h : Conduit B storage N Holds) {w : AnyDynamicBufferImpl B N} (hw : w.Arrays) {b : B} {mem : Mem}
    {q : List Byte} (hb : Holds b mem q) : ∃ w', w.refresh b = .ok w' ∧ w'.Carries Holds mem q := by
  obtain ⟨bufs, hdata, hlen, -, -⟩ := h.data hb
  obtain ⟨w', hw', rfl, hcache, harrays⟩ := hw.refresh hdata (Or.inr hlen)
  rw [List.take_of_length_le hlen] at hcache
  exact ⟨w', hw', harrays, hb, bufs, hdata, by rw [hcache]⟩

theorem erased (h : Conduit B storage N Holds) :
    Conduit (AnyDynamicBufferImpl B N) storage N (AnyDynamicBufferImpl.Carries Holds) where
  congr hw hmem := ⟨hw.arrays, h.congr hw.holds hmem, hw.cached⟩
  data {w mem q} hw := by
    obtain ⟨bufs, hdata, haddr⟩ := hw.cached
    obtain ⟨bufs', hdata', -, hsub, hbytes⟩ := h.data hw.holds
    rw [hdata] at hdata'
    cases hdata'
    exact ⟨w.data, rfl, hw.arrays.length_data, haddr ▸ hsub, by rw [haddr, hbytes]⟩
  consume {w mem q} hw n := by
    obtain ⟨b', hb', hholds⟩ := h.consume hw.holds n
    obtain ⟨w', hw', hcarries⟩ := h.refresh hw.arrays hholds
    refine ⟨w', ?_, hcarries⟩
    simp only [DynamicBuffer.consume, AnyDynamicBufferImpl.consume, hb', ok_bind, hw']
  room hw := h.room hw.holds
  refuses {w mem q room n} hw hroom hn := by
    obtain ⟨e, he⟩ := h.refuses hw.holds hroom hn
    refine ⟨e, ?_⟩
    simp only [DynamicBuffer.prepare, AnyDynamicBufferImpl.prepare, he, ok_bind]
    rfl
  grants {w mem q room n} hw hroom hn := by
    obtain ⟨out, b', hprepare, hne, hlen, hsub, hnodup, hsize, hcommit⟩ := h.grants hw.holds hroom hn
    obtain ⟨w', hw', rfl, -, harrays⟩ := hw.arrays.prepare hprepare (Or.inr hlen)
    rw [List.take_of_length_le hlen] at hw'
    refine ⟨out, w', hw', hne, hlen, hsub, hnodup, hsize, fun mem' k hmem => ?_⟩
    obtain ⟨b'', hb'', hholds⟩ := hcommit mem' k hmem
    obtain ⟨w'', hw'', hcarries⟩ := h.refresh harrays hholds
    refine ⟨w'', ?_, hcarries⟩
    simp only [DynamicBuffer.commit, AnyDynamicBufferImpl.commit, hb'', ok_bind, hw'']

/-- A buffer that is wrapped while it is empty is held as it is: the cache has no entries yet. -/
theorem carries_wrap (h : Conduit B storage N Holds) {b : B} {mem : Mem} (hb : Holds b mem []) :
    (.wrap b : AnyDynamicBufferImpl B N).Carries Holds mem [] := by
  obtain ⟨bufs, hdata, -, -, hbytes⟩ := h.data hb
  refine ⟨AnyDynamicBufferImpl.arrays_wrap b, hb, bufs, hdata, ?_⟩
  rw [List.map_eq_nil_iff.mp hbytes]
  simp [AnyDynamicBufferImpl.data, AnyDynamicBufferImpl.wrap]

theorem widen (h : Conduit B storage N Holds) {M : Nat} (hN : N ≤ M) : Conduit B storage M Holds where
  congr := h.congr
  data hb := by
    obtain ⟨bufs, hdata, hlen, hrest⟩ := h.data hb
    exact ⟨bufs, hdata, Nat.le_trans hlen hN, hrest⟩
  consume := h.consume
  room := h.room
  refuses := h.refuses
  grants hb hroom hn := by
    obtain ⟨bufs, b', hprepare, hne, hlen, hrest⟩ := h.grants hb hroom hn
    exact ⟨bufs, b', hprepare, hne, Nat.le_trans hlen hN, hrest⟩

end Conduit
end

/-! ### Runs -/

/-- What a program moves its bytes through: a tape that it reads, and a queue. -/
structure Channel where
  tape : Tape Byte ErrorCode
  queue : List Byte := []

/-- One call. Nothing comes in when the prepare is refused. -/
def Channel.step (mem : Mem) (granted : Bool) (c : Channel) : PipeCall → Channel
  | .put n bs => if granted then { c with queue := c.queue ++ ((addresses bs).map mem).take n } else c
  | .pull n _ => if granted then { tape := c.tape.read n, queue := c.queue ++ c.tape.next n } else c
  | .take dest => { c with queue := c.queue.drop (size dest) }

/-- A pipe beside its channel. -/
structure Transfer (B σ : Type) where
  pipe : Pipe B σ
  channel : Channel

section
variable {B σ : Type} [DynamicBuffer B] [StreamSource σ]

def Transfer.step (t : Transfer B σ) (c : PipeCall) : Checked (Transfer B σ) := do
  let pipe ← t.pipe.step c
  return { pipe := pipe, channel := t.channel.step t.pipe.mem pipe.moved.isOk c }

/-- Bytes to put are outside the storage, and a destination has distinct bytes outside the storage and the data of the
    source. -/
def PipeCall.Fits (storage src : List Nat) : PipeCall → Prop
  | .put _ bs => (addresses bs).Disjoint storage
  | .pull _ _ => True
  | .take dest => (addresses dest).Nodup ∧ (addresses dest).Disjoint storage ∧ src.Disjoint (addresses dest)

/-- What the calls return and leave outside the storage. -/
def Returns (storage : List Nat) (t : Transfer B σ) (c : PipeCall) (t' : Transfer B σ) : Prop :=
  match c with
  | .put n bs => ∃ room, DynamicBuffer.capacity t.pipe.buf = .ok room ∧
      (if n ≤ room then t'.pipe.moved = .ok (min n (size bs)) else ∃ e, t'.pipe.moved = .error e) ∧
      ∀ a, a ∉ storage → t'.pipe.mem a = t.pipe.mem a
  | .pull n _ => ∃ room, DynamicBuffer.capacity t.pipe.buf = .ok room ∧
      (if n ≤ room
        then t'.pipe.moved = .ok (t.channel.tape.next n).length ∧
          t'.pipe.ec = if t'.channel.tape.pos = t.channel.tape.items.length then t.channel.tape.last else .cleared
        else ∃ e, t'.pipe.moved = .error e) ∧
      ∀ a, a ∉ storage → t'.pipe.mem a = t.pipe.mem a
  | .take dest => t'.pipe.moved = .ok (min (size dest) t.channel.queue.length) ∧
      ((addresses dest).take (min (size dest) t.channel.queue.length)).map t'.pipe.mem = t.channel.queue.take (size dest) ∧
      ∀ a, a ∉ storage → a ∉ (addresses dest).take (min (size dest) t.channel.queue.length) → t'.pipe.mem a = t.pipe.mem a

/-- The pipe does what the channel does, and `data` denotes the queue. -/
structure Conveys (storage : List Nat) (t : Transfer B σ) (c : PipeCall) (t' : Transfer B σ) : Prop where
  returns : Returns storage t c t'
  data : ∃ bufs, DynamicBuffer.data t'.pipe.buf = .ok bufs ∧ (addresses bufs).map t'.pipe.mem = t'.channel.queue

/-- What holds between calls. -/
structure Transfer.Inv (Holds : B → Mem → List Byte → Prop) (src : List Nat) (t : Transfer B σ) : Prop where
  holds : Holds t.pipe.buf t.pipe.mem t.channel.queue
  stands : AnySource.Stands src t.pipe.mem t.pipe.src t.channel.tape

namespace Conduit
variable {storage src : List Nat} {N : Nat} {Holds : B → Mem → List Byte → Prop} {t : Transfer B σ}

/-- The call is one of the channel. -/
def Conveyed (storage src : List Nat) (Holds : B → Mem → List Byte → Prop) (t : Transfer B σ) (c : PipeCall) : Prop :=
  ∃ t', t.step c = .ok t' ∧ Conveys storage t c t' ∧ t'.Inv Holds src

theorem conveys_of (h : Conduit B storage N Holds) {c : PipeCall} (t' : Transfer B σ) (hstep : t.step c = .ok t')
    (hreturns : Returns storage t c t') (ht' : t'.Inv Holds src) : Conveyed storage src Holds t c := by
  obtain ⟨bufs, hdata, -, -, hbytes⟩ := h.data ht'.holds
  exact ⟨t', hstep, ⟨hreturns, bufs, hdata, hbytes⟩, ht'⟩

/-- A granted prepare, filled from its start with some bytes that are then committed. -/
theorem accepts (h : Conduit B storage N Holds) {b : B} {mem : Mem} {q : List Byte} (hb : Holds b mem q) {room n : Nat}
    (hroom : DynamicBuffer.capacity b = .ok room) (hn : n ≤ room) :
    ∃ dest b', DynamicBuffer.prepare b n = .ok (.ok dest, b') ∧ dest ≠ [] ∧ addresses dest ⊆ storage ∧
      (addresses dest).length = n ∧
      ∀ bytes : List Byte, bytes.length ≤ n → ∃ b'', DynamicBuffer.commit b' bytes.length = .ok b'' ∧
        Holds b'' (mem.store ((addresses dest).take bytes.length) bytes) (q ++ bytes) := by
  obtain ⟨dest, b', hprepare, hne, -, hsub, hnodup, hlen, hcommit⟩ := h.grants hb hroom hn
  refine ⟨dest, b', hprepare, hne, hsub, hlen, fun bytes hbytes => ?_⟩
  obtain ⟨b'', hb'', hholds⟩ := hcommit (mem.store ((addresses dest).take bytes.length) bytes) bytes.length fun a _ ha =>
    Memory.store_of_not_mem mem fun hd => ha (List.mem_of_mem_take hd)
  rw [Memory.map_store mem (hnodup.sublist (List.take_sublist _ _)) (List.length_take_of_le (hlen ▸ hbytes))] at hholds
  exact ⟨b'', hb'', hholds⟩

theorem step_put (h : Conduit B storage N Holds) (hsrc : src.Disjoint storage) (ht : t.Inv Holds src) (n : Nat)
    {bs : List Buffer} (hbs : (addresses bs).Disjoint storage) : Conveyed storage src Holds t (.put n bs) := by
  obtain ⟨room, hroom⟩ := h.room ht.holds
  by_cases hn : n ≤ room
  · obtain ⟨dest, b', hprepare, -, hsub, hlen, hcommit⟩ := h.accepts ht.holds hroom hn
    let bytes := ((addresses bs).map t.pipe.mem).take n
    let mem' := t.pipe.mem.store ((addresses dest).take bytes.length) bytes
    have hcount : bytes.length = min n (size bs) := by rw [List.length_take, List.length_map, size_eq]
    have hcopy : copy dest bs t.pipe.mem none = .ok (bytes.length, mem') := by
      have hk : copySize dest bs none = bytes.length := by rw [hcount, copySize, size_eq dest, hlen]; rfl
      have hbytes : ((addresses bs).take bytes.length).map t.pipe.mem = bytes := by
        rw [List.map_take, hcount, size_eq, ← List.length_map t.pipe.mem, ← List.take_eq_take_min]
      rw [copy_eq dest bs t.pipe.mem none fun _ ha hd => hbs ha (hsub hd), hk, hbytes]
    have hout : ∀ a, a ∉ storage → mem' a = t.pipe.mem a := fun a ha =>
      Memory.store_of_not_mem _ fun hd => ha (hsub (List.mem_of_mem_take hd))
    obtain ⟨b'', hb'', hholds⟩ := hcommit bytes (List.length_take_le _ _)
    refine h.conveys_of ⟨{ t.pipe with buf := b'', mem := mem', moved := .ok bytes.length },
      { t.channel with queue := t.channel.queue ++ bytes }⟩ ?_ ⟨room, hroom, ?_, hout⟩
      ⟨hholds, ht.stands.congr fun a ha => hout a (hsrc ha)⟩
    · simp only [Transfer.step, Pipe.step, hprepare, hcopy, hb'', ok_bind, pure_eq]
      rfl
    · rw [if_pos hn, hcount]
  · obtain ⟨e, he⟩ := h.refuses ht.holds hroom (Nat.lt_of_not_le hn)
    refine h.conveys_of ⟨{ t.pipe with moved := .error e }, t.channel⟩ ?_ ⟨room, hroom, ?_, fun _ _ => rfl⟩
      ⟨ht.holds, ht.stands⟩
    · simp only [Transfer.step, Pipe.step, he, ok_bind, pure_eq]
      rfl
    · rw [if_neg hn]
      exact ⟨e, rfl⟩

theorem step_pull (h : Conduit B storage N Holds) (hsrc : src.Disjoint storage) (ht : t.Inv Holds src) (n : Nat)
    (ec : ErrorCode) :
    Conveyed storage src Holds t (.pull n ec) := by
  obtain ⟨room, hroom⟩ := h.room ht.holds
  by_cases hn : n ≤ room
  · obtain ⟨dest, b', hprepare, hne, hsub, hlen, hcommit⟩ := h.accepts ht.holds hroom hn
    have hsize : size dest = n := (size_eq dest).trans hlen
    obtain ⟨m', hread, hstands⟩ := ht.stands.readAll hne (fun _ ha hd => hsrc ha (hsub hd)) ec
    rw [AnySource.deliver_tape, hsize] at hread hstands
    have hshort : (t.channel.tape.next n).length ≤ n := List.length_take_le _ _
    obtain ⟨b'', hb'', hholds⟩ := hcommit (t.channel.tape.next n) hshort
    let ec' := if (t.channel.tape.read n).pos = t.channel.tape.items.length then t.channel.tape.last else .cleared
    let mem' := t.pipe.mem.store ((addresses dest).take (t.channel.tape.next n).length) (t.channel.tape.next n)
    have hout : ∀ a, a ∉ storage → mem' a = t.pipe.mem a := fun a ha =>
      Memory.store_of_not_mem _ fun hd => ha (hsub (List.mem_of_mem_take hd))
    refine h.conveys_of ⟨⟨b'', m', mem', .ok (t.channel.tape.next n).length, ec'⟩,
      { tape := t.channel.tape.read n, queue := t.channel.queue ++ t.channel.tape.next n }⟩ ?_ ⟨room, hroom, ?_, hout⟩
      ⟨hholds, hstands⟩
    · simp only [Transfer.step, Pipe.step, hprepare, hread, hb'', ok_bind, pure_eq]
      rfl
    · rw [if_pos hn]
      exact ⟨rfl, rfl⟩
  · obtain ⟨e, he⟩ := h.refuses ht.holds hroom (Nat.lt_of_not_le hn)
    refine h.conveys_of ⟨{ t.pipe with moved := .error e }, t.channel⟩ ?_ ⟨room, hroom, ?_, fun _ _ => rfl⟩
      ⟨ht.holds, ht.stands⟩
    · simp only [Transfer.step, Pipe.step, he, ok_bind, pure_eq]
      rfl
    · rw [if_neg hn]
      exact ⟨e, rfl⟩

theorem step_take (h : Conduit B storage N Holds) (ht : t.Inv Holds src) {dest : List Buffer}
    (hnodup : (addresses dest).Nodup)
    (hdest : (addresses dest).Disjoint storage) (hsrc : src.Disjoint (addresses dest)) :
    Conveyed storage src Holds t (.take dest) := by
  obtain ⟨bufs, hdata, -, hsub, hbytes⟩ := h.data ht.holds
  let k := min (size dest) t.channel.queue.length
  let mem' := t.pipe.mem.store ((addresses dest).take k) (t.channel.queue.take k)
  have hlen : t.channel.queue.length = (addresses bufs).length := by rw [← hbytes, List.length_map]
  have hk : copySize dest bufs none = k := by rw [copySize, size_eq bufs, ← hlen]; rfl
  have hcopy : copy dest bufs t.pipe.mem none = .ok (k, mem') := by
    rw [copy_eq dest bufs t.pipe.mem none fun _ ha hd => hdest hd (hsub ha), hk, List.map_take, hbytes]
  have hfits : ((addresses dest).take k).length = (t.channel.queue.take k).length := by
    rw [List.length_take, List.length_take, ← size_eq]
    omega
  have htaken : ((addresses dest).take k).map mem' = t.channel.queue.take (size dest) := by
    rw [Memory.map_store t.pipe.mem (hnodup.sublist (List.take_sublist _ _)) hfits, ← List.take_eq_take_min]
  have hkept : ∀ a, a ∉ (addresses dest).take k → mem' a = t.pipe.mem a := fun a ha => Memory.store_of_not_mem _ ha
  obtain ⟨b', hb', hholds⟩ := h.consume ht.holds k
  have hdrop : t.channel.queue.drop k = t.channel.queue.drop (size dest) := List.drop_eq_drop_min.symm
  rw [hdrop] at hholds
  refine h.conveys_of ⟨{ t.pipe with buf := b', mem := mem', moved := .ok k },
    { t.channel with queue := t.channel.queue.drop (size dest) }⟩ ?_ ⟨rfl, htaken, fun a _ ha => hkept a ha⟩ ⟨?_, ?_⟩
  · simp only [Transfer.step, Pipe.step, hdata, hcopy, hb', ok_bind, pure_eq]
    rfl
  · exact h.congr hholds fun a ha => hkept a fun hd => hdest (List.mem_of_mem_take hd) ha
  · exact ht.stands.congr fun a ha => hkept a fun hd => hsrc ha (List.mem_of_mem_take hd)

theorem step (h : Conduit B storage N Holds) (hsrc : src.Disjoint storage) (ht : t.Inv Holds src) {c : PipeCall}
    (hc : c.Fits storage src) : Conveyed storage src Holds t c := by
  cases c with
  | put n bs => exact h.step_put hsrc ht n hc
  | pull n ec => exact h.step_pull hsrc ht n ec
  | take dest => exact h.step_take ht hc.1 hc.2.1 hc.2.2

/-- A run of calls is one of the channel. -/
theorem conveys (h : Conduit B storage N Holds) (hsrc : src.Disjoint storage) (ht : t.Inv Holds src) {calls : List PipeCall}
    (hcalls : ∀ c ∈ calls, c.Fits storage src) : Run.Every Transfer.step (Conveys storage) t calls :=
  Run.every_of_invariant (P := PipeCall.Fits storage src) (I := Transfer.Inv Holds src)
    (fun _ _ hc ht => h.step hsrc ht hc) ht hcalls

end Conduit

/-! ### What comes out -/

/-- A pipe with the bytes that the destinations have received. -/
structure Ledger (B σ : Type) where
  transfer : Transfer B σ
  departed : List Byte := []

/-- The number of bytes that the last call moved. -/
def Pipe.count (p : Pipe B σ) : Nat :=
  match p.moved with
  | .ok k => k
  | .error _ => 0

def Ledger.step (l : Ledger B σ) (c : PipeCall) : Checked (Ledger B σ) := do
  let t ← l.transfer.step c
  match c with
  | .take dest => return { transfer := t, departed := l.departed ++ ((addresses dest).take t.pipe.count).map t.pipe.mem }
  | _ => return { transfer := t, departed := l.departed }

/-- The program puts in nothing of its own. -/
def PipeCall.Flows (storage src : List Nat) (c : PipeCall) : Prop := c.Fits storage src ∧ ∀ n bs, c ≠ .put n bs

/-- What has come out, and then what is still in the buffer, is what the source has handed out; with the code of its
    last byte it is all of it. -/
structure Passed (l : Ledger B σ) (c : PipeCall) (l' : Ledger B σ) : Prop where
  seen : ∃ bufs, DynamicBuffer.data l'.transfer.pipe.buf = .ok bufs ∧
    l'.departed ++ (addresses bufs).map l'.transfer.pipe.mem = l'.transfer.channel.tape.seen
  all : ∀ n ec, c = .pull n ec → l'.transfer.pipe.moved.isOk = true → l'.transfer.pipe.ec.failed = true →
    l'.transfer.channel.tape.seen = l.transfer.channel.tape.items.drop l.transfer.channel.tape.start

namespace Conduit
variable {storage src : List Nat} {N : Nat} {Holds : B → Mem → List Byte → Prop} {l : Ledger B σ}

theorem passes (h : Conduit B storage N Holds) (hsrc : src.Disjoint storage) (ht : l.transfer.Inv Holds src)
    (hl : l.departed ++ l.transfer.channel.queue = l.transfer.channel.tape.seen) {c : PipeCall} (hc : c.Flows storage src) :
    ∃ l', l.step c = .ok l' ∧ Passed l c l' ∧ l'.transfer.Inv Holds src ∧
      l'.departed ++ l'.transfer.channel.queue = l'.transfer.channel.tape.seen := by
  obtain ⟨t', hstep, ⟨hreturns, bufs, hdata, hbytes⟩, ht'⟩ := h.step hsrc ht hc.1
  have hchannel : t'.channel = l.transfer.channel.step l.transfer.pipe.mem t'.pipe.moved.isOk c := by
    simp only [Transfer.step, bind_eq_ok, pure_eq] at hstep
    obtain ⟨p, -, hp⟩ := hstep
    cases hp
    rfl
  cases c with
  | put n bs => exact absurd rfl (hc.2 n bs)
  | pull n ec =>
    have hseen : l.departed ++ t'.channel.queue = t'.channel.tape.seen := by
      rw [hchannel]
      cases t'.pipe.moved.isOk with
      | false => exact hl
      | true =>
        have hread := Tape.seen_read ht.stands.sound n
        simp only [Channel.step, if_true, hread, ← hl, List.append_assoc]
    refine ⟨⟨t', l.departed⟩, by simp [Ledger.step, hstep], ⟨⟨bufs, hdata, by rw [hbytes, hseen]⟩, ?_⟩, ht', hseen⟩
    intro n' ec' he hok hfailed
    cases he
    obtain ⟨room, -, hgrant, -⟩ := hreturns
    simp only at hok hfailed
    have htape : t'.channel.tape = l.transfer.channel.tape.read n := by
      rw [hchannel, hok]
      rfl
    by_cases hn : n ≤ room
    · rw [if_pos hn, htape] at hgrant
      have hend : (l.transfer.channel.tape.read n).pos = l.transfer.channel.tape.items.length := by
        by_contra hne
        rw [hgrant.2, if_neg hne] at hfailed
        cases hfailed
      rw [htape]
      exact Tape.seen_of_end hend
    · rw [if_neg hn] at hgrant
      obtain ⟨e, he⟩ := hgrant
      rw [he] at hok
      cases hok
  | take dest =>
    obtain ⟨hmoved, htaken, -⟩ := hreturns
    have hcount : t'.pipe.count = min (size dest) l.transfer.channel.queue.length := by rw [Pipe.count, hmoved]
    have hseen : (l.departed ++ ((addresses dest).take t'.pipe.count).map t'.pipe.mem) ++ t'.channel.queue =
        t'.channel.tape.seen := by
      rw [hcount, htaken, hchannel, List.append_assoc]
      simp only [Channel.step, List.take_append_drop]
      exact hl
    refine ⟨⟨t', _⟩, by simp only [Ledger.step, hstep, ok_bind, pure_eq],
      ⟨⟨bufs, hdata, by rw [hbytes, hseen]⟩, ?_⟩, ht', hseen⟩
    exact fun _ _ he => by cases he

/-- Through any run of pulls and takes the bytes of the source come out in order, each once. -/
theorem delivers (h : Conduit B storage N Holds) (hsrc : src.Disjoint storage) {p : Pipe B σ} {tape : Tape Byte ErrorCode}
    (hp : Transfer.Inv Holds src ⟨p, ⟨tape, []⟩⟩) (hfresh : tape.start = tape.pos) {calls : List PipeCall}
    (hcalls : ∀ c ∈ calls, c.Flows storage src) : Run.Every Ledger.step Passed ⟨⟨p, ⟨tape, []⟩⟩, []⟩ calls := by
  have hseen : tape.seen = [] := by simp [Tape.seen, hfresh]
  refine Run.every_of_invariant (P := PipeCall.Flows storage src)
    (I := fun l => l.transfer.Inv Holds src ∧ l.departed ++ l.transfer.channel.queue = l.transfer.channel.tape.seen)
    (fun l c hc hl => ?_) ⟨hp, hseen.symm⟩ hcalls
  exact h.passes hsrc hl.1 hl.2 hc

end Conduit
end

/-! ### The buffers of the library -/

section
variable {base capacity : Nat}

theorem CircularBuffer.carries_ofReadable {initial_size : Nat} (hinit : initial_size ≤ capacity) (mem : Mem) :
    ∃ b, CircularBuffer.ofReadable base capacity initial_size = .ok b ∧
      Carries base capacity b mem ((List.range' base initial_size).map mem) := by
  obtain ⟨b, hb, hinv, hbase, hcap, hlive, houts⟩ := ofReadable_inv base hinit
  have hidle : b.out_size_ = 0 := by simpa [outs, length_ring] using congrArg List.length houts
  exact ⟨b, hb, hinv, hbase, hcap, hidle, by rw [hlive]⟩

theorem FlatBuffer.carries_ofStorage {initial_size : Nat} (hinit : initial_size ≤ capacity) (mem : Mem) :
    ∃ b, FlatBuffer.ofStorage base capacity initial_size = .ok b ∧
      Carries base capacity b mem ((List.range' base initial_size).map mem) := by
  refine ⟨{ data_ := base, cap_ := capacity, in_size_ := initial_size },
    by simp [ofStorage, Nat.not_lt.mpr hinit], ⟨?_, ?_⟩, rfl,
    rfl, rfl, rfl⟩
  · simpa using hinit
  · exact fun _ => rfl

variable {σ : Type} [StreamSource σ] {src : List Nat} {mem : Mem} {m : AnySource σ} {t : Tape Byte ErrorCode}

/-- Each buffer of the library, by itself or made empty by `make_any`, conveys what a program moves through it. A
    circular buffer has to have storage, and at most half the words of it. -/
theorem pipe_conveys (o : Overflow) {initial_size : Nat} (hinit : initial_size ≤ capacity)
    (hsrc : src.Disjoint (List.range' base capacity)) (hm : AnySource.Stands src mem m t) (calls : List PipeCall)
    (hcalls : ∀ c ∈ calls, c.Fits (List.range' base capacity) src) :
    (1 ≤ capacity ∧ capacity ≤ Word.half →
      (∃ b, CircularBuffer.ofReadable base capacity initial_size = .ok b ∧
        Run.Every Transfer.step (Conveys (List.range' base capacity))
          ⟨{ buf := (⟨b⟩ : WordCircularBuffer o), src := m, mem := mem }, ⟨t, (List.range' base initial_size).map mem⟩⟩
          calls) ∧
      ∃ b, CircularBuffer.ofReadable base capacity 0 = .ok b ∧
        Run.Every Transfer.step (Conveys (List.range' base capacity))
          ⟨{ buf := (.wrap ⟨b⟩ : AnyDynamicBufferImpl (WordCircularBuffer o) 8), src := m, mem := mem }, ⟨t, []⟩⟩ calls) ∧
    (∃ b, FlatBuffer.ofStorage base capacity initial_size = .ok b ∧
      Run.Every Transfer.step (Conveys (List.range' base capacity))
        ⟨{ buf := b, src := m, mem := mem }, ⟨t, (List.range' base initial_size).map mem⟩⟩ calls) ∧
    ∃ b, FlatBuffer.ofStorage base capacity 0 = .ok b ∧
      Run.Every Transfer.step (Conveys (List.range' base capacity))
        ⟨{ buf := (.wrap b : AnyDynamicBufferImpl FlatBuffer 8), src := m, mem := mem }, ⟨t, []⟩⟩ calls := by
  have hflat := conduit_flat base capacity
  refine ⟨fun ⟨hcap, hhalf⟩ => ?_, ?_, ?_⟩
  · have hcircular := conduit_circular o base hcap hhalf
    constructor
    · obtain ⟨b, hb, hcarries⟩ := CircularBuffer.carries_ofReadable hinit mem
      exact ⟨b, hb, hcircular.conveys hsrc ⟨hcarries, hm⟩ hcalls⟩
    · obtain ⟨b, hb, hcarries⟩ := CircularBuffer.carries_ofReadable (Nat.zero_le capacity) mem
      have hwide := hcircular.widen (show 2 ≤ 8 by decide)
      exact ⟨b, hb, hwide.erased.conveys hsrc ⟨hwide.carries_wrap hcarries, hm⟩ hcalls⟩
  · obtain ⟨b, hb, hcarries⟩ := FlatBuffer.carries_ofStorage hinit mem
    exact ⟨b, hb, hflat.conveys hsrc ⟨hcarries, hm⟩ hcalls⟩
  · obtain ⟨b, hb, hcarries⟩ := FlatBuffer.carries_ofStorage (Nat.zero_le capacity) mem
    have hwide := hflat.widen (show 1 ≤ 8 by decide)
    exact ⟨b, hb, hwide.erased.conveys hsrc ⟨hwide.carries_wrap hcarries, hm⟩ hcalls⟩

/-- Puts, pulls and takes, some of which are refused, through an erased circular buffer of four bytes. -/
theorem pipe_conveys_four :
    ∃ b, CircularBuffer.ofReadable 100 4 0 = .ok b ∧
      Run.Every Transfer.step (Conveys (List.range' 100 4))
        ⟨{ buf := (.wrap ⟨b⟩ : AnyDynamicBufferImpl (WordCircularBuffer .wraps) 8),
           src := (.dataModel ⟨.range [⟨0, 2⟩, ⟨10, 1⟩], 3, 0⟩ : AnySource MyReadSource), mem := fun a => a.toUInt8 },
          ⟨⟨[0, 1, 10], .eof, 0, 0⟩, []⟩⟩
        [.pull 2 .cleared, .put 3 [⟨50, 9⟩], .take [⟨200, 1⟩], .put 3 [⟨50, 9⟩], .take [⟨200, 1⟩, ⟨300, 3⟩],
          .pull 4 .cleared] := by
  have hm : AnySource.Stands [0, 1, 10] (fun a => a.toUInt8)
      (.dataModel ⟨.range [⟨0, 2⟩, ⟨10, 1⟩], 3, 0⟩ : AnySource MyReadSource)
      ⟨[0, 1, 10], .eof, 0, 0⟩ := .data rfl (by decide) ⟨rfl, rfl⟩ rfl ⟨Nat.le_refl _, Nat.zero_le _⟩
  refine ((pipe_conveys .wraps (Nat.zero_le 4) ?_ hm _ ?_).1 (by decide)).2
  · simp [List.Disjoint, List.range']
  · simp [PipeCall.Fits, List.Disjoint, Buffer.addresses, List.range']

/-- A source pulled through any of them, in pieces of any sizes, comes out whole and in order. -/
theorem pipe_delivers (o : Overflow) (hsrc : src.Disjoint (List.range' base capacity)) (hm : AnySource.Stands src mem m t)
    (hfresh : t.start = t.pos) (calls : List PipeCall) (hcalls : ∀ c ∈ calls, c.Flows (List.range' base capacity) src) :
    (1 ≤ capacity ∧ capacity ≤ Word.half → ∃ b, CircularBuffer.ofReadable base capacity 0 = .ok b ∧
      Run.Every Ledger.step Passed ⟨⟨{ buf := (⟨b⟩ : WordCircularBuffer o), src := m, mem := mem }, ⟨t, []⟩⟩, []⟩ calls ∧
      Run.Every Ledger.step Passed
        ⟨⟨{ buf := (.wrap ⟨b⟩ : AnyDynamicBufferImpl (WordCircularBuffer o) 8), src := m, mem := mem }, ⟨t, []⟩⟩, []⟩
        calls) ∧
    ∃ b, FlatBuffer.ofStorage base capacity 0 = .ok b ∧
      Run.Every Ledger.step Passed ⟨⟨{ buf := b, src := m, mem := mem }, ⟨t, []⟩⟩, []⟩ calls ∧
      Run.Every Ledger.step Passed
        ⟨⟨{ buf := (.wrap b : AnyDynamicBufferImpl FlatBuffer 8), src := m, mem := mem }, ⟨t, []⟩⟩, []⟩ calls := by
  have hflat := conduit_flat base capacity
  refine ⟨fun ⟨hcap, hhalf⟩ => ?_, ?_⟩
  · have hcircular := conduit_circular o base hcap hhalf
    obtain ⟨b, hb, hcarries⟩ := CircularBuffer.carries_ofReadable (Nat.zero_le capacity) mem
    have hwide := hcircular.widen (show 2 ≤ 8 by decide)
    exact ⟨b, hb, hcircular.delivers hsrc ⟨hcarries, hm⟩ hfresh hcalls,
      hwide.erased.delivers hsrc ⟨hwide.carries_wrap hcarries, hm⟩ hfresh hcalls⟩
  · obtain ⟨b, hb, hcarries⟩ := FlatBuffer.carries_ofStorage (Nat.zero_le capacity) mem
    have hwide := hflat.widen (show 1 ≤ 8 by decide)
    exact ⟨b, hb, hflat.delivers hsrc ⟨hcarries, hm⟩ hfresh hcalls,
      hwide.erased.delivers hsrc ⟨hwide.carries_wrap hcarries, hm⟩ hfresh hcalls⟩

/-- Three bytes through a flat buffer of two. -/
theorem pipe_delivers_two :
    ∃ b, FlatBuffer.ofStorage 100 2 0 = .ok b ∧
      Run.Every Ledger.step Passed
        ⟨⟨{ buf := b, src := (.dataModel ⟨.range [⟨0, 2⟩, ⟨10, 1⟩], 3, 0⟩ : AnySource MyReadSource),
            mem := fun a => a.toUInt8 },
          ⟨⟨[0, 1, 10], .eof, 0, 0⟩, []⟩⟩, []⟩
        [.pull 2 .cleared, .take [⟨200, 1⟩], .pull 2 .cleared, .take [⟨201, 1⟩], .pull 2 .cleared, .take [⟨202, 2⟩]] := by
  have hm : AnySource.Stands [0, 1, 10] (fun a => a.toUInt8)
      (.dataModel ⟨.range [⟨0, 2⟩, ⟨10, 1⟩], 3, 0⟩ : AnySource MyReadSource)
      ⟨[0, 1, 10], .eof, 0, 0⟩ := .data rfl (by decide) ⟨rfl, rfl⟩ rfl ⟨Nat.le_refl _, Nat.zero_le _⟩
  have hsrc : [0, 1, 10].Disjoint (List.range' 100 2) := by simp [List.Disjoint, List.range']
  have hcalls : ∀ c ∈ ([.pull 2 .cleared, .take [⟨200, 1⟩], .pull 2 .cleared, .take [⟨201, 1⟩], .pull 2 .cleared,
      .take [⟨202, 2⟩]] : List PipeCall), c.Flows (List.range' 100 2) [0, 1, 10] := by
    simp [PipeCall.Flows, PipeCall.Fits, List.Disjoint, Buffer.addresses, List.range']
  obtain ⟨b, hb, hrun, -⟩ := (pipe_delivers .wraps hsrc hm rfl _ hcalls).2
  exact ⟨b, hb, hrun⟩

end

end Buffers
