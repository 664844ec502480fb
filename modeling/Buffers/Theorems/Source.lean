import Buffers.AnySource
import Buffers.AnyReadSource
import Buffers.Lib.Batches

/-! # Batched reads

Both type-erased read loops make one call for each group of sixteen destination buffers, until a call fails
(`anySource_readLoop_eq`, `anyReadSource_readLoop_eq`). A reader that delivers the bytes of a stream, and fails when
it has delivered the last one, delivers the same through these calls as through one (`untilStop_deliver`). -/

namespace Buffers
open Checked

/-! ### The loops -/

section
variable {σ : Type} {read : Read σ}

theorem pushBatch_of_lt {mb : List Buffer} (h : mb.length < batchSize) (b : Buffer) : pushBatch mb b = .ok (mb ++ [b]) :=
  if_pos h

/-- The calls of a loop on a destination cut into batches. -/
def readBatches (read : Read σ) (mb it : List Buffer) (r : ReadResult σ) : Checked (ReadResult σ) :=
  untilStop (fun r => r.ec.failed) (readBatch read) (batches batchSize mb it) r

theorem anySource_readLoop_eq {it mb : List Buffer} (hit : it ≠ []) (hmb : mb.length < batchSize) (r : ReadResult σ) :
    AnySource.readLoop read it mb r = readBatches read mb it r := by
  induction it generalizing mb r with
  | nil => exact absurd rfl hit
  | cons b it ih =>
    unfold AnySource.readLoop readBatches batches
    simp only [pushBatch_of_lt hmb, ok_bind, List.length_append, List.length_singleton]
    by_cases hroom : mb.length + 1 < batchSize
    · cases it with
      | nil => simp [hroom, batches, untilStop]
      | cons b' it' =>
        have hnext := ih (List.cons_ne_nil b' it') (show (mb ++ [b]).length < batchSize by simpa using hroom) r
        simp only [hroom, ne_eq, reduceCtorEq, not_false_eq_true, and_self, if_true]
        exact hnext
    · simp only [hroom, false_and, if_false, untilStop]
      refine congrArg (readBatch read (mb ++ [b]) r >>= ·) (funext fun s => ?_)
      split
      · rfl
      · cases it with
        | nil => rfl
        | cons b' it' => exact ih (List.cons_ne_nil b' it') (by decide) s

theorem anyReadSource_readLoop_eq {it mb : List Buffer} (hmb : mb.length < batchSize) (r : ReadResult σ) :
    AnyReadSource.readLoop read it mb r = readBatches read mb it r := by
  induction it generalizing mb r with
  | nil =>
    cases mb with
    | nil => rfl
    | cons b mb => simp [AnyReadSource.readLoop, readBatches, batches, untilStop]
  | cons b it ih =>
    unfold AnyReadSource.readLoop readBatches batches
    simp only [pushBatch_of_lt hmb, ok_bind, List.length_append, List.length_singleton]
    by_cases hroom : mb.length + 1 < batchSize
    · simp only [hroom, if_true]
      exact ih (by simpa using hroom) r
    · simp only [hroom, if_false, untilStop]
      refine congrArg (readBatch read (mb ++ [b]) r >>= ·) (funext fun s => ?_)
      split
      · rfl
      · exact ih (by decide) s

end

/-! ### Delivering a stream -/

/-- The number of bytes that a read at position `p` delivers. -/
def delivered (D : List Byte) (p : Nat) (dest : List Buffer) : Nat := min (size dest) (D.length - p)

/-- What a read at position `p` of the stream `D` does: it stores the next bytes at the first addresses of the
    destination, and sets `e` with the last byte. -/
def deliver {σ : Type} (D : List Byte) (e : ErrorCode) (p : Nat) (dest : List Buffer) (mem : Mem) (src : σ) :
    ReadResult σ :=
  { count := delivered D p dest,
    ec := if p + delivered D p dest = D.length then e else .cleared,
    src := src,
    mem := mem.store ((addresses dest).take (delivered D p dest)) ((D.drop p).take (delivered D p dest)) }

/-- A result that adds to a count of `n`. -/
def ReadResult.after {σ : Type} (n : Nat) (r : ReadResult σ) : ReadResult σ := { r with count := n + r.count }

section
variable {σ : Type} {D : List Byte} {e : ErrorCode} {p : Nat} {mem : Mem}

theorem delivered_le (dest : List Buffer) (hp : p ≤ D.length) : p + delivered D p dest ≤ D.length := by
  unfold delivered
  omega

theorem delivered_eq_size {dest : List Buffer} (hp : p ≤ D.length) (h : p + delivered D p dest ≠ D.length) :
    delivered D p dest = size dest := by
  unfold delivered at h ⊢
  omega

theorem deliver_append_of_end (e : ErrorCode) (mem : Mem) {g : List Buffer} (gs : List Buffer) (hp : p ≤ D.length)
    (hend : p + delivered D p g = D.length) (s : σ) :
    deliver D e p (g ++ gs) mem s = deliver D e p g mem s := by
  have hn : delivered D p (g ++ gs) = delivered D p g := by
    unfold delivered at hend ⊢
    rw [size_append]
    omega
  have hle : delivered D p g ≤ (addresses g).length := by
    rw [← size_eq]
    exact Nat.min_le_left _ _
  simp only [deliver, hn, addresses_append, List.take_append_of_le_length hle]

/-- A read that does not reach the end in the first part goes on in the rest. -/
theorem deliver_append_of_not_end (e : ErrorCode) (mem : Mem) {g : List Buffer} (gs : List Buffer) (hp : p ≤ D.length)
    (hend : p + delivered D p g ≠ D.length) (s t : σ) :
    deliver D e p (g ++ gs) mem s =
      (deliver D e (p + delivered D p g) gs (deliver D e p g mem t).mem s).after (delivered D p g) := by
  have hfull := delivered_eq_size hp hend
  have hle := delivered_le g hp
  have hn : delivered D p (g ++ gs) = delivered D p g + delivered D (p + delivered D p g) gs := by
    unfold delivered at hfull hle ⊢
    rw [size_append]
    omega
  have hlen : delivered D p g = (addresses g).length := by rw [hfull, size_eq]
  have hdata : (addresses g).length = ((D.drop p).take (delivered D p g)).length := by
    rw [List.length_take, List.length_drop, ← hlen]
    omega
  have hmem : mem.store ((addresses (g ++ gs)).take (delivered D p (g ++ gs))) ((D.drop p).take (delivered D p (g ++ gs))) =
      (deliver D e p g mem t).mem.store ((addresses gs).take (delivered D (p + delivered D p g) gs))
        ((D.drop (p + delivered D p g)).take (delivered D (p + delivered D p g) gs)) := by
    have htake : (addresses g).take (delivered D p g) = addresses g := by rw [hlen, List.take_length]
    rw [hn, addresses_append, List.take_append, List.take_add (l := D.drop p), List.drop_drop]
    rw [List.take_of_length_le (l := addresses g) (by omega), ← hlen, Nat.add_sub_cancel_left,
      Memory.store_append mem hdata]
    simp only [deliver, htake]
  simp only [deliver, ReadResult.after] at hmem ⊢
  rw [hmem, hn, Nat.add_assoc]

/-- What the read loops need of a reader at position `p`: it delivers, and is ready for the next call unless
    that was the last byte. -/
def Reads (read : Read σ) (D : List Byte) (e : ErrorCode) (Fits : List Buffer → Prop) (At Past : σ → Mem → Nat → Prop) :
    Prop :=
  ∀ s dest ec mem p, At s mem p → p ≤ D.length → Fits dest →
    ∃ t, read s dest ec mem = .ok (deliver D e p dest mem t) ∧
      Past t (deliver D e p dest mem t).mem (p + delivered D p dest) ∧
      (p + delivered D p dest ≠ D.length → At t (deliver D e p dest mem t).mem (p + delivered D p dest))

/-- A call that delivers passes the assertion after it. -/
theorem readBatch_deliver {read : Read σ} (he : e.failed = true) (hp : p ≤ D.length) {g : List Buffer}
    {r : ReadResult σ} {t : σ} (ht : read r.src g r.ec r.mem = .ok (deliver D e p g r.mem t)) :
    readBatch read g r = .ok ((deliver D e p g r.mem t).after r.count) := by
  have hassert : (deliver D e p g r.mem t).ec.failed = true ∨ (deliver D e p g r.mem t).count = size g := by
    by_cases hend : p + delivered D p g = D.length
    · exact Or.inl (by simp [deliver, hend, he])
    · exact Or.inr (delivered_eq_size hp hend)
  simp only [readBatch, ht, ok_bind, assert_of hassert]
  rfl

/-- A condition on destinations that goes over to their parts. -/
def Splits (Fits : List Buffer → Prop) : Prop :=
  ∀ as bs, as ≠ [] → Fits (as ++ bs) → Fits as ∧ (bs ≠ [] → Fits bs)

theorem splits_true : Splits fun _ => True := fun _ _ _ _ => ⟨trivial, fun _ => trivial⟩

theorem splits_disjoint (src : List Nat) : Splits fun dest => src.Disjoint (addresses dest) := by
  intro as bs _ hF
  rw [addresses_append, List.disjoint_append_right] at hF
  exact ⟨hF.1, fun _ => hF.2⟩

theorem Splits.and_ne_nil {Fits : List Buffer → Prop} (h : Splits Fits) : Splits fun dest => dest ≠ [] ∧ Fits dest := by
  intro as bs has hF
  obtain ⟨hleft, hright⟩ := h as bs has hF.2
  exact ⟨⟨has, hleft⟩, fun hbs => ⟨hbs, hright hbs⟩⟩

/-- The calls of a loop deliver what one call delivers. -/
theorem untilStop_deliver {read : Read σ} {Fits : List Buffer → Prop} {At Past : σ → Mem → Nat → Prop}
    (hread : Reads read D e Fits At Past) (he : e.failed = true) (hfits : Splits Fits) {gs : List (List Buffer)}
    (hgs : gs ≠ []) (hne : ∀ g ∈ gs, g ≠ []) {r : ReadResult σ} (hAt : At r.src r.mem p) (hp : p ≤ D.length)
    (hF : Fits gs.flatten) :
    ∃ t, untilStop (fun r => r.ec.failed) (readBatch read) gs r =
        .ok ((deliver D e p gs.flatten r.mem t).after r.count) ∧
      Past t (deliver D e p gs.flatten r.mem t).mem (p + delivered D p gs.flatten) := by
  induction gs generalizing r p with
  | nil => exact absurd rfl hgs
  | cons g gs ih =>
    rw [List.forall_mem_cons] at hne
    rw [List.flatten_cons] at hF
    obtain ⟨hFg, hFgs⟩ := hfits _ _ hne.1 hF
    obtain ⟨t, ht, hpast, hnext⟩ := hread r.src g r.ec r.mem p hAt hp hFg
    rw [untilStop, readBatch_deliver he hp ht, ok_bind, List.flatten_cons]
    by_cases hend : p + delivered D p g = D.length
    · have hstop : (deliver D e p g r.mem t).ec.failed = true := by simp [deliver, hend, he]
      have hsame := deliver_append_of_end e r.mem gs.flatten hp hend t
      have hcount : delivered D p (g ++ gs.flatten) = delivered D p g := congrArg ReadResult.count hsame
      exact ⟨t, by rw [hsame]; exact if_pos hstop, by rw [hsame, hcount]; exact hpast⟩
    · have hgo : ¬((deliver D e p g r.mem t).after r.count).ec.failed = true := by
        simp [ReadResult.after, deliver, hend, ErrorCode.failed, ErrorCode.cleared]
      rw [if_neg hgo]
      cases gs with
      | nil => exact ⟨t, by rw [List.flatten_nil, List.append_nil]; rfl, by simpa using hpast⟩
      | cons g' gs' =>
        have hsome : (g' :: gs').flatten ≠ [] := by
          rw [List.flatten_cons]
          exact List.append_ne_nil_of_left_ne_nil (hne.2 g' List.mem_cons_self) _
        obtain ⟨u, hu, hpast'⟩ := ih (List.cons_ne_nil g' gs') hne.2 (r := (deliver D e p g r.mem t).after r.count)
          (hnext hend)
          (delivered_le g hp) (hFgs hsome)
        have hsplit := deliver_append_of_not_end e r.mem (g' :: gs').flatten hp hend u t
        have hcount : delivered D p (g ++ (g' :: gs').flatten) =
            delivered D p g + delivered D (p + delivered D p g) (g' :: gs').flatten := congrArg ReadResult.count hsplit
        refine ⟨u, ?_, ?_⟩
        · rw [hu, hsplit]
          simp only [ReadResult.after, deliver, Nat.add_assoc]
        · rw [hcount, hsplit, ← Nat.add_assoc]
          exact hpast'

theorem readBatches_deliver {read : Read σ} {Fits : List Buffer → Prop} {At Past : σ → Mem → Nat → Prop}
    (hread : Reads read D e Fits At Past) (he : e.failed = true) (hfits : Splits Fits)
    {dest : List Buffer} (hdest : dest ≠ []) (ec : ErrorCode) {s : σ} (hAt : At s mem p) (hp : p ≤ D.length)
    (hF : Fits dest) :
    ∃ t, readBatches read [] dest { count := 0, ec := ec, src := s, mem := mem } = .ok (deliver D e p dest mem t) ∧
      Past t (deliver D e p dest mem t).mem (p + delivered D p dest) := by
  have hflat := flatten_batches batchSize [] dest
  rw [List.nil_append] at hflat
  have hgs := batches_ne_nil batchSize (List.append_ne_nil_of_right_ne_nil [] hdest)
  obtain ⟨t, ht, hpast⟩ := untilStop_deliver hread he hfits hgs (batches_nonempty batchSize [] dest)
    (r := { count := 0, ec := ec, src := s, mem := mem }) hAt hp (hflat.symm ▸ hF)
  rw [hflat] at ht hpast
  refine ⟨t, ht.trans ?_, hpast⟩
  simp only [ReadResult.after, deliver, Nat.zero_add]

theorem anySource_read_deliver [AnyImpl σ] {Fits : List Buffer → Prop} {At Past : σ → Mem → Nat → Prop}
    (hread : Reads AnyImpl.read D e Fits At Past) (he : e.failed = true)
    (hfits : Splits Fits) {dest : List Buffer} (hdest : dest ≠ []) (ec : ErrorCode) {s : σ}
    (hAt : At s mem p) (hp : p ≤ D.length) (hF : Fits dest) :
    ∃ t, AnySource.read s dest ec mem = .ok (deliver D e p dest mem t) ∧
      Past t (deliver D e p dest mem t).mem (p + delivered D p dest) := by
  have hloop : AnySource.readLoop AnyImpl.read dest [] { count := 0, ec := ec, src := s, mem := mem } = _ :=
    anySource_readLoop_eq hdest (by decide) _
  simp only [AnySource.read, hdest, if_false, hloop]
  exact readBatches_deliver hread he hfits hdest ec hAt hp hF

theorem anyReadSource_read_deliver [ReadSource σ] {Fits : List Buffer → Prop}
    {At Past : ReadSourceImpl σ → Mem → Nat → Prop}
    (hread : Reads ReadSourceImpl.doRead D e Fits At Past) (he : e.failed = true)
    (hfits : Splits Fits) {dest : List Buffer} (hdest : dest ≠ []) (ec : ErrorCode)
    {s : ReadSourceImpl σ} (hAt : At s mem p) (hp : p ≤ D.length) (hF : Fits dest) :
    ∃ t, AnyReadSource.read s dest ec mem = .ok (deliver D e p dest mem t) ∧
      Past t (deliver D e p dest mem t).mem (p + delivered D p dest) := by
  rw [AnyReadSource.read, anyReadSource_readLoop_eq (by decide)]
  exact readBatches_deliver hread he hfits hdest ec hAt hp hF

end

end Buffers
