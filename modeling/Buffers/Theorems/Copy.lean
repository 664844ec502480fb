import Buffers.Copy

/-! # `copy` is exact

Whatever the segmentations, `copy` ends and stores the first bytes of the source at the first addresses of
the destination, in order (`copy_eq`). The loop invariant `CopyInv` says that the cursors stand `total` bytes
into the two address lists and that the first `total` bytes are stored. -/

namespace Buffers
open Checked

/-- `n`, but at most the bound. -/
def capped (atMost : Option Nat) (n : Nat) : Nat := atMost.elim n (min n)

theorem capped_le {atMost : Option Nat} {n : Nat} : capped atMost n ≤ n := by
  cases atMost with
  | none => exact Nat.le_refl _
  | some m => exact Nat.min_le_left n m

theorem capped_le_most {atMost : Option Nat} {n m : Nat} (hm : m ∈ atMost) : capped atMost n ≤ m := by
  cases hm
  exact Nat.min_le_right n m

theorem le_capped {atMost : Option Nat} {k n : Nat} (hn : k ≤ n) (hm : ∀ m ∈ atMost, k ≤ m) : k ≤ capped atMost n := by
  cases atMost with
  | none => exact hn
  | some m => exact Nat.le_min.mpr ⟨hn, hm m rfl⟩

/-! ### Cursors -/

/-- The addresses from a cursor on. -/
def Cursor.rest (c : Cursor) : List Nat := (addresses c.it).drop c.pos

def Cursor.Inside (c : Cursor) : Prop := ∀ b ∈ c.it.head?, c.pos ≤ b.size

theorem Cursor.advance_spec {c : Cursor} {b : Buffer} {bs : List Buffer} (hit : c.it = b :: bs) (h : c.Inside)
    {amount : Nat} (ha : amount ≤ (b.addAssign c.pos).size) :
    (c.advance (b.addAssign c.pos) amount).rest = c.rest.drop amount ∧
      (c.advance (b.addAssign c.pos) amount).Inside := by
  have hpos : c.pos ≤ b.size := h b (by rw [hit]; rfl)
  rw [Buffer.size_addAssign] at ha
  unfold Cursor.advance
  rw [Buffer.size_addAssign]
  by_cases hfull : amount = b.size - c.pos
  · rw [if_pos hfull]
    refine ⟨?_, fun _ _ => Nat.zero_le _⟩
    have hlen : b.addresses.length = c.pos + amount := by
      rw [Buffer.length_addresses]
      omega
    simp only [rest, hit, List.tail_cons, List.drop_drop, addresses_cons, List.drop_zero]
    rw [← hlen, List.drop_left]
  · rw [if_neg hfull]
    refine ⟨by simp [rest, List.drop_drop], fun b' hb' => ?_⟩
    simp only [hit] at hb'
    obtain rfl := Option.some.inj hb'
    show c.pos + amount ≤ b.size
    omega

theorem Cursor.take_rest {c : Cursor} {b : Buffer} {bs : List Buffer} (hit : c.it = b :: bs) (h : c.Inside)
    {amount : Nat} (ha : amount ≤ (b.addAssign c.pos).size) :
    List.range' (b.addAssign c.pos).data amount = c.rest.take amount := by
  have hpos : c.pos ≤ b.size := h b (by rw [hit]; rfl)
  have htake : List.range' (b.addAssign c.pos).data amount = (b.addAssign c.pos).addresses.take amount := by
    rw [Buffer.addresses, List.take_range'_of_length_ge ha]
  rw [htake, Buffer.addresses_addAssign, rest, hit, addresses_cons]
  rw [List.drop_append_of_le_length (by simpa using hpos), List.take_append_of_le_length]
  rw [← Buffer.addresses_addAssign, Buffer.length_addresses]
  exact ha

/-! ### The loop -/

section
variable {dest src : List Buffer} {mem : Mem} {atMost : Option Nat}

structure CopyInv (dest src : List Buffer) (mem : Mem) (atMost : Option Nat) (s : CopyState) : Prop where
  src_rest : s.src.rest = (addresses src).drop s.total
  dest_rest : s.dest.rest = (addresses dest).drop s.total
  src_inside : s.src.Inside
  dest_inside : s.dest.Inside
  le_src : s.total ≤ (addresses src).length
  le_dest : s.total ≤ (addresses dest).length
  le_most : ∀ m ∈ atMost, s.total ≤ m
  mem_eq : s.mem = mem.store ((addresses dest).take s.total) (((addresses src).take s.total).map mem)

def copySize (dest src : List Buffer) (atMost : Option Nat) : Nat := capped atMost (min (size dest) (size src))

structure Copied (dest src : List Buffer) (mem : Mem) (atMost : Option Nat) (r : Nat × Mem) : Prop where
  count : r.1 = copySize dest src atMost
  mem_eq : r.2 = mem.store ((addresses dest).take (copySize dest src atMost))
    (((addresses src).take (copySize dest src atMost)).map mem)

theorem copySize_le_src : copySize dest src atMost ≤ (addresses src).length := by
  rw [← size_eq]
  exact Nat.le_trans capped_le (Nat.min_le_right _ _)

theorem copySize_le_dest : copySize dest src atMost ≤ (addresses dest).length := by
  rw [← size_eq]
  exact Nat.le_trans capped_le (Nat.min_le_left _ _)

/-- When a cursor is at its end, the whole sequence is behind it. -/
theorem length_le_of_rest {c : Cursor} {as : List Nat} {n : Nat} (h : c.rest = as.drop n) (hit : c.it = []) :
    as.length ≤ n := by
  rw [Cursor.rest, hit, addresses_nil, List.drop_nil] at h
  exact List.drop_eq_nil_iff.mp h.symm

theorem CopyInv.copied {s : CopyState} (h : CopyInv dest src mem atMost s)
    (hend : below s.total atMost = false ∨ s.src.it = [] ∨ s.dest.it = []) :
    Copied dest src mem atMost (s.total, s.mem) := by
  have hle : s.total ≤ copySize dest src atMost := by
    refine le_capped ?_ h.le_most
    rw [size_eq, size_eq]
    exact Nat.le_min.mpr ⟨h.le_dest, h.le_src⟩
  have hge : copySize dest src atMost ≤ s.total := by
    rcases hend with hb | hnil | hnil
    · cases atMost with
      | none => simp [below] at hb
      | some m =>
        simp only [below, Option.all_some, decide_eq_false_iff_not, Nat.not_lt] at hb
        exact Nat.le_trans (capped_le_most rfl) hb
    · exact Nat.le_trans copySize_le_src (length_le_of_rest h.src_rest hnil)
    · exact Nat.le_trans copySize_le_dest (length_le_of_rest h.dest_rest hnil)
  have hcount := Nat.le_antisymm hle hge
  exact ⟨hcount, hcount ▸ h.mem_eq⟩

/-- A block fits into both buffers and under the bound; a block that uses up neither buffer reaches the
    bound. -/
theorem blockSize_spec (b0 b1 : Buffer) {total : Nat} (hb : below total atMost = true) :
    ∃ n, blockSize b0 b1 total atMost = .ok n ∧ n ≤ b0.size ∧ n ≤ b1.size ∧ (∀ m ∈ atMost, total + n ≤ m) ∧
      (n = b0.size ∨ n = b1.size ∨ ∃ m ∈ atMost, total + n = m) := by
  unfold blockSize
  cases atMost with
  | none =>
    refine ⟨_, rfl, ?_, ?_, by simp, ?_⟩ <;> split <;> omega
  | some m =>
    simp only [below, Option.all_some, decide_eq_true_eq] at hb
    refine ⟨_, by simp only [sub_of_le (Nat.le_of_lt hb), ok_bind]; rfl, ?_, ?_, ?_, ?_⟩
    · split <;> split <;> omega
    · split <;> split <;> omega
    · simp only [Option.mem_def, Option.some.injEq]
      rintro m rfl
      split <;> split <;> omega
    · simp only [Option.mem_def, Option.some.injEq, exists_eq_left']
      split <;> split <;> omega

/-- The rounds that are left: one for each buffer, and one for the block that reaches the bound. -/
def copyMeasure (atMost : Option Nat) (s : CopyState) : Nat :=
  s.src.it.length + s.dest.it.length + (below s.total atMost).toNat

theorem length_advance {c : Cursor} {b : Buffer} {bs : List Buffer} (hit : c.it = b :: bs) (b' : Buffer) (n : Nat) :
    (c.advance b' n).it.length ≤ c.it.length ∧ (n = b'.size → (c.advance b' n).it.length < c.it.length) := by
  unfold Cursor.advance
  split
  · simp [hit]
  · rename_i h
    exact ⟨Nat.le_refl _, fun h' => absurd h' h⟩

/-- The source is not written, so a block moves what the source held at the start. -/
theorem CopyInv.mem_block (hdisj : (addresses src).Disjoint (addresses dest)) {s : CopyState}
    (h : CopyInv dest src mem atMost s) {b0 b1 : Buffer} {n : Nat} (h0 : List.range' b0.data n = s.src.rest.take n)
    (h1 : List.range' b1.data n = s.dest.rest.take n) :
    (if n ≠ 0 then s.mem.memcpy b1.data b0.data n else s.mem) =
      mem.store ((addresses dest).take (s.total + n)) (((addresses src).take (s.total + n)).map mem) := by
  have hsame : (s.src.rest.take n).map s.mem = (s.src.rest.take n).map mem := by
    rw [h.mem_eq, h.src_rest]
    refine Memory.map_store_of_disjoint mem fun a ha hd => ?_
    exact hdisj (List.mem_of_mem_drop (List.mem_of_mem_take ha)) (List.mem_of_mem_take hd)
  have hstore : (if n ≠ 0 then s.mem.memcpy b1.data b0.data n else s.mem) =
      s.mem.store (s.dest.rest.take n) ((s.src.rest.take n).map mem) := by
    by_cases hz : n = 0
    · simp [hz]
    · rw [if_pos hz, Memory.memcpy_eq_store, h0, h1, hsame]
  have hlen : ((addresses dest).take s.total).length = (((addresses src).take s.total).map mem).length := by
    rw [List.length_map, List.length_take_of_le h.le_dest, List.length_take_of_le h.le_src]
  rw [hstore, h.mem_eq, h.dest_rest, h.src_rest, List.take_add, List.take_add, List.map_append,
    Memory.store_append mem hlen]

/-- A round uses up a buffer or reaches the bound. -/
theorem copyMeasure_lt {s t : CopyState} {b0 b1 b0' b1' : Buffer} {src' dest' : List Buffer} {n : Nat}
    (hb : below s.total atMost = true) (h0 : s.src.it = b0 :: src') (h1 : s.dest.it = b1 :: dest')
    (hsrc : t.src = s.src.advance b0' n) (hdest : t.dest = s.dest.advance b1' n) (htotal : t.total = s.total + n)
    (hstop : n = b0'.size ∨ n = b1'.size ∨ ∃ m ∈ atMost, s.total + n = m) :
    copyMeasure atMost t < copyMeasure atMost s := by
  obtain ⟨hle0, hlt0⟩ := length_advance h0 b0' n
  obtain ⟨hle1, hlt1⟩ := length_advance h1 b1' n
  have hbool := Bool.toNat_le (below (s.total + n) atMost)
  simp only [copyMeasure, hsrc, hdest, htotal, hb, Bool.toNat_true]
  rcases hstop with he | he | ⟨m, hm, he⟩
  · have := hlt0 he
    omega
  · have := hlt1 he
    omega
  · have hfalse : below (s.total + n) atMost = false := by
      cases hm
      simp [below, he]
    rw [hfalse, Bool.toNat_false]
    omega

theorem CopyInv.round (hdisj : (addresses src).Disjoint (addresses dest)) {s : CopyState}
    (h : CopyInv dest src mem atMost s) :
    Round (copyBody atMost) (CopyInv dest src mem atMost) (copyMeasure atMost) (Copied dest src mem atMost) s := by
  cases hb : below s.total atMost with
  | false => exact Or.inl ⟨_, by simp [copyBody, hb], h.copied (Or.inl hb)⟩
  | true =>
    cases h0 : s.src.it with
    | nil => exact Or.inl ⟨_, by simp [copyBody, hb, h0], h.copied (Or.inr (Or.inl h0))⟩
    | cons b0 src' =>
      cases h1 : s.dest.it with
      | nil => exact Or.inl ⟨_, by simp [copyBody, hb, h0, h1], h.copied (Or.inr (Or.inr h1))⟩
      | cons b1 dest' =>
        obtain ⟨n, hn, hn0, hn1, hmost, hstop⟩ :=
          blockSize_spec (b0.addAssign s.src.pos) (b1.addAssign s.dest.pos) hb
        obtain ⟨hrest0, hin0⟩ := Cursor.advance_spec h0 h.src_inside hn0
        obtain ⟨hrest1, hin1⟩ := Cursor.advance_spec h1 h.dest_inside hn1
        have htake0 := Cursor.take_rest h0 h.src_inside hn0
        have htake1 := Cursor.take_rest h1 h.dest_inside hn1
        have hlen0 := congrArg List.length htake0
        have hlen1 := congrArg List.length htake1
        rw [h.src_rest, List.length_range', List.length_take, List.length_drop] at hlen0
        rw [h.dest_rest, List.length_range', List.length_take, List.length_drop] at hlen1
        have hle0 := h.le_src
        have hle1 := h.le_dest
        refine Or.inr ⟨_, by simp only [copyBody, hb, h0, h1, hn, ok_bind]; rfl,
          ⟨?_, ?_, hin0, hin1, ?_, ?_, hmost, h.mem_block hdisj htake0 htake1⟩, copyMeasure_lt hb h0 h1 rfl rfl rfl hstop⟩
        · rw [hrest0, h.src_rest, List.drop_drop]
        · rw [hrest1, h.dest_rest, List.drop_drop]
        · simp only
          omega
        · simp only
          omega

/-- `copy` stores the first bytes of the source at the first addresses of the destination. -/
theorem copy_eq (dest src : List Buffer) (mem : Mem) (atMost : Option Nat)
    (hdisj : (addresses src).Disjoint (addresses dest)) :
    copy dest src mem atMost = .ok (copySize dest src atMost,
      mem.store ((addresses dest).take (copySize dest src atMost))
        (((addresses src).take (copySize dest src atMost)).map mem)) := by
  have hstart : CopyInv dest src mem atMost
      { mem := mem, total := 0, src := { it := src, pos := 0 }, dest := { it := dest, pos := 0 } } :=
    ⟨rfl, rfl, fun _ _ => Nat.zero_le _, fun _ _ => Nat.zero_le _, Nat.zero_le _, Nat.zero_le _,
      fun _ _ => Nat.zero_le _, rfl⟩
  have hloop : ∃ r, copy dest src mem atMost = .ok r ∧ Copied dest src mem atMost r := by
    refine loop_spec (fun s hs => CopyInv.round hdisj hs) hstart ?_
    have := Bool.toNat_le (below 0 atMost)
    simp only [copyMeasure]
    omega
  obtain ⟨⟨k, m⟩, hr, hk, hm⟩ := hloop
  simp only at hk hm
  rw [← hk]
  rw [← hk] at hm
  rw [← hm]
  exact hr

end

/-- `copy` ends and returns the number of bytes it moved; it moves them in order, changes nothing else,
    and its result depends on the addresses and not on how they are split into buffers. -/
theorem copy_exact (dest src : List Buffer) (mem : Mem) (atMost : Option Nat) (hnodup : (addresses dest).Nodup)
    (hdisj : (addresses src).Disjoint (addresses dest)) :
    ∃ k mem', copy dest src mem atMost = .ok (k, mem') ∧ k = capped atMost (min (size dest) (size src)) ∧
      ((addresses dest).take k).map mem' = ((addresses src).take k).map mem ∧
      (∀ a, a ∉ (addresses dest).take k → mem' a = mem a) ∧
      ∀ dest' src', addresses dest' = addresses dest → addresses src' = addresses src →
        copy dest' src' mem atMost = .ok (k, mem') := by
  have hle : copySize dest src atMost ≤ min (size dest) (size src) := capped_le
  refine ⟨_, _, copy_eq dest src mem atMost hdisj, rfl, ?_, fun a ha => Memory.store_of_not_mem mem ha, ?_⟩
  · refine Memory.map_store mem (hnodup.sublist (List.take_sublist _ _)) ?_
    rw [size_eq, size_eq] at hle
    simp only [List.length_map, List.length_take]
    omega
  · intro dest' src' hd hs
    have hsize : copySize dest' src' atMost = copySize dest src atMost := by simp only [copySize, size_eq, hd, hs]
    rw [copy_eq dest' src' mem atMost (by rw [hs, hd]; exact hdisj), hsize, hd, hs]

/-- Five bytes in two buffers copied into three buffers, one of them empty, with a bound of four. -/
theorem copy_exact_segments :
    ∃ k mem', copy [⟨20, 1⟩, ⟨30, 0⟩, ⟨40, 9⟩] [⟨0, 2⟩, ⟨10, 3⟩] (fun a => a.toUInt8) (some 4) = .ok (k, mem') ∧ k = 4 ∧
      [20, 40, 41, 42].map mem' = [0, 1, 10, 11] := by
  obtain ⟨k, mem', hcopy, hk, hbytes, -⟩ := copy_exact [⟨20, 1⟩, ⟨30, 0⟩, ⟨40, 9⟩] [⟨0, 2⟩, ⟨10, 3⟩]
    (fun a => a.toUInt8) (some 4) (by decide) (by unfold List.Disjoint; decide)
  obtain rfl : k = 4 := hk
  exact ⟨4, mem', hcopy, rfl, hbytes⟩

end Buffers
