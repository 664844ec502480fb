import Buffers.FlatBuffer
import Buffers.Lib.Run

/-! # The flat buffer and interleaved consumes

A commit finds the output area behind the readable bytes. A consume that leaves readable bytes keeps that
place; a consume that empties the buffer moves the readable bytes to the start of the storage and leaves the
size of the output area behind. A commit of that output then makes other bytes readable than the ones that
were handed out, and in no other case (`flat_honest_iff`). -/

namespace Buffers
open Checked

namespace FlatBuffer

structure Inv (b : FlatBuffer) : Prop where
  fits : b.in_pos_ + b.in_size_ + b.out_size_ ≤ b.cap_
  empty : b.in_size_ = 0 → b.in_pos_ = 0

def live (b : FlatBuffer) : List Nat := b.data.addresses

theorem commit_eq (b : FlatBuffer) (n : Nat) :
    b.commit n = { b with in_size_ := b.in_size_ + min n b.out_size_, out_size_ := 0 } := by
  rw [commit, commitSize_eq]

theorem consume_of_lt {b : FlatBuffer} {n : Nat} (hn : n < b.in_size_) :
    b.consume n = .ok { b with in_pos_ := b.in_pos_ + n, in_size_ := b.in_size_ - n } := by
  simp [consume, hn, sub_of_le (Nat.le_of_lt hn)]

theorem consume_of_le {b : FlatBuffer} {n : Nat} (hn : b.in_size_ ≤ n) :
    b.consume n = .ok { b with in_pos_ := 0, in_size_ := 0 } := by
  simp [consume, Nat.not_lt.mpr hn]

theorem live_commit (b : FlatBuffer) (n : Nat) :
    (b.commit n).live = b.live ++ (List.range' (b.data_ + b.in_pos_ + b.in_size_) b.out_size_).take n := by
  rw [commit_eq]
  simp only [live, data, Buffer.addresses]
  rw [← List.range'_append_1]
  congr 1
  rcases Nat.le_total n b.out_size_ with h | h
  · rw [List.take_range'_of_length_ge h, Nat.min_eq_left h]
  · rw [List.take_range'_of_length_le h, Nat.min_eq_right h]

namespace Inv
variable {b : FlatBuffer}

theorem capacity (h : Inv b) : b.capacity = .ok (b.cap_ - (b.in_pos_ + b.in_size_)) :=
  sub_of_le (Nat.le_trans (Nat.le_add_right _ _) h.fits)

theorem prepare_throws (h : Inv b) {n : Nat} (hn : b.cap_ < b.in_pos_ + b.in_size_ + n) :
    b.prepare n = .ok (.error .invalidArgument, b) := by
  have hfits := h.fits
  have hgt : n > b.cap_ - (b.in_pos_ + b.in_size_) := by omega
  simp [prepare, h.capacity, hgt]

theorem prepare_returns (h : Inv b) {n : Nat} (hn : b.in_pos_ + b.in_size_ + n ≤ b.cap_) :
    b.prepare n = .ok (.ok ⟨b.data_ + b.in_pos_ + b.in_size_, n⟩, { b with out_size_ := n }) := by
  have hgt : ¬n > b.cap_ - (b.in_pos_ + b.in_size_) := by omega
  simp [prepare, h.capacity, hgt]

theorem commit (h : Inv b) (n : Nat) : Inv (b.commit n) := by
  rw [commit_eq]
  have hfits := h.fits
  refine ⟨by simp only; omega, fun hz => h.empty ?_⟩
  exact Nat.eq_zero_of_add_eq_zero_right hz

theorem consume (h : Inv b) (n : Nat) :
    ∃ b', b.consume n = .ok b' ∧ Inv b' ∧ b'.live = b.live.drop n := by
  have hfits := h.fits
  rcases Nat.lt_or_ge n b.in_size_ with hn | hn
  · refine ⟨_, consume_of_lt hn, ⟨by simp only; omega, fun hz => ?_⟩, ?_⟩
    · simp only at hz
      omega
    · simp only [live, data, Buffer.addresses, List.drop_range', Nat.mul_one, Nat.add_assoc]
  · refine ⟨_, consume_of_le hn, ⟨by simp only; omega, fun _ => rfl⟩, ?_⟩
    rw [List.drop_of_length_le (by simpa [live, data] using hn)]
    rfl

end Inv
end FlatBuffer

/-! ### Sessions with a consume between prepare and commit -/

/-- A session, with what happened since the last successful prepare: a consume, and a consume that took the
    last readable byte. -/
structure Watched where
  ses : Session FlatBuffer
  consumed : Bool
  emptied : Bool

def empties (b : FlatBuffer) : Cmd Byte → Bool
  | .consume n => decide (0 < b.in_size_ ∧ b.in_size_ ≤ n)
  | _ => false

theorem empties_consume {b : FlatBuffer} {n : Nat} :
    empties b (.consume n) = true ↔ 0 < b.in_size_ ∧ b.in_size_ ≤ n := by
  simp [empties]

def Watched.step (w : Watched) (c : Cmd Byte) : Checked Watched := do
  let ses ← w.ses.step c
  match c with
  | .prepare n =>
    match ← w.ses.buf.prepare n with
    | (.ok _, _) => return ⟨ses, false, false⟩
    | (.error _, _) => return ⟨ses, w.consumed, w.emptied⟩
  | .consume _ => return ⟨ses, true, w.emptied || empties w.ses.buf c⟩
  | _ => return ⟨ses, w.consumed, w.emptied⟩

/-- What the steps of a run must be: a commit makes the first bytes of the last prepared region readable, or
    nothing after a consume; a consume drops readable bytes; no other call changes them. -/
def Honest (w : Watched) (c : Cmd Byte) (t : Watched) : Prop :=
  match c with
  | .commit n => t.ses.buf.live = w.ses.buf.live ++ w.ses.region.take n ∨
      w.consumed = true ∧ t.ses.buf.live = w.ses.buf.live
  | .consume n => t.ses.buf.live = w.ses.buf.live.drop n
  | _ => t.ses.buf.live = w.ses.buf.live

/-- A commit of outstanding output after a consume that took the last readable byte. -/
def CommitsLost (w : Watched) (c : Cmd Byte) : Prop :=
  w.emptied = true ∧ 0 < w.ses.buf.out_size_ ∧ ∃ n, 0 < n ∧ c = .commit n

/-- The last prepared region stands behind the readable bytes, until the buffer is emptied: the readable bytes
    are then at the start of the storage, and the region is further on. -/
structure Watched.Inv (w : Watched) : Prop where
  inv : w.ses.buf.Inv
  behind : w.emptied = false → w.ses.region =
    List.range' (w.ses.buf.data_ + w.ses.buf.in_pos_ + w.ses.buf.in_size_) w.ses.buf.out_size_
  lost : w.emptied = true → w.ses.buf.in_size_ = 0 ∧
    ∃ p, 0 < p ∧ w.ses.region = List.range' (w.ses.buf.data_ + p) w.ses.buf.out_size_

/-- The region of a commit that loses no output stands behind the readable bytes. -/
theorem Watched.Inv.take_region {w : Watched} (h : w.Inv) {n : Nat} (hc : ¬CommitsLost w (.commit n)) :
    w.ses.region.take n =
      (List.range' (w.ses.buf.data_ + w.ses.buf.in_pos_ + w.ses.buf.in_size_) w.ses.buf.out_size_).take n := by
  cases he : w.emptied with
  | false => rw [h.behind he]
  | true =>
    obtain ⟨-, p, -, hregion⟩ := h.lost he
    rcases Nat.eq_zero_or_pos n with rfl | hn
    · simp
    · rcases Nat.eq_zero_or_pos w.ses.buf.out_size_ with hout | hout
      · rw [hregion, hout]
        rfl
      · exact absurd ⟨he, hout, n, hn, rfl⟩ hc

/-- Output that is lost has no bytes left to commit. -/
theorem Watched.Inv.commit {w : Watched} (h : w.Inv) {n : Nat} (hc : ¬CommitsLost w (.commit n)) :
    Watched.Inv ⟨⟨w.ses.buf.commit n, w.ses.mem, []⟩, w.consumed, w.emptied⟩ := by
  refine ⟨h.inv.commit n, fun _ => ?_, fun he => ?_⟩
  · simp only [FlatBuffer.commit_eq]
    rfl
  · obtain ⟨hz, -⟩ := h.lost he
    have hnone : min n w.ses.buf.out_size_ = 0 := by
      rcases Nat.eq_zero_or_pos n with rfl | hn
      · exact Nat.zero_min _
      · have hout : ¬0 < w.ses.buf.out_size_ := fun hout => hc ⟨he, hout, n, hn, rfl⟩
        omega
    simp only [FlatBuffer.commit_eq, hnone]
    exact ⟨hz, 1, Nat.one_pos, rfl⟩

/-- A consume keeps the place behind the readable bytes, or leaves none of them and the region further on. -/
theorem Watched.Inv.consume {w : Watched} (h : w.Inv) {n : Nat} {b : FlatBuffer}
    (hb : w.ses.buf.consume n = .ok b) (hinv : b.Inv) :
    Watched.Inv ⟨⟨b, w.ses.mem, w.ses.region⟩, true, w.emptied || empties w.ses.buf (.consume n)⟩ := by
  obtain ⟨⟨buf, mem, region⟩, consumed, emptied⟩ := w
  refine ⟨hinv, fun he => ?_, fun he => ?_⟩
  · obtain ⟨hem, hkeeps⟩ := Bool.or_eq_false_iff.mp he
    have hbehind := h.behind hem
    rcases Nat.lt_or_ge n buf.in_size_ with hn | hn
    · rw [FlatBuffer.consume_of_lt hn] at hb
      cases hb
      simp only at hbehind ⊢
      rw [hbehind]
      congr 1
      omega
    · -- The buffer had no readable byte, at the start of the storage.
      have hz : buf.in_size_ = 0 := by
        by_contra hne
        rw [empties_consume.mpr ⟨Nat.pos_of_ne_zero hne, hn⟩] at hkeeps
        cases hkeeps
      rw [FlatBuffer.consume_of_le hn] at hb
      cases hb
      simp only at hbehind ⊢
      rw [hbehind, h.inv.empty hz, hz]
  · cases hem : emptied with
    | true =>
      obtain ⟨hz, p, hp, hregion⟩ := h.lost hem
      rw [FlatBuffer.consume_of_le (hz ▸ Nat.zero_le n)] at hb
      cases hb
      exact ⟨rfl, p, hp, hregion⟩
    | false =>
      rw [hem] at he
      obtain ⟨hpos, hle⟩ : 0 < buf.in_size_ ∧ buf.in_size_ ≤ n := empties_consume.mp he
      have hbehind := h.behind hem
      rw [FlatBuffer.consume_of_le hle] at hb
      cases hb
      refine ⟨rfl, buf.in_pos_ + buf.in_size_, by omega, ?_⟩
      simp only at hbehind ⊢
      rw [hbehind, Nat.add_assoc]

theorem Watched.Inv.step {w : Watched} (h : w.Inv) {c : Cmd Byte} (hc : ¬CommitsLost w c) :
    ∃ t, w.step c = .ok t ∧ Honest w c t ∧ t.Inv := by
  obtain ⟨⟨buf, mem, region⟩, consumed, emptied⟩ := w
  have hinv : buf.Inv := h.inv
  cases c with
  | prepare n =>
    rcases Nat.lt_or_ge buf.cap_ (buf.in_pos_ + buf.in_size_ + n) with hn | hn
    · have hp := hinv.prepare_throws hn
      exact ⟨⟨⟨buf, mem, region⟩, consumed, emptied⟩,
        by simp [Watched.step, Session.step, DynamicBuffer.prepare, hp], rfl, h⟩
    · have hp := hinv.prepare_returns hn
      refine ⟨⟨⟨{ buf with out_size_ := n }, mem, List.range' (buf.data_ + buf.in_pos_ + buf.in_size_) n⟩, false, false⟩,
        ?_, rfl, ⟨hn, hinv.empty⟩, fun _ => rfl, fun he => absurd he Bool.false_ne_true⟩
      simp [Watched.step, Session.step, DynamicBuffer.prepare, hp, Buffer.addresses]
  | write i x =>
    cases ha : region[i]? with
    | some a =>
      exact ⟨⟨⟨buf, Function.update mem a x, region⟩, consumed, emptied⟩,
        by simp [Watched.step, Session.step, ha], rfl, hinv,
        h.behind, h.lost⟩
    | none => exact ⟨⟨⟨buf, mem, region⟩, consumed, emptied⟩, by simp [Watched.step, Session.step, ha], rfl, h⟩
  | commit n =>
    refine ⟨⟨⟨buf.commit n, mem, []⟩, consumed, emptied⟩, rfl, Or.inl ?_, h.commit hc⟩
    exact (buf.live_commit n).trans (congrArg (buf.live ++ ·) (h.take_region hc).symm)
  | consume n =>
    obtain ⟨b', hb', hinv', hlive⟩ := hinv.consume n
    refine ⟨⟨⟨b', mem, region⟩, true, emptied || empties buf (.consume n)⟩, ?_, hlive, h.consume hb' hinv'⟩
    simp [Watched.step, Session.step, DynamicBuffer.consume, hb']

/-- A commit of lost output makes bytes readable that stand before the region. -/
theorem Watched.Inv.not_honest {w t : Watched} (h : w.Inv) {c : Cmd Byte} (hc : CommitsLost w c)
    (ht : w.step c = .ok t) : ¬Honest w c t := by
  obtain ⟨he, hout, n, hn, rfl⟩ := hc
  obtain ⟨hz, p, hp, hregion⟩ := h.lost he
  obtain ⟨⟨buf, mem, region⟩, consumed, emptied⟩ := w
  have hpos := h.inv.empty hz
  cases ht
  have hlive := buf.live_commit n
  obtain ⟨k, rfl⟩ := Nat.exists_eq_succ_of_ne_zero (Nat.ne_of_gt hn)
  obtain ⟨m, hm⟩ := Nat.exists_eq_succ_of_ne_zero (Nat.ne_of_gt hout)
  simp only at hz hpos hregion hm
  rw [hz, hpos, hm, List.range'_succ, List.take_succ_cons] at hlive
  rintro (hin | ⟨-, hnone⟩)
  · have hheads := List.append_cancel_left (hlive.symm.trans hin)
    simp only [hregion, hm, List.range'_succ, List.take_succ_cons, List.cons.injEq] at hheads
    omega
  · have hnil : buf.live = [] := by simp [FlatBuffer.live, FlatBuffer.data, Buffer.addresses, hz]
    have hcons := hlive.symm.trans (hnone.trans hnil)
    exact absurd hcons (by simp)

/-- A run makes only handed-out bytes readable, in order, exactly when no commit of it comes after a consume
    that took the last readable byte while output was outstanding. -/
theorem flat_honest_iff (data capacity initial_size : Nat) (mem : Mem) (hinit : initial_size ≤ capacity)
    (cmds : List (Cmd Byte)) :
    ∃ b, FlatBuffer.ofStorage data capacity initial_size = .ok b ∧
      (Run.Every Watched.step Honest ⟨⟨b, mem, []⟩, false, false⟩ cmds ↔
        Run.Always Watched.step (fun w c => ¬CommitsLost w c) ⟨⟨b, mem, []⟩, false, false⟩ cmds) := by
  refine ⟨{ data_ := data, cap_ := capacity, in_size_ := initial_size },
    by simp [FlatBuffer.ofStorage, Nat.not_lt.mpr hinit], ?_⟩
  refine Run.every_iff_always (I := Watched.Inv) (fun _ _ h hc => h.step hc)
    (fun _ _ _ h hc ht => h.not_honest (not_not.mp hc) ht)
    ⟨⟨?_, fun _ => rfl⟩, fun _ => rfl, fun he => absurd he Bool.false_ne_true⟩ cmds
  simp only
  omega

/-- Bytes that were consumed are readable again: with `abcd` readable, four bytes are prepared and written, all
    readable bytes are consumed, and four bytes are committed. -/
theorem flat_honest_counterexample :
    ∃ b w, FlatBuffer.ofStorage 100 8 4 = .ok b ∧
      Run.run Watched.step ⟨⟨b, fun a => a.toUInt8, []⟩, false, false⟩
        [.prepare 4, .write 0 1, .write 1 2, .write 2 3, .write 3 4, .consume 4, .commit 4] = .ok w ∧
      w.ses.buf.live = b.live ∧
      ¬Run.Every Watched.step Honest ⟨⟨b, fun a => a.toUInt8, []⟩, false, false⟩
        [.prepare 4, .write 0 1, .write 1 2, .write 2 3, .write 3 4, .consume 4, .commit 4] := by
  refine ⟨_, _, rfl, rfl, rfl, ?_⟩
  rintro ⟨_, h1, -, _, h2, -, _, h3, -, _, h4, -, _, h5, -, _, h6, -, _, h7, hlast, -⟩
  cases h1; cases h2; cases h3; cases h4; cases h5; cases h6; cases h7
  revert hlast
  unfold Honest
  decide

/-- A commit after a consume that leaves a readable byte is honest. -/
theorem flat_honest_partial :
    ∃ b, FlatBuffer.ofStorage 100 8 4 = .ok b ∧
      (Run.Every Watched.step Honest ⟨⟨b, fun a => a.toUInt8, []⟩, false, false⟩ [.prepare 4, .consume 3, .commit 4] ↔
        Run.Always Watched.step (fun w c => ¬CommitsLost w c) ⟨⟨b, fun a => a.toUInt8, []⟩, false, false⟩
          [.prepare 4, .consume 3, .commit 4]) :=
  flat_honest_iff 100 8 4 (fun a => a.toUInt8) (by decide) [.prepare 4, .consume 3, .commit 4]

end Buffers
