import Buffers.FlatBuffer.Word
import Buffers.Theorems.FlatBuffer.Queue

/-! # The arithmetic of the flat buffer

The readable bytes and the output area follow one another in the storage, so every sum of the buffer is at most its
capacity. On machine words it does what it does on unbounded numbers, whatever its capacity (`word_flat_exact`). -/

namespace Buffers
open Checked Word

namespace FlatBuffer
variable {o : Overflow} {b : FlatBuffer}

namespace Inv

theorem word_capacity (h : Inv b) (hcap : b.cap_ < Word.count) : Word.capacity o b = b.capacity := by
  have hfits := h.fits
  simp only [Word.capacity, add_of_lt (Nat.lt_of_le_of_lt (Nat.le_of_add_right_le h.fits) hcap), ok_bind]
  rfl

theorem word_prepare (h : Inv b) (hcap : b.cap_ < Word.count) (n : Nat) : Word.prepare o b n = b.prepare n := by
  simp only [Word.prepare, FlatBuffer.prepare, h.word_capacity hcap]

theorem word_commit (h : Inv b) (hcap : b.cap_ < Word.count) (n : Nat) : Word.commit o b n = .ok (b.commit n) := by
  have hfits := h.fits
  unfold Word.commit FlatBuffer.commit commitSize
  split
  · rw [add_of_lt (by omega)]
    rfl
  · rw [add_of_lt (by omega)]
    rfl

theorem word_consume (h : Inv b) (hcap : b.cap_ < Word.count) (n : Nat) : Word.consume o b n = b.consume n := by
  have hfits := h.fits
  unfold Word.consume FlatBuffer.consume
  split
  · rw [add_of_lt (by omega), ok_bind]
  · rfl

end Inv
end FlatBuffer

/-- The session on machine words. -/
def WordFlatBuffer.words (o : Overflow) (s : Session FlatBuffer) : Session (WordFlatBuffer o) :=
  { buf := ⟨s.buf⟩, mem := s.mem, region := s.region }

theorem WordFlatBuffer.step_eq (o : Overflow) {s : Session FlatBuffer} (h : s.buf.Inv) (hcap : s.buf.cap_ < Word.count)
    (c : Cmd Byte) : (WordFlatBuffer.words o s).step c = WordFlatBuffer.words o <$> s.step c := by
  cases c with
  | prepare n =>
    simp only [Session.step, DynamicBuffer.prepare, WordFlatBuffer.words, h.word_prepare hcap n]
    cases s.buf.prepare n with
    | error f => rfl
    | ok r =>
      obtain ⟨e | p, b⟩ := r
      · rfl
      · rfl
  | write i x =>
    simp only [Session.step, WordFlatBuffer.words]
    cases s.region[i]? with
    | none => rfl
    | some a => rfl
  | commit n =>
    simp only [Session.step, DynamicBuffer.commit, WordFlatBuffer.words, h.word_commit hcap n]
    rfl
  | consume n =>
    simp only [Session.step, DynamicBuffer.consume, WordFlatBuffer.words, h.word_consume hcap n]
    cases s.buf.consume n with
    | error f => rfl
    | ok b => rfl

/-- In every run the buffer on machine words does what it does on unbounded numbers, and stays in its storage. -/
theorem word_flat_exact (o : Overflow) (data initial_size : Nat) {capacity : Nat} (hcount : capacity < Word.count)
    (hinit : initial_size ≤ capacity) (mem : Mem) (cmds : List (Cmd Byte)) :
    ∃ b, FlatBuffer.ofStorage data capacity initial_size = .ok b ∧
      ∃ t, Run.run Session.step (⟨b, mem, []⟩ : Session FlatBuffer) cmds = .ok t ∧
        Run.run Session.step (⟨⟨b⟩, mem, []⟩ : Session (WordFlatBuffer o)) cmds = .ok (WordFlatBuffer.words o t) ∧
        FlatBounded data capacity t.buf ∧ FlatBuffer.Word.capacity o t.buf = t.buf.capacity ∧
        ∀ n, FlatBuffer.Word.prepare o t.buf n = t.buf.prepare n := by
  have hstart : FlatBuffer.Inv { data_ := data, cap_ := capacity, in_size_ := initial_size } :=
    ⟨by simpa using hinit, fun _ => rfl⟩
  have hsame (s : Session FlatBuffer) (c : Cmd Byte) (hs : s.buf.Inv ∧ s.buf.data_ = data ∧ s.buf.cap_ = capacity) :
      ∃ t, s.step c = .ok t ∧ (WordFlatBuffer.words o s).step c = .ok (WordFlatBuffer.words o t) ∧
        t.buf.Inv ∧ t.buf.data_ = data ∧ t.buf.cap_ = capacity := by
    obtain ⟨hinv, hdata, hcap⟩ := hs
    obtain ⟨t, ht, hinv', hdata', hcap'⟩ := hinv.session_step c
    refine ⟨t, ht, ?_, hinv', hdata'.trans hdata, hcap'.trans hcap⟩
    rw [WordFlatBuffer.step_eq o hinv (hcap ▸ hcount), ht]
    rfl
  obtain ⟨t, hrun, hwords, hinv, hdata, hcap⟩ := Run.run_map (WordFlatBuffer.words o) hsame
    (s := ⟨{ data_ := data, cap_ := capacity, in_size_ := initial_size }, mem, []⟩) ⟨hstart, rfl, rfl⟩ cmds
  have hbounds := hinv.bounds
  rw [hdata, hcap] at hbounds
  rw [← hcap] at hcount
  exact ⟨_, by simp [FlatBuffer.ofStorage, Nat.not_lt.mpr hinit], t, hrun, hwords, hbounds, hinv.word_capacity hcount,
    hinv.word_prepare hcount⟩

/-- A buffer of as many bytes as a word can count, less one. -/
theorem word_flat_exact_largest :
    ∃ b, FlatBuffer.ofStorage 100 (Word.count - 1) 2 = .ok b ∧
      ∃ t, Run.run Session.step (⟨b, fun a => a.toUInt8, []⟩ : Session FlatBuffer)
          [.prepare 4, .write 1 7, .commit 9, .consume 5] = .ok t ∧
        Run.run Session.step (⟨⟨b⟩, fun a => a.toUInt8, []⟩ : Session (WordFlatBuffer .faults))
          [.prepare 4, .write 1 7, .commit 9, .consume 5] = .ok (WordFlatBuffer.words .faults t) ∧
        FlatBounded 100 (Word.count - 1) t.buf ∧ FlatBuffer.Word.capacity .faults t.buf = t.buf.capacity ∧
        ∀ n, FlatBuffer.Word.prepare .faults t.buf n = t.buf.prepare n :=
  word_flat_exact .faults 100 2 (by decide) (by decide) (fun a => a.toUInt8) [.prepare 4, .write 1 7, .commit 9, .consume 5]

end Buffers
