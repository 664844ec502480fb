import Buffers.AnyDynamicBuffer
import Buffers.Lib.Run
import Buffers.Theorems.CircularBuffer
import Buffers.Theorems.FlatBuffer

/-! # When a type-erased dynamic buffer is transparent

The wrapper answers `data()` from a cache that only `commit` and `consume` refresh. So it agrees with the
wrapped buffer after each of these, and goes on to agree over a prepare that does not change the wrapped
sequence. After construction the cache has no entries (`any_mirrors_iff`). A wrapper keeps its cache over a prepare,
so one around another is transparent from the start (`Wraps.always_keepsData`). -/

namespace Buffers
open Checked

/-! ### The arrays -/

/-- The loop stops at the end of the sequence or of the array. -/
theorem unrollFrom_eq {len i : Nat} {bs dest : List Buffer} (hdest : dest.length = len) (hi : i ≤ len)
    (hroom : i < len ∨ i + bs.length ≤ len) :
    unrollFrom len i bs dest =
      .ok (min (i + bs.length) len, dest.take i ++ bs.take (len - i) ++ dest.drop (i + bs.length)) := by
  induction bs generalizing i dest with
  | nil => simp [unrollFrom, hi]
  | cons b bs ih =>
    simp only [List.length_cons] at hroom
    have hlt : i < dest.length := by omega
    have htake : (dest.set i b).take (i + 1) = dest.take i ++ [b] := by
      rw [List.take_add_one, List.take_set_of_le (Nat.le_refl i)]
      simp [hlt]
    unfold unrollFrom
    rw [set_of_lt hlt, ok_bind]
    by_cases hlast : i + 1 = len
    · have hfull : (dest.set i b).take (i + 1) = dest.set i b := List.take_of_length_le (by simp; omega)
      have hdrop : dest.drop (i + (bs.length + 1)) = [] := List.drop_of_length_le (by omega)
      have hone : len - i = 1 := by omega
      have hmin : min (i + (bs.length + 1)) len = i + 1 := by omega
      simp only [hlast, if_true, pure_eq, List.length_cons, hdrop, hone, List.take_succ_cons, List.take_zero,
        List.append_nil]
      rw [hmin, hlast, ← htake, hfull]
    · have hrest : len - i = len - (i + 1) + 1 := by omega
      have hidx : i + 1 + bs.length = i + (bs.length + 1) := by omega
      rw [if_neg hlast, ih (by simpa using hdest) (by omega) (Or.inl (by omega)), htake]
      simp only [List.length_cons, hrest, List.take_succ_cons, List.append_assoc, List.singleton_append]
      rw [hidx, List.drop_set_of_lt (by omega)]

/-- An array takes the first buffers of a sequence. -/
theorem unroll_take {len : Nat} {bs dest : List Buffer} (hdest : dest.length = len) (hroom : 0 < len ∨ bs.length ≤ len) :
    unroll bs dest len = .ok (min bs.length len, bs.take len ++ dest.drop bs.length) := by
  have hroom' : 0 < len ∨ 0 + bs.length ≤ len := by rwa [Nat.zero_add]
  have h := unrollFrom_eq hdest (Nat.zero_le len) hroom'
  rw [Nat.zero_add, List.take_zero, List.nil_append, Nat.sub_zero] at h
  exact h

/-- What holds of the two arrays at every point of a run. -/
structure AnyDynamicBufferImpl.Arrays {B : Type} {N : Nat} (w : AnyDynamicBufferImpl B N) : Prop where
  data_length : w.data_.length = N
  out_length : w.out_.length = N

namespace AnyDynamicBufferImpl
variable {B : Type} {N : Nat} [DynamicBuffer B] {w : AnyDynamicBufferImpl B N}

theorem length_take_append (bs dest : List Buffer) (hdest : dest.length = N) :
    (bs.take N ++ dest.drop bs.length).length = N := by
  simp only [List.length_append, List.length_take, List.length_drop, hdest]
  omega

theorem take_take_append (bs dest : List Buffer) :
    (bs.take N ++ dest.drop bs.length).take (min bs.length N) = bs.take N := by
  rw [Nat.min_comm]
  exact List.take_left' List.length_take

/-- A prepare returns the first buffers of the wrapped sequence, and keeps the cache. -/
theorem Arrays.prepare (h : w.Arrays) {n : Nat} {out : List Buffer} {b : B}
    (hp : DynamicBuffer.prepare w.b_ n = .ok (.ok out, b)) (hroom : 0 < N ∨ out.length ≤ N) :
    ∃ w', w.prepare n = .ok (.ok (out.take N), w') ∧ w'.b_ = b ∧ w'.data = w.data ∧ w'.Arrays := by
  have hunroll := unroll_take h.out_length hroom
  refine ⟨{ w with b_ := b, out_ := out.take N ++ w.out_.drop out.length, out_len_ := min out.length N }, ?_, rfl, rfl,
    h.data_length, length_take_append out w.out_ h.out_length⟩
  simp only [AnyDynamicBufferImpl.prepare, hp, hunroll, ok_bind, pure_eq, take_take_append]

/-- A refresh takes the first buffers of the wrapped sequence. -/
theorem Arrays.refresh (h : w.Arrays) {b : B} {bufs : List Buffer} (hdata : DynamicBuffer.data b = .ok bufs)
    (hroom : 0 < N ∨ bufs.length ≤ N) : ∃ w', w.refresh b = .ok w' ∧ w'.b_ = b ∧ w'.data = bufs.take N ∧ w'.Arrays := by
  have hunroll := unroll_take h.data_length hroom
  refine ⟨{ w with b_ := b, data_ := bufs.take N ++ w.data_.drop bufs.length, data_len_ := min bufs.length N }, ?_, rfl,
    take_take_append bufs w.data_, length_take_append bufs w.data_ h.data_length, h.out_length⟩
  simp only [AnyDynamicBufferImpl.refresh, hdata, hunroll, ok_bind, pure_eq]

omit [DynamicBuffer B] in
theorem arrays_wrap (b : B) : (.wrap b : AnyDynamicBufferImpl B N).Arrays := ⟨List.length_replicate, List.length_replicate⟩

omit [DynamicBuffer B] in
theorem Arrays.length_data (h : w.Arrays) : w.data.length ≤ N := by
  rw [AnyDynamicBufferImpl.data, List.length_take, h.data_length]
  exact Nat.min_le_right _ _

end AnyDynamicBufferImpl

/-! ### Transparency -/

section
variable {B : Type} {N : Nat} [DynamicBuffer B]

/-- No run of calls on the buffer faults, and its sequences never have more than `N` buffers. -/
def Bounded (N : Nat) (b : B) : Prop :=
  ∀ calls, ∃ b' bufs, Run.run DynamicBuffer.step b calls = .ok b' ∧ DynamicBuffer.data b' = .ok bufs ∧ bufs.length ≤ N ∧
    ∀ n out b'', DynamicBuffer.prepare b' n = .ok (.ok out, b'') → out.length ≤ N

/-- The wrapper answers as the wrapped buffer does. -/
structure Mirrors (w : AnyDynamicBufferImpl B N) : Prop where
  size : DynamicBuffer.size w = DynamicBuffer.size w.b_
  data : DynamicBuffer.data w = DynamicBuffer.data w.b_
  prepare : ∀ n r b, DynamicBuffer.prepare w.b_ n = .ok (r, b) →
    ∃ w', DynamicBuffer.prepare w n = .ok (r, w') ∧ w'.b_ = b

/-- The wrapper mirrors the wrapped buffer after construction and after each call, and the wrapped buffer makes
    the same calls. -/
def RunMirrors (N : Nat) (b : B) (calls : List Call) : Prop :=
  Mirrors (.wrap b : AnyDynamicBufferImpl B N) ∧
    Run.Every DynamicBuffer.step (fun w c w' => DynamicBuffer.step w.b_ c = .ok w'.b_ ∧ Mirrors w')
      (.wrap b : AnyDynamicBufferImpl B N) calls

/-- The call is no prepare that changes the readable sequence. -/
def KeepsData (b : B) (c : Call) : Prop :=
  ∀ n, c = .prepare n → ∀ b', DynamicBuffer.step b c = .ok b' → DynamicBuffer.data b' = DynamicBuffer.data b

theorem Bounded.step {b : B} (h : Bounded N b) (c : Call) :
    ∃ b' bufs, DynamicBuffer.step b c = .ok b' ∧ DynamicBuffer.data b' = .ok bufs ∧ bufs.length ≤ N ∧ Bounded N b' := by
  obtain ⟨b', bufs, hb', hdata, hlen, -⟩ := h [c]
  rw [Run.run_cons, bind_eq_ok] at hb'
  obtain ⟨_, hstep, hnil⟩ := hb'
  cases hnil
  refine ⟨b', bufs, hstep, hdata, hlen, fun calls => ?_⟩
  have hrest := h (c :: calls)
  rw [Run.run_cons, hstep] at hrest
  exact hrest

theorem bounded_of_invariant {I : B → Prop} (keeps : ∀ b c, I b → ∃ b', DynamicBuffer.step b c = .ok b' ∧ I b')
    (data : ∀ b, I b → ∃ bufs, DynamicBuffer.data b = .ok bufs ∧ bufs.length ≤ N)
    (prepare : ∀ b n out b', I b → DynamicBuffer.prepare b n = .ok (.ok out, b') → out.length ≤ N) {b : B} (hb : I b) :
    Bounded N b := by
  intro calls
  obtain ⟨b', hb', hI⟩ := Run.run_invariant keeps hb calls
  obtain ⟨bufs, hbufs, hlen⟩ := data b' hI
  exact ⟨b', bufs, hb', hbufs, hlen, fun n out b'' => prepare b' n out b'' hI⟩

/-- What holds of a wrapper at every point of a run, whether or not its cache is right. -/
structure Wraps (w : AnyDynamicBufferImpl B N) : Prop where
  data_length : w.data_.length = N
  out_length : w.out_.length = N
  bounded : Bounded N w.b_

namespace Wraps
variable {w : AnyDynamicBufferImpl B N}

theorem arrays (h : Wraps w) : w.Arrays := ⟨h.data_length, h.out_length⟩

theorem prepare (h : Wraps w) {n : Nat} {r : Except Exn (List Buffer)} {b : B}
    (hp : DynamicBuffer.prepare w.b_ n = .ok (r, b)) :
    ∃ w', w.prepare n = .ok (r, w') ∧ w'.b_ = b ∧ w'.data = w.data ∧ w'.Arrays := by
  cases r with
  | error e => exact ⟨{ w with b_ := b }, by simp [AnyDynamicBufferImpl.prepare, hp], rfl, rfl, h.data_length, h.out_length⟩
  | ok out =>
    obtain ⟨_, _, hb, -, -, hout⟩ := h.bounded []
    cases hb
    have hlen := hout n out b hp
    have hprepare := h.arrays.prepare hp (Or.inr hlen)
    rwa [List.take_of_length_le hlen] at hprepare

theorem refresh (h : Wraps w) {b : B} {bufs : List Buffer} (hdata : DynamicBuffer.data b = .ok bufs)
    (hlen : bufs.length ≤ N) : ∃ w', w.refresh b = .ok w' ∧ w'.b_ = b ∧ w'.data = bufs ∧ w'.Arrays := by
  have hrefresh := h.arrays.refresh hdata (Or.inr hlen)
  rwa [List.take_of_length_le hlen] at hrefresh

/-- The wrapper makes each call of the wrapped buffer. It caches the new sequence, except in a prepare. -/
theorem step (h : Wraps w) (c : Call) :
    ∃ w', DynamicBuffer.step w c = .ok w' ∧ DynamicBuffer.step w.b_ c = .ok w'.b_ ∧ Wraps w' ∧
      ((∀ n, c ≠ .prepare n) → .ok w'.data = DynamicBuffer.data w'.b_) ∧ ((∃ n, c = .prepare n) → w'.data = w.data) := by
  obtain ⟨b, bufs, hb, hdata, hlen, hbounded⟩ := h.bounded.step c
  cases c with
  | prepare n =>
    obtain ⟨⟨r, b'⟩, hp, rfl⟩ : ∃ r, DynamicBuffer.prepare w.b_ n = .ok r ∧ r.2 = b := by
      simp only [DynamicBuffer.step] at hb
      cases hp : DynamicBuffer.prepare w.b_ n with
      | error e => simp [hp] at hb
      | ok r => exact ⟨r, rfl, by simpa [hp] using hb⟩
    obtain ⟨w', hw', rfl, hkeep, harrays⟩ := h.prepare hp
    refine ⟨w', ?_, hb, ⟨harrays.data_length, harrays.out_length, hbounded⟩, fun hne => absurd rfl (hne n), fun _ => hkeep⟩
    exact congrArg (Prod.snd <$> ·) hw'
  | commit n =>
    obtain ⟨w', hw', rfl, rfl, harrays⟩ := h.refresh hdata hlen
    refine ⟨w', ?_, hb, ⟨harrays.data_length, harrays.out_length, hbounded⟩, fun _ => hdata.symm, fun ⟨_, hc⟩ => nomatch hc⟩
    simp only [DynamicBuffer.step] at hb ⊢
    exact (congrArg (· >>= w.refresh) hb).trans hw'
  | consume n =>
    obtain ⟨w', hw', rfl, rfl, harrays⟩ := h.refresh hdata hlen
    refine ⟨w', ?_, hb, ⟨harrays.data_length, harrays.out_length, hbounded⟩, fun _ => hdata.symm, fun ⟨_, hc⟩ => nomatch hc⟩
    simp only [DynamicBuffer.step] at hb ⊢
    exact (congrArg (· >>= w.refresh) hb).trans hw'

/-- Only the cache can be wrong. -/
theorem mirrors_iff (h : Wraps w) : Mirrors w ↔ .ok w.data = DynamicBuffer.data w.b_ := by
  refine ⟨fun hm => hm.data, fun hd => ⟨rfl, hd, fun n r b hp => ?_⟩⟩
  obtain ⟨w', hw', hb, -⟩ := h.prepare hp
  exact ⟨w', hw', hb⟩

/-- A wrapper that mirrors goes on to do so, except over a prepare that changes the wrapped sequence. -/
theorem mirrors_step_iff (h : Wraps w) (hm : Mirrors w) {c : Call} {w' : AnyDynamicBufferImpl B N}
    (hw' : DynamicBuffer.step w c = .ok w') : Mirrors w' ↔ KeepsData w.b_ c := by
  obtain ⟨w'', hw'', hb', hwraps', hfresh, hcached⟩ := h.step c
  rw [hw'] at hw''
  cases hw''
  rw [hwraps'.mirrors_iff]
  constructor
  · intro hdata n hn b' hb''
    rw [hb'] at hb''
    cases hb''
    have hkeep := hcached ⟨n, hn⟩
    exact hdata.symm.trans ((congrArg Except.ok hkeep).trans hm.data)
  · intro hkeeps
    by_cases hprep : ∃ n, c = .prepare n
    · obtain ⟨n, rfl⟩ := hprep
      rw [hcached ⟨n, rfl⟩, hkeeps n rfl _ hb']
      exact hm.data
    · exact hfresh fun n hn => hprep ⟨n, hn⟩

/-- A wrapper is itself such a buffer. -/
theorem bounded_self (h : Wraps w) : Bounded N w := by
  refine bounded_of_invariant (I := Wraps) (fun w c h => ?_) (fun w h => ⟨w.data, rfl, h.arrays.length_data⟩)
    (fun w n out w' h hp => ?_) h
  · obtain ⟨w', hw', -, hwraps', -⟩ := h.step c
    exact ⟨w', hw', hwraps'⟩
  · obtain ⟨_, _, hb, -, -, hout⟩ := h.bounded []
    cases hb
    obtain ⟨⟨r, b⟩, hr⟩ : ∃ r, DynamicBuffer.prepare w.b_ n = .ok r := by
      cases hr : DynamicBuffer.prepare w.b_ n with
      | error e => simp [DynamicBuffer.prepare, AnyDynamicBufferImpl.prepare, hr] at hp
      | ok r => exact ⟨r, rfl⟩
    obtain ⟨w'', hw'', -⟩ := h.prepare hr
    have hsame : (.ok out, w') = (r, w'') := Except.ok.inj (hp.symm.trans hw'')
    cases hsame
    exact hout n out b hr

/-- No prepare changes its cache. -/
theorem keepsData (h : Wraps w) (c : Call) : KeepsData w c := by
  rintro n rfl w' hw'
  obtain ⟨w'', hw'', -, -, -, hcached⟩ := h.step (.prepare n)
  rw [hw'] at hw''
  cases hw''
  exact congrArg Except.ok (hcached ⟨n, rfl⟩)

theorem always_keepsData (h : Wraps w) (calls : List Call) :
    Run.Always DynamicBuffer.step (fun v c => KeepsData v.b_ c)
      (.wrap w : AnyDynamicBufferImpl (AnyDynamicBufferImpl B N) N)
      calls := by
  refine Run.always_of_invariant (I := fun v => Wraps v ∧ Wraps v.b_) (fun v c hv => hv.2.keepsData c)
    (fun v c v' hv hv' => ?_)
    ⟨⟨List.length_replicate, List.length_replicate, h.bounded_self⟩, h⟩ calls
  obtain ⟨u, hu, hinner, hwraps, -⟩ := hv.1.step c
  obtain ⟨b, hb, -, hwraps', -⟩ := hv.2.step c
  rw [hv'] at hu
  cases hu
  rw [hinner] at hb
  cases hb
  exact ⟨hwraps, hwraps'⟩

end Wraps

theorem wraps_wrap {b : B} (h : Bounded N b) : Wraps (.wrap b : AnyDynamicBufferImpl B N) :=
  ⟨(AnyDynamicBufferImpl.arrays_wrap b).data_length, (AnyDynamicBufferImpl.arrays_wrap b).out_length, h⟩

/-- The wrapper of a buffer with sequences of at most `N` buffers is transparent through a run exactly when the
    wrapped sequence has no buffers at construction and no prepare of the run changes it. -/
theorem any_mirrors_iff (b : B) (calls : List Call) (h : Bounded N b) :
    RunMirrors N b calls ↔ DynamicBuffer.data b = .ok [] ∧
      Run.Always DynamicBuffer.step (fun w c => KeepsData w.b_ c) (.wrap b : AnyDynamicBufferImpl B N) calls := by
  have hwraps := wraps_wrap h
  have hfirst : Mirrors (.wrap b : AnyDynamicBufferImpl B N) ↔ DynamicBuffer.data b = .ok [] := by
    rw [hwraps.mirrors_iff]
    exact eq_comm
  have hrun (hm : Mirrors (.wrap b : AnyDynamicBufferImpl B N)) :
      Run.Every DynamicBuffer.step (fun w c w' => DynamicBuffer.step w.b_ c = .ok w'.b_ ∧ Mirrors w')
          (.wrap b : AnyDynamicBufferImpl B N) calls ↔
        Run.Always DynamicBuffer.step (fun w c => KeepsData w.b_ c) (.wrap b : AnyDynamicBufferImpl B N) calls := by
    refine Run.every_iff_always (I := fun w => Wraps w ∧ Mirrors w) (fun w c hw hc => ?_) (fun w c w' hw hc hstep => ?_)
      ⟨hwraps, hm⟩ calls
    · obtain ⟨w', hw', hb', hwraps', -⟩ := hw.1.step c
      have hm' : Mirrors w' := (hw.1.mirrors_step_iff hw.2 hw').mpr hc
      exact ⟨w', hw', ⟨hb', hm'⟩, hwraps', hm'⟩
    · rintro ⟨-, hm'⟩
      exact hc ((hw.1.mirrors_step_iff hw.2 hstep).mp hm')
  rw [RunMirrors, ← hfirst]
  exact and_congr_right hrun

end

/-! ### The buffers of the library -/

theorem FlatBuffer.Inv.call_step {b : FlatBuffer} (h : b.Inv) (c : Call) :
    ∃ b', DynamicBuffer.step b c = .ok b' ∧ b'.Inv := by
  cases c with
  | prepare n =>
    rcases Nat.lt_or_ge b.cap_ (b.in_pos_ + b.in_size_ + n) with hn | hn
    · exact ⟨b, by simp [DynamicBuffer.step, DynamicBuffer.prepare, h.prepare_throws hn], h⟩
    · exact ⟨{ b with out_size_ := n },
        by simp [DynamicBuffer.step, DynamicBuffer.prepare, h.prepare_returns hn], hn, h.empty⟩
  | commit n => exact ⟨b.commit n, rfl, h.commit n⟩
  | consume n =>
    obtain ⟨b', hb', hinv, -⟩ := h.consume n
    exact ⟨b', hb', hinv⟩

theorem FlatBuffer.Inv.bounded {b : FlatBuffer} (h : b.Inv) {N : Nat} (hN : 1 ≤ N) : Bounded N b := by
  refine bounded_of_invariant (I := FlatBuffer.Inv) (fun b c h => h.call_step c) (fun b _ => ⟨_, rfl, hN⟩)
    (fun b n out b' h hp => ?_) h
  rcases Nat.lt_or_ge b.cap_ (b.in_pos_ + b.in_size_ + n) with hn | hn
  · simp [DynamicBuffer.prepare, h.prepare_throws hn] at hp
  · simp only [DynamicBuffer.prepare, h.prepare_returns hn, map_ok, Except.ok.injEq, Prod.mk.injEq] at hp
    have hout : [_] = out := Except.ok.inj hp.1
    rw [← hout]
    exact hN

theorem CircularBuffer.Inv.call_step {b : CircularBuffer} (h : b.Inv) (hcap : 0 < b.cap_) (c : Call) :
    ∃ b', DynamicBuffer.step b c = .ok b' ∧ b'.Inv ∧ 0 < b'.cap_ := by
  cases c with
  | prepare n =>
    rcases Nat.lt_or_ge b.cap_ (b.in_len_ + n) with hn | hn
    · exact ⟨b, by simp [DynamicBuffer.step, DynamicBuffer.prepare, h.prepare_throws hn], h, hcap⟩
    · obtain ⟨p, hp, -⟩ := h.prepare_returns hcap hn
      exact ⟨{ b with out_size_ := n }, by simp [DynamicBuffer.step, DynamicBuffer.prepare, hp], h.prepared hn, hcap⟩
  | commit n =>
    refine ⟨b.commit n, rfl, (h.commit n).1, ?_⟩
    rw [CircularBuffer.commit_eq]
    exact hcap
  | consume n =>
    obtain ⟨b', hb', hinv, -, hcap', -⟩ := h.consume hcap n
    exact ⟨b', hb', hinv, hcap' ▸ hcap⟩

theorem CircularBuffer.Inv.bounded {b : CircularBuffer} (h : b.Inv) (hcap : 0 < b.cap_) {N : Nat} (hN : 2 ≤ N) :
    Bounded N b := by
  refine bounded_of_invariant (I := fun b => b.Inv ∧ 0 < b.cap_) (fun b c h => h.1.call_step h.2 c) (fun b h => ?_)
    (fun b n out b' h hp => ?_) ⟨h, hcap⟩
  · obtain ⟨p, hp, -⟩ := h.1.data
    exact ⟨p.toList, by simp [DynamicBuffer.data, hp], hN⟩
  · rcases Nat.lt_or_ge b.cap_ (b.in_len_ + n) with hn | hn
    · simp [DynamicBuffer.prepare, h.1.prepare_throws hn] at hp
    · obtain ⟨p, hp', -⟩ := h.1.prepare_returns h.2 hn
      simp only [DynamicBuffer.prepare, hp', map_ok, Except.ok.injEq, Prod.mk.injEq] at hp
      have hout : p.toList = out := Except.ok.inj hp.1
      rw [← hout]
      exact hN

/-- A flat buffer with four readable bytes, wrapped: `size()` is four and `data()` is empty. -/
theorem any_mirrors_counterexample :
    ∃ b, FlatBuffer.ofStorage 100 8 4 = .ok b ∧ Bounded 8 b ∧ DynamicBuffer.data b = .ok [⟨100, 4⟩] ∧
      DynamicBuffer.size (.wrap b : AnyDynamicBufferImpl FlatBuffer 8) = 4 ∧
      DynamicBuffer.data (.wrap b : AnyDynamicBufferImpl FlatBuffer 8) = .ok [] ∧ ¬RunMirrors 8 b [] := by
  have hinv : FlatBuffer.Inv ⟨100, 8, 0, 4, 0⟩ := ⟨by decide, fun _ => rfl⟩
  refine ⟨_, rfl, hinv.bounded (by decide), rfl, rfl, rfl, fun h => ?_⟩
  exact nomatch h.1.data

/-- The condition fails for a flat buffer with readable bytes, and holds for the wrapper of that buffer. -/
theorem any_mirrors_flat :
    (RunMirrors 8 (⟨100, 8, 0, 4, 0⟩ : FlatBuffer) [.prepare 2, .commit 2] ↔
      DynamicBuffer.data (⟨100, 8, 0, 4, 0⟩ : FlatBuffer) = .ok [] ∧
        Run.Always DynamicBuffer.step (fun w c => KeepsData w.b_ c)
          (.wrap ⟨100, 8, 0, 4, 0⟩ : AnyDynamicBufferImpl FlatBuffer 8) [.prepare 2, .commit 2]) ∧
      RunMirrors 8 (.wrap ⟨100, 8, 0, 4, 0⟩ : AnyDynamicBufferImpl FlatBuffer 8) [.prepare 2, .commit 2] := by
  have hbounded : Bounded 8 (⟨100, 8, 0, 4, 0⟩ : FlatBuffer) := FlatBuffer.Inv.bounded ⟨by decide, fun _ => rfl⟩ (by decide)
  have hwraps := wraps_wrap hbounded
  exact ⟨any_mirrors_iff _ _ hbounded, (any_mirrors_iff _ _ hwraps.bounded_self).mpr ⟨rfl, hwraps.always_keepsData _⟩⟩

end Buffers
