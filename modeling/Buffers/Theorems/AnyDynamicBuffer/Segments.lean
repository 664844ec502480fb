import Buffers.Theorems.AnyDynamicBuffer

/-! # Type-erased dynamic buffers with many segments

The arrays of the wrapper take the first `N` buffers of a wrapped sequence and no more, while `size`, `commit`
and `consume` are those of the wrapped buffer. So the wrapper hides bytes exactly when the buffers after the
first `N` have some (`any_unhidden_iff`). -/

namespace Buffers
open Checked

theorem addresses_eq_nil_iff {bs : List Buffer} : addresses bs = [] ↔ size bs = 0 := by
  rw [size_eq]
  exact List.length_eq_zero_iff.symm

/-- The first `n` buffers have all bytes when the others have none. -/
theorem addresses_take_iff (bs : List Buffer) (n : Nat) : addresses (bs.take n) = addresses bs ↔ size (bs.drop n) = 0 := by
  have happend : addresses (bs.take n) ++ addresses (bs.drop n) = addresses bs := by
    rw [← addresses_append, List.take_append_drop]
  rw [← addresses_eq_nil_iff, ← happend]
  exact List.self_eq_append_right

/-! ### The requirements of a dynamic buffer -/

section
variable {B : Type} [DynamicBuffer B]

/-- A commit of `n` bytes appends the sequence `out` that a prepare returned. -/
def Appends (b : B) (n : Nat) (out : List Buffer) : Prop :=
  ∃ live t bufs, DynamicBuffer.data b = .ok live ∧ DynamicBuffer.commit b n = .ok t ∧ DynamicBuffer.data t = .ok bufs ∧
    addresses bufs = addresses live ++ addresses out

/-- What the requirements say of a state: `data()` has `size()` bytes, and the `n` bytes that a prepare returns
    are appended by a commit of them. -/
structure Required (b : B) : Prop where
  data : ∃ bufs, DynamicBuffer.data b = .ok bufs ∧ size bufs = DynamicBuffer.size b
  prepare : ∀ n out b', DynamicBuffer.prepare b n = .ok (.ok out, b') → size out = n → Appends b' n out

/-- A buffer that meets the requirements in every state that calls reach. This leaves out one that faults in some run,
    and one that moves its readable bytes in a commit. -/
def Documented (b : B) : Prop := ∀ calls, ∃ b', Run.run DynamicBuffer.step b calls = .ok b' ∧ Required b'

theorem Documented.required {b : B} (h : Documented b) : Required b := by
  obtain ⟨b', hb', hreq⟩ := h []
  cases hb'
  exact hreq

theorem Documented.step {b : B} (h : Documented b) (c : Call) : ∃ b', DynamicBuffer.step b c = .ok b' ∧ Documented b' := by
  obtain ⟨b', hb', -⟩ := h [c]
  rw [Run.run_cons, bind_eq_ok] at hb'
  obtain ⟨t, hstep, -⟩ := hb'
  refine ⟨t, hstep, fun calls => ?_⟩
  have hrest := h (c :: calls)
  rw [Run.run_cons, hstep] at hrest
  exact hrest

theorem documented_of_invariant {I : B → Prop} (keeps : ∀ b c, I b → ∃ b', DynamicBuffer.step b c = .ok b' ∧ I b')
    (required : ∀ b, I b → Required b) {b : B} (hb : I b) : Documented b := by
  intro calls
  obtain ⟨b', hb', hI⟩ := Run.run_invariant keeps hb calls
  exact ⟨b', hb', required b' hI⟩

/-! ### Hidden bytes -/

variable {N : Nat}

/-- What the steps of a wrapper must be. A prepare that gets `n` bytes from the wrapped buffer returns them, and
    a commit of `n` then makes nothing else readable. After a commit or a consume the readable bytes of the
    wrapped buffer are those of `data()`, and `size()` of them. -/
def Unhidden (w : AnyDynamicBufferImpl B N) (c : Call) (w' : AnyDynamicBufferImpl B N) : Prop :=
  match c with
  | .prepare n => ∀ out b, DynamicBuffer.prepare w.b_ n = .ok (.ok out, b) → size out = n →
      ∃ out' live v bufs, DynamicBuffer.prepare w n = .ok (.ok out', w') ∧ addresses out' = addresses out ∧
        DynamicBuffer.data w'.b_ = .ok live ∧ DynamicBuffer.commit w' n = .ok v ∧ DynamicBuffer.data v.b_ = .ok bufs ∧
        ∀ a ∈ addresses bufs, a ∈ addresses live ∨ a ∈ addresses out'
  | _ => ∃ bufs, DynamicBuffer.data w'.b_ = .ok bufs ∧ addresses w'.data = addresses bufs ∧
      size w'.data = DynamicBuffer.size w'

/-- The wrapped sequences that the step reads have no bytes after their first `N` buffers. -/
def FitsArrays (w : AnyDynamicBufferImpl B N) (c : Call) : Prop :=
  match c with
  | .prepare n => ∀ out b, DynamicBuffer.prepare w.b_ n = .ok (.ok out, b) → size out = n → size (out.drop N) = 0
  | _ => ∀ b bufs, DynamicBuffer.step w.b_ c = .ok b → DynamicBuffer.data b = .ok bufs → size (bufs.drop N) = 0

/-- What holds of a wrapper at every point of a run, whatever it hides. -/
structure Erases (w : AnyDynamicBufferImpl B N) : Prop where
  arrays : w.Arrays
  documented : Documented w.b_

namespace Erases
variable {w : AnyDynamicBufferImpl B N}

/-- After a commit or a consume the cache has the first buffers of the wrapped sequence. -/
theorem refresh (h : Erases w) (hN : 0 < N) {c : Call} (hc : ∀ n, c ≠ .prepare n) :
    ∃ w' bufs, DynamicBuffer.step w c = .ok w' ∧ DynamicBuffer.step w.b_ c = .ok w'.b_ ∧ Erases w' ∧
      DynamicBuffer.data w'.b_ = .ok bufs ∧ size bufs = DynamicBuffer.size w' ∧ w'.data = bufs.take N := by
  obtain ⟨b, hb, hdoc⟩ := h.documented.step c
  obtain ⟨bufs, hdata, hsize⟩ := hdoc.required.data
  obtain ⟨w', hw', rfl, htake, harrays⟩ := h.arrays.refresh hdata (Or.inl hN)
  refine ⟨w', bufs, ?_, hb, ⟨harrays, hdoc⟩, hdata, hsize, htake⟩
  cases c with
  | prepare n => exact absurd rfl (hc n)
  | commit n => exact (congrArg (· >>= w.refresh) hb).trans hw'
  | consume n => exact (congrArg (· >>= w.refresh) hb).trans hw'

theorem prepare (h : Erases w) (hN : 0 < N) (n : Nat) :
    ∃ w', DynamicBuffer.step w (.prepare n) = .ok w' ∧ Erases w' ∧
      ∀ out b, DynamicBuffer.prepare w.b_ n = .ok (.ok out, b) →
        w'.b_ = b ∧ DynamicBuffer.prepare w n = .ok (.ok (out.take N), w') := by
  obtain ⟨b, hb, hdoc⟩ := h.documented.step (.prepare n)
  obtain ⟨⟨r, b'⟩, hp, rfl⟩ : ∃ r, DynamicBuffer.prepare w.b_ n = .ok r ∧ r.2 = b := by
    simp only [DynamicBuffer.step] at hb
    cases hp : DynamicBuffer.prepare w.b_ n with
    | error e => simp [hp] at hb
    | ok r => exact ⟨r, rfl, by simpa [hp] using hb⟩
  cases r with
  | error e =>
    refine ⟨{ w with b_ := b' }, ?_, ⟨⟨h.arrays.data_length, h.arrays.out_length⟩, hdoc⟩, fun out b'' hok => ?_⟩
    · simp [DynamicBuffer.step, DynamicBuffer.prepare, AnyDynamicBufferImpl.prepare, hp]
    · rw [hp] at hok
      cases hok
  | ok out =>
    obtain ⟨w', hw', rfl, -, harrays⟩ := h.arrays.prepare hp (Or.inl hN)
    refine ⟨w', ?_, ⟨harrays, hdoc⟩, fun out' b'' hok => ?_⟩
    · exact congrArg (Prod.snd <$> ·) hw'
    · rw [hp] at hok
      cases hok
      exact ⟨rfl, hw'⟩

/-- A prepare hides nothing exactly when the array takes all bytes of the wrapped sequence. -/
theorem prepare_unhidden_iff (h : Erases w) (hN : 0 < N) {n : Nat} {w' : AnyDynamicBufferImpl B N}
    (hw' : DynamicBuffer.step w (.prepare n) = .ok w') : Unhidden w (.prepare n) w' ↔ FitsArrays w (.prepare n) := by
  obtain ⟨u, hu, herases, hprepare⟩ := h.prepare hN n
  rw [hw'] at hu
  cases hu
  constructor
  · intro hunhidden out b hp hsize
    obtain ⟨out', -, -, -, hw, haddr, -⟩ := hunhidden out b hp hsize
    rw [(hprepare out b hp).2] at hw
    cases hw
    exact (addresses_take_iff out N).mp haddr
  · intro hfits out b hp hsize
    obtain ⟨rfl, hw⟩ := hprepare out b hp
    have haddr := (addresses_take_iff out N).mpr (hfits out _ hp hsize)
    obtain ⟨live, t, bufs, hlive, ht, hbufs, happend⟩ := h.documented.required.prepare n out _ hp hsize
    obtain ⟨v, bufs', hv, hvt, -, hbufs', -⟩ := herases.refresh hN (c := .commit n) fun _ => nofun
    have hsame : v.b_ = t := Except.ok.inj (hvt.symm.trans ht)
    refine ⟨out.take N, live, v, bufs, hw, haddr, hlive, hv, hsame ▸ hbufs, fun a ha => ?_⟩
    rw [happend, List.mem_append, ← haddr] at ha
    exact ha

theorem refresh_unhidden_iff (h : Erases w) (hN : 0 < N) {c : Call} (hc : ∀ n, c ≠ .prepare n)
    {w' : AnyDynamicBufferImpl B N} (hw' : DynamicBuffer.step w c = .ok w') : Unhidden w c w' ↔ FitsArrays w c := by
  obtain ⟨u, bufs, hu, hb, -, hdata, hsize, htake⟩ := h.refresh hN hc
  rw [hw'] at hu
  cases hu
  have hunhidden : Unhidden w c w' ↔ ∃ bufs, DynamicBuffer.data w'.b_ = .ok bufs ∧ addresses w'.data = addresses bufs ∧
      size w'.data = DynamicBuffer.size w' := by
    cases c with
    | prepare n => exact absurd rfl (hc n)
    | commit n => exact Iff.rfl
    | consume n => exact Iff.rfl
  have hfits : FitsArrays w c ↔ ∀ b bufs, DynamicBuffer.step w.b_ c = .ok b → DynamicBuffer.data b = .ok bufs →
      size (bufs.drop N) = 0 := by
    cases c with
    | prepare n => exact absurd rfl (hc n)
    | commit n => exact Iff.rfl
    | consume n => exact Iff.rfl
  rw [hunhidden, hfits]
  constructor
  · rintro ⟨bufs', hdata', haddr, -⟩ b bufs'' hb' hdata''
    rw [hb] at hb'
    cases hb'
    rw [hdata] at hdata' hdata''
    cases hdata'
    cases hdata''
    rw [htake] at haddr
    exact (addresses_take_iff bufs N).mp haddr
  · intro hall
    have haddr := (addresses_take_iff bufs N).mpr (hall _ bufs hb hdata)
    rw [← htake] at haddr
    refine ⟨bufs, hdata, haddr, ?_⟩
    rw [← hsize, size_eq, size_eq, haddr]

theorem unhidden_iff (h : Erases w) (hN : 0 < N) (c : Call) :
    ∃ w', DynamicBuffer.step w c = .ok w' ∧ Erases w' ∧ (Unhidden w c w' ↔ FitsArrays w c) := by
  by_cases hc : ∃ n, c = .prepare n
  · obtain ⟨n, rfl⟩ := hc
    obtain ⟨w', hw', herases, -⟩ := h.prepare hN n
    exact ⟨w', hw', herases, h.prepare_unhidden_iff hN hw'⟩
  · have hc' : ∀ n, c ≠ .prepare n := fun n hn => hc ⟨n, hn⟩
    obtain ⟨w', -, hw', -, herases, -⟩ := h.refresh hN hc'
    exact ⟨w', hw', herases, h.refresh_unhidden_iff hN hc' hw'⟩

end Erases

/-- A wrapper hides no bytes through a run exactly when, at each step, the wrapped sequence that the step reads
    has no bytes after its first `N` buffers. -/
theorem any_unhidden_iff (hN : 0 < N) {b : B} (h : Documented b) (calls : List Call) :
    Run.Every DynamicBuffer.step Unhidden (.wrap b : AnyDynamicBufferImpl B N) calls ↔
      Run.Always DynamicBuffer.step FitsArrays (.wrap b : AnyDynamicBufferImpl B N) calls := by
  have hstart : Erases (.wrap b : AnyDynamicBufferImpl B N) := ⟨AnyDynamicBufferImpl.arrays_wrap b, h⟩
  refine Run.every_iff_always (I := Erases) (fun w c hw hc => ?_) (fun w c w' hw hc hw' => ?_) hstart calls
  · obtain ⟨w', hw', herases, hiff⟩ := hw.unhidden_iff hN c
    exact ⟨w', hw', hiff.mpr hc, herases⟩
  · obtain ⟨u, hu, -, hiff⟩ := hw.unhidden_iff hN c
    rw [hw'] at hu
    cases hu
    exact mt hiff.mp hc

end

/-! ### The circular buffer -/

namespace CircularBuffer.Inv
variable {b : CircularBuffer}

theorem read (h : b.Inv) : ∃ bufs, DynamicBuffer.data b = .ok bufs ∧ addresses bufs = b.live := by
  obtain ⟨p, hp, hlive⟩ := h.data
  exact ⟨p.toList, by simp [DynamicBuffer.data, hp], hlive⟩

theorem required (h : b.Inv) (hcap : 0 < b.cap_) : Required b := by
  refine ⟨?_, fun n out b' hp _ => ?_⟩
  · obtain ⟨bufs, hdata, hlive⟩ := h.read
    refine ⟨bufs, hdata, ?_⟩
    rw [size_eq, hlive, CircularBuffer.live, length_ring]
    rfl
  · rcases Nat.lt_or_ge b.cap_ (b.in_len_ + n) with hn | hn
    · simp [DynamicBuffer.prepare, h.prepare_throws hn] at hp
    · obtain ⟨p, hp', hring⟩ := h.prepare_returns hcap hn
      simp only [DynamicBuffer.prepare, hp', map_ok, Except.ok.injEq, Prod.mk.injEq] at hp
      obtain ⟨hout, rfl⟩ := hp
      obtain rfl : p.toList = out := Except.ok.inj hout
      obtain ⟨live, hdata, hlive⟩ := (h.prepared hn).read
      obtain ⟨hinv, happend, -⟩ := (h.prepared hn).commit n
      obtain ⟨bufs, hbufs, hlive'⟩ := hinv.read
      refine ⟨live, _, bufs, hdata, rfl, hbufs, ?_⟩
      rw [hlive', happend, hlive, hring, outs, List.take_of_length_le (by rw [length_ring])]

theorem documented (h : b.Inv) (hcap : 0 < b.cap_) : Documented b :=
  documented_of_invariant (I := fun b => b.Inv ∧ 0 < b.cap_) (fun _ c h => h.1.call_step h.2 c)
    (fun _ h => h.1.required h.2)
    ⟨h, hcap⟩

end CircularBuffer.Inv

/-- A circular buffer of eight bytes behind arrays of one buffer: when its readable bytes end next to the end of
    the storage, four bytes are prepared and one is returned, and after a commit of four `size()` is five and
    `data()` has two. -/
theorem any_unhidden_counterexample :
    ∃ b w w' w'', CircularBuffer.ofReadable 100 8 7 = .ok b ∧ Documented b ∧
      DynamicBuffer.step (.wrap b : AnyDynamicBufferImpl CircularBuffer 1) (.consume 6) = .ok w ∧
      DynamicBuffer.prepare w.b_ 4 = .ok (.ok [⟨107, 1⟩, ⟨100, 3⟩], w'.b_) ∧
      DynamicBuffer.prepare w 4 = .ok (.ok [⟨107, 1⟩], w') ∧ DynamicBuffer.commit w' 4 = .ok w'' ∧
      DynamicBuffer.size w'' = 5 ∧ DynamicBuffer.data w'' = .ok [⟨106, 2⟩] ∧
      ¬Run.Every DynamicBuffer.step Unhidden (.wrap b : AnyDynamicBufferImpl CircularBuffer 1)
        [.consume 6, .prepare 4, .commit 4] := by
  have hinv : CircularBuffer.Inv ⟨100, 8, 0, 7, 0⟩ := ⟨Or.inr rfl, by decide⟩
  refine ⟨_, _, _, _, rfl, hinv.documented (by decide), rfl, rfl, rfl, rfl, rfl, rfl, ?_⟩
  rintro ⟨w, hw, -, w', hw', hunhidden, -⟩
  cases hw
  obtain ⟨out', -, -, -, hout, haddr, -⟩ := hunhidden [⟨107, 1⟩, ⟨100, 3⟩] _ rfl rfl
  cases hout
  exact absurd haddr (by decide)

/-- Arrays of two buffers hide nothing of a circular buffer that wraps around. -/
theorem any_unhidden_wrapped :
    Run.Every DynamicBuffer.step Unhidden (.wrap ⟨100, 8, 6, 1, 0⟩ : AnyDynamicBufferImpl CircularBuffer 2)
        [.prepare 4, .commit 4] ↔
      Run.Always DynamicBuffer.step FitsArrays (.wrap ⟨100, 8, 6, 1, 0⟩ : AnyDynamicBufferImpl CircularBuffer 2)
        [.prepare 4, .commit 4] :=
  any_unhidden_iff (by decide) (CircularBuffer.Inv.documented ⟨Or.inl (by decide), by decide⟩ (by decide))
    [.prepare 4, .commit 4]

end Buffers
