import Buffers.Lib.Memory
import Buffers.Lib.Run

/-! # A FIFO queue with an output area

The contract of a dynamic buffer over any element type. The queue holds the readable elements and the
output area that the last successful prepare handed out. Writes go to the output area, a commit moves the
first elements of the output area to the end of the readable ones and discards the rest, and a consume
drops the first readable elements. A queue that `drops` also discards its output area when it consumes.

`Placed` puts a queue into a memory: the readable elements and the output area stand at distinct addresses.
Each operation on the queue is then an operation on the two lists of addresses. -/

inductive Cmd (α : Type)
  | prepare (n : Nat)
  | write (i : Nat) (x : α)
  | commit (n : Nat)
  | consume (n : Nat)
  deriving DecidableEq, Repr

structure Fifo (α : Type) where
  limit : Nat
  readable : List α
  output : List α

namespace Fifo
variable {α : Type}

def commit (q : Fifo α) (n : Nat) : Fifo α :=
  { q with readable := q.readable ++ q.output.take n, output := [] }

def consume (drops : Bool) (q : Fifo α) (n : Nat) : Fifo α :=
  { q with readable := q.readable.drop n, output := if drops then [] else q.output }

/-- One call. A prepare hands out an area with any contents, or refuses when it would pass the limit and
    then changes nothing. -/
inductive Step (drops : Bool) (q : Fifo α) : Cmd α → Fifo α → Prop
  | prepare {n : Nat} {fresh : List α} (hlen : fresh.length = n) (h : q.readable.length + n ≤ q.limit) :
      Step drops q (.prepare n) { q with output := fresh }
  | refuse {n : Nat} (h : q.limit < q.readable.length + n) : Step drops q (.prepare n) q
  | write (i : Nat) (x : α) : Step drops q (.write i x) { q with output := q.output.set i x }
  | commit (n : Nat) : Step drops q (.commit n) (q.commit n)
  | consume (n : Nat) : Step drops q (.consume n) (q.consume drops n)

/-- A machine and a queue move together through a list of calls: the machine does not fault, the queue makes
    each call too, and the relation holds before and after every one. -/
def Tracks {σ : Type} (drops : Bool) (step : σ → Cmd α → Checked σ) (holds : σ → Fifo α → Prop) (s : σ) (q : Fifo α) :
    List (Cmd α) → Prop
  | [] => holds s q
  | c :: cs => holds s q ∧ ∃ t r, step s c = .ok t ∧ Step drops q c r ∧ Tracks drops step holds t r cs

/-- A machine whose every step from a related state is matched by a step of the queue tracks the queue through
    every run. -/
theorem tracks_of_simulation {σ : Type} {drops : Bool} {step : σ → Cmd α → Checked σ} {R holds : σ → Fifo α → Prop}
    (sim : ∀ s q c, R s q → ∃ t r, step s c = .ok t ∧ Step drops q c r ∧ R t r) (shows : ∀ s q, R s q → holds s q)
    {s : σ} {q : Fifo α} (h : R s q) (cs : List (Cmd α)) : Tracks drops step holds s q cs := by
  induction cs generalizing s q with
  | nil => exact shows s q h
  | cons c cs ih =>
    obtain ⟨t, r, ht, hstep, hR⟩ := sim s q c h
    exact ⟨shows s q h, t, r, ht, hstep, ih hR⟩

theorem Tracks.holds_run {σ : Type} {drops : Bool} {step : σ → Cmd α → Checked σ} {holds : σ → Fifo α → Prop} {s : σ}
    {q : Fifo α} {cs : List (Cmd α)} (h : Tracks drops step holds s q cs) :
    ∃ t r, Run.run step s cs = .ok t ∧ holds t r := by
  induction cs generalizing s q with
  | nil => exact ⟨s, q, rfl, h⟩
  | cons c cs ih =>
    obtain ⟨-, t, r, ht, -, hrest⟩ := h
    rw [Run.run_cons, ht]
    exact ih hrest

/-- As `Tracks`, for a machine that grants a prepare when it has room at the time of the call: the limit of the
    queue is then what the machine has room for. -/
def Follows {σ : Type} (drops : Bool) (step : σ → Cmd α → Checked σ) (room : σ → Checked Nat) (holds : σ → Fifo α → Prop)
    (s : σ) (q : Fifo α) : List (Cmd α) → Prop
  | [] => holds s q
  | c :: cs => holds s q ∧ ∃ k t r, room s = .ok k ∧ step s c = .ok t ∧
      Step drops { q with limit := q.readable.length + k } c r ∧ Follows drops step room holds t r cs

/-- A machine whose steps are matched by steps of the queue, while they meet a condition, follows the queue
    through every run whose steps meet it. -/
theorem follows_of_simulation {σ : Type} {drops : Bool} {step : σ → Cmd α → Checked σ} {room : σ → Checked Nat}
    {R holds : σ → Fifo α → Prop} {C : σ → Cmd α → Prop}
    (sim : ∀ s q c, R s q → C s c → ∃ k t r, room s = .ok k ∧ step s c = .ok t ∧
      Step drops { q with limit := q.readable.length + k } c r ∧ R t r)
    (shows : ∀ s q, R s q → holds s q) {s : σ} {q : Fifo α} (h : R s q) {cs : List (Cmd α)} (hC : Run.Always step C s cs) :
    Follows drops step room holds s q cs := by
  induction cs generalizing s q with
  | nil => exact shows s q h
  | cons c cs ih =>
    obtain ⟨k, t, r, hk, ht, hstep, hR⟩ := sim s q c h hC.1
    exact ⟨shows s q h, k, t, r, hk, ht, hstep, ih hR (hC.2 t ht)⟩

/-! ### Queues in a memory -/

/-- The readable elements stand at the addresses `live` and the output area at `out`. -/
structure Placed (q : Fifo α) (m : Memory α) (live out : List Nat) : Prop where
  readable_eq : q.readable = live.map m
  output_eq : q.output = out.map m
  nodup : (live ++ out).Nodup

namespace Placed
variable {q : Fifo α} {m : Memory α} {live out : List Nat}

theorem disjoint (h : Placed q m live out) : live.Disjoint out := (List.nodup_append'.mp h.nodup).2.2

theorem length_readable (h : Placed q m live out) : q.readable.length = live.length := by
  rw [h.readable_eq, List.length_map]

/-- The limit plays no part. -/
theorem within (h : Placed q m live out) (limit : Nat) : Placed { q with limit := limit } m live out :=
  ⟨h.readable_eq, h.output_eq, h.nodup⟩

theorem prepare (h : Placed q m live out) {fresh : List Nat} (hnodup : (live ++ fresh).Nodup) :
    Placed { q with output := fresh.map m } m live fresh :=
  ⟨h.readable_eq, rfl, hnodup⟩

theorem write (h : Placed q m live out) {i a : Nat} (ha : out[i]? = some a) (x : α) :
    Placed { q with output := q.output.set i x } (Function.update m a x) live out := by
  have hi := List.getElem?_eq_some_iff.mp ha
  obtain ⟨hi, hget⟩ := hi
  have hmem : a ∈ out := hget ▸ List.getElem_mem hi
  refine ⟨?_, ?_, h.nodup⟩
  · rw [h.readable_eq]
    refine List.map_congr_left fun b hb => ?_
    rw [Function.update_of_ne]
    rintro rfl
    exact h.disjoint hb hmem
  · have hout := (List.nodup_append'.mp h.nodup).2.1
    refine List.ext_getElem (by simp [h.output_eq]) fun j hj _ => ?_
    simp only [h.output_eq, List.length_set, List.length_map] at hj
    simp only [h.output_eq, List.getElem_set, List.getElem_map]
    by_cases hij : i = j
    · subst hij
      simp [hget]
    · have hne : out[j] ≠ a := fun he => hij ((List.Nodup.getElem_inj_iff hout).mp (hget.trans he.symm))
      simp [hij, Function.update_of_ne hne]

theorem write_none (h : Placed q m live out) {i : Nat} (ha : out[i]? = none) (x : α) :
    Placed { q with output := q.output.set i x } m live out := by
  have hlen : q.output.length ≤ i := by
    rw [h.output_eq, List.length_map]
    exact List.getElem?_eq_none_iff.mp ha
  rw [List.set_eq_of_length_le hlen]
  exact h

theorem commit (h : Placed q m live out) (n : Nat) : Placed (q.commit n) m (live ++ out.take n) [] := by
  refine ⟨?_, rfl, ?_⟩
  · simp only [Fifo.commit, h.readable_eq, h.output_eq, List.map_append, List.map_take]
  · rw [List.append_nil]
    exact h.nodup.sublist ((List.take_sublist n out).append_left live)

theorem consume (h : Placed q m live out) (n : Nat) : Placed (q.consume false n) m (live.drop n) out := by
  refine ⟨?_, h.output_eq, h.nodup.sublist ((List.drop_sublist n live).append_right out)⟩
  simp only [Fifo.consume, h.readable_eq, List.map_drop]

end Placed
end Fifo
