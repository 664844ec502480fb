import Mathlib.Data.List.Basic

/-! # Checked computations

Programs that stop at the first operation that has no defined result: an unsigned subtraction below
zero, a remainder by zero, a read or a write out of range, a failed assertion, a library call outside its
contract, a loop that does not end. A computation that returns a value has met none of these. -/

/-- What a checked computation stops at. -/
inductive Fault
  | underflow
  | divByZero
  | outOfRange
  | assertion
  | contract
  | diverged
  deriving DecidableEq, Repr

abbrev Checked (α : Type) := Except Fault α

namespace Checked
variable {α β : Type}

@[simp] theorem ok_bind (x : α) (f : α → Checked β) : (Except.ok x >>= f) = f x := rfl
@[simp] theorem error_bind (e : Fault) (f : α → Checked β) : (Except.error e >>= f) = .error e := rfl
@[simp] theorem pure_eq (x : α) : (pure x : Checked α) = .ok x := rfl
@[simp] theorem map_ok (f : α → β) (x : α) : (f <$> Except.ok x : Checked β) = .ok (f x) := rfl

theorem bind_eq_ok {x : Checked α} {f : α → Checked β} {b : β} :
    (x >>= f) = .ok b ↔ ∃ a, x = .ok a ∧ f a = .ok b := by
  cases x with
  | error e => simp
  | ok a => simp

def sub (a b : Nat) : Checked Nat := if b ≤ a then .ok (a - b) else .error .underflow

def mod (a b : Nat) : Checked Nat := if b = 0 then .error .divByZero else .ok (a % b)

def assert (p : Prop) [Decidable p] : Checked Unit := if p then .ok () else .error .assertion

/-- A precondition that the documentation of a called function states. -/
def require (p : Prop) [Decidable p] : Checked Unit := if p then .ok () else .error .contract

def get (xs : List α) (i : Nat) : Checked α :=
  match xs[i]? with
  | some x => .ok x
  | none => .error .outOfRange

def set (xs : List α) (i : Nat) (x : α) : Checked (List α) :=
  if i < xs.length then .ok (xs.set i x) else .error .outOfRange

theorem sub_of_le {a b : Nat} (h : b ≤ a) : sub a b = .ok (a - b) := by simp [sub, h]

theorem mod_of_pos {a b : Nat} (h : 0 < b) : mod a b = .ok (a % b) := by simp [mod, Nat.ne_of_gt h]

theorem assert_of {p : Prop} [Decidable p] (h : p) : assert p = .ok () := by simp [assert, h]

theorem require_of {p : Prop} [Decidable p] (h : p) : require p = .ok () := by simp [require, h]

theorem get_of_getElem? {xs : List α} {i : Nat} {x : α} (h : xs[i]? = some x) : get xs i = .ok x := by
  simp [get, h]

theorem set_of_lt {xs : List α} {i : Nat} {x : α} (h : i < xs.length) : set xs i x = .ok (xs.set i x) := by
  simp [set, h]

/-! ### Simulation -/

/-- Where `r'` returns, `r` returns as well, and what they return is related. -/
def Simulates (S : α → β → Prop) (r : Checked α) (r' : Checked β) : Prop := ∀ y, r' = .ok y → ∃ x, r = .ok x ∧ S x y

namespace Simulates
variable {γ δ : Type} {S : α → β → Prop} {S' : γ → δ → Prop}

theorem ok {x : α} {y : β} (h : S x y) : Simulates S (.ok x) (.ok y) := by
  rintro z hz
  cases hz
  exact ⟨x, rfl, h⟩

theorem bind {r : Checked α} {r' : Checked β} {f : α → Checked γ} {g : β → Checked δ} (h : Simulates S r r')
    (hrest : ∀ x y, S x y → Simulates S' (f x) (g y)) : Simulates S' (r >>= f) (r' >>= g) := by
  intro z hz
  obtain ⟨y, hy, hg⟩ := bind_eq_ok.mp hz
  obtain ⟨x, hx, hS⟩ := h y hy
  rw [hx]
  exact hrest x y hS z hg

/-- Both sides start with the same computation. -/
theorem bind_same (r : Checked α) {f : α → Checked γ} {g : α → Checked δ} (hrest : ∀ x, Simulates S' (f x) (g x)) :
    Simulates S' (r >>= f) (r >>= g) :=
  bind (S := Eq) (fun y hy => ⟨y, hy, rfl⟩) fun x _ hxy => hxy ▸ hrest x

end Simulates

end Checked
