import Mathlib.Tactic

/-! Fixed-size arrays whose every access is checked, so that a wild index is a visible fault. -/
namespace Dez

/-- What C leaves undefined about an array access: the array's size and the wild index. -/
inductive Fault
  | outOfBounds (size index : ℕ)
  deriving DecidableEq, Repr

@[simp] theorem ok_bind {ε α β : Type} (a : α) (f : α → Except ε β) :
    (Except.ok a >>= f) = f a := rfl

@[simp] theorem pure_eq_ok {ε α : Type} (a : α) : (pure a : Except ε α) = .ok a := rfl

/-- A computation that ends well did so at each step. -/
theorem bind_eq_ok {ε α β : Type} {x : Except ε α} {f : α → Except ε β} {b : β}
    (h : (x >>= f) = .ok b) : ∃ a, x = .ok a ∧ f a = .ok b := by
  cases x with
  | error fault => cases h
  | ok a => exact ⟨a, rfl, h⟩

/-- An array of `n` cells, as `T a[n]` declares it. -/
def CArray (α : Type) (n : ℕ) := Fin n → α

namespace CArray

variable {α : Type} {n : ℕ}

/-- One cell replaced. -/
def set (a : CArray α n) (i : Fin n) (v : α) : CArray α n := fun j => if j = i then v else a j

/-- The access `a[i]`. -/
def read (a : CArray α n) (i : ℕ) : Except Fault α :=
  if h : i < n then .ok (a ⟨i, h⟩) else .error (.outOfBounds n i)

/-- The assignment `a[i] = v`. -/
def write (a : CArray α n) (i : ℕ) (v : α) : Except Fault (CArray α n) :=
  if h : i < n then .ok (a.set ⟨i, h⟩ v) else .error (.outOfBounds n i)

/-- The first cells. -/
def front (a : CArray α n) (count : ℕ) : List α := ((List.finRange n).take count).map fun i => a i

/-- The first cells, as `fwrite` takes them. -/
def readFront (a : CArray α n) (count : ℕ) : Except Fault (List α) :=
  if count ≤ n then .ok (a.front count) else .error (.outOfBounds n (count - 1))

theorem set_apply (a : CArray α n) (i j : Fin n) (v : α) :
    a.set i v j = if j = i then v else a j := rfl

@[simp] theorem set_self (a : CArray α n) (i : Fin n) (v : α) : a.set i v i = v := by
  simp [set_apply]

theorem read_of_lt {i : ℕ} (a : CArray α n) (h : i < n) : a.read i = .ok (a ⟨i, h⟩) := by
  simp [read, h]

theorem write_of_lt {i : ℕ} (a : CArray α n) (h : i < n) (v : α) :
    a.write i v = .ok (a.set ⟨i, h⟩ v) := by
  simp [write, h]

theorem readFront_ok {a : CArray α n} {count : ℕ} {l : List α} (h : a.readFront count = .ok l) :
    count ≤ n ∧ l = a.front count := by
  unfold readFront at h
  split at h
  · cases h
    exact ⟨‹_›, rfl⟩
  · cases h

theorem length_front (a : CArray α n) {count : ℕ} (h : count ≤ n) :
    (a.front count).length = count := by
  simp [front, h]

theorem getElem_front (a : CArray α n) {count i : ℕ} (h : i < (a.front count).length) :
    (a.front count)[i] = a ⟨i, by simp [front] at h; omega⟩ := by
  simp [front]

end CArray

end Dez
