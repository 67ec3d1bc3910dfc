import Mathlib.Tactic

/-! Bounded stacks, and how an array that fills downwards holds one. -/
namespace Dez

/-- A stack of at most `capacity` values, the most recent first. -/
structure BoundedStack (α : Type) (capacity : ℕ) where
  items : List α
  bounded : items.length ≤ capacity

namespace BoundedStack

variable {α : Type} {capacity top sp : ℕ} {cells cells' : ℕ → α} {s t : BoundedStack α capacity}
  {v : α}

def empty : BoundedStack α capacity := ⟨[], Nat.zero_le _⟩

/-- A full stack takes no further value. -/
def push (s : BoundedStack α capacity) (v : α) : Option (BoundedStack α capacity) :=
  if h : s.items.length < capacity then some ⟨v :: s.items, h⟩ else none

/-- An empty stack has nothing to give. -/
def pop : BoundedStack α capacity → Option (α × BoundedStack α capacity)
  | ⟨[], _⟩ => none
  | ⟨v :: items, h⟩ => some (v, ⟨items, Nat.le_of_succ_le h⟩)

theorem push_eq_none : s.push v = none ↔ s.items.length = capacity := by
  have := s.bounded
  simp only [push, dite_eq_right_iff, reduceCtorEq, imp_false]
  omega

theorem pop_eq_some : s.pop = some (v, t) ↔ s.items = v :: t.items := by
  obtain ⟨items, h⟩ := s
  obtain ⟨rest, h'⟩ := t
  cases items <;> simp [pop]

theorem pop_eq_none : s.pop = none ↔ s.items = [] := by
  obtain ⟨items, h⟩ := s
  cases items <;> simp [pop]

/-- What can be done to a stack. -/
inductive Op (α : Type)
  | push (v : α)
  | pop

/-- The stack after an operation; one that is not possible changes nothing. -/
def after (s : BoundedStack α capacity) : Op α → BoundedStack α capacity
  | .push v => (s.push v).getD s
  | .pop => (s.pop.map Prod.snd).getD s

theorem after_push (h : s.items.length < capacity) : (s.after (.push v)).items = v :: s.items := by
  simp [after, push, h]

theorem after_pop (h : s.items = v :: t.items) : s.after .pop = t := by
  simp [after, pop_eq_some.mpr h]

theorem after_push_full (h : s.items.length = capacity) : s.after (.push v) = s := by
  simp [after, push_eq_none.mpr h]

theorem after_pop_empty (h : s.items = []) : s.after .pop = s := by
  simp [after, pop_eq_none.mpr h]

/-- The cells above `sp`, up to `top`, are the stack's values, the most recent lowest. -/
structure Holds (cells : ℕ → α) (top sp : ℕ) (s : BoundedStack α capacity) : Prop where
  pointer : sp + s.items.length = top
  cell : ∀ i (h : i < s.items.length), cells (sp + 1 + i) = s.items[i]

theorem holds_empty (cells : ℕ → α) (top : ℕ) :
    Holds cells top top (empty : BoundedStack α capacity) :=
  ⟨rfl, fun _ h => absurd h (Nat.not_lt_zero _)⟩

/-- Only the cells above the pointer matter. -/
theorem Holds.frame (h : Holds cells top sp s)
    (hc : ∀ a, sp < a → a ≤ top → cells' a = cells a) : Holds cells' top sp s := by
  refine ⟨h.pointer, fun i hi => ?_⟩
  have hp := h.pointer
  rw [hc _ (by omega) (by omega), h.cell i hi]

/-- A push stores at the pointer and lowers it. -/
theorem Holds.push (h : Holds cells top (sp + 1) s) (hs : s.items.length < capacity)
    (hv : cells' (sp + 1) = v) (hc : ∀ a, sp + 1 < a → a ≤ top → cells' a = cells a) :
    Holds cells' top sp (s.after (.push v)) := by
  have hp := h.pointer
  have hi := after_push (v := v) hs
  refine ⟨by rw [hi, List.length_cons]; omega, fun i hlt => ?_⟩
  simp only [hi, List.length_cons] at hlt ⊢
  cases i with
  | zero => exact hv
  | succ i =>
    rw [show sp + 1 + (i + 1) = sp + 1 + 1 + i by omega, hc _ (by omega) (by omega),
      h.cell i (by omega), List.getElem_cons_succ]

/-- The most recent value stands just above the pointer. -/
theorem Holds.head (h : Holds cells top sp s) (hs : s.items = v :: t.items) :
    cells (sp + 1) = v := by
  have hc := h.cell 0 (by simp [hs])
  simpa [hs] using hc

/-- A pop only raises the pointer. -/
theorem Holds.pop (h : Holds cells top sp s) (hs : s.items ≠ []) :
    Holds cells top (sp + 1) (s.after .pop) := by
  obtain ⟨v, rest, hi⟩ := List.exists_cons_of_ne_nil hs
  have hb := s.bounded
  have hp := h.pointer
  simp only [hi, List.length_cons] at hb hp
  rw [after_pop (t := ⟨rest, by omega⟩) (v := v) hi]
  refine ⟨by simp only; omega, fun i hlt => ?_⟩
  have hc := h.cell (i + 1) (by rw [hi]; exact Nat.succ_lt_succ hlt)
  simp only [hi, List.getElem_cons_succ] at hc
  rw [← hc, show sp + 1 + 1 + i = sp + 1 + (i + 1) by omega]

theorem Holds.full_iff (h : Holds cells top sp s) :
    s.items.length = capacity ↔ sp + capacity = top := by
  have := h.pointer
  omega

theorem Holds.empty_iff (h : Holds cells top sp s) : s.items = [] ↔ sp = top := by
  have := h.pointer
  rw [← List.length_eq_zero_iff]
  omega

end BoundedStack

end Dez
