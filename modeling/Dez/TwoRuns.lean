import Dez.Buffer

/-! Two runs of the same code on different data, side by side. -/
namespace Dez

/-- Both runs end in the same fault, or in results that are related. -/
inductive BothRun {ε α β : Type} (r : α → β → Prop) : Except ε α → Except ε β → Prop
  | error (fault : ε) : BothRun r (.error fault) (.error fault)
  | ok {a : α} {b : β} (h : r a b) : BothRun r (.ok a) (.ok b)

namespace BothRun

variable {ε α β α' β' : Type} {r : α → β → Prop} {r' : α' → β' → Prop} {x : Except ε α}
  {y : Except ε β} {f : α → Except ε α'} {g : β → Except ε β'}

theorem bind (h : BothRun r x y) (hstep : ∀ {a b}, r a b → BothRun r' (f a) (g b)) :
    BothRun r' (x >>= f) (y >>= g) := by
  cases h with
  | error fault => exact .error fault
  | ok h => exact hstep h

theorem eq {x y : Except ε α} (h : BothRun Eq x y) : x = y := by
  cases h with
  | error fault => rfl
  | ok h => rw [h]

end BothRun

namespace CArray

variable {α : Type} {n size : ℕ}

/-- The first cells are the same. -/
def SameFront (n : ℕ) (a b : CArray α size) : Prop := ∀ i : Fin size, i.val < n → a i = b i

theorem SameFront.front {a b : CArray α size} (h : SameFront n a b) : a.front n = b.front n := by
  unfold CArray.front
  apply List.map_congr_left
  intro i hi
  obtain ⟨k, hk, hget⟩ := List.mem_take_iff_getElem.mp hi
  rw [List.getElem_finRange] at hget
  apply h
  rw [← hget]
  exact (Nat.lt_min.mp hk).1

variable {a b : CArray Word size}

theorem SameFront.set (h : SameFront n a b) (i : Fin size) {v w : Word}
    (hv : i.val < n → v = w) : SameFront n (a.set i v) (b.set i w) := by
  intro j hj
  rw [set_apply, set_apply]
  by_cases hij : j = i
  · rw [if_pos hij, if_pos hij]
    exact hv (hij ▸ hj)
  · rw [if_neg hij, if_neg hij]
    exact h j hj

end CArray

end Dez
