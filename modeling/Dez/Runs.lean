import Mathlib.Data.List.DropRight
import Mathlib.Data.List.TakeWhile

/-! Runs of elements that pass a test, before one that does not. -/
namespace Dez
variable {α : Type*} {p : α → Bool} {x : α} {front : List α}

theorem takeWhile_stop (hx : p x = false) (front rest : List α) :
    (front ++ x :: rest).takeWhile p = front.takeWhile p := by
  induction front with
  | nil => exact List.takeWhile_cons_of_neg (by rw [hx]; exact Bool.false_ne_true)
  | cons c front ih => rw [List.cons_append, List.takeWhile_cons, List.takeWhile_cons, ih]

theorem dropWhile_stop (hx : p x = false) (front rest : List α) :
    (front ++ x :: rest).dropWhile p = front.dropWhile p ++ x :: rest := by
  induction front with
  | nil => exact List.dropWhile_cons_of_neg (by rw [hx]; exact Bool.false_ne_true)
  | cons c front ih =>
    rw [List.cons_append, List.dropWhile_cons, List.dropWhile_cons, ih]
    split <;> rfl

/-- The run at the end of a list stays behind the last element that fails the test. -/
theorem rdropWhile_stop (hx : p x = false) (front rest : List α) :
    (front ++ x :: rest).rdropWhile p = front ++ x :: rest.rdropWhile p := by
  have hreverse : (front ++ x :: rest).reverse = rest.reverse ++ x :: front.reverse := by
    rw [List.reverse_append, List.reverse_cons, List.append_assoc]
    rfl
  rw [List.rdropWhile, hreverse, dropWhile_stop hx, List.reverse_append, List.reverse_cons,
    List.reverse_reverse, List.append_assoc]
  rfl

theorem rdropWhile_run {run : List α} (hrun : ∀ d ∈ run, p d = true) (front : List α) :
    (front ++ run).rdropWhile p = front.rdropWhile p := by
  have hback : ∀ d ∈ run.reverse, p d = true := fun d hd => hrun d (List.mem_reverse.mp hd)
  rw [List.rdropWhile, List.reverse_append, List.dropWhile_append_of_pos hback, List.rdropWhile]

theorem rdropWhile_none (h : ∀ d ∈ front, p d = false) : front.rdropWhile p = front := by
  rw [List.rdropWhile_eq_self_iff]
  intro hne
  rw [h _ (List.getLast_mem hne)]
  exact Bool.false_ne_true

/-- The first place of an element splits a list. -/
theorem dropWhile_ne [BEq α] [LawfulBEq α] (h : x ∈ front) :
    ∃ rest, front.dropWhile (· != x) = x :: rest := by
  induction front with
  | nil => cases h
  | cons c front ih =>
    by_cases hc : c = x
    · subst hc
      exact ⟨front, List.dropWhile_cons_of_neg (by simp)⟩
    · rw [List.dropWhile_cons_of_pos (by simpa using hc)]
      exact ih ((List.mem_cons.mp h).resolve_left (Ne.symm hc))

/-- Two texts cut at the same mark, which neither front contains. -/
theorem cut_inj {front' rest rest' : List α} (h : x ∉ front) (h' : x ∉ front')
    (heq : front ++ x :: rest = front' ++ x :: rest') : front = front' ∧ rest = rest' := by
  induction front generalizing front' with
  | nil =>
    cases front' with
    | nil => exact ⟨rfl, (List.cons.inj heq).2⟩
    | cons c front' => exact absurd (List.mem_cons.mpr (.inl (List.cons.inj heq).1)) h'
  | cons c front ih =>
    cases front' with
    | nil => exact absurd (List.mem_cons.mpr (.inl (List.cons.inj heq).1.symm)) h
    | cons c' front' =>
      obtain ⟨rfl, htail⟩ := List.cons.inj heq
      obtain ⟨rfl, hrest⟩ := ih (List.not_mem_of_not_mem_cons h)
        (List.not_mem_of_not_mem_cons h') htail
      exact ⟨rfl, hrest⟩

end Dez
