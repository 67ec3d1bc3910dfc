import Mathlib.Tactic

/-! Machines that leave some steps undefined: their runs, and the simulation of such a machine by
one below it. -/
namespace Dez

variable {α γ : Type*} {next : α → Option α} {below : γ → γ → Prop} {represents : α → γ → Prop}
  {a b c : α} {m n : ℕ}

/-- The state after so many steps, as long as every step is defined. -/
def runFor (next : α → Option α) : ℕ → α → Option α
  | 0, a => some a
  | n + 1, a => (next a).bind (runFor next n)

theorem runFor_add (next : α → Option α) (m n : ℕ) (a : α) :
    runFor next (m + n) a = (runFor next m a).bind (runFor next n) := by
  induction m generalizing a with
  | zero => rw [Nat.zero_add]; rfl
  | succ m ih =>
    rw [Nat.succ_add]
    simp only [runFor]
    cases next a with
    | none => rfl
    | some a => exact ih a

/-- A run goes on to its last state by one step. -/
theorem runFor_succ (next : α → Option α) (n : ℕ) (a : α) :
    runFor next (n + 1) a = (runFor next n a).bind next := by
  rw [runFor_add]
  apply congrArg
  funext a
  exact Option.bind_fun_some (next a)

/-- Each defined step of the machine above is a step of the machine below. -/
def Simulates (next : α → Option α) (below : γ → γ → Prop) (represents : α → γ → Prop) : Prop :=
  ∀ a b c d, represents a c → next a = some b → below c d → represents b d

/-- As long as the steps above are defined, the run below stays with them. -/
theorem Simulates.run (h : Simulates next below represents) {run : ℕ → γ}
    (hrun : ∀ n, below (run n) (run (n + 1))) (h0 : represents a (run 0))
    (ha : runFor next n a = some b) : represents b (run n) := by
  induction n generalizing b with
  | zero =>
    cases ha
    exact h0
  | succ n ih =>
    rw [runFor_succ] at ha
    obtain ⟨last, hlast, hb⟩ := Option.bind_eq_some_iff.mp ha
    exact h last b _ _ (ih hlast) hb (hrun n)

end Dez
