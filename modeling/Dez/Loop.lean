import Mathlib.Tactic

/-! Loops: a turn goes on with another state or leaves with a result. -/
namespace Dez

variable {σ ρ : Type*} {turn : σ → σ ⊕ ρ} {s s' : σ} {r r' : ρ}

/-- The loop started in a state ends, and this is what it leaves. -/
inductive LoopEnds (turn : σ → σ ⊕ ρ) : σ → ρ → Prop
  | leave {s : σ} {r : ρ} (h : turn s = .inr r) : LoopEnds turn s r
  | again {s s' : σ} {r : ρ} (h : turn s = .inl s') (hrest : LoopEnds turn s' r) :
    LoopEnds turn s r

/-- The states that the loop's turns come to. -/
inductive LoopComes (turn : σ → σ ⊕ ρ) (s : σ) : σ → Prop
  | start : LoopComes turn s s
  | turn {s' s'' : σ} (h : LoopComes turn s s') (hturn : turn s' = .inl s'') :
    LoopComes turn s s''

theorem LoopComes.invariant {P : σ → Prop} (h : LoopComes turn s s')
    (hturn : ∀ a b, P a → turn a = .inl b → P b) (hs : P s) : P s' := by
  induction h with
  | start => exact hs
  | turn _ h ih => exact hturn _ _ ih h

/-- The loop's last turn starts from a state it comes to. -/
theorem LoopEnds.comes (h : LoopEnds turn s r) :
    ∃ last, LoopComes turn s last ∧ turn last = .inr r := by
  induction h with
  | @leave s r h => exact ⟨s, .start, h⟩
  | @again s s' r h _ ih =>
    obtain ⟨last, hcomes, hlast⟩ := ih
    refine ⟨last, ?_, hlast⟩
    clear hlast
    induction hcomes with
    | start => exact .turn .start h
    | turn _ hturn ih => exact ih.turn hturn

theorem LoopEnds.unique (h : LoopEnds turn s r) (h' : LoopEnds turn s r') : r = r' := by
  induction h with
  | leave h =>
    cases h' with
    | leave h' => exact Sum.inr.inj (h.symm.trans h')
    | again h' _ => rw [h] at h'; cases h'
  | again h _ ih =>
    cases h' with
    | leave h' => rw [h] at h'; cases h'
    | again h' hrest' =>
      apply ih
      rwa [Sum.inl.inj (h.symm.trans h')]

/-- A function that follows the turns within a bound gives what the loop leaves, if every turn
that goes on makes a measure smaller. -/
theorem LoopEnds.of_bounded {within : ℕ → σ → ρ} (measure : σ → ℕ)
    (hleave : ∀ n s r, turn s = .inr r → within (n + 1) s = r)
    (hagain : ∀ n s s', turn s = .inl s' → within (n + 1) s = within n s')
    (hsmaller : ∀ s s', turn s = .inl s' → measure s' < measure s) {n : ℕ} (h : measure s < n) :
    LoopEnds turn s (within n s) := by
  induction n generalizing s with
  | zero => omega
  | succ n ih =>
    cases hturn : turn s with
    | inr r =>
      rw [hleave n s r hturn]
      exact .leave hturn
    | inl s' =>
      rw [hagain n s s' hturn]
      have hlt := hsmaller s s' hturn
      exact .again hturn (ih (by omega))

end Dez
