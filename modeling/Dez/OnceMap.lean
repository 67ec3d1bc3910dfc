import Mathlib.Data.List.Nodup

/-! Maps of bounded size that take each key once. -/
namespace Dez

variable {K V : Type} {key : V → K} {bound : ℕ}

/-- Values that carry their keys, in the order they came. -/
structure OnceMap (key : V → K) (bound : ℕ) where
  values : List V
  once : (values.map key).Nodup
  bounded : values.length ≤ bound

namespace OnceMap

def empty : OnceMap key bound := ⟨[], List.nodup_nil, Nat.zero_le _⟩

variable [DecidableEq K] {m : OnceMap key bound} {v : V} {k : K}

def get (m : OnceMap key bound) (k : K) : Option V := m.values.find? fun v => decide (key v = k)

/-- Whether the value is taken, and the map then: never over its bound, never twice for a key. -/
def insert (m : OnceMap key bound) (v : V) : Bool × OnceMap key bound :=
  if h : m.values.length < bound ∧ key v ∉ m.values.map key then
    (true, {
      values := m.values ++ [v]
      once := by
        rw [List.map_append, List.map_singleton, List.nodup_append]
        refine ⟨m.once, List.nodup_singleton _, fun a ha b hb => ?_⟩
        rintro rfl
        exact h.2 (List.mem_singleton.mp hb ▸ ha)
      bounded := by
        rw [List.length_append]
        exact h.1 })
  else (false, m)

theorem get_eq_none_iff : m.get k = none ↔ k ∉ m.values.map key := by
  simp [get]

/-- No other value has the key. -/
theorem get_of_mem (hv : v ∈ m.values) : m.get (key v) = some v := by
  have hsome : (m.get (key v)).isSome := by
    rw [Option.isSome_iff_ne_none, ne_eq, get_eq_none_iff, not_not]
    exact List.mem_map_of_mem hv
  obtain ⟨w, hget⟩ := Option.isSome_iff_exists.mp hsome
  have hkey := List.find?_some hget
  rw [decide_eq_true_eq] at hkey
  have hmem : w ∈ m.values := List.mem_of_find?_eq_some hget
  rw [hget, List.inj_on_of_nodup_map m.once hmem hv hkey]

theorem insert_eq_false_iff :
    (m.insert v).1 = false ↔ key v ∈ m.values.map key ∨ m.values.length = bound := by
  have hbounded := m.bounded
  unfold insert
  split
  · rename_i h
    refine iff_of_false Bool.noConfusion ?_
    rintro (hmem | hfull)
    · exact h.2 hmem
    · exact Nat.ne_of_lt h.1 hfull
  · rename_i h
    refine iff_of_true rfl ?_
    by_contra hno
    rw [not_or] at hno
    exact h ⟨by omega, hno.1⟩

theorem values_insert (m : OnceMap key bound) (v : V) :
    (m.insert v).2.values = if (m.insert v).1 then m.values ++ [v] else m.values := by
  unfold insert
  split <;> rfl

end OnceMap

end Dez
