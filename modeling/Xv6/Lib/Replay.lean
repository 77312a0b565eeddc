import Mathlib

/-! A store hit by a sequence of point writes, in order.

    `replay d ws` is the store `d` after the writes `ws`. A key that no write names keeps its value,
    and when all writes to a key carry the same value the key ends with that value, whatever the
    store held before. The last fact is what makes redoing an interrupted sequence harmless. -/

namespace Replay
open Function

variable {K V : Type} [DecidableEq K]

/-- The store after the writes `ws`, first to last. -/
def replay (d : K → V) : List (K × V) → K → V
  | [] => d
  | (k, v) :: ws => replay (update d k v) ws

theorem replay_append : ∀ (d : K → V) (ws vs : List (K × V)),
    replay d (ws ++ vs) = replay (replay d ws) vs
  | _, [], _ => rfl
  | d, (k, v) :: ws, vs => by
    rw [List.cons_append, replay, replay, replay_append _ ws vs]

/-- A key that no write names keeps its value. -/
theorem replay_other : ∀ {d : K → V} {ws : List (K × V)} {k : K},
    (∀ w ∈ ws, w.1 ≠ k) → replay d ws k = d k
  | _, [], _, _ => rfl
  | d, (j, v) :: ws, k, h => by
    rw [replay, replay_other fun w hw => h w (List.mem_cons_of_mem _ hw)]
    exact update_of_ne (h (j, v) (List.mem_cons_self ..)).symm _ _

/-- A key that is written, always with the value `f k`, ends with that value. -/
theorem replay_of_mem : ∀ {d : K → V} {ws : List (K × V)} {k : K} {f : K → V},
    (∀ w ∈ ws, w.2 = f w.1) → k ∈ ws.map Prod.fst → replay d ws k = f k
  | _, [], _, _, _, hk => by simp at hk
  | d, (j, v) :: ws, k, f, hf, hk => by
    have hf' : ∀ w ∈ ws, w.2 = f w.1 := fun w hw => hf w (List.mem_cons_of_mem _ hw)
    rw [replay]
    by_cases hmem : k ∈ ws.map Prod.fst
    · exact replay_of_mem hf' hmem
    · have hjk : j = k := by simpa [hmem, eq_comm] using hk
      subst hjk
      have hv : v = f j := hf (j, v) (List.mem_cons_self ..)
      rw [replay_other fun w hw hw' => hmem (List.mem_map.mpr ⟨w, hw, hw'⟩), hv]
      exact update_self ..

end Replay
