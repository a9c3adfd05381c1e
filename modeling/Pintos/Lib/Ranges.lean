import Mathlib.Data.List.Range

/-!
# Ranges laid end to end
-/

namespace Pintos.Lib

theorem flatMap_range'_telescope {f : Nat → Nat} {k : Nat} (hf : ∀ i, i < k → f i ≤ f (i + 1)) :
    f 0 ≤ f k ∧
      (List.range k).flatMap (fun i => List.range' (f i) (f (i + 1) - f i)) =
        List.range' (f 0) (f k - f 0) := by
  induction k with
  | zero => simp
  | succ k ih =>
    obtain ⟨hle, heq⟩ := ih fun i hi => hf i (by omega)
    have hstep := hf k (by omega)
    refine ⟨by omega, ?_⟩
    rw [List.range_succ, List.flatMap_append, heq, List.flatMap_singleton,
      show f (k + 1) - f 0 = (f k - f 0) + (f (k + 1) - f k) by omega, ← List.range'_append_1]
    congr 2
    omega

end Pintos.Lib
