import Pintos.Lib.Arr

/-!
# Circular buffers

A circular buffer of `n` slots writes the `i`-th element ever put into slot `i % n` and
reads it back from there. `Ring buf put got` says that of the elements `put` so far the
first `got` have been taken and the others are still in their slots. One slot is kept
free, so that the two positions agree modulo `n` only if nothing is left to take.
-/

namespace Pintos.Lib

variable {α : Type} {n : Nat} [NeZero n]

/-- The elements after the first `got` of those that were put are in the buffer. -/
structure Ring (buf : Arr n α) (put : List α) (got : Nat) : Prop where
  le : got ≤ put.length
  room : put.length - got < n
  holds : ∀ i, got ≤ i → ∀ h : i < put.length, buf.get (i % n) = put[i]

variable {buf : Arr n α} {put : List α} {got : Nat}

omit [NeZero n] in
/-- Positions less than a lap apart are the same slot only if they are equal. -/
theorem mod_eq_mod_iff {i j : Nat} (hle : i ≤ j) (hlt : j - i < n) : j % n = i % n ↔ j = i := by
  refine ⟨fun heq => ?_, fun heq => by rw [heq]⟩
  have hdvd : n ∣ j - i := Nat.dvd_of_mod_eq_zero (Nat.sub_mod_eq_zero_of_mod_eq heq)
  have := Nat.eq_zero_of_dvd_of_lt hdvd hlt
  omega

theorem ring_nil (buf : Arr n α) : Ring buf [] 0 :=
  ⟨le_rfl, Nat.pos_of_neZero n, fun _ _ h => absurd h (Nat.not_lt_zero _)⟩

variable (h : Ring buf put got)
include h

theorem Ring.empty_iff : put.length % n = got % n ↔ put.length = got :=
  mod_eq_mod_iff h.le h.room

theorem Ring.full_iff :
    (put.length + 1) % n = got % n ↔ put.length = got + (n - 1) := by
  have hle := h.le
  have hroom := h.room
  by_cases hfull : put.length = got + (n - 1)
  · rw [hfull, show got + (n - 1) + 1 = got + n by omega, Nat.add_mod_right]
    simp
  · rw [mod_eq_mod_iff (by omega) (by omega)]
    omega

/-- **An element is put** into the slot after the last. -/
theorem Ring.enqueue (hroom : put.length ≠ got + (n - 1)) (v : α) :
    Ring (buf.set (put.length % n) v) (put ++ [v]) got := by
  have hle := h.le
  have hlt := h.room
  have hpos := Nat.pos_of_neZero n
  have hlen : (put ++ [v]).length = put.length + 1 := by simp
  refine ⟨by omega, by omega, fun i hi hput => ?_⟩
  rw [Arr.get_set _ _ _ (Nat.mod_lt i hpos)]
  by_cases hlast : i = put.length
  · subst hlast
    rw [if_pos rfl, List.getElem_concat_length rfl]
  · -- the slot is not one that holds an element
    have hold : i < put.length := by omega
    have hslot : ¬ i % n = put.length % n := fun heq =>
      hlast ((mod_eq_mod_iff hold.le (by omega)).mp heq.symm).symm
    rw [if_neg hslot, List.getElem_append_left hold]
    exact h.holds i hi hold

theorem Ring.dequeue (hne : put.length ≠ got) :
    Ring buf put (got + 1) ∧ put[got]? = some (buf.get (got % n)) := by
  have hle := h.le
  have hlt : got < put.length := by omega
  have hroom := h.room
  refine ⟨⟨hlt, by omega, fun i hi => h.holds i (by omega)⟩, ?_⟩
  rw [h.holds got le_rfl hlt, List.getElem?_eq_getElem hlt]

end Pintos.Lib
