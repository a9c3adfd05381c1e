import Mathlib.Logic.Function.Basic

/-!
# Maps kept in numbered slots

A slot is empty or holds a key and a value. Slots in which no key occurs twice
represent a map: `Represents slot m`. Putting a new key into an empty slot and
emptying a slot are insertion and erasure on the map, wherever the slot is
(`Represents.insert`, `Represents.erase`).
-/

namespace Pintos.Lib

open Function

variable {κ ν : Type}

structure Represents (slot : Nat → Option (κ × ν)) (m : κ → Option ν) : Prop where
  inj : ∀ {k k' n v v'}, slot k = some (n, v) → slot k' = some (n, v') → k = k'
  find : ∀ n v, m n = some v ↔ ∃ k, slot k = some (n, v)

namespace Represents

variable {slot : Nat → Option (κ × ν)} {m m' : κ → Option ν} {n : κ} {v : ν} {j : Nat}

theorem unique (h : Represents slot m) (h' : Represents slot m') : m = m' := by
  funext n
  apply Option.ext
  intro v
  rw [h.find, h'.find]

theorem empty : Represents (fun _ => none : Nat → Option (κ × ν)) fun _ => none := by
  refine ⟨fun h => ?_, fun n v => ⟨fun h => ?_, ?_⟩⟩
  · cases h
  · cases h
  · rintro ⟨k, h⟩
    cases h

variable [DecidableEq κ]

theorem insert (h : Represents slot m) (hj : slot j = none) (hn : m n = none) (v : ν) :
    Represents (update slot j (some (n, v))) (update m n (some v)) := by
  have hfresh : ∀ k u, slot k ≠ some (n, u) := by
    intro k u hk
    rw [(h.find n u).mpr ⟨k, hk⟩] at hn
    cases hn
  -- what a slot holds afterwards, it held before unless it is the new one
  have hslot : ∀ k n' u, update slot j (some (n, v)) k = some (n', u) ↔
      (k = j ∧ n' = n ∧ u = v) ∨ (k ≠ j ∧ slot k = some (n', u)) := by
    intro k n' u
    rw [update_apply]
    by_cases hk : k = j
    · simp [hk, eq_comm]
    · simp [hk]
  refine ⟨fun {k k' n' u u'} hk hk' => ?_, fun n' u => ?_⟩
  · rcases (hslot _ _ _).mp hk with ⟨rfl, rfl, -⟩ | ⟨-, hk0⟩
    · rcases (hslot _ _ _).mp hk' with ⟨rfl, -, -⟩ | ⟨-, hk'⟩
      · rfl
      · exact absurd hk' (hfresh _ _)
    · rcases (hslot _ _ _).mp hk' with ⟨-, he, -⟩ | ⟨-, hk'⟩
      · exact absurd (he ▸ hk0) (hfresh _ _)
      · exact h.inj hk0 hk'
  · rw [update_apply]
    by_cases hn' : n' = n
    · subst hn'
      rw [if_pos rfl]
      constructor
      · rintro ⟨rfl⟩
        exact ⟨j, (hslot _ _ _).mpr (Or.inl ⟨rfl, rfl, rfl⟩)⟩
      · rintro ⟨k, hk⟩
        rcases (hslot _ _ _).mp hk with ⟨-, -, rfl⟩ | ⟨-, hk⟩
        · rfl
        · exact absurd hk (hfresh _ _)
    · rw [if_neg hn', h.find]
      constructor
      · rintro ⟨k, hk⟩
        refine ⟨k, (hslot _ _ _).mpr (Or.inr ⟨?_, hk⟩)⟩
        rintro rfl
        rw [hj] at hk
        cases hk
      · rintro ⟨k, hk⟩
        rcases (hslot _ _ _).mp hk with ⟨-, he, -⟩ | ⟨-, hk⟩
        · exact absurd he hn'
        · exact ⟨k, hk⟩

theorem erase (h : Represents slot m) (hj : slot j = some (n, v)) :
    Represents (update slot j none) (update m n none) := by
  have hslot : ∀ k n' u, update slot j none k = some (n', u) ↔
      k ≠ j ∧ slot k = some (n', u) := by
    intro k n' u
    rw [update_apply]
    by_cases hk : k = j <;> simp [hk]
  refine ⟨fun {k k' n' u u'} hk hk' => ?_, fun n' u => ?_⟩
  · exact h.inj ((hslot _ _ _).mp hk).2 ((hslot _ _ _).mp hk').2
  · rw [update_apply]
    by_cases hn' : n' = n
    · subst hn'
      rw [if_pos rfl]
      constructor
      · intro hc
        cases hc
      · rintro ⟨k, hk⟩
        obtain ⟨hkj, hk⟩ := (hslot _ _ _).mp hk
        exact absurd (h.inj hk hj) hkj
    · rw [if_neg hn', h.find]
      constructor
      · rintro ⟨k, hk⟩
        refine ⟨k, (hslot _ _ _).mpr ⟨?_, hk⟩⟩
        rintro rfl
        rw [hj] at hk
        cases hk
        exact hn' rfl
      · rintro ⟨k, hk⟩
        exact ⟨k, ((hslot _ _ _).mp hk).2⟩

end Represents

end Pintos.Lib
