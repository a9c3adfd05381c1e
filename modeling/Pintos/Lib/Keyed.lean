import Mathlib.Data.List.Nodup

/-!
# Lists with a key

A list whose elements have distinct keys is a table: a lookup by key finds the
element (`find?_key_of_mem`), replacing the element of a key changes the lookup
of that key only (`find?_key_replace`), and so does erasing it
(`find?_key_erase`).
-/

namespace Pintos.Lib

open List

variable {α κ : Type} [DecidableEq κ] {key : α → κ} {l : List α} {a e : α}

theorem find?_key_of_mem (hnd : (l.map key).Nodup) (he : e ∈ l) :
    l.find? (fun x => key x = key e) = some e := by
  induction l with
  | nil => simp at he
  | cons b l ih =>
    rw [map_cons, nodup_cons] at hnd
    rcases mem_cons.mp he with rfl | hmem
    · simp
    · have hne : key b ≠ key e := by
        intro heq
        exact hnd.1 (heq ▸ mem_map_of_mem hmem)
      rw [find?_cons_of_neg (by simpa using hne)]
      exact ih hnd.2 hmem

theorem find?_key_eq_none {k : κ} : l.find? (fun x => key x = k) = none ↔ k ∉ l.map key := by
  rw [find?_eq_none, mem_map]
  constructor
  · rintro h ⟨e, he, rfl⟩
    simpa using h e he
  · intro h e he
    simp only [decide_eq_true_eq]
    intro hk
    exact h ⟨e, he, hk⟩

/-! ## Replacing -/

/-- Put `a` in the place of the elements with its key. -/
def replaceKey (key : α → κ) (l : List α) (a : α) : List α :=
  l.map fun e => if key e = key a then a else e

theorem map_key_replace : (replaceKey key l a).map key = l.map key := by
  unfold replaceKey
  rw [map_map]
  apply map_congr_left
  intro e _
  simp only [Function.comp_apply]
  split
  · rename_i h
    exact h.symm
  · rfl

theorem find?_key_replace (ha : key a ∈ l.map key) (k : κ) :
    (replaceKey key l a).find? (fun x => key x = k) =
      if k = key a then some a else l.find? fun x => key x = k := by
  unfold replaceKey
  by_cases hk : k = key a
  · rw [if_pos hk]
    subst hk
    induction l with
    | nil => simp at ha
    | cons b l ih =>
      rw [map_cons]
      by_cases hb : key b = key a
      · simp [hb]
      · rw [if_neg hb, find?_cons_of_neg (by simpa using hb)]
        refine ih ?_
        rcases mem_cons.mp (map_cons .. ▸ ha) with h | h
        · exact absurd h.symm hb
        · exact h
  · rw [if_neg hk]
    clear ha
    have hka : key a ≠ k := fun h => hk h.symm
    induction l with
    | nil => rfl
    | cons b l ih =>
      rw [map_cons]
      by_cases hb : key b = key a
      · rw [if_pos hb, find?_cons_of_neg (by simpa using hka),
          find?_cons_of_neg (by simpa [hb] using hka), ih]
      · rw [if_neg hb]
        by_cases hbk : key b = k
        · simp [hbk]
        · rw [find?_cons_of_neg (by simpa using hbk),
            find?_cons_of_neg (by simpa using hbk), ih]

theorem replaceKey_replaceKey {b : α} (h : key a = key b) :
    replaceKey key (replaceKey key l a) b = replaceKey key l b := by
  unfold replaceKey
  rw [map_map]
  apply map_congr_left
  intro e _
  simp only [Function.comp_apply]
  by_cases he : key e = key b
  · rw [if_pos (he.trans h.symm), if_pos h, if_pos he]
  · have hea : ¬ key e = key a := by rwa [h]
    rw [if_neg hea, if_neg he]

theorem replaceKey_self (hnd : (l.map key).Nodup) (ha : a ∈ l) : replaceKey key l a = l := by
  unfold replaceKey
  conv_rhs => rw [← map_id l]
  apply map_congr_left
  intro e he
  split
  · rename_i h
    exact inj_on_of_nodup_map hnd ha he h.symm
  · rfl

/-! ## Erasing -/

theorem find?_key_erase (hnd : (l.map key).Nodup) (k k' : κ) :
    (l.eraseP fun e => key e = k).find? (fun x => key x = k') =
      if k' = k then none else l.find? fun x => key x = k' := by
  induction l with
  | nil => simp
  | cons b l ih =>
    rw [map_cons, nodup_cons] at hnd
    by_cases hb : key b = k
    · rw [eraseP_cons_of_pos (by simpa using hb)]
      by_cases hk : k' = k
      · rw [if_pos hk, find?_key_eq_none, hk, ← hb]
        exact hnd.1
      · rw [if_neg hk, find?_cons_of_neg]
        simpa [hb] using fun h : k = k' => hk h.symm
    · rw [eraseP_cons_of_neg (by simpa using hb)]
      by_cases hbk : key b = k'
      · have hk : k' ≠ k := by rwa [← hbk]
        rw [if_neg hk, find?_cons_of_pos (by simpa using hbk),
          find?_cons_of_pos (by simpa using hbk)]
      · rw [find?_cons_of_neg (by simpa using hbk), ih hnd.2,
          find?_cons_of_neg (by simpa using hbk)]

end Pintos.Lib
