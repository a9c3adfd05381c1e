import Mathlib.Data.List.Perm.Basic
import Mathlib.Data.List.Nodup
import Pintos.Lib.Options

/-!
# Arrays of buckets

Lists of lists in which every element stands in the bucket that `slot` gives it. What an
array of buckets holds is its `flatten`, up to the order.
-/

namespace Pintos.Lib

open List

variable {α : Type} {bs : List (List α)} {b : List α} {i : Nat} {e : α}

/-- Every element stands in its bucket, and every bucket exists. -/
structure Placed (slot : α → Nat) (bs : List (List α)) : Prop where
  bound : ∀ e, slot e < bs.length
  slot_eq : ∀ i b, bs[i]? = some b → ∀ e ∈ b, slot e = i

section
variable {slot : α → Nat}

theorem Placed.bucket (h : Placed slot bs) (e : α) : ∃ b, bs[slot e]? = some b :=
  ⟨_, getElem?_eq_getElem (h.bound e)⟩

theorem Placed.mem_flatten_iff (h : Placed slot bs) (hb : bs[slot e]? = some b) :
    e ∈ bs.flatten ↔ e ∈ b := by
  rw [mem_flatten]
  constructor
  · rintro ⟨b', hb', he⟩
    obtain ⟨j, hj⟩ := mem_iff_getElem?.mp hb'
    have hslot := h.slot_eq j b' hj e he
    rw [← hslot, hb] at hj
    exact Option.some_inj.mp hj ▸ he
  · exact fun he => ⟨b, mem_of_getElem? hb, he⟩

/-! ## Empty buckets -/

theorem placed_replicate {n : Nat} (hslot : ∀ e, slot e < n) :
    Placed slot (List.replicate n ([] : List α)) where
  bound e := by
    rw [length_replicate]
    exact hslot e
  slot_eq i b hb e he := by
    rw [eq_of_mem_replicate (mem_of_getElem? hb)] at he
    exact absurd he not_mem_nil

/-! ## Replacing a bucket -/

theorem flatten_focus (hb : bs[i]? = some b) :
    ∃ rest, bs.flatten.Perm (b ++ rest) ∧ ∀ b', (bs.set i b').flatten.Perm (b' ++ rest) := by
  induction bs generalizing i with
  | nil => simp at hb
  | cons b0 bs ih =>
    cases i with
    | zero =>
      cases Option.some.inj hb
      exact ⟨bs.flatten, .refl _, fun b' => .refl _⟩
    | succ i =>
      obtain ⟨rest, hflat, hset⟩ := ih hb
      refine ⟨b0 ++ rest, ?_, fun b' => ?_⟩
      · exact (hflat.append_left b0).trans (perm_append_comm_assoc b0 b rest)
      · exact ((hset b').append_left b0).trans (perm_append_comm_assoc b0 b' rest)

theorem flatten_set_cons (hb : bs[i]? = some b) :
    (bs.set i (e :: b)).flatten.Perm (e :: bs.flatten) := by
  obtain ⟨rest, hflat, hset⟩ := flatten_focus hb
  exact (hset (e :: b)).trans (hflat.symm.cons e)

theorem Placed.set_cons (h : Placed slot bs) (hb : bs[slot e]? = some b) :
    Placed slot (bs.set (slot e) (e :: b)) where
  bound x := by
    rw [length_set]
    exact h.bound x
  slot_eq j c hc x hx := by
    by_cases hj : slot e = j
    · subst hj
      rw [getElem?_set_self (h.bound e)] at hc
      cases hc
      rcases mem_cons.mp hx with rfl | hmem
      · rfl
      · exact h.slot_eq _ b hb x hmem
    · rw [getElem?_set_ne hj] at hc
      exact h.slot_eq j c hc x hx

/-! ## Erasing -/

variable [DecidableEq α]

theorem Placed.map_erase (h : Placed slot bs) (e : α) : Placed slot (bs.map (·.erase e)) where
  bound x := by
    rw [List.length_map]
    exact h.bound x
  slot_eq j c hc x hx := by
    rw [List.getElem?_map] at hc
    obtain ⟨b, hb, rfl⟩ := Option.map_eq_some_iff.mp hc
    exact h.slot_eq j b hb x (List.mem_of_mem_erase hx)

theorem flatten_map_erase_sublist (bs : List (List α)) (e : α) :
    (bs.map (·.erase e)).flatten.Sublist bs.flatten := by
  induction bs with
  | nil => exact List.Sublist.refl _
  | cons b bs ih => exact erase_sublist.append ih

theorem flatten_map_erase (hnd : bs.flatten.Nodup) :
    (bs.map (·.erase e)).flatten.Perm (bs.flatten.erase e) := by
  rw [perm_ext_iff_of_nodup ((flatten_map_erase_sublist bs e).nodup hnd) (hnd.erase e)]
  intro x
  rw [hnd.mem_erase_iff, mem_flatten, mem_flatten]
  constructor
  · rintro ⟨c, hc, hx⟩
    obtain ⟨b, hb, rfl⟩ := mem_map.mp hc
    have hndb : b.Nodup := (nodup_flatten.mp hnd).1 b hb
    obtain ⟨hne, hmem⟩ := hndb.mem_erase_iff.mp hx
    exact ⟨hne, b, hb, hmem⟩
  · rintro ⟨hne, b, hb, hx⟩
    exact ⟨b.erase e, mem_map_of_mem hb, (mem_erase_of_ne hne).mpr hx⟩

end

end Pintos.Lib
