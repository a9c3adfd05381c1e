import Mathlib.Data.List.Nodup
import Mathlib.Data.List.Sort
import Mathlib.Logic.Function.Basic

/-!
# Queues over elements with one link

An element that carries its own link can be in one list at a time. `Exclusive` says
so of a family of lists; it is kept when elements leave a list and when an element
that is in none of them enters one.

`Before` is the order of a queue with priorities: higher keys first, and elements of
one key in the order of their stamps. Insertion before the first element with a
smaller key keeps a list in this order, if the new element has the largest stamp. A queue
in which smaller keys come first is ordered by its keys alone.
-/

namespace Pintos.Lib

open Function List

/-! ## One list at a time -/

/-- No element is in two lists, or twice in one. -/
structure Exclusive {α ι : Type} (lists : ι → List α) : Prop where
  nodup : ∀ i, (lists i).Nodup
  apart : ∀ i j a, a ∈ lists i → a ∈ lists j → i = j

section
variable {α ι : Type} [DecidableEq ι] {lists : ι → List α} {i : ι} {a : α} {l : List α}

theorem Exclusive.shrink (h : Exclusive lists) (hl : l.Sublist (lists i)) :
    Exclusive (update lists i l) := by
  have hmem : ∀ j b, b ∈ update lists i l j → b ∈ lists j := by
    intro j b hb
    by_cases hj : j = i
    · rw [hj, update_self] at hb
      rw [hj]
      exact hl.subset hb
    · rwa [update_of_ne hj] at hb
  refine ⟨fun j => ?_, fun j k b hj hk => h.apart j k b (hmem j b hj) (hmem k b hk)⟩
  by_cases hj : j = i
  · rw [hj, update_self]
    exact hl.nodup (h.nodup i)
  · rw [update_of_ne hj]
    exact h.nodup j

theorem Exclusive.enter (h : Exclusive lists) (ha : ∀ j, a ∉ lists j)
    (hl : l.Perm (a :: lists i)) : Exclusive (update lists i l) := by
  have hmem : ∀ j b, b ∈ update lists i l j → b ∈ lists j ∨ b = a ∧ j = i := by
    intro j b hb
    by_cases hj : j = i
    · rw [hj, update_self] at hb
      rcases mem_cons.mp (hl.mem_iff.mp hb) with hb | hb
      · exact .inr ⟨hb, hj⟩
      · exact .inl (hj ▸ hb)
    · rw [update_of_ne hj] at hb
      exact .inl hb
  refine ⟨fun j => ?_, fun j k b hj hk => ?_⟩
  · by_cases hj : j = i
    · rw [hj, update_self]
      exact hl.nodup_iff.mpr (nodup_cons.mpr ⟨ha i, h.nodup i⟩)
    · rw [update_of_ne hj]
      exact h.nodup j
  · rcases hmem j b hj with hj | ⟨hb, hj⟩ <;> rcases hmem k b hk with hk | ⟨hb', hk⟩
    · exact h.apart j k b hj hk
    · exact absurd (hb' ▸ hj) (ha j)
    · exact absurd (hb ▸ hk) (ha k)
    · rw [hj, hk]

end

/-! ## Priorities -/

/-- `a` stands before `b`: its key is larger, or it has waited longer. -/
def Before {α : Type} (key : α → Int) (stamp : α → Nat) (a b : α) : Prop :=
  key b < key a ∨ key a = key b ∧ stamp a < stamp b

section
variable {α : Type} {key key' : α → Int} {stamp stamp' : α → Nat} {a : α} {l : List α}

/-- The order depends on the keys and stamps of the elements only. -/
theorem pairwise_before_congr (hkey : ∀ b ∈ l, key' b = key b) (hstamp : ∀ b ∈ l, stamp' b = stamp b)
    (h : l.Pairwise (Before key stamp)) : l.Pairwise (Before key' stamp') := by
  refine h.imp_of_mem fun {b c} hb hc hbc => ?_
  unfold Before
  rw [hkey b hb, hkey c hc, hstamp b hb, hstamp c hc]
  exact hbc

/-- **Insertion is stable**: an element with the largest stamp goes behind those of its key. -/
theorem pairwise_before_orderedInsert (h : l.Pairwise (Before key stamp))
    (hstamp : ∀ b ∈ l, stamp b < stamp a) :
    (l.orderedInsert (fun a b => key b < key a) a).Pairwise (Before key stamp) := by
  induction l with
  | nil => exact pairwise_singleton _ a
  | cons b rest ih =>
    obtain ⟨hb, hrest⟩ := pairwise_cons.mp h
    rw [orderedInsert_cons]
    split
    · -- everything behind `b` has a key that is not larger than that of `b`
      rename_i hlt
      refine pairwise_cons.mpr ⟨fun c hc => .inl ?_, h⟩
      rcases mem_cons.mp hc with rfl | hc
      · exact hlt
      · rcases hb c hc with hcb | ⟨hcb, -⟩
        · exact lt_trans hcb hlt
        · rwa [← hcb]
    · rename_i hle
      have hba : Before key stamp b a := by
        rcases Int.lt_or_eq_of_le (Int.not_lt.mp hle) with hlt | heq
        · exact .inl hlt
        · exact .inr ⟨heq.symm, hstamp b mem_cons_self⟩
      refine pairwise_cons.mpr
        ⟨fun c hc => ?_, ih hrest fun c hc => hstamp c (mem_cons_of_mem _ hc)⟩
      rcases (mem_orderedInsert _).mp hc with rfl | hc
      · exact hba
      · exact hb c hc

theorem pairwise_le_orderedInsert (h : l.Pairwise fun a b => key a ≤ key b) :
    (l.orderedInsert (fun a b => key a < key b) a).Pairwise fun a b => key a ≤ key b := by
  induction l with
  | nil => exact pairwise_singleton _ a
  | cons b rest ih =>
    obtain ⟨hb, hrest⟩ := pairwise_cons.mp h
    rw [orderedInsert_cons]
    split
    · rename_i hlt
      refine pairwise_cons.mpr ⟨fun c hc => ?_, h⟩
      rcases mem_cons.mp hc with rfl | hc
      · exact hlt.le
      · exact hlt.le.trans (hb c hc)
    · rename_i hle
      refine pairwise_cons.mpr ⟨fun c hc => ?_, ih hrest⟩
      rcases (mem_orderedInsert _).mp hc with rfl | hc
      · exact Int.not_lt.mp hle
      · exact hb c hc

end

end Pintos.Lib
