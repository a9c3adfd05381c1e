import Mathlib.Data.Set.Insert
import Mathlib.Logic.Function.Basic

/-!
# Two-level tables

Memory is made of pages of words. A root page refers to tables, one for each index, or has
the word `zero` where there is none; the words of the tables are the
entries. The tables are different pages (`TwoLevel`).
-/

namespace Pintos.Lib

open Function

variable {P ι W : Type}

section
variable [DecidableEq P] {m : P → ι → W} {p q : P} {i j : ι} {w : W}

def fillPage (m : P → ι → W) (p : P) (w : W) : P → ι → W := update m p fun _ => w

theorem fillPage_page (h : q ≠ p) : fillPage m p w q = m q := by
  simp [fillPage, h]

theorem fillPage_self : fillPage m p w p i = w := by
  simp [fillPage]

variable [DecidableEq ι]

def setWord (m : P → ι → W) (p : P) (i : ι) (w : W) : P → ι → W :=
  update m p (update (m p) i w)

theorem setWord_self : setWord m p i w p i = w := by
  simp [setWord]

theorem setWord_index (h : j ≠ i) : setWord m p i w p j = m p j := by
  simp [setWord, h]

theorem setWord_page (h : q ≠ p) : setWord m p i w q = m q := by
  simp [setWord, h]

end

section
variable [DecidableEq W] (zero : W) (ref : W → Option P)

def tableAt (m : P → ι → W) (root : P) (i : ι) : Option P :=
  if m root i = zero then none else ref (m root i)

/-- Entry `j` of table `i`; entries of a table that does not exist are zero. -/
def entryAt (m : P → ι → W) (root : P) (i j : ι) : W :=
  match tableAt zero ref m root i with
  | none => zero
  | some p => m p j

/-- The words of the root that are not zero refer to different pages, none of them the root. -/
structure TwoLevel (m : P → ι → W) (root : P) (used : Set P) : Prop where
  root_used : root ∈ used
  table : ∀ i, m root i ≠ zero → ∃ p, ref (m root i) = some p ∧ p ∈ used ∧ p ≠ root
  distinct : ∀ i j p, tableAt zero ref m root i = some p → tableAt zero ref m root j = some p → i = j

variable {zero ref} {m : P → ι → W} {root p : P} {used : Set P} {i : ι} {w : W}

theorem tableAt_eq_none (h : TwoLevel zero ref m root used) :
    tableAt zero ref m root i = none ↔ m root i = zero := by
  unfold tableAt
  split
  · simp [*]
  · rename_i hne
    obtain ⟨p, hp, -⟩ := h.table i hne
    simp [hp, hne]

theorem TwoLevel.tableAt_mem (h : TwoLevel zero ref m root used)
    (hp : tableAt zero ref m root i = some p) : p ∈ used ∧ p ≠ root := by
  unfold tableAt at hp
  split at hp
  · cases hp
  · rename_i hne
    obtain ⟨q, hq, hused, hroot⟩ := h.table i hne
    cases Option.some.inj (hq.symm.trans hp)
    exact ⟨hused, hroot⟩

theorem entryAt_of_table (hp : tableAt zero ref m root i = some p) (j : ι) :
    entryAt zero ref m root i j = m p j := by
  rw [entryAt, hp]

theorem entryAt_of_none (hp : tableAt zero ref m root i = none) (j : ι) :
    entryAt zero ref m root i j = zero := by
  rw [entryAt, hp]

variable [DecidableEq P] [DecidableEq ι]

/-! ## Writing an entry -/

theorem tableAt_setWord (hp : p ≠ root) (j i' : ι) :
    tableAt zero ref (setWord m p j w) root i' = tableAt zero ref m root i' := by
  unfold tableAt
  rw [setWord_page hp.symm]

section
variable (h : TwoLevel zero ref m root used)
include h

theorem TwoLevel.set (hp : p ≠ root) (j : ι) (w : W) :
    TwoLevel zero ref (setWord m p j w) root used where
  root_used := h.root_used
  table i' := by
    rw [setWord_page hp.symm]
    exact h.table i'
  distinct i' j' q := by
    rw [tableAt_setWord hp, tableAt_setWord hp]
    exact h.distinct i' j' q

/-- Writing a word of a table changes that entry only. -/
theorem TwoLevel.entry_set (hp : tableAt zero ref m root i = some p) (j : ι) (w : W) (i' j' : ι) :
    entryAt zero ref (setWord m p j w) root i' j' =
      if i' = i ∧ j' = j then w else entryAt zero ref m root i' j' := by
  have hroot := (h.tableAt_mem hp).2
  unfold entryAt
  rw [tableAt_setWord hroot]
  cases hq : tableAt zero ref m root i' with
  | none =>
    have hne : i' ≠ i := by
      rintro rfl
      rw [hp] at hq
      cases hq
    simp [hne]
  | some q =>
    by_cases hi : i' = i
    · subst hi
      cases Option.some.inj (hp.symm.trans hq)
      by_cases hj : j' = j
      · subst hj
        simp [setWord_self]
      · simp [hj, setWord_index hj]
    · have hqp : q ≠ p := fun he => hi (h.distinct i' i q hq (he ▸ hp))
      simp [hi, setWord_page hqp]

/-! ## Adding a table -/

omit h in
theorem tableAt_create (hp : p ≠ root) (href : ref w = some p) (hw : w ≠ zero) (i i' : ι) :
    tableAt zero ref (setWord (fillPage m p zero) root i w) root i' =
      if i' = i then some p else tableAt zero ref m root i' := by
  unfold tableAt
  by_cases hi : i' = i
  · subst hi
    simp [setWord_self, hw, href]
  · rw [setWord_index hi, fillPage_page hp.symm, if_neg hi]

theorem TwoLevel.create (hp : p ∉ used) (href : ref w = some p) (hw : w ≠ zero) (i : ι) :
    TwoLevel zero ref (setWord (fillPage m p zero) root i w) root (insert p used) where
  root_used := Set.mem_insert_of_mem p h.root_used
  table i' hne := by
    have hroot : p ≠ root := fun he => hp (he ▸ h.root_used)
    by_cases hi : i' = i
    · subst hi
      rw [setWord_self]
      exact ⟨p, href, Set.mem_insert p used, hroot⟩
    · rw [setWord_index hi, fillPage_page hroot.symm] at *
      obtain ⟨q, hq, hused, hqroot⟩ := h.table i' hne
      exact ⟨q, hq, Set.mem_insert_of_mem p hused, hqroot⟩
  distinct i' j' q := by
    have hroot : p ≠ root := fun he => hp (he ▸ h.root_used)
    rw [tableAt_create hroot href hw, tableAt_create hroot href hw]
    intro hi' hj'
    -- an old table is not the new page
    have hold : ∀ k, tableAt zero ref m root k = some p → False := fun k hk =>
      hp (h.tableAt_mem hk).1
    split at hi' <;> split at hj'
    · simp [*]
    · cases hi'
      exact (hold _ hj').elim
    · cases hj'
      exact (hold _ hi').elim
    · exact h.distinct i' j' q hi' hj'

theorem TwoLevel.entry_create (hp : p ∉ used) (href : ref w = some p) (hw : w ≠ zero)
    (hi : m root i = zero) (i' j' : ι) :
    entryAt zero ref (setWord (fillPage m p zero) root i w) root i' j' =
      entryAt zero ref m root i' j' := by
  have hroot : p ≠ root := fun he => hp (he ▸ h.root_used)
  unfold entryAt
  rw [tableAt_create hroot href hw]
  by_cases hii : i' = i
  · subst hii
    rw [if_pos rfl, (tableAt_eq_none h).mpr hi]
    simp only
    rw [setWord_page hroot, fillPage_self]
  · rw [if_neg hii]
    cases hq : tableAt zero ref m root i' with
    | none => rfl
    | some q =>
      obtain ⟨hused, hqroot⟩ := h.tableAt_mem hq
      have hqp : q ≠ p := fun he => hp (he ▸ hused)
      simp only
      rw [setWord_page hqroot, fillPage_page hqp]

end

/-! ## Copying the root -/

omit [DecidableEq ι] in
theorem tableAt_copy (new : P) (i' : ι) :
    tableAt zero ref (update m new (m root)) new i' = tableAt zero ref m root i' := by
  unfold tableAt
  rw [update_self]

omit [DecidableEq ι] in
theorem TwoLevel.copy (h : TwoLevel zero ref m root used) {new : P} (hnew : new ∉ used) :
    TwoLevel zero ref (update m new (m root)) new (insert new used) where
  root_used := Set.mem_insert new used
  table i' hne := by
    rw [update_self] at hne ⊢
    obtain ⟨q, hq, hused, -⟩ := h.table i' hne
    exact ⟨q, hq, Set.mem_insert_of_mem new hused, fun he => hnew (he ▸ hused)⟩
  distinct i' j' q := by
    rw [tableAt_copy, tableAt_copy]
    exact h.distinct i' j' q

omit [DecidableEq ι] in
theorem TwoLevel.entry_copy (h : TwoLevel zero ref m root used) {new : P} (hnew : new ∉ used)
    (i' j' : ι) :
    entryAt zero ref (update m new (m root)) new i' j' = entryAt zero ref m root i' j' := by
  unfold entryAt
  rw [tableAt_copy]
  cases hq : tableAt zero ref m root i' with
  | none => rfl
  | some q =>
    have hqnew : q ≠ new := fun he => hnew (he ▸ (h.tableAt_mem hq).1)
    exact congrFun (update_of_ne hqnew _ _) j'

omit [DecidableEq P] [DecidableEq ι] in
theorem TwoLevel.mono (h : TwoLevel zero ref m root used) {used' : Set P} (hsub : used ⊆ used') :
    TwoLevel zero ref m root used' where
  root_used := hsub h.root_used
  table i' hne := by
    obtain ⟨q, hq, hused, hroot⟩ := h.table i' hne
    exact ⟨q, hq, hsub hused, hroot⟩
  distinct := h.distinct

end

end Pintos.Lib
