import Mathlib.Data.List.Basic

/-!
# Lists split at a position
-/

namespace Pintos.Lib

open List

theorem modify_split {α : Type} (l1 l2 : List α) (e : α) (f : α → α) :
    (l1 ++ e :: l2).modify l1.length f = l1 ++ f e :: l2 := by
  induction l1 with
  | nil => rfl
  | cons a l1 ih =>
    rw [cons_append, length_cons, modify_succ_cons, ih, cons_append]

theorem exists_split {α : Type} {l : List α} {k : Nat} (h : k < l.length) :
    ∃ l1 e l2, l = l1 ++ e :: l2 ∧ l1.length = k := by
  refine ⟨l.take k, l[k], l.drop (k + 1), ?_, by simp; omega⟩
  rw [getElem_cons_drop, take_append_drop]

end Pintos.Lib
