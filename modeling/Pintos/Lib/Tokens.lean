import Mathlib.Data.List.TakeWhile

/-!
# Tokens of a string

`tokensBy p s` are the non-empty pieces of `s` between separators, the characters `p` holds of;
`tokens sep s` are those for one separator. `tokensBy_dropWhile` and `tokensBy_cons` take them
off one by one, as a scanner does.
-/

namespace Pintos.Lib

open List

variable {α : Type} {p : α → Bool} {c : α} {s w : List α}

/-- The non-empty pieces between separators. -/
def tokensBy (p : α → Bool) (s : List α) : List (List α) := (s.splitOnP p).filter (· ≠ [])

@[simp] theorem tokensBy_nil : tokensBy p [] = [] := by
  simp [tokensBy]

theorem tokensBy_sep (hc : p c = true) : tokensBy p (c :: s) = tokensBy p s := by
  simp [tokensBy, splitOnP_cons_eq_if_modifyHead, hc]

theorem tokensBy_last (hw : w ≠ []) (hsep : ∀ x ∈ w, p x = false) : tokensBy p w = [w] := by
  unfold tokensBy
  rw [splitOnP_eq_singleton hsep]
  simp [hw]

theorem tokensBy_word (hw : w ≠ []) (hsep : ∀ x ∈ w, p x = false) (hc : p c = true) :
    tokensBy p (w ++ c :: s) = w :: tokensBy p s := by
  unfold tokensBy
  rw [splitOnP_append_cons_of_forall_mem hsep _ hc, filter_cons_of_pos (by simpa using hw)]

theorem tokensBy_skip (hw : ∀ x ∈ w, p x = true) : tokensBy p (w ++ s) = tokensBy p s := by
  induction w with
  | nil => rfl
  | cons c w ih =>
    rw [cons_append, tokensBy_sep (hw c mem_cons_self), ih fun x hx => hw x (mem_cons_of_mem c hx)]

theorem tokensBy_dropWhile : tokensBy p (s.dropWhile p) = tokensBy p s :=
  (tokensBy_skip fun _ => mem_takeWhile_imp).symm.trans
    (congrArg (tokensBy p) takeWhile_append_dropWhile)

/-- A run of what `p` holds of, up to the end or to what ends it. -/
theorem exists_run (p : α → Bool) (s : List α) :
    ∃ w, (∀ x ∈ w, p x = true) ∧ (s = w ∨ ∃ c rest, p c = false ∧ s = w ++ c :: rest) := by
  have hsplit := takeWhile_append_dropWhile (p := p) (l := s)
  refine ⟨s.takeWhile p, fun _ => mem_takeWhile_imp, ?_⟩
  cases hrest : s.dropWhile p with
  | nil =>
    rw [hrest, append_nil] at hsplit
    exact .inl hsplit.symm
  | cons c rest =>
    have hc := head?_dropWhile_not (p := p) s
    rw [hrest] at hsplit hc
    exact .inr ⟨c, rest, by simpa using hc, hsplit.symm⟩

theorem tokensBy_cons (hc : p c = false) :
    tokensBy p (c :: s) =
      (c :: s).takeWhile (!p ·) :: tokensBy p (((c :: s).dropWhile (!p ·)).drop 1) := by
  obtain ⟨w, hw, hs⟩ := exists_run (!p ·) s
  have hword : ∀ x ∈ c :: w, (!p x) = true := forall_mem_cons.mpr ⟨by simp [hc], hw⟩
  have hsep : ∀ x ∈ c :: w, p x = false := fun x hx => Bool.not_eq_true' _ |>.mp (hword x hx)
  rcases hs with rfl | ⟨x, rest, hx, rfl⟩
  · rw [takeWhile_eq_self_iff.mpr hword, dropWhile_eq_nil_iff.mpr hword,
      tokensBy_last (cons_ne_nil c s) hsep, drop_nil, tokensBy_nil]
  · rw [← cons_append, takeWhile_append_of_pos hword, dropWhile_append_of_pos hword,
      takeWhile_cons_of_neg (by simp [hx]), dropWhile_cons_of_neg (by simp [hx]), append_nil,
      tokensBy_word (cons_ne_nil c w) hsep (by simpa using hx)]
    rfl

theorem length_afterToken (p : α → Bool) (c : α) (s : List α) :
    (((c :: s).dropWhile p).drop 1).length < (c :: s).length := by
  have hle : ((c :: s).dropWhile p).length ≤ (c :: s).length :=
    (dropWhile_sublist _).length_le
  rw [length_drop]
  rw [length_cons] at hle ⊢
  omega

theorem length_tokensBy_le : (tokensBy p s).length ≤ s.length := by
  induction hn : s.length using Nat.strongRecOn generalizing s with
  | ind n ih =>
    cases s with
    | nil => simp
    | cons c s =>
      cases hc : p c with
      | true =>
        rw [tokensBy_sep hc]
        have := ih s.length (by rw [← hn]; simp) rfl
        rw [← hn, length_cons]
        omega
      | false =>
        rw [tokensBy_cons hc, length_cons]
        have hlen := length_afterToken (!p ·) c s
        rw [hn] at hlen
        have := ih _ hlen rfl
        omega

theorem mem_of_mem_tokensBy (hw : w ∈ tokensBy p s) (hc : c ∈ w) : c ∈ s := by
  induction hn : s.length using Nat.strongRecOn generalizing s with
  | ind n ih =>
    cases s with
    | nil => simp at hw
    | cons x s =>
      cases hx : p x with
      | true =>
        rw [tokensBy_sep hx] at hw
        exact mem_cons_of_mem _ (ih s.length (by rw [← hn]; simp) hw rfl)
      | false =>
        rw [tokensBy_cons hx, mem_cons] at hw
        rcases hw with rfl | hw
        · exact (takeWhile_sublist _).subset hc
        · have hlen := length_afterToken (!p ·) x s
          rw [hn] at hlen
          have hmem := ih _ hlen hw rfl
          exact (dropWhile_sublist _).subset (mem_of_mem_drop hmem)

/-! ## One separator -/

section
variable [DecidableEq α] {sep : α}

def tokens (sep : α) (s : List α) : List (List α) := (s.splitOn sep).filter (· ≠ [])

theorem tokens_eq : tokens sep s = tokensBy (· = sep) s := rfl

theorem tokens_cons (hc : c ≠ sep) :
    tokens sep (c :: s) =
      (c :: s).takeWhile (· ≠ sep) :: tokens sep (((c :: s).dropWhile (· ≠ sep)).drop 1) := by
  simp only [tokens_eq, ne_eq, decide_not]
  exact tokensBy_cons (by simpa using hc)

end

end Pintos.Lib
