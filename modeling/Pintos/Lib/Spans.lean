import Mathlib.Data.List.Pairwise
import Mathlib.Data.List.Perm.Basic

/-!
# Spans of positions

An allocator hands out spans of consecutive positions. Spans that are handed out at the same
time are disjoint, and a list of bits with one bit for each position has those set that are
handed out (`Marks`).
-/

namespace Pintos.Lib

open List

/-- The positions `start`, …, `start + len - 1`. -/
structure Span where
  start : Nat
  len : Nat
deriving DecidableEq

instance : Membership Nat Span := ⟨fun s i => s.start ≤ i ∧ i < s.start + s.len⟩

instance (i : Nat) (s : Span) : Decidable (i ∈ s) :=
  inferInstanceAs (Decidable (s.start ≤ i ∧ i < s.start + s.len))

def Span.Disjoint (s t : Span) : Prop := s.start + s.len ≤ t.start ∨ t.start + t.len ≤ s.start

instance (s t : Span) : Decidable (s.Disjoint t) :=
  inferInstanceAs (Decidable (s.start + s.len ≤ t.start ∨ t.start + t.len ≤ s.start))

def Span.Inside (s t : Span) : Prop := t.start ≤ s.start ∧ s.start + s.len ≤ t.start + t.len

section
variable {s s' t t' : Span} {i : Nat}

theorem Span.mem_iff : i ∈ s ↔ s.start ≤ i ∧ i < s.start + s.len := Iff.rfl

theorem Span.Disjoint.symm (h : s.Disjoint t) : t.Disjoint s := Or.symm h

theorem Span.Disjoint.mono (h : s.Disjoint t) (hs : s'.Inside s) (ht : t'.Inside t) :
    s'.Disjoint t' := by
  unfold Span.Disjoint Span.Inside at *
  omega

theorem Span.Disjoint.notMem (h : s.Disjoint t) (hi : i ∈ s) : i ∉ t := by
  rw [Span.mem_iff] at *
  rcases h with h | h <;> omega

/-- Spans that are not empty are disjoint if no position is in both. -/
theorem Span.disjoint_of_notMem (hs : 0 < s.len) (ht : 0 < t.len) (h : ∀ i ∈ s, i ∉ t) :
    s.Disjoint t := by
  have hstart := h s.start
  have hinside := h t.start
  simp only [Span.mem_iff, Span.Disjoint] at *
  omega

/-- The bits that are set are those of the spans, which are inside and disjoint. -/
structure Marks (bits : List Bool) (spans : List Span) : Prop where
  inside : ∀ s ∈ spans, 0 < s.len ∧ s.start + s.len ≤ bits.length
  disjoint : spans.Pairwise Span.Disjoint
  marked : ∀ i, bits[i]? = some true ↔ ∃ s ∈ spans, i ∈ s

variable {bits bits' : List Bool} {spans spans' : List Span}

theorem marks_replicate (n : Nat) : Marks (List.replicate n false) [] where
  inside s hs := absurd hs not_mem_nil
  disjoint := List.Pairwise.nil
  marked i := by
    rw [getElem?_replicate]
    split <;> simp

theorem Marks.perm (h : Marks bits spans) (hp : spans.Perm spans') : Marks bits spans' where
  inside s hs := h.inside s (hp.mem_iff.mpr hs)
  disjoint := (hp.pairwise_iff fun {_ _} => Span.Disjoint.symm).mp h.disjoint
  marked i := by simp only [h.marked, hp.mem_iff]

theorem Marks.clear_iff (h : Marks bits spans) (hi : i < bits.length) :
    bits[i]? = some false ↔ ∀ s ∈ spans, i ∉ s := by
  have hset : bits[i]? = some true ↔ ∃ s ∈ spans, i ∈ s := h.marked i
  rw [getElem?_eq_getElem hi] at *
  cases hb : bits[i] with
  | false => simpa [hb] using hset
  | true => simpa [hb] using hset

theorem Marks.mark (h : Marks bits spans) (hlen : bits'.length = bits.length)
    (hbits : ∀ i, bits'[i]? = if i ∈ s then some true else bits[i]?) (hpos : 0 < s.len)
    (hin : s.start + s.len ≤ bits.length) (hfree : ∀ i ∈ s, bits[i]? = some false) :
    Marks bits' (s :: spans) where
  inside t ht := by
    rw [hlen]
    rcases mem_cons.mp ht with rfl | ht
    · exact ⟨hpos, hin⟩
    · exact h.inside t ht
  disjoint := by
    refine pairwise_cons.mpr ⟨fun t ht => ?_, h.disjoint⟩
    refine Span.disjoint_of_notMem hpos (h.inside t ht).1 fun i hi hit => ?_
    have hset := (h.marked i).mpr ⟨t, ht, hit⟩
    rw [hfree i hi] at hset
    cases hset
  marked i := by
    rw [hbits, exists_mem_cons_iff, ← h.marked]
    split <;> simp [*]

theorem Marks.clear (h : Marks bits (s :: spans)) (hlen : bits'.length = bits.length)
    (hbits : ∀ i, bits'[i]? = if i ∈ s then some false else bits[i]?) : Marks bits' spans where
  inside t ht := by
    rw [hlen]
    exact h.inside t (mem_cons_of_mem _ ht)
  disjoint := (pairwise_cons.mp h.disjoint).2
  marked i := by
    rw [hbits]
    split
    · rename_i hi
      refine ⟨nofun, ?_⟩
      rintro ⟨t, ht, hit⟩
      exact absurd hit (((pairwise_cons.mp h.disjoint).1 t ht).notMem hi)
    · rename_i hi
      rw [h.marked, exists_mem_cons_iff]
      exact or_iff_right hi

end

end Pintos.Lib
