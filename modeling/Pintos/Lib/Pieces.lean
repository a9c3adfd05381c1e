import Mathlib.Data.List.Nodup
import Mathlib.Data.List.Pairwise
import Mathlib.Data.List.Perm.Subperm

/-!
# Groups cut into pieces

An allocator obtains groups and cuts them into pieces. At any time every piece of every
group is either out or free (`Shared`). The four things that happen keep this: a free piece
is taken, a piece that is out is put back, a new group is added with all its pieces free,
and a group of which all pieces are free is dropped.
-/

namespace Pintos.Lib

open List

variable {γ α κ : Type} {pieces : γ → List α} {owner : α → κ} {key : γ → κ}

/-- The pieces of the `live` groups are those that are `out` and those that are `free`. -/
structure Shared (pieces : γ → List α) (owner : α → κ) (key : γ → κ) (live : List γ)
    (out free : List α) : Prop where
  parted : (out ++ free).Perm (live.flatMap pieces)
  nodup : ∀ g ∈ live, (pieces g).Nodup
  owned : ∀ g ∈ live, ∀ x ∈ pieces g, owner x = key g
  keys : live.Pairwise fun g g' => key g ≠ key g'

namespace Shared

variable {live live' : List γ} {out out' free free' : List α} {g g' : γ} {x : α}

theorem nil : Shared pieces owner key [] [] [] :=
  ⟨.nil, nofun, nofun, .nil⟩

/-! ## The four operations -/

section
variable (h : Shared pieces owner key live out free)
include h

theorem take (hx : free.Perm (x :: free')) :
    Shared pieces owner key live (x :: out) free' :=
  { h with parted := (perm_middle.symm.trans (hx.symm.append_left out)).trans h.parted }

theorem put (hx : out.Perm (x :: out')) :
    Shared pieces owner key live out' (x :: free) :=
  { h with parted := perm_middle.trans ((hx.symm.append_right free).trans h.parted) }

theorem add (hnodup : (pieces g).Nodup) (howned : ∀ x ∈ pieces g, owner x = key g)
    (hkey : ∀ g' ∈ live, key g ≠ key g') :
    Shared pieces owner key (g :: live) out (pieces g ++ free) where
  parted := by
    rw [flatMap_cons]
    refine List.Perm.trans ?_ (h.parted.append_left (pieces g))
    rw [← append_assoc, ← append_assoc]
    exact perm_append_comm.append_right free
  nodup := forall_mem_cons.mpr ⟨hnodup, h.nodup⟩
  owned := forall_mem_cons.mpr ⟨howned, h.owned⟩
  keys := pairwise_cons.mpr ⟨hkey, h.keys⟩

theorem drop (hg : live.Perm (g :: live')) (hfree : free.Perm (pieces g ++ free')) :
    Shared pieces owner key live' out free' where
  parted := by
    have hparted : (pieces g ++ (out ++ free')).Perm (pieces g ++ live'.flatMap pieces) := by
      rw [← flatMap_cons]
      refine List.Perm.trans ?_ (h.parted.trans (hg.flatMap_right pieces))
      refine List.Perm.trans ?_ (hfree.symm.append_left out)
      rw [← append_assoc, ← append_assoc]
      exact perm_append_comm.append_right free'
    exact (perm_append_left_iff _).mp hparted
  nodup g' hg' := h.nodup g' (hg.mem_iff.mpr (mem_cons_of_mem g hg'))
  owned g' hg' := h.owned g' (hg.mem_iff.mpr (mem_cons_of_mem g hg'))
  keys := ((hg.pairwise_iff fun {_ _} => Ne.symm).mp h.keys).of_cons

/-- The order of the free pieces does not matter. -/
theorem perm_free (hfree : free.Perm free') :
    Shared pieces owner key live out free' :=
  { h with parted := (hfree.symm.append_left out).trans h.parted }

/-! ## Pieces and their groups -/

theorem exists_group (hx : x ∈ out ++ free) :
    ∃ g ∈ live, x ∈ pieces g :=
  mem_flatMap.mp (h.parted.mem_iff.mp hx)

theorem mem_of_pieces (hg : g ∈ live) (hx : x ∈ pieces g) : x ∈ out ∨ x ∈ free :=
  mem_append.mp (h.parted.mem_iff.mpr (mem_flatMap.mpr ⟨g, hg, hx⟩))

theorem group_eq (hg : g ∈ live) (hg' : g' ∈ live) (hkey : key g = key g') : g = g' := by
  have : Std.Symm fun g g' : γ => key g ≠ key g' := ⟨fun _ _ => Ne.symm⟩
  by_contra hne
  exact h.keys.forall hg hg' hne hkey

theorem group_unique (hg : g ∈ live) (hg' : g' ∈ live) (hx : x ∈ pieces g) (hx' : x ∈ pieces g') :
    g = g' :=
  h.group_eq hg hg' ((h.owned g hg x hx).symm.trans (h.owned g' hg' x hx'))

theorem mem_pieces (hg : g ∈ live) (hx : x ∈ out ++ free) (hkey : owner x = key g) :
    x ∈ pieces g := by
  obtain ⟨g', hg', hx'⟩ := h.exists_group hx
  exact h.group_eq hg' hg ((h.owned g' hg' x hx').symm.trans hkey) ▸ hx'

theorem nodup_pieces : (out ++ free).Nodup := by
  refine h.parted.nodup_iff.mpr (nodup_flatMap.mpr ⟨h.nodup, ?_⟩)
  refine h.keys.imp_of_mem fun {g g'} hg hg' hne x hx hx' => hne ?_
  exact (h.owned g hg x hx).symm.trans (h.owned g' hg' x hx')

theorem not_free_of_out (hx : x ∈ out) : x ∉ free :=
  (nodup_append'.mp h.nodup_pieces).2.2 hx

end

/-! ## Counting free pieces -/

variable [DecidableEq κ]

section
variable (h : Shared pieces owner key live out free)
include h

theorem filter_subset (hg : g ∈ live) :
    (free.filter (owner · = key g)).Subperm (pieces g) := by
  have hnodup := (nodup_append'.mp h.nodup_pieces).2.1
  refine (hnodup.filter _).subperm fun x hx => ?_
  obtain ⟨hfree, hkey⟩ := mem_filter.mp hx
  exact h.mem_pieces hg (mem_append_right out hfree) (of_decide_eq_true hkey)

/-- A piece of the group is out, so not all of them are free. -/
theorem count_lt (hg : g ∈ live) (hx : x ∈ pieces g) (hout : x ∈ out) :
    free.countP (owner · = key g) < (pieces g).length := by
  rw [countP_eq_length_filter]
  refine Nat.lt_of_le_of_ne (h.filter_subset hg).length_le fun hlen => ?_
  have hperm := (h.filter_subset hg).perm_of_length_le (Nat.le_of_eq hlen.symm)
  exact h.not_free_of_out hout (mem_filter.mp (hperm.mem_iff.mpr hx)).1

/-- All pieces of the group are counted, so they are free. -/
theorem pieces_subset (hg : g ∈ live) (hcount : free.countP (owner · = key g) = (pieces g).length) :
    pieces g ⊆ free := by
  intro x hx
  rcases h.mem_of_pieces hg hx with hout | hfree
  · exact absurd hcount (Nat.ne_of_lt (h.count_lt hg hx hout))
  · exact hfree

end

/-- Nothing is out, so all pieces of the group are counted. -/
theorem count_eq (h : Shared pieces owner key live [] free) (hg : g ∈ live) :
    free.countP (owner · = key g) = (pieces g).length := by
  rw [countP_eq_length_filter]
  refine ((h.filter_subset hg).antisymm ((h.nodup g hg).subperm fun x hx => ?_)).length_eq
  refine mem_filter.mpr ⟨?_, decide_eq_true (h.owned g hg x hx)⟩
  exact (h.mem_of_pieces hg hx).resolve_left not_mem_nil

end Shared

end Pintos.Lib
