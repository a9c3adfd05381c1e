import Pintos.FileSys.Cache
import Mathlib.Data.List.TakeWhile

/-!
# Which cache entry is replaced (`evict_cache`)

Each of the two scans of `evict_cache` stops at the first entry that is neither pinned nor
marked as used, and takes the mark off the entries that it passes over. After a first scan
without a victim only pinned entries are left for the second to pass over.
-/

namespace Pintos.FileSys

open Lib List

namespace BufferCache

def busy (e : BufferCache) : Bool := e.isUsing || e.isUsed

def unmark (e : BufferCache) : BufferCache := if e.isUsing then e else { e with isUsed := false }

theorem busy_unmark (e : BufferCache) : e.unmark.busy = e.isUsing := by
  unfold unmark busy
  split
  · rename_i husing
    rw [husing, Bool.true_or]
  · exact Bool.or_false _

theorem unmark_fields (e : BufferCache) : e.unmark.sector = e.sector ∧ e.unmark.data = e.data ∧
    e.unmark.isDirty = e.isDirty ∧ e.unmark.isUsing = e.isUsing := by
  unfold unmark
  split <;> exact ⟨rfl, rfl, rfl, rfl⟩

theorem unmark_of_using {e : BufferCache} (h : e.isUsing = true) : e.unmark = e := if_pos h

end BufferCache

def passedOver (l : List BufferCache) : List BufferCache := l.takeWhile BufferCache.busy

def scanned (l : List BufferCache) : List BufferCache :=
  (passedOver l).map BufferCache.unmark ++ l.dropWhile BufferCache.busy

section
variable {l : List BufferCache} {e : BufferCache} {i : Nat}

theorem secondChance_eq (l : List BufferCache) :
    secondChance l = (scanned l, l.findIdx? fun e => !e.busy) := by
  unfold scanned passedOver
  induction l with
  | nil => rfl
  | cons e rest ih =>
    unfold secondChance
    rw [ih]
    cases husing : e.isUsing with
    | true =>
      have hbusy : e.busy = true := by rw [BufferCache.busy, husing, Bool.true_or]
      simp [hbusy, BufferCache.unmark_of_using husing, findIdx?_cons]
    | false =>
      cases hused : e.isUsed with
      | true =>
        have hbusy : e.busy = true := by rw [BufferCache.busy, hused, Bool.or_true]
        simp [hbusy, BufferCache.unmark, husing, findIdx?_cons]
      | false =>
        have hbusy : e.busy = false := by rw [BufferCache.busy, husing, hused, Bool.or_false]
        simp [hbusy, findIdx?_cons]

theorem length_scanned (l : List BufferCache) : (scanned l).length = l.length := by
  rw [scanned, passedOver, length_append, length_map, ← length_append,
    takeWhile_append_dropWhile]

theorem getElem?_scanned (hl : l[i]? = some e) :
    (scanned l)[i]? = some (if i < (passedOver l).length then e.unmark else e) := by
  have hsplit : passedOver l ++ l.dropWhile BufferCache.busy = l := takeWhile_append_dropWhile
  rw [← hsplit] at hl
  unfold scanned
  split
  · rename_i hi
    rw [getElem?_append_left hi] at hl
    rw [getElem?_append_left (by rwa [length_map]), getElem?_map, hl]
    rfl
  · rename_i hi
    rw [getElem?_append_right (Nat.le_of_not_lt hi)] at hl
    rw [getElem?_append_right (by rwa [length_map, Nat.not_lt] at *), length_map]
    exact hl

theorem passedOver_of_none (h : l.findIdx? (fun e => !e.busy) = none) : passedOver l = l := by
  refine takeWhile_eq_self_iff.mpr fun e he => ?_
  have hbusy := findIdx?_eq_none_iff.mp h e he
  rwa [Bool.not_eq_eq_eq_not, Bool.not_false] at hbusy

theorem scanned_of_none (h : l.findIdx? (fun e => !e.busy) = none) :
    scanned l = l.map BufferCache.unmark := by
  have hdrop : l.dropWhile BufferCache.busy = [] :=
    dropWhile_eq_nil_iff.mpr (takeWhile_eq_self_iff.mp (passedOver_of_none h))
  rw [scanned, passedOver_of_none h, hdrop, append_nil]

/-- The entries that a second scan stops at are those that are not pinned. -/
theorem findIdx?_map_unmark (l : List BufferCache) :
    (l.map BufferCache.unmark).findIdx? (fun e => !e.busy) = l.findIdx? fun e => !e.isUsing := by
  rw [findIdx?_map]
  exact congrArg (l.findIdx? ·) (funext fun e => congrArg (!·) e.busy_unmark)

theorem scanned_map_unmark (l : List BufferCache) :
    scanned (l.map BufferCache.unmark) = l.map BufferCache.unmark := by
  have hsame : ∀ e ∈ passedOver (l.map BufferCache.unmark), e.unmark = e := by
    intro e he
    obtain ⟨e, -, rfl⟩ := mem_map.mp ((takeWhile_sublist _).subset he)
    have hbusy := mem_takeWhile_imp he
    rw [BufferCache.busy_unmark] at hbusy
    exact BufferCache.unmark_of_using (e.unmark_fields.2.2.2.trans hbusy)
  rw [scanned, map_congr_left hsame, map_id', passedOver,
    takeWhile_append_dropWhile]

/-- The place of the entry that `evict_cache` chooses: the first that is neither pinned nor
marked, or else the first that is not pinned. -/
def cacheVictim (l : List BufferCache) : Option Nat :=
  (l.findIdx? fun e => !e.isUsing && !e.isUsed).or (l.findIdx? fun e => !e.isUsing)

theorem evictCache_eq (st : Store) (sectorIdx : Sector) :
    evictCache st sectorIdx = (cacheVictim st.bufferCacheList).bind fun k =>
      takeOver { st with bufferCacheList := scanned st.bufferCacheList } k sectorIdx := by
  have hfree : (fun e : BufferCache => !e.isUsing && !e.isUsed) = fun e => !e.busy :=
    funext fun e => (Bool.not_or _ _).symm
  rw [evictCache, secondChance_eq, cacheVictim, hfree]
  cases hk : st.bufferCacheList.findIdx? fun e => !e.busy with
  | some k => rfl
  | none =>
    rw [scanned_of_none hk, Option.none_or]
    dsimp only
    rw [secondChance_eq, scanned_map_unmark, findIdx?_map_unmark]
    cases st.bufferCacheList.findIdx? fun e => !e.isUsing <;> rfl

variable {st st' : Store} {sectorIdx : Sector} {k : Nat}

theorem cacheVictim_eq_none_iff :
    cacheVictim l = none ↔ ∀ e ∈ l, e.isUsing = true := by
  rw [cacheVictim, Option.or_eq_none_iff, findIdx?_eq_none_iff, findIdx?_eq_none_iff]
  constructor
  · rintro ⟨-, hall⟩ e he
    have husing := hall e he
    rwa [Bool.not_eq_eq_eq_not, Bool.not_false] at husing
  · intro hall
    exact ⟨fun e he => by rw [hall e he, Bool.not_true, Bool.false_and],
      fun e he => by rw [hall e he, Bool.not_true]⟩

theorem cacheVictim_lt (h : cacheVictim l = some k) : k < l.length := by
  obtain hfree | ⟨-, hfree⟩ := Option.or_eq_some_iff.mp h
  · exact (findIdx?_eq_some_iff_findIdx_eq.mp hfree).1
  · exact (findIdx?_eq_some_iff_findIdx_eq.mp hfree).1

theorem evictCache_eq_none_iff :
    evictCache st sectorIdx = none ↔ ∀ e ∈ st.bufferCacheList, e.isUsing = true := by
  rw [evictCache_eq, ← cacheVictim_eq_none_iff]
  cases hk : cacheVictim st.bufferCacheList with
  | none => exact ⟨fun _ => rfl, fun _ => rfl⟩
  | some k =>
    refine ⟨fun h => ?_, nofun⟩
    -- the victim is in the list, so its place is taken over
    have hlt : k < (scanned st.bufferCacheList).length := by
      rw [length_scanned]
      exact cacheVictim_lt hk
    rw [Option.bind_some, takeOver, getElem?_eq_getElem hlt] at h
    cases h

/-- The list `l'` that `evict_cache` leaves of `l` when it replaces the entry `k`: the entries
that are passed over and are not pinned lose their marks, and nothing else changes in the
entries other than `k`. -/
structure Replaces (l l' : List BufferCache) (k : Nat) (sectorIdx : Sector) : Prop where
  length : l'.length = l.length
  marks : ∀ {i e}, l[i]? = some e → ∃ e', l'[i]? = some e' ∧
    e'.isUsed = if e.isUsing = false ∧ i < (passedOver l).length then false else e.isUsed
  others : ∀ {i e}, i ≠ k → l[i]? = some e → ∃ e', l'[i]? = some e' ∧ e'.sector = e.sector ∧
    e'.data = e.data ∧ e'.isDirty = e.isDirty ∧ e'.isUsing = e.isUsing
  taken : ∃ e', l'[k]? = some e' ∧ e'.sector = sectorIdx ∧ e'.isDirty = false ∧ e'.isUsing = true

theorem BufferCache.isUsed_unmark (e : BufferCache) :
    e.unmark.isUsed = if e.isUsing = false then false else e.isUsed := by
  unfold unmark
  cases e.isUsing <;> rfl

theorem evictCache_victim (h : evictCache st sectorIdx = some (k, st')) :
    cacheVictim st.bufferCacheList = some k ∧
      Replaces st.bufferCacheList st'.bufferCacheList k sectorIdx := by
  rw [evictCache_eq] at h
  obtain ⟨k', hk, htake⟩ := Option.bind_eq_some_iff.mp h
  obtain ⟨v, hv, heq⟩ := Option.bind_eq_some_iff.mp htake
  cases heq
  have hget : ∀ {i e}, st.bufferCacheList[i]? = some e → ∀ f : BufferCache → BufferCache,
      ((scanned st.bufferCacheList).modify k f)[i]? = some (if k = i then
        f (if i < (passedOver st.bufferCacheList).length then e.unmark else e)
        else if i < (passedOver st.bufferCacheList).length then e.unmark else e) := by
    intro i e he f
    rw [List.getElem?_modify, getElem?_scanned he]
    split <;> rfl
  refine ⟨hk, ?_, fun {i e} he => ⟨_, hget he _, ?_⟩, fun {i e} hik he => ⟨_, hget he _, ?_⟩, ?_⟩
  · exact (List.length_modify _ _ _).trans (length_scanned _)
  · by_cases hi : i < (passedOver st.bufferCacheList).length
    · simp only [hi, and_true, ↓reduceIte, apply_ite BufferCache.isUsed, e.isUsed_unmark, ite_self]
    · simp only [hi, and_false, ↓reduceIte, apply_ite BufferCache.isUsed, ite_self]
  · rw [if_neg (Ne.symm hik)]
    split
    · exact e.unmark_fields
    · exact ⟨rfl, rfl, rfl, rfl⟩
  · exact ⟨_, (List.getElem?_modify_eq ..).trans (congrArg _ hv), rfl, rfl, rfl⟩

end

end Pintos.FileSys
