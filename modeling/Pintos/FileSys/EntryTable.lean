import Pintos.FileSys.Directory
import Mathlib.Data.List.Find

/-!
# What a directory holds

The bytes of a directory are a table of entries: slot `k` is at offset `20 * k`.
The loops of `directory.c` read this table through `inode_read_at`;
`DirReader L d` says what they need to know about the inode layer.
-/

namespace Pintos.FileSys

open Lib List Function

/-! ## Entries -/

def SameEntry (e e' : Buffer) : Prop := ∀ j, j < DIR_ENTRY_SIZE → e j = e' j

variable {n : CString}

namespace DirEntry

variable {e e' : Buffer}

theorem inUse_congr (h : SameEntry e e') : inUse e = inUse e' := by
  unfold inUse
  rw [h 19 (by decide)]

theorem inodeSector_congr (h : SameEntry e e') : inodeSector e = inodeSector e' := by
  unfold inodeSector
  rw [h 0 (by decide), h 1 (by decide), h 2 (by decide), h 3 (by decide)]

theorem name_congr (h : SameEntry e e') : name e = name e' := by
  unfold name
  rw [map_congr_left fun k hk => ?_]
  have := mem_range.mp hk
  exact h (4 + k) (by unfold DIR_ENTRY_SIZE; omega)

theorem isEntryOf_congr (n : CString) (h : SameEntry e e') : isEntryOf n e = isEntryOf n e' := by
  unfold isEntryOf
  rw [inUse_congr h, name_congr h]

theorem name_setName (hlen : n.length ≤ NAME_MAX) (hz : ∀ c ∈ n, c ≠ 0) :
    name (setName e n) = n := by
  unfold NAME_MAX at hlen
  have hmin : min n.length 14 = n.length := by omega
  have hcopy : (List.range n.length).map (fun k => setName e n (4 + k)) = n := by
    apply ext_getElem
    · simp
    · intro k h1 h2
      rw [getElem_map, getElem_range, setName, hmin, if_pos (by omega),
        Nat.add_sub_cancel_left, getD_eq_getElem?_getD, getElem?_eq_getElem h2,
        Option.getD_some]
  have hzero : setName e n (4 + n.length) = 0 := by
    rw [setName, hmin, if_neg (by omega), if_pos rfl]
  unfold name
  rw [show 15 = n.length + (14 - n.length + 1) by omega, range_add, map_append, hcopy,
    takeWhile_append_of_pos (by simpa using hz), range_succ_eq_map]
  simp [hzero]

def newEntry (e : Buffer) (n : CString) (s : Sector) : Buffer :=
  setInodeSector (setName (setInUse e true) n) s

theorem setName_high (n : CString) {j : Nat} (hj : 19 ≤ j) : setName e n j = e j := by
  unfold setName
  rw [if_neg (by omega), if_neg (by omega)]

theorem inUse_newEntry (n : CString) (s : Sector) : inUse (newEntry e n s) = true := by
  unfold inUse newEntry setInodeSector
  rw [if_neg (by decide), setName_high n (le_refl _)]
  simp [setInUse]

theorem inodeSector_newEntry (n : CString) (s : Sector) : inodeSector (newEntry e n s) = s := by
  unfold inodeSector newEntry setInodeSector
  simp [wordOfBytes_byteOfWord]

theorem name_newEntry (s : Sector) (hlen : n.length ≤ NAME_MAX) (hz : ∀ c ∈ n, c ≠ 0) :
    name (newEntry e n s) = n := by
  have hsame : name (newEntry e n s) = name (setName (setInUse e true) n) := by
    unfold name
    rw [map_congr_left fun k _ => ?_]
    exact if_neg (by omega)
  rw [hsame, name_setName hlen hz]

/-- Erasing an entry leaves a slot that is not in use. -/
theorem inUse_setInUse_false : inUse (setInUse e false) = false := by
  simp [inUse, setInUse]

/-- What a slot with these bytes holds. -/
def decode (e : Buffer) : Option (CString × Sector) :=
  if inUse e then some (name e, inodeSector e) else none

theorem decode_congr (h : SameEntry e e') : decode e = decode e' := by
  unfold decode
  rw [inUse_congr h, name_congr h, inodeSector_congr h]

theorem decode_newEntry (s : Sector) (hlen : n.length ≤ NAME_MAX) (hz : ∀ c ∈ n, c ≠ 0) :
    decode (newEntry e n s) = some (n, s) := by
  unfold decode
  rw [if_pos (inUse_newEntry n s), name_newEntry s hlen hz, inodeSector_newEntry]

theorem decode_erased : decode (setInUse e false) = none := by
  unfold decode
  rw [if_neg (by rw [inUse_setInUse_false]; decide)]

end DirEntry

/-! ## Tables -/

structure EntryTable where
  slots : Nat
  entry : Nat → Buffer

namespace EntryTable

variable {t t' t'' : EntryTable} {stop : Buffer → Bool} {k : Nat} {e : Buffer}

def at? (t : EntryTable) (k : Nat) : Option (CString × Sector) :=
  if k < t.slots then DirEntry.decode (t.entry k) else none

def first (t : EntryTable) (stop : Buffer → Bool) : Option Nat :=
  (List.range t.slots).find? fun k => stop (t.entry k)

def slotOf (t : EntryTable) (name : CString) : Option Nat := t.first (isEntryOf name)

/-- The first slot that is not in use, or the one behind the last. -/
def freeSlot (t : EntryTable) : Nat := (t.first fun e => !DirEntry.inUse e).getD t.slots

def find (t : EntryTable) (name : CString) : Option Sector :=
  (t.slotOf name).map fun k => DirEntry.inodeSector (t.entry k)

def Same (t t' : EntryTable) : Prop :=
  t'.slots = t.slots ∧ ∀ k, k < t.slots → SameEntry (t'.entry k) (t.entry k)

theorem Same.refl (t : EntryTable) : Same t t := ⟨rfl, fun _ _ _ _ => rfl⟩

theorem Same.trans (h : Same t t') (h' : Same t' t'') : Same t t'' :=
  ⟨h'.1.trans h.1, fun k hk j hj => (h'.2 k (h.1 ▸ hk) j hj).trans (h.2 k hk j hj)⟩

theorem Same.at?_eq (h : Same t t') : t'.at? = t.at? := by
  funext k
  unfold at?
  rw [h.1]
  by_cases hk : k < t.slots
  · rw [if_pos hk, if_pos hk, DirEntry.decode_congr (h.2 k hk)]
  · rw [if_neg hk, if_neg hk]

theorem Same.first_eq (h : Same t t') (hstop : ∀ e e', SameEntry e e' → stop e = stop e') :
    t'.first stop = t.first stop := by
  unfold first
  rw [h.1]
  apply find?_congr
  intro k hk
  rw [hstop _ _ (h.2 k (mem_range.mp hk))]

theorem first_some (h : t.first stop = some k) : k < t.slots ∧ stop (t.entry k) = true := by
  unfold first at h
  exact ⟨mem_range.mp (mem_of_find?_eq_some h),
    find?_some (p := fun k => stop (t.entry k)) h⟩

theorem first_none (h : t.first stop = none) (hk : k < t.slots) : stop (t.entry k) = false := by
  have := find?_eq_none.mp h k (mem_range.mpr hk)
  simpa using this

theorem at?_lt {x : CString × Sector} (h : t.at? k = some x) : k < t.slots := by
  by_contra hk
  rw [at?, if_neg hk] at h
  cases h

theorem at?_eq_some_iff {s : Sector} :
    t.at? k = some (n, s) ↔
      k < t.slots ∧ isEntryOf n (t.entry k) = true ∧ DirEntry.inodeSector (t.entry k) = s := by
  unfold at? DirEntry.decode isEntryOf
  by_cases hk : k < t.slots <;> by_cases hu : DirEntry.inUse (t.entry k) = true <;> simp [hk, hu]

theorem slotOf_some (h : t.slotOf n = some k) :
    t.at? k = some (n, DirEntry.inodeSector (t.entry k)) := by
  obtain ⟨hk, hn⟩ := first_some h
  exact at?_eq_some_iff.mpr ⟨hk, hn, rfl⟩

/-- A name that is not found is in no slot. -/
theorem slotOf_none (h : t.slotOf n = none) (k : Nat) (s : Sector) :
    t.at? k ≠ some (n, s) := by
  intro hat
  obtain ⟨hk, hn, -⟩ := at?_eq_some_iff.mp hat
  rw [first_none h hk] at hn
  cases hn

/-- The free slot is free, and not beyond the end of the table. -/
theorem at?_freeSlot (t : EntryTable) : t.at? t.freeSlot = none ∧ t.freeSlot ≤ t.slots := by
  unfold freeSlot
  cases h : t.first fun e => !DirEntry.inUse e with
  | none =>
    rw [Option.getD_none]
    exact ⟨if_neg (lt_irrefl _), le_refl _⟩
  | some k =>
    obtain ⟨hk, hu⟩ := first_some h
    rw [Option.getD_some, at?, if_pos hk, DirEntry.decode, if_neg (by simpa using hu)]
    exact ⟨rfl, Nat.le_of_lt hk⟩

structure Writes (t t' : EntryTable) (k : Nat) (e : Buffer) : Prop where
  slots : t'.slots = max t.slots (k + 1)
  le : k ≤ t.slots
  self : SameEntry (t'.entry k) e
  other : ∀ j, j < t.slots → j ≠ k → SameEntry (t'.entry j) (t.entry j)

theorem Writes.at?_eq (h : Writes t t' k e) :
    t'.at? = update t.at? k (DirEntry.decode e) := by
  have hslots := h.slots
  have hle := h.le
  funext j
  rw [update_apply]
  by_cases hj : j = k
  · subst hj
    rw [if_pos rfl, at?, if_pos (by omega), DirEntry.decode_congr h.self]
  · rw [if_neg hj]
    unfold at?
    by_cases hlt : j < t.slots
    · rw [if_pos hlt, if_pos (by omega), DirEntry.decode_congr (h.other j hlt hj)]
    · rw [if_neg hlt, if_neg (by omega)]

end EntryTable

/-! ## Reading a directory -/

/-- What the loops over the entries of directory `d` need of the inode layer:
in every state that is `Ok`, a read of a slot returns its bytes, one behind the
last slot is short, and reading (`Reads`) leaves the table as it is. -/
structure DirReader {σ : Type} (L : InodeOps σ) (d : Sector) where
  Ok : σ → Prop
  Reads : σ → σ → Prop
  table : σ → EntryTable
  refl : ∀ s, Ok s → Reads s s
  trans : ∀ {s s' s''}, Reads s s' → Reads s' s'' → Reads s s''
  ok : ∀ {s s'}, Ok s → Reads s s' → Ok s'
  same : ∀ {s s'}, Reads s s' → (table s).Same (table s')
  readable : ∀ {s}, Ok s → ∃ n, L.readable s d = some n ∧ n / DIR_ENTRY_SIZE = (table s).slots
  uninit : ∀ {s}, Ok s → Reads s (L.uninitBytes s).2
  read : ∀ {s}, Ok s → ∀ (e : Buffer) (k : Nat), ∃ read e' s',
    L.inodeReadAt s d e DIR_ENTRY_SIZE (DIR_ENTRY_SIZE * k : Nat) = some (read, e', s') ∧
      Reads s s' ∧
      (k < (table s).slots → read = DIR_ENTRY_SIZE ∧ SameEntry e' ((table s).entry k)) ∧
      (k = (table s).slots → read ≠ DIR_ENTRY_SIZE)

namespace DirReader

variable {σ : Type} {L : InodeOps σ} {d : Sector} (R : DirReader L d) {s : σ}

theorem entryLoop_spec {stop : Buffer → Bool}
    (hstop : ∀ e e', SameEntry e e' → stop e = stop e') (fuel k : Nat) (e : Buffer) (h : R.Ok s)
    (hk : k ≤ (R.table s).slots) (hfuel : (R.table s).slots - k < fuel) {r : Option Nat}
    (hr : r = (List.range' k ((R.table s).slots - k)).find? fun q => stop ((R.table s).entry q)) :
    ∃ e' s', entryLoop L d stop fuel s e (DIR_ENTRY_SIZE * k) =
        some (r.isSome, e', DIR_ENTRY_SIZE * r.getD (R.table s).slots, s') ∧ R.Reads s s' ∧
      ∀ q, r = some q → SameEntry e' ((R.table s).entry q) := by
  induction fuel generalizing s k e with
  | zero => omega
  | succ fuel ih =>
    obtain ⟨read, e1, s1, heq, hreads, hin, hend⟩ := R.read h e k
    have hsame := R.same hreads
    rw [entryLoop, heq]
    simp only [some_bind]
    by_cases hlt : k < (R.table s).slots
    · obtain ⟨hread, hentry⟩ := hin hlt
      rw [if_pos hread]
      have hsplit : List.range' k ((R.table s).slots - k) =
          k :: List.range' (k + 1) ((R.table s).slots - (k + 1)) := by
        rw [show (R.table s).slots - k = (R.table s).slots - (k + 1) + 1 by omega,
          range'_succ]
      rw [hsplit, find?_cons, ← hstop e1 _ hentry] at hr
      cases hs : stop e1 with
      | true =>
        rw [hs] at hr
        subst hr
        exact ⟨e1, s1, by simp, hreads, fun q hq => by cases hq; exact hentry⟩
      | false =>
        rw [hs] at hr
        have hr1 : r = (List.range' (k + 1) ((R.table s1).slots - (k + 1))).find?
            fun q => stop ((R.table s1).entry q) := by
          rw [hr, hsame.1]
          apply find?_congr
          intro q hq
          have := mem_range'_1.mp hq
          rw [hstop _ _ (hsame.2 q (by omega))]
        obtain ⟨e2, s2, heq2, hreads2, hentry2⟩ := ih (k + 1) e1 (R.ok h hreads)
          (by rw [hsame.1]; omega) (by rw [hsame.1]; omega) hr1
        rw [hsame.1] at heq2
        refine ⟨e2, s2, by simp only [Bool.false_eq_true, if_false]; exact heq2,
          R.trans hreads hreads2, fun q hq j hj => ?_⟩
        have hmem := mem_of_find?_eq_some (hr1.symm.trans hq)
        have hrange := mem_range'_1.mp hmem
        rw [hsame.1] at hrange
        exact (hentry2 q hq j hj).trans (hsame.2 q (by omega) j hj)
    · obtain rfl : k = (R.table s).slots := by omega
      rw [if_neg (hend rfl)]
      rw [Nat.sub_self] at hr
      subst hr
      exact ⟨e1, s1, rfl, hreads, nofun⟩

/-- **The loops of `directory.c`** find the first slot they are looking for. -/
theorem scanEntries_spec {stop : Buffer → Bool}
    (hstop : ∀ e e', SameEntry e e' → stop e = stop e') (h : R.Ok s) (e : Buffer) :
    ∃ e' s', scanEntries L s d stop e =
        some (((R.table s).first stop).isSome, e',
          DIR_ENTRY_SIZE * ((R.table s).first stop).getD (R.table s).slots, s') ∧ R.Reads s s' ∧
      ∀ q, (R.table s).first stop = some q → SameEntry e' ((R.table s).entry q) := by
  obtain ⟨n, hn, hslots⟩ := R.readable h
  unfold scanEntries
  simp only [hn, some_bind]
  have hr : (R.table s).first stop =
      (List.range' 0 ((R.table s).slots - 0)).find? fun q => stop ((R.table s).entry q) := by
    rw [Nat.sub_zero, ← range_eq_range']
    rfl
  exact R.entryLoop_spec hstop _ 0 e h (Nat.zero_le _) (by rw [hslots]; omega) hr

theorem lookup_spec (h : R.Ok s) (name : CString) :
    ∃ e s', lookup L s d name =
        some (((R.table s).slotOf name).map fun q => (e, DIR_ENTRY_SIZE * q), s') ∧
      R.Reads s s' ∧
      ∀ q, (R.table s).slotOf name = some q → SameEntry e ((R.table s).entry q) := by
  have hreads := R.uninit h
  have hcongr := fun e e' (hs : SameEntry e e') => DirEntry.isEntryOf_congr name hs
  have hsame := R.same hreads
  obtain ⟨e, s', heq, hreads', hentry⟩ :=
    R.scanEntries_spec hcongr (R.ok h hreads) (L.uninitBytes s).1
  rw [hsame.first_eq hcongr, hsame.1] at heq
  rw [hsame.first_eq hcongr] at hentry
  refine ⟨e, s', ?_, R.trans hreads hreads', fun q hq j hj => ?_⟩
  · unfold lookup
    simp only [heq, some_bind]
    unfold EntryTable.slotOf
    cases (R.table s).first (isEntryOf name) <;> rfl
  · exact (hentry q hq j hj).trans (hsame.2 q (EntryTable.first_some hq).1 j hj)

end DirReader

end Pintos.FileSys
