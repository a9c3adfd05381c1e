import Pintos.FileSys.EntryTable
import Pintos.Lib.Run
import Pintos.Lib.SlotMap

/-!
# A directory is a finite map

`DirLayer σ d` is an inode layer as the user of directory `d` wants it:
allocation succeeds, a write that does not start beyond the end of the directory
behaves as on an array of bytes, and what is done to other inodes leaves the
directory alone. Over any such layer the functions of `directory.c` are those of
a finite map from names to sectors (`directory_is_finite_map`).

The length of a directory need not be a multiple of 20: `dir_create` computes it
in 32 bits. The bytes behind the last whole slot are then overwritten when the
table grows.
-/

namespace Pintos.FileSys.DirMap

open Lib Function DirEntry EntryTable Option

/-- What the user of a directory sees of the inode layer. -/
structure DirView where
  length : Nat
  byte : Nat → UInt8
  /-- The references to each inode. -/
  refs : Sector → Nat
  /-- The lock of the directory is held. -/
  locked : Bool

/-- The two views agree; beyond the length there is nothing to see. -/
structure DirView.Same (v v' : DirView) : Prop where
  length : v'.length = v.length
  byte : ∀ k, k < v.length → v'.byte k = v.byte k
  refs : v'.refs = v.refs
  locked : v'.locked = v.locked

def DirView.write (v : DirView) (buffer : Buffer) (size offset : Nat) : DirView :=
  { v with
    length := max v.length (offset + size)
    byte := fun k => if offset ≤ k ∧ k < offset + size then buffer (k - offset) else v.byte k }

def DirView.setRefs (v : DirView) (i : Sector) (n : Nat) : DirView :=
  { v with refs := update v.refs i n }

/-- An inode layer in which allocation succeeds and directory `d` is an array of
bytes. -/
structure DirLayer (σ : Type) (d : Sector) extends InodeOps σ where
  Ok : σ → Prop
  view : σ → DirView
  /-- The sector holds the inode of a file. -/
  isFile : σ → Sector → Prop
  /-- The inode that `inode_create` makes is full of zeros, whatever its length. -/
  create : ∀ {s s' size}, Ok s → (view s).refs d = 0 →
    inodeCreate s d size true = some (true, s') →
    Ok s' ∧ (view s').refs d = 0 ∧ (view s').locked = false ∧
      ∀ k, k < (view s').length → (view s').byte k = 0
  acquire : ∀ {s}, Ok s → (view s).locked = false → ∃ s', inodeLockAcquire s d = some s' ∧
    Ok s' ∧ { view s with locked := true }.Same (view s') ∧ ∀ i, isFile s i → isFile s' i
  release : ∀ {s}, Ok s → (view s).locked = true → ∃ s', inodeLockRelease s d = some s' ∧
    Ok s' ∧ { view s with locked := false }.Same (view s')
  uninit : ∀ {s}, Ok s → Ok (uninitBytes s).2 ∧ (view s).Same (view (uninitBytes s).2) ∧
    ∀ i, isFile s i → isFile (uninitBytes s).2 i
  readable_eq : ∀ {s}, Ok s → 0 < (view s).refs d → readable s d = some (view s).length
  read : ∀ {s}, Ok s → 0 < (view s).refs d → ∀ (buffer : Buffer) (size offset : Nat),
    ∃ bytes s', inodeReadAt s d buffer size offset =
        some (((min size ((view s).length - offset) : Nat) : Int), bytes, s') ∧
      Ok s' ∧ (view s).Same (view s') ∧ (∀ i, isFile s i → isFile s' i) ∧
      ∀ k, k < min size ((view s).length - offset) → bytes k = (view s).byte (offset + k)
  write : ∀ {s}, Ok s → 0 < (view s).refs d → ∀ (buffer : Buffer) (size offset : Nat),
    offset ≤ (view s).length →
    ∃ s', inodeWriteAt s d buffer size offset = some ((size : Int), s') ∧ Ok s' ∧
      ((view s).write buffer size offset).Same (view s')
  opens : ∀ {s} i, Ok s → Ok (inodeOpen s i) ∧
    ((view s).setRefs i ((view s).refs i + 1)).Same (view (inodeOpen s i)) ∧
    ∀ j, isFile s j → isFile (inodeOpen s i) j
  setParent : ∀ {s i} p, Ok s → 0 < (view s).refs i → ∃ s', inodeSetParent s i p = some s' ∧
    Ok s' ∧ (view s).Same (view s')
  remove : ∀ {s i}, Ok s → 0 < (view s).refs i → ∃ s', inodeRemove s i = some s' ∧
    Ok s' ∧ (view s).Same (view s')
  isDir : ∀ {s i}, Ok s → 0 < (view s).refs i → isFile s i → inodeIsDir s i = some false
  /-- Nothing is said about closing the directory itself for good. -/
  closes : ∀ {s i}, Ok s → 0 < (view s).refs i → (i = d → 1 < (view s).refs i) →
    ∃ s', inodeClose s i = some s' ∧ Ok s' ∧
      ((view s).setRefs i ((view s).refs i - 1)).Same (view s')

/-! ## The finite map -/

abbrev Map := CString → Option Sector

/-- A call on the directory. -/
inductive Call where
  | add (name : CString) (sector : Sector)
  | remove (name : CString)
  | lookup (name : CString)

def Call.name : Call → CString
  | .add name _ | .remove name | .lookup name => name

inductive Result where
  | done (success : Bool)
  | found (sector : Option Sector)
deriving DecidableEq

def mapCall (m : Map) : Call → Result × Map
  | .add name sector =>
    if 1 ≤ name.length ∧ name.length ≤ 14 ∧ m name = none then
      (.done true, update m name (some sector))
    else (.done false, m)
  | .remove name =>
    if m name ≠ none then (.done true, update m name none) else (.done false, m)
  | .lookup name => (.found (m name), m)

def mapAfter (calls : List Call) : Map := calls.foldl (fun m c => (mapCall m c).2) fun _ => none

/-! ## The directory -/

variable {σ : Type} {d : Sector} (L : DirLayer σ d)

def dirCall (s : σ) : Call → Option (Result × σ)
  | .add name sector => (dirAdd L.toInodeOps s d name sector).map fun r => (.done r.1, r.2)
  | .remove name => (dirRemove L.toInodeOps s d name).map fun r => (.done r.1, r.2)
  | .lookup name => (dirLookup L.toInodeOps s d name).map fun r => (.found r.1, r.2)

def step (s : σ) (call : Call) : Option σ := (dirCall L s call).map Prod.snd

def table (s : σ) : EntryTable where
  slots := (L.view s).length / DIR_ENTRY_SIZE
  entry := fun k j => (L.view s).byte (DIR_ENTRY_SIZE * k + j)

def mapOf (s : σ) : Map := (table L s).find

def admitted (s : σ) (call : Call) : Prop :=
  (∀ c ∈ call.name, c ≠ 0) ∧
    ∀ name sector, call = .remove name → mapOf L s name = some sector → L.isFile s sector

/-- The entries in use have different names of 1 to 14 bytes. -/
structure NamesOk (t : EntryTable) : Prop where
  inj : ∀ {k k' n s s'}, t.at? k = some (n, s) → t.at? k' = some (n, s') → k = k'
  valid : ∀ {k n s}, t.at? k = some (n, s) → 1 ≤ n.length ∧ n.length ≤ 14

theorem NamesOk.represents {t : EntryTable} (h : NamesOk t) : Represents t.at? t.find := by
  refine ⟨h.inj, fun n s => ?_⟩
  unfold EntryTable.find
  cases hs : t.slotOf n with
  | none =>
    constructor
    · intro hc
      cases hc
    · rintro ⟨k, hk⟩
      exact absurd hk (slotOf_none hs k s)
  | some k =>
    have hat := slotOf_some hs
    rw [map_some, Option.some.injEq]
    constructor
    · rintro rfl
      exact ⟨k, hat⟩
    · rintro ⟨k', hk'⟩
      obtain rfl := h.inj hat hk'
      rw [hat, Option.some.injEq, Prod.mk.injEq] at hk'
      exact hk'.2

/-- The directory is open; `b` says whether its lock is held. -/
structure Held (s : σ) (b : Bool) : Prop where
  ok : L.Ok s
  refs : 0 < (L.view s).refs d
  locked : (L.view s).locked = b

/-! ## The table through the layer -/

theorem DirView.Same.trans {v v' v'' : DirView} (h : v.Same v') (h' : v'.Same v'') :
    v.Same v'' where
  length := h'.length.trans h.length
  byte k hk := (h'.byte k (h.length ▸ hk)).trans (h.byte k hk)
  refs := h'.refs.trans h.refs
  locked := h'.locked.trans h.locked

section
variable {L} {s s' : σ}

theorem table_same (hlen : (L.view s').length = (L.view s).length)
    (hbyte : ∀ k, k < (L.view s).length → (L.view s').byte k = (L.view s).byte k) :
    (table L s).Same (table L s') := by
  refine ⟨by simp only [table, hlen], fun k hk j hj => hbyte _ ?_⟩
  simp only [table, DIR_ENTRY_SIZE] at *
  omega

theorem table_writes {e : Buffer} {k : Nat} (hk : k ≤ (table L s).slots)
    (h : ((L.view s).write e DIR_ENTRY_SIZE (DIR_ENTRY_SIZE * k)).Same (L.view s')) :
    (table L s).Writes (table L s') k e := by
  have hlen : (L.view s').length = max (L.view s).length (20 * k + 20) := h.length
  have hbyte : ∀ q, q < max (L.view s).length (20 * k + 20) → (L.view s').byte q =
      if 20 * k ≤ q ∧ q < 20 * k + 20 then e (q - 20 * k) else (L.view s).byte q := h.byte
  refine ⟨?_, hk, fun j hj => ?_, fun q hq hne j hj => ?_⟩
  · simp only [table, DIR_ENTRY_SIZE, hlen] at *
    omega
  · simp only [table, DIR_ENTRY_SIZE] at *
    rw [hbyte _ (by omega), if_pos (by omega)]
    congr 1
    omega
  · simp only [table, DIR_ENTRY_SIZE] at *
    rw [hbyte _ (by omega), if_neg (by omega)]

end

def reader : DirReader L.toInodeOps d where
  Ok s := L.Ok s ∧ 0 < (L.view s).refs d
  Reads s s' := L.Ok s' ∧ (L.view s).Same (L.view s') ∧ ∀ i, L.isFile s i → L.isFile s' i
  table := table L
  refl s h := ⟨h.1, ⟨rfl, fun _ _ => rfl, rfl, rfl⟩, fun _ hi => hi⟩
  trans h h' := ⟨h'.1, h.2.1.trans h'.2.1, fun i hi => h'.2.2 i (h.2.2 i hi)⟩
  ok h h' := ⟨h'.1, by rw [h'.2.1.refs]; exact h.2⟩
  same h := table_same h.2.1.length h.2.1.byte
  readable h := ⟨_, L.readable_eq h.1 h.2, rfl⟩
  uninit h := L.uninit h.1
  read := by
    intro s h e k
    obtain ⟨bytes, s', heq, hok, hsame, hfile, hbytes⟩ :=
      L.read h.1 h.2 e DIR_ENTRY_SIZE (DIR_ENTRY_SIZE * k)
    simp only [table, DIR_ENTRY_SIZE] at *
    refine ⟨_, bytes, s', heq, ⟨hok, hsame, hfile⟩, fun hk => ?_, fun hk => by omega⟩
    have hmin : min 20 ((L.view s).length - 20 * k) = 20 := by omega
    rw [hmin] at hbytes
    exact ⟨by rw [hmin], hbytes⟩

/-! ## dir_lookup -/

section
variable {L} {s s' : σ}

theorem Held.acquire (h : Held L s false) :
    ∃ s', L.inodeLockAcquire s d = some s' ∧ Held L s' true ∧
      (table L s).Same (table L s') ∧ ∀ i, L.isFile s i → L.isFile s' i := by
  obtain ⟨s', heq, hok, hsame, hfile⟩ := L.acquire h.ok h.locked
  exact ⟨s', heq, ⟨hok, by rw [hsame.refs]; exact h.refs, hsame.locked⟩,
    table_same hsame.length hsame.byte, hfile⟩

theorem Held.release (h : Held L s true) :
    ∃ s', L.inodeLockRelease s d = some s' ∧ Held L s' false ∧
      (table L s).Same (table L s') := by
  obtain ⟨s', heq, hok, hsame⟩ := L.release h.ok h.locked
  exact ⟨s', heq, ⟨hok, by rw [hsame.refs]; exact h.refs, hsame.locked⟩,
    table_same hsame.length hsame.byte⟩

variable {b : Bool} {name : CString}

theorem Held.reads (h : Held L s b) (hreads : (reader L).Reads s s') : Held L s' b :=
  ⟨hreads.1, by rw [hreads.2.1.refs]; exact h.refs, by rw [hreads.2.1.locked]; exact h.locked⟩

theorem Held.opens (h : Held L s b) (i : Sector) :
    Held L (L.inodeOpen s i) b ∧ 0 < (L.view (L.inodeOpen s i)).refs i ∧
      (i = d → 1 < (L.view (L.inodeOpen s i)).refs i) ∧
      (table L s).Same (table L (L.inodeOpen s i)) ∧
      ∀ j, L.isFile s j → L.isFile (L.inodeOpen s i) j := by
  obtain ⟨hok, hsame, hfile⟩ := L.opens i h.ok
  have hrefs := hsame.refs
  have hd := h.refs
  simp only [DirView.setRefs] at hrefs
  refine ⟨⟨hok, ?_, by rw [hsame.locked]; exact h.locked⟩, ?_, ?_,
    table_same hsame.length hsame.byte, hfile⟩
  · rw [hrefs, update_apply]
    split <;> omega
  · rw [hrefs, update_self]
    omega
  · rintro rfl
    rw [hrefs, update_self]
    omega

theorem Held.closes (h : Held L s b) {i : Sector} (hi : 0 < (L.view s).refs i)
    (hd : i = d → 1 < (L.view s).refs i) :
    ∃ s', L.inodeClose s i = some s' ∧ Held L s' b ∧ (table L s).Same (table L s') := by
  obtain ⟨s', heq, hok, hsame⟩ := L.closes h.ok hi hd
  have hrefs := hsame.refs
  have hpos := h.refs
  simp only [DirView.setRefs] at hrefs
  refine ⟨s', heq, ⟨hok, ?_, by rw [hsame.locked]; exact h.locked⟩,
    table_same hsame.length hsame.byte⟩
  rw [hrefs, update_apply]
  split
  · rename_i he
    have := hd he.symm
    omega
  · exact hpos

theorem dirLookup_spec (h : Held L s false) (name : CString) :
    ∃ s', dirLookup L.toInodeOps s d name = some (mapOf L s name, s') ∧ Held L s' false ∧
      (table L s).Same (table L s') := by
  obtain ⟨s1, hacq, h1, hsame1, -⟩ := h.acquire
  obtain ⟨e, s2, hlook, hreads, hentry⟩ := (reader L).lookup_spec (s := s1) ⟨h1.ok, h1.refs⟩ name
  have h2 := h1.reads hreads
  have hsame2 := hsame1.trans ((reader L).same hreads)
  have hslot : (table L s1).slotOf name = (table L s).slotOf name :=
    hsame1.first_eq fun _ _ he => isEntryOf_congr name he
  change _ = some (((table L s1).slotOf name).map _, s2) at hlook
  rw [hslot] at hlook
  unfold dirLookup
  simp only [hacq, hlook, some_bind]
  unfold mapOf EntryTable.find
  cases hfound : (table L s).slotOf name with
  | none =>
    obtain ⟨s3, hrel, h3, hsame3⟩ := h2.release
    exact ⟨s3, by simp [hrel], h3, hsame2.trans hsame3⟩
  | some q =>
    have hq := hentry q (hslot.trans hfound)
    have hsector : DirEntry.inodeSector e = DirEntry.inodeSector ((table L s).entry q) :=
      inodeSector_congr fun j hj =>
        (hq j hj).trans (hsame1.2 q (first_some hfound).1 j hj)
    obtain ⟨h3, -, -, hsame3, -⟩ := h2.opens (DirEntry.inodeSector e)
    obtain ⟨s4, hrel, h4, hsame4⟩ := h3.release
    refine ⟨s4, ?_, h4, (hsame2.trans hsame3).trans hsame4⟩
    rw [map_some, map_some, ← hsector]
    simp [hrel]

/-! ## dir_add -/

theorem Held.lookup (h : Held L s b) (name : CString) :
    ∃ e s', FileSys.lookup L.toInodeOps s d name =
        some (((table L s).slotOf name).map fun q => (e, DIR_ENTRY_SIZE * q), s') ∧
      Held L s' b ∧ (table L s).Same (table L s') ∧ (∀ i, L.isFile s i → L.isFile s' i) ∧
      ∀ q, (table L s).slotOf name = some q → SameEntry e ((table L s).entry q) := by
  obtain ⟨e, s', heq, hreads, hentry⟩ := (reader L).lookup_spec (s := s) ⟨h.ok, h.refs⟩ name
  exact ⟨e, s', heq, h.reads hreads, (reader L).same hreads, hreads.2.2, hentry⟩

theorem Held.adopt (h : Held L s b) (i : Sector) :
    ∃ s', FileSys.adopt L.toInodeOps s d i = some s' ∧ Held L s' b ∧
      (table L s).Same (table L s') := by
  obtain ⟨h1, hi, hd, hsame1, -⟩ := h.opens i
  obtain ⟨s2, hset, hok, hsame2⟩ := L.setParent d h1.ok hi
  have h2 : Held L s2 b :=
    ⟨hok, by rw [hsame2.refs]; exact h1.refs, by rw [hsame2.locked]; exact h1.locked⟩
  obtain ⟨s3, hclose, h3, hsame3⟩ := h2.closes (i := i) (by rw [hsame2.refs]; exact hi)
    (by rw [hsame2.refs]; exact hd)
  refine ⟨s3, ?_, h3, (hsame1.trans (table_same hsame2.length hsame2.byte)).trans hsame3⟩
  unfold FileSys.adopt
  simp only [hset, some_bind, hclose]

theorem Held.write (h : Held L s b) (e : Buffer) {k : Nat} (hk : k ≤ (table L s).slots) :
    ∃ s', L.inodeWriteAt s d e DIR_ENTRY_SIZE (DIR_ENTRY_SIZE * k : Nat) =
        some ((DIR_ENTRY_SIZE : Int), s') ∧ Held L s' b ∧ (L.view s').refs = (L.view s).refs ∧
      (table L s).Writes (table L s') k e := by
  have hofs : DIR_ENTRY_SIZE * k ≤ (L.view s).length := by
    simp only [table, DIR_ENTRY_SIZE] at *
    omega
  obtain ⟨s', heq, hok, hsame⟩ :=
    L.write h.ok h.refs e DIR_ENTRY_SIZE (DIR_ENTRY_SIZE * k) hofs
  exact ⟨s', heq, ⟨hok, by rw [hsame.refs]; exact h.refs, by rw [hsame.locked]; exact h.locked⟩,
    hsame.refs, table_writes hk hsame⟩

theorem Held.writeSlot (h : Held L s b) (name : CString) (i : Sector) (e : Buffer) :
    ∃ e₀ s', FileSys.writeSlot L.toInodeOps s d name i e = some (true, s') ∧ Held L s' b ∧
      (table L s).Writes (table L s') (table L s).freeSlot (DirEntry.newEntry e₀ name i) := by
  have hcongr : ∀ e e', SameEntry e e' → (!DirEntry.inUse e) = !DirEntry.inUse e' :=
    fun _ _ he => by rw [inUse_congr he]
  obtain ⟨e1, s1, hscan, hreads, -⟩ :=
    (reader L).scanEntries_spec (s := s) hcongr ⟨h.ok, h.refs⟩ e
  have hsame : (table L s).Same (table L s1) := (reader L).same hreads
  obtain ⟨s2, hwrite, h2, -, hw⟩ := (h.reads hreads).write (DirEntry.newEntry e1 name i)
    (k := (table L s).freeSlot) (by rw [hsame.1]; exact (at?_freeSlot _).2)
  refine ⟨e1, s2, ?_, h2, ?_⟩
  · unfold FileSys.writeSlot
    simp only [hscan, some_bind]
    change (L.inodeWriteAt s1 d (DirEntry.newEntry e1 name i) DIR_ENTRY_SIZE
      ((DIR_ENTRY_SIZE * (table L s).freeSlot : Nat) : Int)).bind _ = _
    simp only [hwrite, bind_some, decide_true]
  · exact ⟨by rw [hw.slots, hsame.1], by rw [← hsame.1]; exact hw.le, hw.self,
      fun j hj hne q hq => (hw.other j (hsame.1 ▸ hj) hne q hq).trans (hsame.2 j hj q hq)⟩

theorem dirAdd_new (h : Held L s false) (hlen : 1 ≤ name.length) (hmax : name.length ≤ 14)
    (hz : ∀ c ∈ name, c ≠ 0) (hnew : (table L s).slotOf name = none) (i : Sector) :
    ∃ s', dirAdd L.toInodeOps s d name i = some (true, s') ∧ Held L s' false ∧
      (table L s').at? = update (table L s).at? (table L s).freeSlot (some (name, i)) := by
  obtain ⟨s1, hacq, h1, hsame1, -⟩ := h.acquire
  have hok1 : (reader L).Ok s1 := ⟨h1.ok, h1.refs⟩
  have hreads := (reader L).uninit hok1
  have hsame2 := hsame1.trans ((reader L).same hreads)
  obtain ⟨e, s3, hlook, h3, hsame3, -, -⟩ := (h1.reads hreads).lookup name
  have hslot : (table L (L.uninitBytes s1).2).slotOf name = none :=
    (hsame2.first_eq fun _ _ he => isEntryOf_congr name he).trans hnew
  rw [hslot] at hlook
  obtain ⟨s4, hadopt, h4, hsame4⟩ := h3.adopt i
  obtain ⟨e0, s5, hwrite, h5, hw⟩ := h4.writeSlot name i (L.uninitBytes s1).1
  obtain ⟨s6, hrel, h6, hsame6⟩ := h5.release
  have hsame := (hsame2.trans hsame3).trans hsame4
  have hfree : (table L s4).freeSlot = (table L s).freeSlot := by
    unfold EntryTable.freeSlot
    rw [hsame.first_eq (fun _ _ he => by rw [inUse_congr he]), hsame.1]
  have hname : ¬ (name = [] ∨ NAME_MAX < name.length) := by
    rintro (rfl | hc)
    · exact absurd hlen (by decide)
    · unfold NAME_MAX at hc
      omega
  refine ⟨s6, ?_, h6, ?_⟩
  · unfold dirAdd dirAddLocked
    simp only [hacq, some_bind]
    rw [if_neg hname]
    simp only [hlook, some_bind, map_none, hadopt, hwrite, hrel]
  · rw [hsame6.at?_eq, hw.at?_eq, hsame.at?_eq, hfree, decode_newEntry i hmax hz]

theorem dirAdd_refused (h : Held L s false)
    (hno : ¬ (1 ≤ name.length ∧ name.length ≤ 14 ∧ (table L s).slotOf name = none)) (i : Sector) :
    ∃ s', dirAdd L.toInodeOps s d name i = some (false, s') ∧ Held L s' false ∧
      (table L s).Same (table L s') := by
  obtain ⟨s1, hacq, h1, hsame1, -⟩ := h.acquire
  unfold dirAdd dirAddLocked
  simp only [hacq, some_bind]
  by_cases hname : name = [] ∨ NAME_MAX < name.length
  · obtain ⟨s2, hrel, h2, hsame2⟩ := h1.release
    rw [if_pos hname]
    exact ⟨s2, by simp only [some_bind, hrel], h2, hsame1.trans hsame2⟩
  · -- a good name is refused only because it is there
    rw [if_neg hname]
    obtain ⟨hne, hmax⟩ := not_or.mp hname
    have hlen : 1 ≤ name.length := List.length_pos_iff.mpr hne
    have hreads := (reader L).uninit (s := s1) ⟨h1.ok, h1.refs⟩
    have hsame2 := hsame1.trans ((reader L).same hreads)
    obtain ⟨e, s3, hlook, h3, hsame3, -, -⟩ := (h1.reads hreads).lookup name
    have hslot : (table L (L.uninitBytes s1).2).slotOf name = (table L s).slotOf name :=
      hsame2.first_eq fun _ _ he => isEntryOf_congr name he
    unfold NAME_MAX at hmax
    obtain ⟨q, hq⟩ := ne_none_iff_exists'.mp
      (show (table L s).slotOf name ≠ none from fun hc => hno ⟨hlen, by omega, hc⟩)
    obtain ⟨s4, hrel, h4, hsame4⟩ := h3.release
    refine ⟨s4, ?_, h4, (hsame2.trans hsame3).trans hsame4⟩
    rw [hslot, hq] at hlook
    simp only [hlook, some_bind, map_some, hrel]

/-! ## dir_remove -/

theorem dirRemove_present (h : Held L s false) {k : Nat} (hk : (table L s).slotOf name = some k)
    (hfile : L.isFile s (DirEntry.inodeSector ((table L s).entry k))) :
    ∃ s', dirRemove L.toInodeOps s d name = some (true, s') ∧ Held L s' false ∧
      (table L s').at? = update (table L s).at? k none := by
  obtain ⟨s1, hacq, h1, hsame1, hfile1⟩ := h.acquire
  obtain ⟨e, s2, hlook, h2, hsame2, hfile2, hentry⟩ := h1.lookup name
  have hslot : (table L s1).slotOf name = some k :=
    (hsame1.first_eq fun _ _ he => isEntryOf_congr name he).trans hk
  have hlt := (first_some hk).1
  have he : SameEntry e ((table L s).entry k) :=
    fun j hj => (hentry k hslot j hj).trans (hsame1.2 k hlt j hj)
  have hsec := inodeSector_congr he
  rw [hslot] at hlook
  -- the inode is open from here to its close
  obtain ⟨h3, hi, hd, hsame3, hfile3⟩ := h2.opens (DirEntry.inodeSector e)
  have hisDir := L.isDir h3.ok hi (hfile3 _ (hfile2 _ (hfile1 _ (hsec ▸ hfile))))
  have hsame := (hsame1.trans hsame2).trans hsame3
  obtain ⟨s4, hwrite, h4, hrefs4, hw⟩ := h3.write (DirEntry.setInUse e false) (k := k)
    (by rw [hsame.1]; exact Nat.le_of_lt hlt)
  obtain ⟨s5, hremove, hok5, hsame5⟩ := L.remove h4.ok (by rw [hrefs4]; exact hi)
  have h5 : Held L s5 true :=
    ⟨hok5, by rw [hsame5.refs]; exact h4.refs, by rw [hsame5.locked]; exact h4.locked⟩
  have hrefs5 := hsame5.refs.trans hrefs4
  obtain ⟨s6, hclose, h6, hsame6⟩ := h5.closes (by rw [hrefs5]; exact hi)
    (by rw [hrefs5]; exact hd)
  obtain ⟨s7, hrel, h7, hsame7⟩ := h6.release
  refine ⟨s7, ?_, h7, ?_⟩
  · unfold dirRemove dirRemoveLocked removeEntry eraseIfAllowed eraseEntry mayRemove
    simp only [hacq, hlook, map_some, some_bind, hisDir,
      Bool.false_eq_true, if_false, if_true, hwrite, hremove, hclose, hrel]
  · rw [hsame7.at?_eq, hsame6.at?_eq, (table_same hsame5.length hsame5.byte).at?_eq, hw.at?_eq,
      hsame.at?_eq, decode_erased]

/-- `dir_remove` of a name that is not there. -/
theorem dirRemove_absent (h : Held L s false) (hno : (table L s).slotOf name = none) :
    ∃ s', dirRemove L.toInodeOps s d name = some (false, s') ∧ Held L s' false ∧
      (table L s).Same (table L s') := by
  obtain ⟨s1, hacq, h1, hsame1, -⟩ := h.acquire
  obtain ⟨e, s2, hlook, h2, hsame2, -, -⟩ := h1.lookup name
  have hslot : (table L s1).slotOf name = none :=
    (hsame1.first_eq fun _ _ he => isEntryOf_congr name he).trans hno
  obtain ⟨s3, hrel, h3, hsame3⟩ := h2.release
  refine ⟨s3, ?_, h3, (hsame1.trans hsame2).trans hsame3⟩
  rw [hslot] at hlook
  unfold dirRemove dirRemoveLocked
  simp only [hacq, hlook, map_none, some_bind, hrel]

/-! ## The calls -/

theorem mapOf_eq_none :
    mapOf L s name = none ↔ (table L s).slotOf name = none := by
  unfold mapOf EntryTable.find
  rw [map_eq_none_iff]

theorem NamesOk.same (h : NamesOk (table L s)) (hat : (table L s').at? = (table L s).at?) :
    NamesOk (table L s') ∧ mapOf L s' = mapOf L s := by
  have h' : NamesOk (table L s') := by
    constructor
    · rw [hat]
      exact h.inj
    · rw [hat]
      exact h.valid
  exact ⟨h', h'.represents.unique (by rw [hat]; exact h.represents)⟩

/-- What holds between two calls. -/
structure Inv (L : DirLayer σ d) (s : σ) : Prop where
  held : Held L s false
  names : NamesOk (table L s)

/-- **One call** does to the directory what it does to the map. -/
theorem dirCall_spec (h : Inv L s) {call : Call} (hok : admitted L s call) :
    ∃ s', dirCall L s call = some ((mapCall (mapOf L s) call).1, s') ∧ Inv L s' ∧
      mapOf L s' = (mapCall (mapOf L s) call).2 ∧
      ((mapCall (mapOf L s) call).1 ≠ .done true → (table L s').at? = (table L s).at?) := by
  have hrep := h.names.represents
  cases call with
  | lookup name =>
    obtain ⟨s', heq, hheld, hsame⟩ := dirLookup_spec h.held name
    obtain ⟨hnames, hmap⟩ := h.names.same hsame.at?_eq
    exact ⟨s', by simp [dirCall, mapCall, heq], ⟨hheld, hnames⟩, hmap, fun _ => hsame.at?_eq⟩
  | add name i =>
    by_cases hnew : 1 ≤ name.length ∧ name.length ≤ 14 ∧ mapOf L s name = none
    · obtain ⟨hlen, hmax, hnone⟩ := hnew
      obtain ⟨s', heq, hheld, hat⟩ :=
        dirAdd_new h.held hlen hmax hok.1 (mapOf_eq_none.mp hnone) i
      have hrep' := hrep.insert (at?_freeSlot _).1 hnone i
      rw [← hat] at hrep'
      have hnames : NamesOk (table L s') := by
        refine ⟨hrep'.inj, fun {k n t} hk => ?_⟩
        rw [hat, update_apply] at hk
        split at hk
        · cases hk
          exact ⟨hlen, hmax⟩
        · exact h.names.valid hk
      simp only [dirCall, mapCall, if_pos (And.intro hlen (And.intro hmax hnone)), heq,
        map_some]
      exact ⟨s', rfl, ⟨hheld, hnames⟩, hnames.represents.unique hrep', fun hc => absurd rfl hc⟩
    · obtain ⟨s', heq, hheld, hsame⟩ := dirAdd_refused h.held
        (fun hc => hnew ⟨hc.1, hc.2.1, mapOf_eq_none.mpr hc.2.2⟩) i
      obtain ⟨hnames, hmap⟩ := h.names.same hsame.at?_eq
      simp only [dirCall, mapCall, if_neg hnew, heq, map_some]
      exact ⟨s', rfl, ⟨hheld, hnames⟩, hmap, fun _ => hsame.at?_eq⟩
  | remove name =>
    by_cases hthere : mapOf L s name ≠ none
    · obtain ⟨k, hk⟩ := ne_none_iff_exists'.mp (mt mapOf_eq_none.mpr hthere)
      have hsector : mapOf L s name = some (DirEntry.inodeSector ((table L s).entry k)) := by
        unfold mapOf EntryTable.find
        rw [hk]
        rfl
      obtain ⟨s', heq, hheld, hat⟩ :=
        dirRemove_present h.held hk (hok.2 name _ rfl hsector)
      have hrep' := hrep.erase (slotOf_some hk)
      rw [← hat] at hrep'
      have hnames : NamesOk (table L s') := by
        refine ⟨hrep'.inj, fun {q n t} hq => ?_⟩
        rw [hat, update_apply] at hq
        split at hq
        · cases hq
        · exact h.names.valid hq
      simp only [dirCall, mapCall, if_pos hthere, heq, map_some]
      exact ⟨s', rfl, ⟨hheld, hnames⟩, hnames.represents.unique hrep', fun hc => absurd rfl hc⟩
    · obtain ⟨s', heq, hheld, hsame⟩ :=
        dirRemove_absent h.held (mapOf_eq_none.mp (not_not.mp hthere))
      obtain ⟨hnames, hmap⟩ := h.names.same hsame.at?_eq
      simp only [dirCall, mapCall, if_neg hthere, heq, map_some]
      exact ⟨s', rfl, ⟨hheld, hnames⟩, hmap, fun _ => hsame.at?_eq⟩

theorem created_empty {s₀ s₁ : σ} {entryCnt : Nat} (hok : L.Ok s₀)
    (hclosed : (L.view s₀).refs d = 0)
    (hcreate : dirCreate L.toInodeOps s₀ d entryCnt = some (true, s₁)) :
    Inv L (L.inodeOpen s₁ d) ∧ mapOf L (L.inodeOpen s₁ d) = fun _ => none := by
  obtain ⟨hok1, hrefs1, hlocked1, hzero⟩ := L.create hok hclosed hcreate
  obtain ⟨hok2, hsame, -⟩ := L.opens d hok1
  have hrefs := hsame.refs
  simp only [DirView.setRefs] at hrefs
  have hempty : (table L s₁).at? = fun _ => none := by
    funext k
    unfold EntryTable.at?
    split
    · rename_i hk
      simp only [table, DIR_ENTRY_SIZE] at hk
      have hbyte := hzero (DIR_ENTRY_SIZE * k + 19) (by unfold DIR_ENTRY_SIZE; omega)
      unfold DirEntry.decode DirEntry.inUse
      simp only [table, hbyte]
      rfl
    · rfl
  have hat := (table_same hsame.length hsame.byte).at?_eq.trans hempty
  have hrep : Represents (table L (L.inodeOpen s₁ d)).at? fun _ => none := by
    rw [hat]
    exact Represents.empty
  have hnames : NamesOk (table L (L.inodeOpen s₁ d)) := by
    refine ⟨hrep.inj, fun hk => ?_⟩
    rw [hat] at hk
    cases hk
  refine ⟨⟨⟨hok2, ?_, ?_⟩, hnames⟩, hnames.represents.unique hrep⟩
  · rw [hrefs, update_self]
    omega
  · rw [hsame.locked]
    exact hlocked1

theorem mapOf_of_run {s₀ : σ} {calls : List Call} (h0 : Inv L s₀)
    (hmap : mapOf L s₀ = fun _ => none) (hrun : Run (step L) (admitted L) s₀ calls s) :
    Inv L s ∧ mapOf L s = mapAfter calls := by
  induction hrun with
  | nil => exact ⟨h0, hmap⟩
  | snoc _ hok heq ih =>
    obtain ⟨hinv, hm⟩ := ih
    obtain ⟨s', hcall, hinv', hm', -⟩ := dirCall_spec hinv hok
    rw [step, hcall, map_some, Option.some.injEq] at heq
    subst heq
    refine ⟨hinv', ?_⟩
    rw [hm', hm, mapAfter, mapAfter, List.foldl_append]
    rfl

end

/-- The directory is the finite map that the calls so far have made. -/
structure IsFiniteMap (s : σ) (calls : List Call) : Prop where
  names : NamesOk (table L s)
  history : mapOf L s = mapAfter calls
  /-- The next call returns what it returns on the map and does to the entries what
  it does to the map; unless it succeeds, it changes no entry. -/
  call : ∀ {call : Call}, admitted L s call →
    ∃ s', dirCall L s call = some ((mapCall (mapOf L s) call).1, s') ∧
      mapOf L s' = (mapCall (mapOf L s) call).2 ∧
      ((mapCall (mapOf L s) call).1 ≠ .done true → (table L s').at? = (table L s).at?)

/-- **A directory is a finite map**, whatever it is created with and whatever
calls are made. -/
theorem directory_is_finite_map {s₀ s₁ s : σ} {entryCnt : Nat} {calls : List Call}
    (hok : L.Ok s₀) (hclosed : (L.view s₀).refs d = 0)
    (hcreate : dirCreate L.toInodeOps s₀ d entryCnt = some (true, s₁))
    (hrun : Run (step L) (admitted L) (L.inodeOpen s₁ d) calls s) : IsFiniteMap L s calls := by
  obtain ⟨hinv0, hmap0⟩ := created_empty hok hclosed hcreate
  obtain ⟨hinv, hmap⟩ := mapOf_of_run hinv0 hmap0 hrun
  refine ⟨hinv.names, hmap, fun hadm => ?_⟩
  obtain ⟨s', hcall, -, hmap', hfail⟩ := dirCall_spec hinv hadm
  exact ⟨s', hcall, hmap', hfail⟩

/-! ## A layer

The directory and the reference counts, and nothing else. -/

/-- Change the array of the directory; other inodes have none. -/
def onDir (d i : Sector) (v w : DirView) : DirView := if i = d then w else v

/-- The inode layer whose whole state is what the directory's user sees. -/
def arrayLayer (d : Sector) : DirLayer DirView d where
  inodeCreate v i size _ :=
    if 0 ≤ size then some (true, onDir d i v
      { v with length := size.toNat, byte := fun _ => 0, locked := false }) else none
  inodeOpen v i := v.setRefs i (v.refs i + 1)
  inodeReopen v i := some (v.setRefs i (v.refs i + 1))
  inodeClose v i := if 0 < v.refs i then some (v.setRefs i (v.refs i - 1)) else none
  inodeReadAt v _ _ size offset :=
    some ((min size.toNat (v.length - offset.toNat) : Nat), fun k => v.byte (offset.toNat + k), v)
  inodeWriteAt v i buffer size offset :=
    some (size, onDir d i v (v.write buffer size.toNat offset.toNat))
  inodeParent _ _ := some 0
  inodeSetParent v _ _ := some v
  inodeRemove v _ := some v
  inodeIsDir _ i := some (i = d)
  inodeIsOpened v i := some (1 < v.refs i)
  inodeLockAcquire v i :=
    if v.locked then none else some (onDir d i v { v with locked := true })
  inodeLockRelease v i :=
    if v.locked then some (onDir d i v { v with locked := false }) else none
  uninitBytes v := (fun _ => 204, v)
  readable v _ := some v.length
  Ok _ := True
  view := id
  isFile _ i := i ≠ d
  create := by
    intro v v' size _ hrefs heq
    split at heq
    · cases heq
      rw [onDir, if_pos rfl]
      exact ⟨trivial, hrefs, rfl, fun _ _ => rfl⟩
    · cases heq
  acquire := by
    intro v _ hlocked
    simp only [id] at hlocked
    rw [if_neg (by rw [hlocked]; decide)]
    exact ⟨_, rfl, trivial, by simp only [onDir, if_true]; exact ⟨rfl, fun _ _ => rfl, rfl, rfl⟩,
      fun _ hi => hi⟩
  release := by
    intro v _ hlocked
    simp only [id] at hlocked
    rw [if_pos hlocked]
    exact ⟨_, rfl, trivial, by simp only [onDir, if_true]; exact ⟨rfl, fun _ _ => rfl, rfl, rfl⟩⟩
  uninit := fun _ => ⟨trivial, ⟨rfl, fun _ _ => rfl, rfl, rfl⟩, fun _ hi => hi⟩
  readable_eq := fun _ _ => rfl
  read := fun _ _ _ _ _ =>
    ⟨_, _, rfl, trivial, ⟨rfl, fun _ _ => rfl, rfl, rfl⟩, fun _ hi => hi, fun _ _ => rfl⟩
  write := by
    intro v _ _ buffer size offset _
    exact ⟨_, rfl, trivial, by simp only [onDir, if_true]; exact ⟨rfl, fun _ _ => rfl, rfl, rfl⟩⟩
  opens := fun _ _ => ⟨trivial, ⟨rfl, fun _ _ => rfl, rfl, rfl⟩, fun _ hi => hi⟩
  setParent := fun _ _ _ => ⟨_, rfl, trivial, ⟨rfl, fun _ _ => rfl, rfl, rfl⟩⟩
  remove := fun _ _ => ⟨_, rfl, trivial, ⟨rfl, fun _ _ => rfl, rfl, rfl⟩⟩
  isDir := by
    intro v i _ _ hi
    rw [decide_eq_false hi]
  closes := by
    intro v i _ hi _
    simp only [id] at hi
    rw [if_pos hi]
    exact ⟨_, rfl, trivial, ⟨rfl, fun _ _ => rfl, rfl, rfl⟩⟩

/-- The product of this many entries and 20 is 4 in 32 bits: the directory is
created with four bytes, and its first entry replaces them. -/
theorem directory_is_finite_map_four_bytes :
    ∃ s₁ s, dirCreate (arrayLayer 1).toInodeOps ⟨0, fun _ => 0, fun _ => 0, false⟩ 1 214748365 =
        some (true, s₁) ∧ s₁.length = 4 ∧
      Run (step (arrayLayer 1)) (admitted (arrayLayer 1)) ((arrayLayer 1).inodeOpen s₁ 1)
        ([] ++ [.add [97] 7]) s ∧
      IsFiniteMap (arrayLayer 1) s ([] ++ [.add [97] 7]) := by
  have hadm : ∀ s, admitted (arrayLayer 1) s (.add [97] 7) :=
    fun s => ⟨by simp [Call.name], nofun⟩
  have hcreate : dirCreate (arrayLayer 1).toInodeOps ⟨0, fun _ => 0, fun _ => 0, false⟩ 1 214748365 =
      some (true, ⟨4, fun _ => 0, fun _ => 0, false⟩) := rfl
  have hempty := directory_is_finite_map (arrayLayer 1) trivial rfl hcreate .nil
  obtain ⟨s, hcall, -⟩ := hempty.call (hadm _)
  have hrun : Run (step (arrayLayer 1)) (admitted (arrayLayer 1)) _ ([] ++ [.add [97] 7]) s :=
    .snoc .nil (hadm _) (congrArg (Option.map Prod.snd) hcall)
  exact ⟨_, s, hcreate, rfl, hrun,
    directory_is_finite_map (arrayLayer 1) trivial rfl hcreate hrun⟩

end Pintos.FileSys.DirMap
