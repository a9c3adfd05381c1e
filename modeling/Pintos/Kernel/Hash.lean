import Mathlib.Algebra.GroupWithZero.Nat
import Mathlib.Order.Defs.Unbundled
import Mathlib.Data.List.GetD
import Mathlib.Data.List.Pairwise
import Mathlib.Data.Set.Insert
import Mathlib.Order.BooleanAlgebra.Set
import Pintos.Lib.Buckets

/-!
# Hash tables (`lib/kernel/hash.c`)

A chained hash table with a number of buckets that `rehash` fits to the number of elements,
when it gets the memory for it. An element is a `struct hash_elem *`; `hash` and `less` are
applied to `aux` already. A bucket is the list of its elements from `list_begin` on.

`elem_cnt` is a natural number: an element takes 8 bytes of a 32-bit address space, so
neither it nor the size of a bucket array can wrap. `none` stands for undefined behaviour,
an index outside the bucket array or a loop that does not end; the results say that it does
not occur.

The table stands for the set of its elements, `elems`, and the set is keyed by equivalence:
two elements are the same key if neither is less than the other.
-/

namespace Pintos.Kernel

open Lib List

/-! ## The table -/

structure Hash (α : Type) where
  elemCnt : Nat
  bucketCnt : Nat
  buckets : List (List α)
deriving DecidableEq, Repr

variable {α : Type}

/-- `hash_init` and the `hash_clear` in it, when the bucket array could be allocated. -/
def hashInit : Hash α := ⟨0, 4, List.replicate 4 []⟩

def findBucket (hash : α → UInt32) (h : Hash α) (e : α) : Nat :=
  (hash e).toNat &&& (h.bucketCnt - 1)

def isEqual (less : α → α → Bool) (hi e : α) : Bool := !less hi e && !less e hi

def findElem (less : α → α → Bool) (h : Hash α) (bucket : Nat) (e : α) : Option (Option α) := do
  let b ← h.buckets[bucket]?
  some (b.find? fun hi => isEqual less hi e)

def pushFront (h : Hash α) (bucket : Nat) (e : α) : Option (Hash α) := do
  let b ← h.buckets[bucket]?
  some { h with buckets := h.buckets.set bucket (e :: b) }

def insertElem (h : Hash α) (bucket : Nat) (e : α) : Option (Hash α) :=
  pushFront { h with elemCnt := h.elemCnt + 1 } bucket e

/-- `remove_elem`; `list_remove` unlinks the element from whatever bucket it is in. -/
def removeElem [DecidableEq α] (h : Hash α) (e : α) : Hash α :=
  { h with elemCnt := h.elemCnt - 1, buckets := h.buckets.map (·.erase e) }

def removeOld [DecidableEq α] (h : Hash α) : Option α → Hash α
  | some old => removeElem h old
  | none => h

/-! ## rehash -/

def turnOffLeast1bit (x : Nat) : Nat := x &&& (x - 1)

def isPowerOf2 (x : Nat) : Bool := x ≠ 0 && turnOffLeast1bit x = 0

def BEST_ELEMS_PER_BUCKET : Nat := 2

/-- The loop that makes the number of buckets a power of two. -/
def roundDown : Nat → Nat → Option Nat
  | 0, _ => none
  | fuel + 1, newBucketCnt =>
    if isPowerOf2 newBucketCnt then some newBucketCnt
    else roundDown fuel (turnOffLeast1bit newBucketCnt)

/-- `elem_cnt / BEST_ELEMS_PER_BUCKET`, and at least 4. -/
def idealBuckets (elemCnt : Nat) : Nat :=
  if elemCnt / BEST_ELEMS_PER_BUCKET < 4 then 4 else elemCnt / BEST_ELEMS_PER_BUCKET

/-- The inner loop of `rehash`: `list_remove` takes the first element of what is left of the
old bucket. -/
def moveBucket (hash : α → UInt32) (h : Hash α) (oldBucket : List α) : Option (Hash α) :=
  oldBucket.foldlM (fun h elem => pushFront h (findBucket hash h elem) elem) h

/-- `rehash`; `mem` says whether `malloc` finds memory for the new buckets. -/
def rehash (hash : α → UInt32) (mem : Bool) (h : Hash α) : Option (Hash α) := do
  let newBucketCnt ← roundDown (idealBuckets h.elemCnt) (idealBuckets h.elemCnt)
  if newBucketCnt = h.bucketCnt then some h
  else if !mem then some h
  else
    h.buckets.foldlM (moveBucket hash)
      { h with bucketCnt := newBucketCnt, buckets := List.replicate newBucketCnt [] }

/-! ## hash_insert, hash_replace, hash_find, hash_delete -/

section
variable (hash : α → UInt32) (less : α → α → Bool)

def hashInsert (mem : Bool) (h : Hash α) (new : α) : Option (Option α × Hash α) := do
  let bucket := findBucket hash h new
  let old ← findElem less h bucket new
  let h ← if old.isNone then insertElem h bucket new else some h
  let h ← rehash hash mem h
  some (old, h)

def hashFind (h : Hash α) (e : α) : Option (Option α) := findElem less h (findBucket hash h e) e

variable [DecidableEq α]

def hashReplace (mem : Bool) (h : Hash α) (new : α) : Option (Option α × Hash α) := do
  let bucket := findBucket hash h new
  let old ← findElem less h bucket new
  let h ← insertElem (removeOld h old) bucket new
  let h ← rehash hash mem h
  some (old, h)

def hashDelete (mem : Bool) (h : Hash α) (e : α) : Option (Option α × Hash α) := do
  let found ← findElem less h (findBucket hash h e) e
  match found with
  | none => some (none, h)
  | some found => do
    let h ← rehash hash mem (removeElem h found)
    some (some found, h)

end

/-! ## The invariant -/

def Hash.elems (h : Hash α) : List α := h.buckets.flatten

structure Table (hash : α → UInt32) (less : α → α → Bool) (h : Hash α) : Prop where
  power : ∃ k, 2 ≤ k ∧ h.bucketCnt = 2 ^ k
  length : h.buckets.length = h.bucketCnt
  placed : Placed (findBucket hash h) h.buckets
  distinct : h.elems.Pairwise fun a b => isEqual less a b = false
  count : h.elemCnt = h.elems.length

theorem findBucket_lt {hash : α → UInt32} {h : Hash α} {k : Nat} (hk : h.bucketCnt = 2 ^ k) (e : α) :
    findBucket hash h e < h.bucketCnt := by
  unfold findBucket
  rw [hk, Nat.and_two_pow_sub_one_eq_mod]
  exact Nat.mod_lt _ (Nat.two_pow_pos k)

theorem table_hashInit (hash : α → UInt32) (less : α → α → Bool) :
    Table hash less (hashInit : Hash α) where
  power := ⟨2, le_rfl, rfl⟩
  length := rfl
  placed := placed_replicate fun e => findBucket_lt (h := hashInit) (k := 2) rfl e
  distinct := List.Pairwise.nil
  count := rfl

/-! ## Equivalence -/

section
variable {less : α → α → Bool} {a b c : α}

theorem isEqual_symm : isEqual less a b = isEqual less b a := Bool.and_comm _ _

theorem eq_of_isEqual {l : List α} (h : l.Pairwise fun a b => isEqual less a b = false) (ha : a ∈ l)
    (hb : b ∈ l) (hab : isEqual less a b = true) : a = b := by
  by_contra hne
  have : Std.Symm fun a b => isEqual less a b = false := ⟨fun a b hab => isEqual_symm.trans hab⟩
  have hfalse := h.forall ha hb hne
  rw [hab] at hfalse
  cases hfalse

variable [hless : IsStrictWeakOrder α fun a b => less a b = true]

theorem isEqual_refl (a : α) : isEqual less a a = true := by
  have hirrefl : less a a = false := Bool.eq_false_iff.mpr (hless.irrefl a)
  simp [isEqual, hirrefl]

theorem isEqual_trans (hab : isEqual less a b = true) (hbc : isEqual less b c = true) :
    isEqual less a c = true := by
  simp only [isEqual, Bool.and_eq_true, Bool.not_eq_true', ← Bool.not_eq_true] at *
  exact hless.incomp_trans a b c hab hbc

theorem nodup_of_distinct {l : List α} (h : l.Pairwise fun a b => isEqual less a b = false) :
    l.Nodup := by
  refine h.imp fun {a b} hab he => ?_
  rw [he, isEqual_refl] at hab
  cases hab

end

/-! ## rehash -/

theorem isPowerOf2_iff {x : Nat} : isPowerOf2 x = true ↔ x.isPowerOfTwo := by
  rw [← Nat.ne_zero_and_sub_one_eq_zero_iff_isPowerOfTwo]
  unfold isPowerOf2 turnOffLeast1bit
  rw [Bool.and_eq_true, decide_eq_true_eq, decide_eq_true_eq]

/-- A turn of the loop keeps the highest bit, so a number of at least 4 stays one. -/
theorem turnOffLeast1bit_bounds {x : Nat} (hx : 4 ≤ x) (hpow : isPowerOf2 x = false) :
    4 ≤ turnOffLeast1bit x ∧ turnOffLeast1bit x < x := by
  have hnot : ¬ x.isPowerOfTwo := fun h => by
    rw [isPowerOf2_iff.mpr h] at hpow
    cases hpow
  have hbit := Nat.and_sub_one_testBit_log2 (by omega) hnot
  have hlog : 2 ≤ x.log2 := (Nat.le_log2 (by omega)).mpr hx
  constructor
  · calc 4 = 2 ^ 2 := rfl
      _ ≤ 2 ^ x.log2 := Nat.pow_le_pow_right (by decide) hlog
      _ ≤ turnOffLeast1bit x := Nat.ge_two_pow_of_testBit hbit
  · have : turnOffLeast1bit x ≤ x - 1 := Nat.and_le_right
    omega

theorem roundDown_spec (fuel x : Nat) (hx : 4 ≤ x) (hfuel : x ≤ fuel) :
    ∃ k, 2 ≤ k ∧ roundDown fuel x = some (2 ^ k) := by
  induction fuel generalizing x with
  | zero => omega
  | succ fuel ih =>
    unfold roundDown
    cases hpow : isPowerOf2 x with
    | true =>
      obtain ⟨k, rfl⟩ := isPowerOf2_iff.mp hpow
      refine ⟨k, ?_, if_pos rfl⟩
      exact (Nat.pow_le_pow_iff_right (by decide)).mp (show 2 ^ 2 ≤ 2 ^ k from hx)
    | false =>
      obtain ⟨hge, hlt⟩ := turnOffLeast1bit_bounds hx hpow
      rw [if_neg Bool.false_ne_true]
      exact ih _ hge (by omega)

theorem four_le_idealBuckets (elemCnt : Nat) : 4 ≤ idealBuckets elemCnt := by
  unfold idealBuckets
  split <;> omega

/-- `h'` has the buckets of `h`, and in them the elements `l` besides those of `h`. -/
structure Pushed (hash : α → UInt32) (h h' : Hash α) (l : List α) : Prop where
  bucketCnt : h'.bucketCnt = h.bucketCnt
  elemCnt : h'.elemCnt = h.elemCnt
  length : h'.buckets.length = h.buckets.length
  placed : Placed (findBucket hash h') h'.buckets
  elems : h'.elems.Perm (l ++ h.elems)

section
variable {hash : α → UInt32} {less : α → α → Bool} {h h' h'' : Hash α} {l l' : List α} {e : α}

theorem Pushed.refl (h : Hash α) (hp : Placed (findBucket hash h) h.buckets) :
    Pushed hash h h [] :=
  ⟨rfl, rfl, rfl, hp, List.Perm.refl _⟩

theorem Pushed.trans (h₁ : Pushed hash h h' l) (h₂ : Pushed hash h' h'' l') :
    Pushed hash h h'' (l ++ l') where
  bucketCnt := h₂.bucketCnt.trans h₁.bucketCnt
  elemCnt := h₂.elemCnt.trans h₁.elemCnt
  length := h₂.length.trans h₁.length
  placed := h₂.placed
  elems := calc
    h''.elems.Perm (l' ++ h'.elems) := h₂.elems
    _ |>.Perm (l' ++ (l ++ h.elems)) := h₁.elems.append_left l'
    _ |>.Perm (l ++ l' ++ h.elems) := by
      rw [← append_assoc]
      exact perm_append_comm.append_right h.elems

theorem pushFront_spec (hp : Placed (findBucket hash h) h.buckets) (e : α) :
    ∃ h', pushFront h (findBucket hash h e) e = some h' ∧ Pushed hash h h' [e] := by
  obtain ⟨b, hb⟩ := hp.bucket e
  refine ⟨{ h with buckets := h.buckets.set (findBucket hash h e) (e :: b) }, ?_, rfl, rfl,
    length_set, hp.set_cons hb, flatten_set_cons hb⟩
  rw [pushFront, hb]
  rfl

theorem moveBucket_spec (l : List α) (hp : Placed (findBucket hash h) h.buckets) :
    ∃ h', moveBucket hash h l = some h' ∧ Pushed hash h h' l := by
  unfold moveBucket
  induction l generalizing h with
  | nil => exact ⟨h, rfl, .refl h hp⟩
  | cons e l ih =>
    obtain ⟨h1, hpush, hpushed⟩ := pushFront_spec hp e
    obtain ⟨h2, hmove, hmoved⟩ := ih hpushed.placed
    refine ⟨h2, ?_, hpushed.trans hmoved⟩
    rw [foldlM_cons, hpush]
    exact hmove

theorem moveBuckets_spec (bs : List (List α)) (hp : Placed (findBucket hash h) h.buckets) :
    ∃ h', bs.foldlM (moveBucket hash) h = some h' ∧ Pushed hash h h' bs.flatten := by
  induction bs generalizing h with
  | nil => exact ⟨h, rfl, .refl h hp⟩
  | cons b bs ih =>
    obtain ⟨h1, hmove, hmoved⟩ := moveBucket_spec b hp
    obtain ⟨h2, hrest, hmoved'⟩ := ih hmoved.placed
    refine ⟨h2, ?_, hmoved.trans hmoved'⟩
    rw [foldlM_cons, hmove]
    exact hrest

theorem distinct_perm (hp : l'.Perm l) (h : l.Pairwise fun a b => isEqual less a b = false) :
    l'.Pairwise fun a b => isEqual less a b = false :=
  (hp.pairwise_iff fun {_ _} hab => isEqual_symm.trans hab).mpr h

/-- **`rehash`** keeps the elements, whether there is memory or not. -/
theorem rehash_spec (h : Hash α) (ht : Table hash less h) (mem : Bool) :
    ∃ h', rehash hash mem h = some h' ∧ Table hash less h' ∧ h'.elems.Perm h.elems := by
  have hkeep : ∃ h', some h = some h' ∧ Table hash less h' ∧ h'.elems.Perm h.elems :=
    ⟨h, rfl, ht, List.Perm.refl _⟩
  obtain ⟨k, hk, hround⟩ :=
    roundDown_spec _ _ (four_le_idealBuckets h.elemCnt) (le_refl (idealBuckets h.elemCnt))
  unfold rehash
  rw [hround, some_bind]
  split
  · exact hkeep
  split
  · exact hkeep
  obtain ⟨h0, hh0⟩ : ∃ h0 : Hash α,
      h0 = { h with bucketCnt := 2 ^ k, buckets := List.replicate (2 ^ k) [] } := ⟨_, rfl⟩
  have hplaced : Placed (findBucket hash h0) h0.buckets := by
    subst hh0
    exact placed_replicate (findBucket_lt rfl)
  have hempty : h0.elems = [] := by
    subst hh0
    exact flatten_replicate_nil
  obtain ⟨h', hmove, hmoved⟩ := moveBuckets_spec h.buckets hplaced
  have hperm : h'.elems.Perm h.elems := by
    have := hmoved.elems
    rwa [hempty, append_nil] at this
  have hcnt : h'.bucketCnt = 2 ^ k := by
    rw [hmoved.bucketCnt, hh0]
  rw [← hh0]
  refine ⟨h', hmove, ⟨⟨k, hk, hcnt⟩, ?_, hmoved.placed, distinct_perm hperm ht.distinct, ?_⟩, hperm⟩
  · rw [hmoved.length, hcnt, hh0, length_replicate]
  · rw [hmoved.elemCnt, hperm.length_eq, hh0]
    exact ht.count

/-! ## Inserting and removing -/

theorem insertElem_spec (ht : Table hash less h) (hnew : ∀ x ∈ h.elems, isEqual less x e = false) :
    ∃ h', insertElem h (findBucket hash h e) e = some h' ∧ Table hash less h' ∧
      h'.elems.Perm (e :: h.elems) := by
  obtain ⟨h', hpush, hpushed⟩ :=
    pushFront_spec (h := { h with elemCnt := h.elemCnt + 1 }) ht.placed e
  have hperm : h'.elems.Perm (e :: h.elems) := hpushed.elems
  refine ⟨h', hpush, ⟨?_, ?_, hpushed.placed, distinct_perm hperm ?_, ?_⟩, hperm⟩
  · rw [hpushed.bucketCnt]
    exact ht.power
  · rw [hpushed.length, hpushed.bucketCnt]
    exact ht.length
  · exact pairwise_cons.mpr ⟨fun x hx => isEqual_symm.trans (hnew x hx), ht.distinct⟩
  · rw [hpushed.elemCnt, hperm.length_eq, length_cons, ht.count]

theorem removeElem_spec [DecidableEq α] [IsStrictWeakOrder α fun a b => less a b = true]
    (ht : Table hash less h) (he : e ∈ h.elems) :
    Table hash less (removeElem h e) ∧ (removeElem h e).elems.Perm (h.elems.erase e) := by
  have hperm : (removeElem h e).elems.Perm (h.elems.erase e) :=
    flatten_map_erase (nodup_of_distinct ht.distinct)
  refine ⟨⟨ht.power, ?_, ht.placed.map_erase e,
    distinct_perm hperm (ht.distinct.sublist erase_sublist), ?_⟩, hperm⟩
  · exact (length_map _).trans ht.length
  · rw [hperm.length_eq, length_erase_of_mem he, ← ht.count]
    rfl

end

/-! ## Sets keyed by equivalence -/

inductive Call (α : Type) where
  | insert (new : α)
  | replace (new : α)
  | find (e : α)
  | delete (e : α)

def Call.key : Call α → α
  | .insert new | .replace new => new
  | .find e | .delete e => e

def Lookup (less : α → α → Bool) (S : Set α) (e : α) (old : Option α) : Prop :=
  ∀ x, old = some x ↔ x ∈ S ∧ isEqual less x e = true

/-- What a call makes of a set in which `old` is equivalent to its element. -/
def Call.effect (S : Set α) (old : Option α) : Call α → Set α
  | .insert new => if old.isNone then S ∪ {new} else S
  | .replace new => (S \ {x | old = some x}) ∪ {new}
  | .find _ => S
  | .delete _ => S \ {x | old = some x}

/-- Calls one after the other on a set, with what they return. -/
inductive SetRun (less : α → α → Bool) : Set α → List (Call α) → List (Option α) → Set α → Prop
  | nil {S} : SetRun less S [] [] S
  | cons {S S' c cs old rs} (hold : Lookup less S c.key old)
      (hrest : SetRun less (c.effect S old) cs rs S') : SetRun less S (c :: cs) (old :: rs) S'

/-- The set that a table stands for. -/
def Hash.contents (h : Hash α) : Set α := {e | e ∈ h.elems}

section
variable (hash : α → UInt32) (less : α → α → Bool) [DecidableEq α]

def exec (h : Hash α) (mem : Bool) : Call α → Option (Option α × Hash α)
  | .insert new => hashInsert hash less mem h new
  | .replace new => hashReplace hash less mem h new
  | .find e => do
    let r ← hashFind hash less h e
    some (r, h)
  | .delete e => hashDelete hash less mem h e

def runCalls (h : Hash α) : List (Call α × Bool) → Option (List (Option α) × Hash α)
  | [] => some ([], h)
  | (c, mem) :: cs => do
    let (r, h) ← exec hash less h mem c
    let (rs, h) ← runCalls h cs
    some (r :: rs, h)

end

section
variable {hash : α → UInt32} {less : α → α → Bool} {h h' : Hash α} {e new : α} {old : Option α}
  [hless : IsStrictWeakOrder α fun a b => less a b = true]

/-- **`find_elem`** finds the element that is equivalent. -/
theorem findElem_spec (hhash : ∀ a b, isEqual less a b = true → hash a = hash b)
    (ht : Table hash less h) (e : α) :
    ∃ old, findElem less h (findBucket hash h e) e = some old ∧ Lookup less h.contents e old := by
  obtain ⟨b, hb⟩ := ht.placed.bucket e
  refine ⟨b.find? fun hi => isEqual less hi e, by rw [findElem, hb]; rfl, fun x => ⟨fun hx => ?_, ?_⟩⟩
  · have heq := find?_some hx
    have hmem := mem_of_find?_eq_some hx
    exact ⟨mem_flatten.mpr ⟨b, mem_of_getElem? hb, hmem⟩, heq⟩
  · rintro ⟨hx, heq⟩
    -- an equivalent element has the same hash, so it is in this bucket
    have hslot : findBucket hash h x = findBucket hash h e := by
      unfold findBucket
      rw [hhash x e heq]
    have hmem : x ∈ b := (ht.placed.mem_flatten_iff (hslot.symm ▸ hb)).mp hx
    cases hfind : b.find? fun hi => isEqual less hi e with
    | none =>
      have := find?_eq_none.mp hfind x hmem
      contradiction
    | some y =>
      have hy : y ∈ h.elems :=
        mem_flatten.mpr ⟨b, mem_of_getElem? hb, mem_of_find?_eq_some hfind⟩
      have hye := find?_some hfind
      have hey : isEqual less e y = true := isEqual_symm.trans hye
      rw [eq_of_isEqual ht.distinct hx hy (isEqual_trans heq hey)]

omit hless in
theorem Hash.contents_of_perm (hp : h'.elems.Perm h.elems) : h'.contents = h.contents :=
  Set.ext fun _ => hp.mem_iff

omit hless in
theorem Hash.contents_of_cons (hp : h'.elems.Perm (e :: h.elems)) :
    h'.contents = h.contents ∪ {e} := by
  refine Set.ext fun x => ?_
  rw [Set.union_singleton, Set.mem_insert_iff]
  exact hp.mem_iff.trans mem_cons

omit hless in
theorem Lookup.absent (hold : Lookup less h.contents e none) :
    ∀ x ∈ h.elems, isEqual less x e = false := by
  intro x hx
  by_contra heq
  have hsome := (hold x).mpr ⟨hx, Bool.not_eq_false _ ▸ heq⟩
  cases hsome

theorem hashInsert_spec (hhash : ∀ a b, isEqual less a b = true → hash a = hash b)
    (ht : Table hash less h) (mem : Bool) (new : α) :
    ∃ old h', hashInsert hash less mem h new = some (old, h') ∧ Table hash less h' ∧
      Lookup less h.contents new old ∧ h'.contents = (Call.insert new).effect h.contents old := by
  obtain ⟨old, hfind, hold⟩ := findElem_spec hhash ht new
  unfold hashInsert
  cases old with
  | none =>
    obtain ⟨h1, hins, ht1, hperm1⟩ := insertElem_spec ht hold.absent
    obtain ⟨h2, hre, ht2, hperm2⟩ := rehash_spec h1 ht1 mem
    refine ⟨none, h2, ?_, ht2, hold, (Hash.contents_of_perm hperm2).trans ?_⟩
    · simp only [hfind, some_bind, Option.isNone_none, if_true, hins, hre]
    · exact Hash.contents_of_cons hperm1
  | some x =>
    obtain ⟨h1, hre, ht1, hperm1⟩ := rehash_spec h ht mem
    refine ⟨some x, h1, ?_, ht1, hold, Hash.contents_of_perm hperm1⟩
    simp only [hfind, some_bind, Option.isNone_some, Bool.false_eq_true,
      if_false, hre]

variable [DecidableEq α]

theorem removeOld_spec (ht : Table hash less h) (hold : Lookup less h.contents e old) :
    Table hash less (removeOld h old) ∧
      (removeOld h old).contents = h.contents \ {x | old = some x} := by
  cases old with
  | none => exact ⟨ht, by simp [removeOld]⟩
  | some x =>
    obtain ⟨ht', hperm⟩ := removeElem_spec ht ((hold x).mp rfl).1
    refine ⟨ht', Set.ext fun y => ?_⟩
    rw [Set.mem_sdiff, Set.mem_ofPred_eq, Option.some_inj]
    refine hperm.mem_iff.trans ((nodup_of_distinct ht.distinct).mem_erase_iff.trans ?_)
    rw [and_comm, ne_comm]
    rfl

variable (hhash : ∀ a b, isEqual less a b = true → hash a = hash b)
include hhash

variable (ht : Table hash less h)
include ht

theorem hashReplace_spec (mem : Bool) (new : α) :
    ∃ old h', hashReplace hash less mem h new = some (old, h') ∧ Table hash less h' ∧
      Lookup less h.contents new old ∧ h'.contents = (Call.replace new).effect h.contents old := by
  obtain ⟨old, hfind, hold⟩ := findElem_spec hhash ht new
  obtain ⟨ht0, hcontents⟩ := removeOld_spec ht hold
  have hnew : ∀ x ∈ (removeOld h old).elems, isEqual less x new = false := by
    intro x hx
    have hx' : x ∈ h.contents \ {x | old = some x} := hcontents ▸ hx
    by_contra heq
    exact hx'.2 ((hold x).mpr ⟨hx'.1, Bool.not_eq_false _ ▸ heq⟩)
  obtain ⟨h1, hins, ht1, hperm1⟩ := insertElem_spec ht0 hnew
  obtain ⟨h2, hre, ht2, hperm2⟩ := rehash_spec h1 ht1 mem
  have hbucket : findBucket hash (removeOld h old) new = findBucket hash h new := by
    cases old <;> rfl
  rw [hbucket] at hins
  refine ⟨old, h2, ?_, ht2, hold, (Hash.contents_of_perm hperm2).trans ?_⟩
  · unfold hashReplace
    simp only [hfind, some_bind, hins, hre]
  · rw [Hash.contents_of_cons hperm1, hcontents]
    rfl

theorem hashDelete_spec (mem : Bool) (e : α) :
    ∃ old h', hashDelete hash less mem h e = some (old, h') ∧ Table hash less h' ∧
      Lookup less h.contents e old ∧ h'.contents = (Call.delete e).effect h.contents old := by
  obtain ⟨old, hfind, hold⟩ := findElem_spec hhash ht e
  unfold hashDelete
  cases old with
  | none =>
    refine ⟨none, h, ?_, ht, hold, by simp [Call.effect]⟩
    simp only [hfind, some_bind]
  | some x =>
    obtain ⟨ht', hcontents⟩ := removeOld_spec ht hold
    obtain ⟨h1, hre, ht1, hperm1⟩ := rehash_spec _ ht' mem
    refine ⟨some x, h1, ?_, ht1, hold, (Hash.contents_of_perm hperm1).trans hcontents⟩
    rw [removeOld] at hre
    simp only [hfind, some_bind, hre]

/-- **One call** keeps the invariant, and returns and changes what the call on the set does. -/
theorem exec_spec (mem : Bool) (c : Call α) :
    ∃ old h', exec hash less h mem c = some (old, h') ∧ Table hash less h' ∧
      Lookup less h.contents c.key old ∧ h'.contents = c.effect h.contents old := by
  cases c with
  | insert new => exact hashInsert_spec hhash ht mem new
  | replace new => exact hashReplace_spec hhash ht mem new
  | delete e => exact hashDelete_spec hhash ht mem e
  | find e =>
    obtain ⟨old, hfind, hold⟩ := findElem_spec hhash ht e
    refine ⟨old, h, ?_, ht, hold, rfl⟩
    simp only [exec, hashFind, hfind, some_bind]

theorem runCalls_spec (calls : List (Call α × Bool)) :
    ∃ rs h', runCalls hash less h calls = some (rs, h') ∧ Table hash less h' ∧
      SetRun less h.contents (calls.map Prod.fst) rs h'.contents := by
  induction calls generalizing h with
  | nil => exact ⟨[], h, rfl, ht, .nil⟩
  | cons call calls ih =>
    obtain ⟨c, mem⟩ := call
    obtain ⟨old, h1, hexec, ht1, hold, hcontents⟩ := exec_spec hhash ht mem c
    obtain ⟨rs, h2, hruns, ht2, hset⟩ := ih ht1
    rw [hcontents] at hset
    refine ⟨old :: rs, h2, ?_, ht2, .cons hold hset⟩
    unfold runCalls
    simp only [hexec, hruns, some_bind]

end

/-! ## hash_first, hash_next -/

/-- `elem` is a position in the list of the bucket: 0 is `list_head`, `k + 1` the element with
index `k`, and one more than the length `list_end`. A null pointer is `none`. -/
structure HashIterator where
  bucket : Nat
  elem : Option Nat

def hashFirst : HashIterator := ⟨0, some 0⟩

def nextLoop (h : Hash α) : Nat → Nat → Nat → Option HashIterator
  | 0, _, _ => none
  | fuel + 1, bucket, elem => do
    let b ← h.buckets[bucket]?
    if elem = b.length + 1 then
      if bucket + 1 ≥ h.bucketCnt then some ⟨bucket + 1, none⟩
      else nextLoop h fuel (bucket + 1) 1
    else some ⟨bucket, some elem⟩

def hashCur (h : Hash α) (i : HashIterator) : Option (Option α) :=
  match i.elem with
  | none => some none
  | some elem => do
    let b ← h.buckets[i.bucket]?
    let e ← b[elem - 1]?
    some (some e)

def hashNext (h : Hash α) (i : HashIterator) : Option (Option α × HashIterator) := do
  let elem ← i.elem
  let i ← nextLoop h h.bucketCnt i.bucket (elem + 1)
  let e ← hashCur h i
  some (e, i)

/-- The idiom `while (hash_next (&i))`, with the elements it visits. -/
def iterateFrom (h : Hash α) : Nat → HashIterator → Option (List α)
  | 0, _ => none
  | fuel + 1, i => do
    let (e, i) ← hashNext h i
    match e with
    | none => some []
    | some e => do
      let es ← iterateFrom h fuel i
      some (e :: es)

def iterate (h : Hash α) : Option (List α) := iterateFrom h (h.elemCnt + 1) hashFirst

def Hash.rest (h : Hash α) (bucket elem : Nat) : List α :=
  (h.buckets.getD bucket []).drop elem ++ (h.buckets.drop (bucket + 1)).flatten

section
variable {h : Hash α}

theorem Hash.rest_end {bucket : Nat} {b : List α} (hb : h.buckets[bucket]? = some b) :
    h.rest bucket b.length = (h.buckets.drop (bucket + 1)).flatten := by
  rw [Hash.rest, getD_eq_getElem?_getD, hb, Option.getD_some, drop_length, nil_append]

theorem Hash.flatten_drop {bucket : Nat} (hlt : bucket < h.buckets.length) :
    (h.buckets.drop bucket).flatten = h.rest bucket 0 := by
  rw [drop_eq_getElem_cons hlt, flatten_cons, Hash.rest, getD_eq_getElem _ _ hlt,
    drop_zero]

/-- **The loop of `hash_next`** stops at the first element that is left, or at the end. -/
theorem nextLoop_spec (hlen : h.buckets.length = h.bucketCnt) (fuel bucket elem : Nat)
    (hlt : bucket < h.bucketCnt) (hfuel : h.bucketCnt ≤ fuel + bucket)
    (hle : elem ≤ (h.buckets.getD bucket []).length) :
    (h.rest bucket elem = [] ∧ ∃ i, nextLoop h fuel bucket (elem + 1) = some i ∧ i.elem = none) ∨
      ∃ e es bucket' elem', h.rest bucket elem = e :: es ∧
        nextLoop h fuel bucket (elem + 1) = some ⟨bucket', some (elem' + 1)⟩ ∧
        bucket' < h.bucketCnt ∧ (h.buckets.getD bucket' [])[elem']? = some e ∧
        h.rest bucket' (elem' + 1) = es := by
  induction fuel generalizing bucket elem with
  | zero => omega
  | succ fuel ih =>
    have hlt' : bucket < h.buckets.length := hlen ▸ hlt
    obtain ⟨b, hb⟩ : ∃ b, h.buckets[bucket]? = some b := ⟨_, getElem?_eq_getElem hlt'⟩
    have hget : h.buckets.getD bucket [] = b := by
      rw [getD_eq_getElem?_getD, hb, Option.getD_some]
    rw [hget] at hle
    unfold nextLoop
    simp only [hb, some_bind, Nat.add_right_cancel_iff]
    by_cases hend : elem = b.length
    · rw [if_pos hend, hend, Hash.rest_end hb]
      by_cases hlast : bucket + 1 ≥ h.bucketCnt
      · rw [if_pos hlast, drop_eq_nil_of_le (hlen ▸ hlast)]
        exact .inl ⟨rfl, _, rfl, rfl⟩
      · rw [if_neg hlast, Hash.flatten_drop (by omega)]
        exact ih (bucket + 1) 0 (by omega) (by omega) (Nat.zero_le _)
    · rw [if_neg hend]
      have helem : elem < b.length := by omega
      refine .inr ⟨b[elem], h.rest bucket (elem + 1), bucket, elem, ?_, rfl, hlt, ?_, rfl⟩
      · rw [Hash.rest, hget, drop_eq_getElem_cons helem, cons_append, Hash.rest, hget]
      · rw [hget]
        exact getElem?_eq_getElem helem

/-- **An iteration** visits what is left, in order. -/
theorem iterateFrom_spec (hlen : h.buckets.length = h.bucketCnt) (fuel bucket elem : Nat)
    (hlt : bucket < h.bucketCnt) (hle : elem ≤ (h.buckets.getD bucket []).length)
    (hfuel : (h.rest bucket elem).length < fuel) :
    iterateFrom h fuel ⟨bucket, some elem⟩ = some (h.rest bucket elem) := by
  induction fuel generalizing bucket elem with
  | zero => omega
  | succ fuel ih =>
    unfold iterateFrom hashNext
    obtain ⟨hnil, i, hloop, hi⟩ | ⟨e, es, bucket', elem', hrest, hloop, hlt', he, hes⟩ :=
      nextLoop_spec hlen h.bucketCnt bucket elem hlt (by omega) hle
    · simp only [some_bind, hloop, hashCur, hi, hnil]
    · have hget : h.buckets[bucket']? = some (h.buckets.getD bucket' []) := by
        rw [List.getD_eq_getElem _ _ (hlen ▸ hlt'), List.getElem?_eq_getElem (hlen ▸ hlt')]
      have hle' : elem' + 1 ≤ (h.buckets.getD bucket' []).length :=
        (List.getElem?_eq_some_iff.mp he).1
      have hrec := ih bucket' (elem' + 1) hlt' hle' (by
        rw [hes]
        rw [hrest, List.length_cons] at hfuel
        omega)
      simp only [some_bind, hloop, hashCur, hget, Nat.add_sub_cancel, he,
        hrec, hes, hrest]

theorem iterate_eq {hash : α → UInt32} {less : α → α → Bool} (ht : Table hash less h) :
    iterate h = some h.elems := by
  obtain ⟨k, -, hk⟩ := ht.power
  have hpos : 0 < h.bucketCnt := hk ▸ Nat.two_pow_pos k
  have hrest : h.rest 0 0 = h.elems := by
    rw [← Hash.flatten_drop (ht.length ▸ hpos), drop_zero, Hash.elems]
  rw [← hrest]
  refine iterateFrom_spec ht.length _ 0 0 hpos (Nat.zero_le _) ?_
  rw [hrest, ht.count]
  exact Nat.lt_succ_self _

/-- **The hash table is a set**, whatever `malloc` does: after every sequence of calls the
table satisfies its invariant, the calls have returned and done what those on a set keyed by
equivalence do, and a full iteration visits every element once. -/
theorem hash_table_is_set [DecidableEq α] {hash : α → UInt32} {less : α → α → Bool}
    (hless : IsStrictWeakOrder α fun a b => less a b = true)
    (hhash : ∀ a b, isEqual less a b = true → hash a = hash b) (calls : List (Call α × Bool)) :
    ∃ rs h, runCalls hash less hashInit calls = some (rs, h) ∧ Table hash less h ∧
      SetRun less ∅ (calls.map Prod.fst) rs h.contents ∧
      ∃ visited, iterate h = some visited ∧ visited.Nodup ∧ visited.length = h.elemCnt ∧
        ∀ e, e ∈ visited ↔ e ∈ h.contents := by
  obtain ⟨rs, h, hrun, ht, hset⟩ := runCalls_spec hhash (table_hashInit hash less) calls
  have hempty : (hashInit : Hash α).contents = ∅ := by
    refine Set.eq_empty_iff_forall_notMem.mpr fun e he => ?_
    cases he
  rw [hempty] at hset
  exact ⟨rs, h, hrun, ht, hset, h.elems, iterate_eq ht, nodup_of_distinct ht.distinct,
    ht.count.symm, fun e => Iff.rfl⟩

/-- Numbers, with a hash that depends on the lowest bits. -/
theorem hash_table_is_set_numbers :
    ∃ rs h, runCalls (fun n : Nat => UInt32.ofNat (n % 8)) (fun a b => decide (a < b)) hashInit
        [(.insert 3, true), (.insert 11, false), (.delete 3, true)] = some (rs, h) ∧
      Table (fun n : Nat => UInt32.ofNat (n % 8)) (fun a b => decide (a < b)) h ∧
      SetRun (fun a b : Nat => decide (a < b)) ∅ [.insert 3, .insert 11, .delete 3] rs h.contents ∧
      ∃ visited, iterate h = some visited ∧ visited.Nodup ∧ visited.length = h.elemCnt ∧
        ∀ e, e ∈ visited ↔ e ∈ h.contents := by
  refine hash_table_is_set ?_ ?_ _
  · refine { irrefl := ?_, trans := ?_, incomp_trans := ?_ } <;>
      simp only [decide_eq_true_eq] <;> omega
  · intro a b hab
    have heq : a = b := by
      simp only [isEqual, Bool.and_eq_true, Bool.not_eq_true', decide_eq_false_iff_not] at hab
      omega
    rw [heq]

end

end Pintos.Kernel
