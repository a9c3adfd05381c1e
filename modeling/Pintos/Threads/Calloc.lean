import Pintos.Threads.Malloc

/-!
# Requests of any size (`malloc` and `calloc` of `threads/malloc.c`)

The number of pages for a big block and the product of the arguments of `calloc` are
computed in 32 bits. A request of 2^32 - 11 bytes or more wraps to one page, and the test
of `calloc` does not find every product that wraps.
-/

namespace Pintos.Threads.Malloc

open Lib Function List Option

/-- `calloc`, with the bytes of memory. What a `memset` that goes beyond the block does to
headers is not followed. -/
def calloc (h : Heap) (mem : Nat → UInt8) (a b : Nat) (answer : Option Nat) :
    Option (Option Nat × Heap × (Nat → UInt8)) :=
  let size := a * b % 2 ^ 32
  if size < a ∨ size < b then some (none, h, mem)
  else do
    let (p, h) ← malloc h size answer
    match p with
    | none => some (none, h, mem)
    | some p => some (some p, h, fun k => if p ≤ k ∧ k < p + size then 0 else mem k)

/-- What `palloc_get_multiple` may answer to a request: it gives no address for no pages. -/
def Answers (h : Heap) (size : Nat) (answer : Option Nat) : Prop :=
  ∀ a ∈ answer, ∀ n ∈ pagesAsked h size, 0 < n ∧ Given h.held a n

section
variable {h h' : Heap} {blocks : List Block} {groups : List Group} {size p : Nat}
  {answer : Option Nat}

theorem findDesc_none (hfind : findDesc size = none) : 1024 < size := by
  have hall := findIdx?_eq_none_iff.mp hfind ⟨1024, 3⟩ (by decide)
  simpa using hall

/-- **A block has the size that was asked for** exactly if the request does not wrap. -/
theorem malloc_usable (hs : Sound h blocks groups) (hfull : NoneFull h groups) (hsize : size < 2 ^ 32)
    (hans : Answers h size answer) (hm : malloc h size answer = some (some p, h')) :
    ∃ n, blockSize h' p = some n ∧ n < 2 ^ 32 ∧ (size ≤ n ↔ size < 2 ^ 32 - 11) := by
  have hpos : 0 < size := by
    by_contra h0
    unfold malloc at hm
    rw [if_pos (by omega)] at hm
    cases hm
  cases hfind : findDesc size with
  | none =>
    have hbig := findDesc_none hfind
    simp only [malloc, hfind, if_neg (Nat.ne_of_gt hpos)] at hm
    cases answer with
    | none => cases hm
    | some a =>
      obtain ⟨hpages, hgiven⟩ := hans a rfl (bigPageCnt size) (by simp only [pagesAsked, hfind]; rfl)
      cases hm
      have halign := hgiven.aligned
      have hround : pgRoundDown (a + sizeofArena) = a := by
        rw [pgRoundDown_eq, sizeofArena]
        omega
      have hofs : pgOfs (a + sizeofArena) = sizeofArena := by
        rw [pgOfs_eq, sizeofArena]
        omega
      refine ⟨PGSIZE * bigPageCnt size - sizeofArena, ?_, ?_, ?_⟩
      · simp [blockSize, blockToArena, hround, hofs, hgiven.notNull, Heap.setHeader]
      · rw [bigPageCnt, PGSIZE_eq, sizeofArena]
        omega
      · rw [bigPageCnt, PGSIZE_eq, sizeofArena] at hpages ⊢
        omega
  | some d =>
    obtain ⟨hlt, hle, -⟩ := findIdx?_eq_some_iff_getElem.mp hfind
    have hall : ∀ desc ∈ descs, desc.blockSize ≤ 1024 := by decide
    have hle : size ≤ 1024 := Nat.le_trans (of_decide_eq_true hle) (hall _ (getElem_mem hlt))
    obtain hnull | ⟨p', h1, groups', heq, hs', -, n, hn, hlt⟩ := malloc_spec hs hfull hpos (by omega)
      fun a ha n hn => (hans a ha n hn).2
    · cases hnull.symm.trans hm
    · cases heq.symm.trans hm
      obtain ⟨g, hg, hp⟩ := hs'.group_of_block mem_cons_self
      have hge : size ≤ g.blockSize := hs'.sizes _ mem_cons_self g hg hp
      obtain rfl : g.blockSize = n := Option.some.inj ((hs'.blockSize_eq hg hp).symm.trans hn)
      exact ⟨_, hn, hlt, by omega⟩

variable {a b : Nat} {mem mem' : Nat → UInt8}

theorem calloc_usable (hs : Sound h blocks groups) (hfull : NoneFull h groups)
    (hans : Answers h (a * b % 2 ^ 32) answer)
    (hc : calloc h mem a b answer = some (some p, h', mem')) :
    malloc h (a * b % 2 ^ 32) answer = some (some p, h') ∧
      ∃ n, blockSize h' p = some n ∧
        ((a * b ≤ n ∧ ∀ k < a * b, mem' (p + k) = 0) ↔ a * b < 2 ^ 32 - 11) := by
  unfold calloc at hc
  dsimp only at hc
  split at hc
  · cases hc
  obtain ⟨⟨q, h1⟩, hm, hc⟩ := bind_eq_some_iff.mp hc
  cases q with
  | none => cases hc
  | some q =>
    cases hc
    obtain ⟨n, hn, hlt, hfits⟩ := malloc_usable hs hfull (Nat.mod_lt _ (by decide)) hans hm
    refine ⟨hm, n, hn, ⟨fun ⟨hle, _⟩ => ?_, fun hsmall => ?_⟩⟩
    · rw [Nat.mod_eq_of_lt (by omega)] at hfits
      exact hfits.mp hle
    · rw [Nat.mod_eq_of_lt (show a * b < 2 ^ 32 by omega)] at hfits ⊢
      exact ⟨hfits.mpr hsmall, fun k hk => if_pos ⟨by omega, by omega⟩⟩

end

/-- **Requests.** After every sequence of calls, a block that `malloc` or `calloc` returns has the
bytes that were asked for exactly if these are fewer than 2^32 - 11. -/
theorem requests_met_iff {header : Nat → Arena} {as : List Act} {s : Mallocs}
    (hrun : Run Mallocs.step Mallocs.Admits (.init header) as s) :
    (∀ size answer p h', size < 2 ^ 32 → Answers s.heap size answer →
      malloc s.heap size answer = some (some p, h') →
        ∃ n, blockSize h' p = some n ∧ (size ≤ n ↔ size < 2 ^ 32 - 11)) ∧
    ∀ mem a b answer p h' mem', a < 2 ^ 32 → b < 2 ^ 32 →
      Answers s.heap (a * b % 2 ^ 32) answer →
      calloc s.heap mem a b answer = some (some p, h', mem') →
        ∃ n, blockSize h' p = some n ∧
          ((a * b ≤ n ∧ ∀ k < a * b, mem' (p + k) = 0) ↔ a * b < 2 ^ 32 - 11) := by
  obtain ⟨groups, hs, hfull⟩ := run_inv hrun
  refine ⟨fun size answer p h' hsize hans hm => ?_, fun mem a b answer p h' mem' _ _ hans hc => ?_⟩
  · obtain ⟨n, hn, -, hfits⟩ := malloc_usable hs hfull hsize hans hm
    exact ⟨n, hn, hfits⟩
  · exact (calloc_usable hs hfull hans hc).2

/-- 100 bytes, from a page at 0x10000. -/
theorem requests_met_iff_small :
    ∃ p h' n, malloc (Mallocs.init fun _ => ⟨0, none, 0⟩).heap 100 (some 0x10000) = some (some p, h') ∧
      blockSize h' p = some n ∧ (100 ≤ n ↔ 100 < 2 ^ 32 - 11) := by
  obtain ⟨⟨p, h'⟩, hm, hp⟩ : ∃ r, malloc (Mallocs.init fun _ => ⟨0, none, 0⟩).heap 100 (some 0x10000) =
      some r ∧ r.1.isSome = true := by decide +kernel
  obtain ⟨p, rfl⟩ := isSome_iff_exists.mp hp
  have hans : Answers (Mallocs.init fun _ => ⟨0, none, 0⟩).heap 100 (some 0x10000) := by
    intro a ha n hn
    cases ha
    cases hn
    exact ⟨by decide, by decide, by decide, nofun⟩
  obtain ⟨n, hn, hfits⟩ := (requests_met_iff .nil).1 100 (some 0x10000) p h' (by decide) hans hm
  exact ⟨p, h', n, hm, hn, hfits⟩

/-- `malloc (2^32 - 11)` returns a block of 4084 bytes, and `calloc (65537, 65537)` one of 33
pages. -/
theorem requests_wrap :
    (∃ h', malloc (Mallocs.init fun _ => ⟨0, none, 0⟩).heap 4294967285 (some 0x10000) =
      some (some 0x1000c, h') ∧ blockSize h' 0x1000c = some 4084) ∧
    ∃ h' mem', calloc (Mallocs.init fun _ => ⟨0, none, 0⟩).heap (fun _ => 0) 65537 65537
      (some 0x10000) = some (some 0x1000c, h', mem') ∧ blockSize h' 0x1000c = some 135156 :=
  ⟨⟨_, rfl, by decide +kernel⟩, _, _, rfl, by decide +kernel⟩

end Pintos.Threads.Malloc
