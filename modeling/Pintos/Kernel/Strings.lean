import Mathlib.Data.List.Forall2
import Mathlib.Logic.Function.Basic
import Pintos.Lib.Options
import Pintos.Lib.Tokens

/-!
# Blocks and strings (`lib/string.c`)

`memmove` copies upwards or downwards, by the order of the two addresses, and returns
its working pointer. `strtok_r` cuts a string into tokens where it stands.
-/

namespace Pintos.Kernel

open Lib Function List

/-! ## memmove -/

abbrev Memory := Nat → UInt8

/-- `while (size-- > 0) *dst++ = *src++;`, and where `dst` is then. -/
def copyUp : Nat → Memory → Nat → Nat → Nat × Memory
  | 0, mem, dst, _ => (dst, mem)
  | size + 1, mem, dst, src => copyUp size (update mem dst (mem src)) (dst + 1) (src + 1)

/-- `while (size-- > 0) *--dst = *--src;` -/
def copyDown : Nat → Memory → Nat → Nat → Nat × Memory
  | 0, mem, dst, _ => (dst, mem)
  | size + 1, mem, dst, src => copyDown size (update mem (dst - 1) (mem (src - 1))) (dst - 1) (src - 1)

/-- The pointer returned and memory, unless an assertion fails. -/
def memmove (mem : Memory) (dst src size : Nat) : Option (Nat × Memory) :=
  if (dst ≠ 0 ∨ size = 0) ∧ (src ≠ 0 ∨ size = 0) then
    if dst < src then some (copyUp size mem dst src)
    else some (copyDown size mem (dst + size) (src + size))
  else none

/-- Memory in which the bytes at `src` have been moved to `dst` at once. -/
def moved (mem : Memory) (dst src size : Nat) : Memory := fun a =>
  if dst ≤ a ∧ a < dst + size then mem (src + (a - dst)) else mem a

section
variable (mem : Memory) {dst src size : Nat}

theorem moved_zero : moved mem dst src 0 = mem := funext fun a => if_neg (by omega)

theorem copyUp_eq (h : dst ≤ src) : copyUp size mem dst src = (dst + size, moved mem dst src size) := by
  induction size generalizing mem dst src with
  | zero =>
    rw [moved_zero]
    rfl
  | succ size ih =>
    rw [copyUp, ih _ (Nat.add_le_add_right h 1), Nat.add_right_comm, Nat.add_assoc]
    congr 1
    funext a
    unfold moved
    by_cases ha : a = dst
    · rw [ha, if_neg (by omega), if_pos (by omega), update_self, Nat.sub_self, Nat.add_zero]
    · by_cases hin : dst + 1 ≤ a ∧ a < dst + 1 + size
      · -- the byte read is above those written so far
        rw [if_pos hin, if_pos (by omega), update_of_ne (by omega)]
        congr 1
        omega
      · rw [if_neg hin, if_neg (by omega), update_of_ne ha]

theorem copyDown_eq (h : src ≤ dst) :
    copyDown size mem (dst + size) (src + size) = (dst, moved mem dst src size) := by
  induction size generalizing mem with
  | zero =>
    rw [moved_zero]
    rfl
  | succ size ih =>
    rw [copyDown, ← Nat.add_assoc, ← Nat.add_assoc, Nat.add_sub_cancel, Nat.add_sub_cancel, ih]
    congr 1
    funext a
    unfold moved
    by_cases ha : a = dst + size
    · rw [ha, if_neg (by omega), if_pos (by omega), update_self, Nat.add_sub_cancel_left]
    · by_cases hin : dst ≤ a ∧ a < dst + size
      · rw [if_pos hin, if_pos (by omega), update_of_ne (by omega)]
      · rw [if_neg hin, if_neg (by omega), update_of_ne ha]

/-- **`memmove`** moves the bytes however the ranges overlap; copying upwards, it returns the end
of the range. -/
theorem memmove_eq (hd : dst ≠ 0 ∨ size = 0) (hs : src ≠ 0 ∨ size = 0) :
    memmove mem dst src size =
      some (if dst < src then dst + size else dst, moved mem dst src size) := by
  unfold memmove
  rw [if_pos ⟨hd, hs⟩]
  by_cases hlt : dst < src
  · rw [if_pos hlt, if_pos hlt, copyUp_eq mem (Nat.le_of_lt hlt)]
  · rw [if_neg hlt, if_neg hlt, copyDown_eq mem (Nat.le_of_not_lt hlt)]

/-- The bytes are moved and the original pointer is returned just when the copy goes downwards or
there is nothing to copy. -/
theorem memmove_returns_dst_iff (mem : Memory) (dst src size : Nat) :
    memmove mem dst src size = some (dst, moved mem dst src size) ↔
      size = 0 ∨ dst ≠ 0 ∧ src ≠ 0 ∧ src ≤ dst := by
  by_cases hok : (dst ≠ 0 ∨ size = 0) ∧ (src ≠ 0 ∨ size = 0)
  · rw [memmove_eq mem hok.1 hok.2, Option.some_inj, Prod.mk.injEq, eq_self_iff_true, and_true]
    by_cases hlt : dst < src
    · rw [if_pos hlt]
      omega
    · rw [if_neg hlt]
      omega
  · rw [memmove, if_neg hok]
    simp only [reduceCtorEq, false_iff]
    omega

/-- One byte is moved from 2 to 1. -/
theorem memmove_returns_end :
    (memmove (fun a => UInt8.ofNat a) 1 2 1).any (fun r => r.1 = 2 ∧ r.2 1 = 2) = true := by
  decide

end

/-! ## strtok_r -/

/-- How far `c` is from the start of the string, whose terminator is found too. -/
def strchr : List UInt8 → UInt8 → Option Nat
  | [], c => if 0 = c then some 0 else none
  | x :: string, c =>
    if x = c then some 0 else if x = 0 then none else (strchr string c).map (· + 1)

def isDelimiter (delimiters : List UInt8) (c : UInt8) : Bool := (strchr delimiters c).isSome

/-- `s++` until `stop` holds of `*s`: where, and the byte there. The string is an array with its
terminator; there is no value where a byte outside of it is read. -/
def advance (stop : UInt8 → Bool) (mem : List UInt8) : Nat → Nat → Option (Nat × UInt8)
  | 0, _ => none
  | fuel + 1, s => do
    let c ← mem[s]?
    if stop c then some (s, c) else advance stop mem fuel (s + 1)

/-- The pointer returned, `*save_ptr` and the string after the call. -/
def strtokR (mem : List UInt8) (s : Option Nat) (delimiters : List UInt8) (savePtr : Nat) :
    Option (Option Nat × Nat × List UInt8) := do
  let (token, c) ←
    advance (fun c => !isDelimiter delimiters c || c == 0) mem mem.length (s.getD savePtr)
  -- the loop is left at a delimiter only where that is the NUL
  if isDelimiter delimiters c then some (none, token, mem)
  else
    let (s, c) ← advance (isDelimiter delimiters) mem mem.length token
    if c ≠ 0 then some (some token, s + 1, mem.set s 0) else some (some token, s, mem)

/-- What `n` calls return, all but the first with a null pointer for `s`. -/
def strtokCalls (delimiters : List UInt8) : Nat → List UInt8 → Option Nat → Nat →
    Option (List (Option Nat) × List UInt8)
  | 0, mem, _, _ => some ([], mem)
  | n + 1, mem, s, savePtr => do
    let (token, savePtr, mem) ← strtokR mem s delimiters savePtr
    let (tokens, mem) ← strtokCalls delimiters n mem none savePtr
    some (token :: tokens, mem)

/-- The NUL-terminated string at `p`. -/
def stringAt (mem : List UInt8) (p : Nat) : List UInt8 := (mem.drop p).takeWhile (· ≠ 0)

/-- A byte before and after the calls: a delimiter may have become a NUL. -/
def Cut (delimiters : List UInt8) (c c' : UInt8) : Prop :=
  c' = c ∨ isDelimiter delimiters c = true ∧ c' = 0

section
variable {d l t a b rest : List UInt8} {c : UInt8} {fuel k : Nat} {s : Option Nat}
  {stop : UInt8 → Bool}

theorem isDelimiter_zero : isDelimiter d 0 = true := by
  unfold isDelimiter
  induction d with
  | nil => rfl
  | cons x d ih =>
    unfold strchr
    split
    · rfl
    · rw [Option.isSome_map, ih]

theorem advance_eq (hl : ∀ x ∈ l, stop x = false) (hc : stop c = true) (hfuel : l.length < fuel) :
    advance stop (a ++ (l ++ c :: b)) fuel a.length = some ((a ++ l).length, c) := by
  induction l generalizing a fuel with
  | nil =>
    obtain ⟨fuel, rfl⟩ : ∃ n, fuel = n + 1 := ⟨fuel - 1, by omega⟩
    simp [advance, hc]
  | cons x l ih =>
    rw [length_cons] at hfuel
    obtain ⟨fuel, rfl⟩ : ∃ n, fuel = n + 1 := ⟨fuel - 1, by omega⟩
    have hrec := ih (a := a ++ [x]) (fun y hy => hl y (mem_cons_of_mem x hy))
      (Nat.lt_of_succ_lt_succ hfuel)
    rw [append_assoc, append_assoc, length_append] at hrec
    simpa [advance, hl x mem_cons_self] using hrec

theorem stringAt_eq (ht : 0 ∉ t) : stringAt (a ++ (t ++ 0 :: b)) a.length = t := by
  unfold stringAt
  rw [drop_left, takeWhile_append_of_pos, takeWhile_cons_of_neg (by simp), append_nil]
  intro x hx
  simpa using ne_of_mem_of_not_mem hx ht

theorem cut_refl (l : List UInt8) : Forall₂ (Cut d) l l := forall₂_same.mpr fun _ _ => .inl rfl

section
variable (hs : s.getD k = a.length) (hskip : ∀ x ∈ l, isDelimiter d x = true ∧ x ≠ 0)
include hs hskip

/-- The first loop of `strtok_r`. -/
theorem advance_skip (hc : isDelimiter d c = true → c = 0) :
    advance (fun c => !isDelimiter d c || c == 0) (a ++ (l ++ c :: b))
      (a ++ (l ++ c :: b)).length (s.getD k) = some ((a ++ l).length, c) := by
  rw [hs]
  refine advance_eq ?_ ?_ (by simp only [length_append, length_cons]; omega)
  · intro x hx
    simp [hskip x hx]
  · by_cases hd : isDelimiter d c = true
    · simp [hc hd]
    · simp [hd]

theorem strtokR_none : strtokR (a ++ (l ++ [0])) s d k =
    some (none, (a ++ l).length, a ++ (l ++ [0])) := by
  rw [strtokR, advance_skip hs hskip fun _ => rfl, some_bind]
  exact if_pos isDelimiter_zero

theorem strtokR_token (hne : t ≠ []) (ht : ∀ x ∈ t, isDelimiter d x = false)
    (hc : isDelimiter d c = true) :
    strtokR (a ++ (l ++ (t ++ c :: b))) s d k =
      if c ≠ 0 then
        some (some (a ++ l).length, (a ++ l ++ t).length + 1, a ++ l ++ t ++ 0 :: b)
      else
        some (some (a ++ l).length, (a ++ l ++ t).length, a ++ (l ++ (t ++ c :: b))) := by
  obtain ⟨x, r, rfl⟩ := exists_cons_of_ne_nil hne
  have hx : ¬ isDelimiter d x = true := by simp [ht x mem_cons_self]
  have hmem : a ++ (l ++ (x :: r ++ c :: b)) = (a ++ l) ++ (x :: r ++ c :: b) :=
    (append_assoc _ _ _).symm
  rw [strtokR, cons_append, advance_skip hs hskip fun h => absurd h hx, some_bind]
  refine (if_neg hx).trans ?_
  rw [← cons_append, hmem, advance_eq ht hc (by simp only [length_append, length_cons]; omega),
    some_bind]
  have hset : (a ++ l ++ (x :: r ++ c :: b)).set (a ++ l ++ x :: r).length 0 =
      a ++ l ++ x :: r ++ 0 :: b := by
    rw [← append_assoc, set_append_right _ _ le_rfl, Nat.sub_self]
    rfl
  simp only [hset]

end

/-- **One call**, from `a.length` on. It leaves `*save_ptr` after what it has read, and the
token stands where it says however the rest is cut. -/
theorem strtokR_spec (hrest : 0 ∉ rest) (hs : s.getD k = a.length) :
    ∃ token old new rest', rest = old ++ rest' ∧ Forall₂ (Cut d) old new ∧
      strtokR (a ++ (rest ++ [0])) s d k =
        some (token, (a ++ new).length, a ++ new ++ (rest' ++ [0])) ∧
      (∀ p ∈ token, a.length ≤ p ∧ p < (a ++ new).length) ∧
      tokensBy (isDelimiter d) rest' = (tokensBy (isDelimiter d) rest).tail ∧
      ∀ m, Forall₂ (Cut d) rest' m →
        token.map (stringAt (a ++ new ++ (m ++ [0]))) =
          (tokensBy (isDelimiter d) rest).head? := by
  obtain ⟨l, hl, hrun⟩ := exists_run (isDelimiter d) rest
  rcases hrun with rfl | ⟨x, r, hx, rfl⟩
  · have hskip : ∀ x ∈ rest, isDelimiter d x = true ∧ x ≠ 0 := fun x hx =>
      ⟨hl x hx, ne_of_mem_of_not_mem hx hrest⟩
    have htokens : tokensBy (isDelimiter d) rest = [] := by
      rw [← append_nil rest, tokensBy_skip hl, tokensBy_nil]
    refine ⟨none, rest, rest, [], (append_nil _).symm, cut_refl rest, ?_, by simp, ?_,
      fun _ _ => ?_⟩
    · rw [strtokR_none hs hskip, append_assoc, nil_append]
    · rw [htokens, tokensBy_nil, tail_nil]
    · rw [htokens, head?_nil, Option.map_none]
  have hskip : ∀ x ∈ l, isDelimiter d x = true ∧ x ≠ 0 := fun x hx =>
    ⟨hl x hx, ne_of_mem_of_not_mem (mem_append_left _ hx) hrest⟩
  rw [tokensBy_skip hl]
  obtain ⟨w, hw, hend⟩ := exists_run (!isDelimiter d ·) r
  have ht : ∀ y ∈ x :: w, isDelimiter d y = false :=
    forall_mem_cons.mpr ⟨hx, fun y hy => Bool.not_eq_true' _ |>.mp (hw y hy)⟩
  have htz : 0 ∉ x :: w := fun h0 => by
    have := ht 0 h0
    rw [isDelimiter_zero] at this
    contradiction
  rcases hend with rfl | ⟨c, rest, hc, rfl⟩
  · -- the token is ended by the terminator, where `*save_ptr` stays
    refine ⟨some (a ++ l).length, l ++ x :: r, l ++ x :: r, [], (append_nil _).symm, cut_refl _,
      ?_, by simp, ?_, fun m hm => ?_⟩
    · have := strtokR_token (b := []) hs hskip (cons_ne_nil x r) ht isDelimiter_zero
      simpa using this
    · rw [tokensBy_last (cons_ne_nil x r) ht, tokensBy_nil, tail_cons]
    · rw [forall₂_nil_left_iff.mp hm, tokensBy_last (cons_ne_nil x r) ht]
      have := stringAt_eq (a := a ++ l) (b := []) htz
      simpa using this
  · replace hc : isDelimiter d c = true := by simpa using hc
    have hcz : c ≠ 0 := ne_of_mem_of_not_mem (by simp) hrest
    rw [← cons_append, tokensBy_word (cons_ne_nil x w) ht hc]
    refine ⟨some (a ++ l).length, l ++ x :: w ++ [c], l ++ x :: w ++ [0], rest, by simp,
      rel_append (cut_refl _) (.cons (.inr ⟨hc, rfl⟩) .nil), ?_, by simp, rfl, fun m _ => ?_⟩
    · have := strtokR_token (b := rest ++ [0]) hs hskip (cons_ne_nil x w) ht hc
      rw [if_pos hcz] at this
      simpa [Nat.add_assoc] using this
    · have := stringAt_eq (a := a ++ l) (b := m ++ [0]) htz
      simpa using this

theorem strtokCalls_eq (n : Nat) (hrest : 0 ∉ rest) (hs : s.getD k = a.length) :
    ∃ ptrs m, strtokCalls d n (a ++ (rest ++ [0])) s k = some (ptrs, a ++ (m ++ [0])) ∧
      Forall₂ (Cut d) rest m ∧ (∀ p ∈ ptrs.filterMap id, a.length ≤ p) ∧
      (ptrs.filterMap id).Pairwise (· < ·) ∧
      ptrs.map (Option.map (stringAt (a ++ (m ++ [0])))) =
        (range n).map fun i => (tokensBy (isDelimiter d) rest)[i]? := by
  induction n generalizing a rest s k with
  | zero => exact ⟨[], rest, rfl, cut_refl rest, by simp, .nil, rfl⟩
  | succ n ih =>
    obtain ⟨token, old, new, rest', rfl, hcut, hcall, hpos, htail, htoken⟩ :=
      strtokR_spec (d := d) hrest hs
    obtain ⟨ptrs, m, hcalls, hm, hlow, hsorted, hptrs⟩ := ih (a := a ++ new) (s := none)
      (fun h0 => hrest (mem_append_right old h0)) rfl
    have hle : ∀ p ∈ ptrs.filterMap id, a.length ≤ p := fun p hp =>
      Nat.le_trans (by simp) (hlow p hp)
    refine ⟨token :: ptrs, new ++ m, ?_, rel_append hcut hm, ?_, ?_, ?_⟩
    · rw [strtokCalls, hcall, some_bind]
      dsimp only
      rw [hcalls, some_bind, append_assoc, append_assoc]
    · cases token with
      | none => exact hle
      | some p => exact forall_mem_cons.mpr ⟨(hpos p rfl).1, hle⟩
    · cases token with
      | none => exact hsorted
      | some p => exact hsorted.cons fun q hq => Nat.lt_of_lt_of_le (hpos p rfl).2 (hlow q hq)
    · rw [map_cons, range_succ_eq_map, map_cons, map_map, append_assoc, ← append_assoc a,
        htoken m hm, hptrs, htail, head?_eq_getElem?]
      congr 2
      funext i
      rw [getElem?_tail]
      rfl

/-- **`strtok_r`**. The first call is given the string and the others a null pointer. The calls
return the tokens from left to right, each NUL-terminated, and then null pointers; the string is
never left, and of its bytes only delimiters change, to NULs. -/
theorem strtokCalls_tokens (d s : List UInt8) (savePtr n : Nat) (hs : 0 ∉ s) :
    ∃ ptrs m, strtokCalls d n (s ++ [0]) (some 0) savePtr = some (ptrs, m ++ [0]) ∧
      Forall₂ (Cut d) s m ∧ (ptrs.filterMap id).Pairwise (· < ·) ∧
      ptrs.map (Option.map (stringAt (m ++ [0]))) =
        (range n).map fun i => (tokensBy (isDelimiter d) s)[i]? := by
  obtain ⟨ptrs, m, hcalls, hcut, _, hrest⟩ := strtokCalls_eq (d := d) (a := []) (s := some 0)
    (k := savePtr) n hs rfl
  exact ⟨ptrs, m, hcalls, hcut, hrest⟩

/-- Two words and a null pointer. -/
theorem strtokCalls_two_words :
    ∃ ptrs m, strtokCalls [32] 3 ([97, 32, 32, 98] ++ [0]) (some 0) 0 = some (ptrs, m ++ [0]) ∧
      ptrs.map (Option.map (stringAt (m ++ [0]))) = [some [97], some [98], none] := by
  obtain ⟨ptrs, m, hcalls, -, -, htokens⟩ :=
    strtokCalls_tokens [32] [97, 32, 32, 98] 0 3 (by decide)
  exact ⟨ptrs, m, hcalls, htokens.trans (by decide)⟩

end

end Pintos.Kernel
