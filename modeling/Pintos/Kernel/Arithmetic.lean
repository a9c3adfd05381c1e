import Mathlib.Data.Int.Basic
import Mathlib.Tactic.Ring
import Pintos.Lib.Options

/-!
# 64-bit division (`lib/arithmetic.c`)

`divl` divides 64 by 32 bits and traps where the quotient has more than 32. For a
divisor of more than 32 bits `udiv64` divides by its upper 32 bits, which gives the
quotient or one more. The remainders are returned through 32-bit types.

Unsigned words are natural numbers and signed ones are integers; what wraps in C is
reduced where it is computed.
-/

namespace Pintos.Kernel

open Lib

/-- There is no value where the instruction traps. -/
def divl (n d : Nat) : Option Nat := if d = 0 ∨ 2 ^ 32 ≤ n / d then none else some (n / d)

/-- `if (x <= limit) { n += k; x <<= k; }` -/
def nlzStep (limit k : Nat) (p : Nat × Nat) : Nat × Nat :=
  if p.2 ≤ limit then (p.1 + k, p.2 * 2 ^ k % 2 ^ 32) else p

def nlz (x : Nat) : Nat :=
  let p := nlzStep 0x0000FFFF 16 (0, x)
  let p := nlzStep 0x00FFFFFF 8 p
  let p := nlzStep 0x0FFFFFFF 4 p
  let p := nlzStep 0x3FFFFFFF 2 p
  if p.2 ≤ 0x7FFFFFFF then p.1 + 1 else p.1

def udiv64 (n d : Nat) : Option Nat :=
  if d / 2 ^ 32 = 0 then do
    let b := 2 ^ 32
    let n1 := n / 2 ^ 32
    let n0 := n % 2 ^ 32
    let d0 := d % 2 ^ 32
    let q ← divl ((b * (n1 % d0) + n0) % 2 ^ 64) d0
    some ((q + b * (n1 / d0)) % 2 ^ 64)
  else if n < d then some 0
  else do
    let d1 := d / 2 ^ 32
    let s := nlz d1
    let q ← divl (n / 2) (d * 2 ^ s % 2 ^ 64 / 2 ^ 32)
    let q := q / 2 ^ (31 - s)
    let q1 := (q + 2 ^ 64 - 1) % 2 ^ 64
    some (if (n + 2 ^ 64 - q1 * d % 2 ^ 64) % 2 ^ 64 < d then q1 else q)

/-- The result is a `uint32_t`. -/
def umod64 (n d : Nat) : Option Nat := do
  let q ← udiv64 n d
  some ((n + 2 ^ 64 - d * q % 2 ^ 64) % 2 ^ 64 % 2 ^ 32)

/-- `n >= 0 ? (uint64_t) n : -(uint64_t) n` -/
def abs64 (n : Int) : Nat := if 0 ≤ n then n.toNat else (-n % 2 ^ 64).toNat

def sdiv64 (n d : Int) : Option Int := do
  let qAbs ← udiv64 (abs64 n) (abs64 d)
  let q := Int.bmod qAbs (2 ^ 64)
  some (if n < 0 ↔ d < 0 then q else Int.bmod (-q) (2 ^ 64))

/-- The result is an `int32_t`. -/
def smod64 (n d : Int) : Option Int := do
  let q ← sdiv64 n d
  some (Int.bmod (Int.bmod (n - d * q) (2 ^ 64)) (2 ^ 32))

def divdi3 (n d : Int) : Option Int := sdiv64 n d

def moddi3 (n d : Int) : Option Int := smod64 n d

def udivdi3 (n d : Nat) : Option Nat := udiv64 n d

def umoddi3 (n d : Nat) : Option Nat := umod64 n d

/-! ## Quotients -/

section
variable {n d : Nat}

theorem divl_eq (hd : d ≠ 0) (h : n / d < 2 ^ 32) : divl n d = some (n / d) :=
  if_neg (not_or.mpr ⟨hd, Nat.not_le.mpr h⟩)

theorem nlzStep_spec {x limit k j : Nat} {p : Nat × Nat} (hp : p.2 = x * 2 ^ p.1)
    (hlt : p.2 < 2 ^ 32) (hlim : limit + 1 = 2 ^ (32 - k)) (hk : k ≤ 32) (hj : 2 ^ j ≤ p.2)
    (hjk : 32 - k ≤ j + k) :
    (nlzStep limit k p).2 = x * 2 ^ (nlzStep limit k p).1 ∧ (nlzStep limit k p).2 < 2 ^ 32 ∧
      2 ^ (32 - k) ≤ (nlzStep limit k p).2 ∧ (nlzStep limit k p).1 ≤ p.1 + k := by
  unfold nlzStep
  by_cases hle : p.2 ≤ limit
  · have hfit : p.2 * 2 ^ k < 2 ^ 32 := by
      calc p.2 * 2 ^ k < 2 ^ (32 - k) * 2 ^ k :=
            Nat.mul_lt_mul_of_pos_right (by omega) (Nat.two_pow_pos k)
        _ = 2 ^ 32 := by rw [← Nat.pow_add, Nat.sub_add_cancel hk]
    rw [if_pos hle, Nat.mod_eq_of_lt hfit]
    refine ⟨?_, hfit, ?_, le_refl _⟩
    · rw [hp, Nat.pow_add, Nat.mul_assoc]
    · calc 2 ^ (32 - k) ≤ 2 ^ (j + k) := Nat.pow_le_pow_right (by decide) hjk
        _ = 2 ^ j * 2 ^ k := Nat.pow_add ..
        _ ≤ p.2 * 2 ^ k := Nat.mul_le_mul_right _ hj
  · rw [if_neg hle]
    exact ⟨hp, hlt, by omega, by omega⟩

/-- `nlz` says how far the top bit is from bit 31. -/
theorem nlz_spec {x : Nat} (hx : x ≠ 0) (hlt : x < 2 ^ 32) :
    nlz x ≤ 31 ∧ 2 ^ 31 ≤ x * 2 ^ nlz x ∧ x * 2 ^ nlz x < 2 ^ 32 := by
  obtain ⟨h1, t1, l1, n1⟩ := nlzStep_spec (x := x) (j := 0) (p := (0, x)) (by simp) hlt
    (show 0x0000FFFF + 1 = 2 ^ (32 - 16) from rfl) (by decide) (Nat.pos_of_ne_zero hx) (by decide)
  obtain ⟨h2, t2, l2, n2⟩ := nlzStep_spec h1 t1 (show 0x00FFFFFF + 1 = 2 ^ (32 - 8) from rfl)
    (by decide) l1 (by decide)
  obtain ⟨h3, t3, l3, n3⟩ := nlzStep_spec h2 t2 (show 0x0FFFFFFF + 1 = 2 ^ (32 - 4) from rfl)
    (by decide) l2 (by decide)
  obtain ⟨h4, t4, l4, n4⟩ := nlzStep_spec h3 t3 (show 0x3FFFFFFF + 1 = 2 ^ (32 - 2) from rfl)
    (by decide) l3 (by decide)
  unfold nlz
  dsimp only at n1 ⊢
  split
  · rw [show ∀ m, x * 2 ^ (m + 1) = x * 2 ^ m * 2 from fun m => by ring, ← h4]
    exact ⟨by omega, by omega, by omega⟩
  · rw [← h4]
    exact ⟨by omega, by omega, by omega⟩

/-- The divisor without its low bits: the quotient by it is too large by one at most. -/
theorem div_truncated {v s : Nat} (hn : n < 2 ^ 64) (hs : s ≤ 31) (hv : 2 ^ 31 ≤ v)
    (hle : v * 2 ^ 32 ≤ d * 2 ^ s) (hlt : d * 2 ^ s < (v + 1) * 2 ^ 32) :
    n / d ≤ n / 2 / v / 2 ^ (31 - s) ∧ n / 2 / v / 2 ^ (31 - s) ≤ n / d + 1 := by
  obtain ⟨B, hB⟩ : ∃ B, B = 2 ^ (32 - s) := ⟨_, rfl⟩
  have hsplit : 2 ^ 32 = B * 2 ^ s := by
    rw [hB, ← Nat.pow_add, Nat.sub_add_cancel (by omega)]
  have hBpos : 0 < B := hB ▸ Nat.two_pow_pos _
  have hM : v * B ≤ d := by
    refine Nat.le_of_mul_le_mul_right ?_ (Nat.two_pow_pos s)
    rwa [Nat.mul_assoc, ← hsplit]
  have hd : d < v * B + B := by
    refine Nat.lt_of_mul_lt_mul_right (a := 2 ^ s) ?_
    rwa [hsplit, Nat.add_one_mul, ← Nat.mul_assoc, ← Nat.add_mul] at hlt
  have hvB : 0 < v * B := Nat.mul_pos (by omega) hBpos
  have hquot : n / 2 / v / 2 ^ (31 - s) = n / (v * B) := by
    rw [Nat.div_div_eq_div_mul, Nat.div_div_eq_div_mul, hB, show 32 - s = 31 - s + 1 by omega,
      Nat.pow_succ]
    congr 1
    ring
  rw [hquot]
  refine ⟨Nat.div_le_div_left hM hvB, ?_⟩
  -- the quotient is small, so what the low bits of `d` add to the product is at most `v * B`
  have hq : n / d < 2 * 2 ^ s := by
    refine Nat.div_lt_of_lt_mul ?_
    calc n < 2 ^ 32 * (2 ^ 31 * 2) := by omega
      _ = 2 ^ 31 * B * (2 * 2 ^ s) := by rw [hsplit]; ring
      _ ≤ d * (2 * 2 ^ s) := Nat.mul_le_mul_right _ ((Nat.mul_le_mul_right _ hv).trans hM)
  have hlow : (n / d + 1) * (B - 1) ≤ v * B := by
    refine (Nat.mul_le_mul_right _ hq).trans ?_
    have h1 : 2 * 2 ^ s * (B - 1) + 2 * 2 ^ s = 2 * 2 ^ 32 := by
      rw [← Nat.mul_add_one, Nat.sub_add_cancel hBpos, Nat.mul_assoc, Nat.mul_comm (2 ^ s), ← hsplit]
    have h2 : 2 ^ 31 * B ≤ v * B := Nat.mul_le_mul_right _ hv
    by_cases h31 : s = 31
    · subst h31
      omega
    · have : 2 ^ 2 ≤ B := hB ▸ Nat.pow_le_pow_right (by decide) (by omega)
      omega
  refine Nat.le_of_lt_succ (Nat.div_lt_of_lt_mul ?_)
  calc n < d * (n / d + 1) := Nat.mul_add_one d _ ▸ Nat.lt_mul_div_succ n (by omega)
    _ ≤ (v * B + (B - 1)) * (n / d + 1) := Nat.mul_le_mul_right _ (by omega)
    _ = v * B * (n / d + 1) + (n / d + 1) * (B - 1) := by ring
    _ ≤ v * B * (n / d + 1) + v * B := Nat.add_le_add_left hlow _
    _ = v * B * (n / d + 1 + 1) := by ring

theorem udiv64_small (hn : n < 2 ^ 64) (hd : d ≠ 0) (h : d / 2 ^ 32 = 0) :
    udiv64 n d = some (n / d) := by
  have hlt : d < 2 ^ 32 := by omega
  have hr : n / 2 ^ 32 % d < d := Nat.mod_lt _ (by omega)
  have hsum : n = d * (2 ^ 32 * (n / 2 ^ 32 / d)) + (2 ^ 32 * (n / 2 ^ 32 % d) + n % 2 ^ 32) := by
    have h1 := Nat.div_add_mod (n / 2 ^ 32) d
    have h2 : d * (2 ^ 32 * (n / 2 ^ 32 / d)) = 2 ^ 32 * (d * (n / 2 ^ 32 / d)) := by ring
    omega
  have hquot : (2 ^ 32 * (n / 2 ^ 32 % d) + n % 2 ^ 32) / d < 2 ^ 32 :=
    Nat.div_lt_of_lt_mul (by omega)
  have hdiv : n / d = 2 ^ 32 * (n / 2 ^ 32 / d) + (2 ^ 32 * (n / 2 ^ 32 % d) + n % 2 ^ 32) / d := by
    nth_rewrite 1 [hsum]
    rw [Nat.mul_add_div (by omega)]
  have hle : n / d ≤ n := Nat.div_le_self _ _
  unfold udiv64
  rw [if_pos h, Nat.mod_eq_of_lt hlt]
  dsimp only
  rw [Nat.mod_eq_of_lt (show 2 ^ 32 * (n / 2 ^ 32 % d) + n % 2 ^ 32 < 2 ^ 64 by omega),
    divl_eq hd hquot, some_bind, Nat.add_comm, ← hdiv, Nat.mod_eq_of_lt (by omega)]

theorem udiv64_large (hn : n < 2 ^ 64) (hd : d < 2 ^ 64) (h : d / 2 ^ 32 ≠ 0) :
    udiv64 n d = some (n / d) := by
  unfold udiv64
  rw [if_neg h]
  by_cases hlt : n < d
  · rw [if_pos hlt, Nat.div_eq_of_lt hlt]
  · obtain ⟨hs, hlow, hhigh⟩ := nlz_spec h (by omega)
    obtain ⟨s, hseq⟩ : ∃ s, s = nlz (d / 2 ^ 32) := ⟨_, rfl⟩
    rw [if_neg hlt]
    dsimp only
    rw [← hseq] at hs hlow hhigh ⊢
    -- nothing is lost in `d << s`
    have hfit : d * 2 ^ s < 2 ^ 64 := by
      have hsplit : 2 ^ 32 = 2 ^ (32 - s) * 2 ^ s := by
        rw [← Nat.pow_add, Nat.sub_add_cancel (by omega)]
      have hd1 : d / 2 ^ 32 < 2 ^ (32 - s) := by
        refine Nat.lt_of_mul_lt_mul_right (a := 2 ^ s) ?_
        rwa [← hsplit]
      calc d * 2 ^ s < 2 ^ 32 * 2 ^ (32 - s) * 2 ^ s :=
            Nat.mul_lt_mul_of_pos_right (by omega) (Nat.two_pow_pos s)
        _ = 2 ^ 32 * 2 ^ 32 := by rw [Nat.mul_assoc, ← hsplit]
    obtain ⟨v, hv⟩ : ∃ v, v = d * 2 ^ s / 2 ^ 32 := ⟨_, rfl⟩
    have hnorm : 2 ^ 31 ≤ v := by
      rw [hv]
      refine hlow.trans ((Nat.le_div_iff_mul_le (by decide)).mpr ?_)
      calc d / 2 ^ 32 * 2 ^ s * 2 ^ 32 = d / 2 ^ 32 * 2 ^ 32 * 2 ^ s := by ring
        _ ≤ d * 2 ^ s := Nat.mul_le_mul_right _ (Nat.div_mul_le_self d _)
    obtain ⟨hq, hq'⟩ := div_truncated hn hs hnorm (hv ▸ Nat.div_mul_le_self ..)
      (hv ▸ Nat.lt_mul_of_div_lt (Nat.lt_succ_self _) (by decide))
    rw [Nat.mod_eq_of_lt hfit, ← hv, divl_eq (by omega) (Nat.div_lt_of_lt_mul (by omega)), some_bind]
    obtain ⟨q, hqeq⟩ : ∃ q, q = n / 2 / v / 2 ^ (31 - s) := ⟨_, rfl⟩
    rw [← hqeq] at hq hq' ⊢
    have hpos : 0 < n / d := Nat.div_pos (by omega) (by omega)
    have hle : n / d ≤ n := Nat.div_le_self _ _
    have hmul : d * (n / d) ≤ n := Nat.mul_div_le n d
    have hmod : n < d * (n / d) + d := Nat.lt_mul_div_succ n (by omega)
    rw [show (q + 2 ^ 64 - 1) % 2 ^ 64 = q - 1 by omega]
    rcases Nat.lt_or_eq_of_le hq with hq | hq
    · -- one too many
      obtain rfl : q = n / d + 1 := by omega
      rw [Nat.add_sub_cancel, Nat.mul_comm, if_pos (by omega)]
    · have hprod : (q - 1) * d = d * (n / d) - d := by
        rw [← hq, Nat.sub_mul, Nat.one_mul, Nat.mul_comm]
      have hle' : d ≤ d * (n / d) := Nat.le_mul_of_pos_right d hpos
      rw [hprod, if_neg (by omega), ← hq]

theorem udiv64_eq (hn : n < 2 ^ 64) (hd : d < 2 ^ 64) (h0 : d ≠ 0) : udiv64 n d = some (n / d) := by
  by_cases h : d / 2 ^ 32 = 0
  · exact udiv64_small hn h0 h
  · exact udiv64_large hn hd h

end

/-- The values of an `int64_t`. -/
def IsInt64 (n : Int) : Prop := -2 ^ 63 ≤ n ∧ n < 2 ^ 63

section
variable {n d : Int}

theorem abs64_eq (h : IsInt64 n) : abs64 n = n.natAbs := by
  unfold IsInt64 at h
  unfold abs64
  split <;> omega

theorem bmod_of_isInt64 (h : IsInt64 n) : Int.bmod n (2 ^ 64) = n := by
  unfold IsInt64 at h
  dsimp only [Int.bmod]
  split <;> omega

/-- `-2^63 / -1` is the only quotient of more than 63 bits. -/
theorem tdiv_isInt64 (hn : IsInt64 n) (hd : d ≠ 0) (hmin : ¬ (n = -2 ^ 63 ∧ d = -1)) :
    IsInt64 (n.tdiv d) := by
  have habs : (n.tdiv d).natAbs = n.natAbs / d.natAbs := Int.natAbs_tdiv n d
  have hle : n.natAbs / d.natAbs ≤ n.natAbs := Nat.div_le_self _ _
  unfold IsInt64 at *
  refine ⟨by omega, ?_⟩
  by_contra hge
  -- then the divisor is -1 and the dividend is -2^63
  have hone : d.natAbs = 1 := by
    by_contra hne
    have : n.natAbs / d.natAbs ≤ n.natAbs / 2 := Nat.div_le_div_left (by omega) (by decide)
    omega
  rcases (show d = 1 ∨ d = -1 by omega) with rfl | rfl
  · rw [Int.tdiv_one] at hge
    omega
  · rw [Int.tdiv_neg, Int.tdiv_one] at hge
    omega

theorem sdiv64_eq (hn : IsInt64 n) (hd : IsInt64 d) (h0 : d ≠ 0) (hmin : ¬ (n = -2 ^ 63 ∧ d = -1)) :
    sdiv64 n d = some (n.tdiv d) := by
  have hq := tdiv_isInt64 hn h0 hmin
  have habs : n.natAbs / d.natAbs = (n.tdiv d).natAbs := (Int.natAbs_tdiv n d).symm
  have hu : udiv64 (abs64 n) (abs64 d) = some (n.tdiv d).natAbs := by
    rw [abs64_eq hn, abs64_eq hd, ← habs]
    unfold IsInt64 at hn hd
    exact udiv64_eq (by omega) (by omega) (by omega)
  have hsign : 0 ≤ n.tdiv d ∧ (n < 0 ↔ d < 0) ∨ n.tdiv d ≤ 0 ∧ ¬ (n < 0 ↔ d < 0) := by
    rcases lt_or_ge n 0 with hn0 | hn0 <;> rcases lt_or_ge d 0 with hd0 | hd0
    · exact .inl ⟨Int.tdiv_nonneg_of_nonpos_of_nonpos (by omega) (by omega), by omega⟩
    · have hpos := Int.tdiv_nonneg (show 0 ≤ -n by omega) hd0
      rw [Int.neg_tdiv] at hpos
      exact .inr ⟨by omega, by omega⟩
    · exact .inr ⟨Int.tdiv_nonpos_of_nonneg_of_nonpos (by omega) (by omega), by omega⟩
    · exact .inl ⟨Int.tdiv_nonneg (by omega) (by omega), by omega⟩
  unfold sdiv64
  rw [hu, some_bind]
  dsimp only
  congr 1
  rcases hsign with ⟨hpos, hsame⟩ | ⟨hneg, hdiff⟩
  · rw [if_pos hsame, Int.natAbs_of_nonneg hpos, bmod_of_isInt64 hq]
  · rw [if_neg hdiff, Int.ofNat_natAbs_of_nonpos hneg]
    unfold IsInt64 at hq
    dsimp only [Int.bmod]
    split <;> split <;> omega

end

/-- **Division.** No `divl` traps, and the quotients are exact; of the signed ones only that of
-2^63 by -1 does not fit. -/
theorem quotients_exact :
    (∀ n d : Nat, n < 2 ^ 64 → d < 2 ^ 64 → d ≠ 0 → udivdi3 n d = some (n / d)) ∧
    ∀ n d : Int, IsInt64 n → IsInt64 d → d ≠ 0 → ¬ (n = -2 ^ 63 ∧ d = -1) →
      divdi3 n d = some (n.tdiv d) :=
  ⟨fun _ _ hn hd h0 => udiv64_eq hn hd h0, fun _ _ hn hd h0 hmin => sdiv64_eq hn hd h0 hmin⟩

theorem quotients_exact_extremes :
    udivdi3 (2 ^ 64 - 1) (2 ^ 63 + 1) = some 1 ∧ divdi3 (-2 ^ 63) 2 = some (-2 ^ 62) :=
  ⟨quotients_exact.1 _ _ (by decide) (by decide) (by decide),
    quotients_exact.2 _ _ ⟨by decide, by decide⟩ ⟨by decide, by decide⟩ (by decide) (by decide)⟩

/-! ## Remainders -/

theorem umod64_eq {n d : Nat} (hn : n < 2 ^ 64) (hd : d < 2 ^ 64) (h0 : d ≠ 0) :
    umod64 n d = some (n % d % 2 ^ 32) := by
  have hmul : d * (n / d) ≤ n := Nat.mul_div_le n d
  have hmod := Nat.div_add_mod n d
  unfold umod64
  rw [udiv64_eq hn hd h0, some_bind, show (n + 2 ^ 64 - d * (n / d) % 2 ^ 64) % 2 ^ 64 = n % d by omega]

theorem smod64_eq {n d : Int} (hn : IsInt64 n) (hd : IsInt64 d) (h0 : d ≠ 0)
    (hmin : ¬ (n = -2 ^ 63 ∧ d = -1)) :
    smod64 n d = some (Int.bmod (n.tmod d) (2 ^ 32)) := by
  have hrem : n - d * n.tdiv d = n.tmod d := (Int.tmod_def n d).symm
  have habs : (n.tmod d).natAbs = n.natAbs % d.natAbs := Int.natAbs_tmod n d
  have hlt : n.natAbs % d.natAbs < d.natAbs := Nat.mod_lt _ (by omega)
  unfold smod64
  rw [sdiv64_eq hn hd h0 hmin, some_bind, hrem, bmod_of_isInt64]
  unfold IsInt64 at *
  omega

/-- **Remainders** are exact where they fit into the 32 bits of `umod64` and `smod64`. -/
theorem remainders_exact_iff (n d : Nat) (a b : Int) :
    (n < 2 ^ 64 → d < 2 ^ 64 → d ≠ 0 →
      ∃ q r, udivdi3 n d = some q ∧ umoddi3 n d = some r ∧
        (r = n % d ↔ n % d < 2 ^ 32) ∧ (n = d * q + r ↔ n % d < 2 ^ 32)) ∧
    (IsInt64 a → IsInt64 b → b ≠ 0 → ¬ (a = -2 ^ 63 ∧ b = -1) →
      ∃ q r, divdi3 a b = some q ∧ moddi3 a b = some r ∧
        (r = a.tmod b ↔ -2 ^ 31 ≤ a.tmod b ∧ a.tmod b < 2 ^ 31) ∧
        (a = b * q + r ↔ -2 ^ 31 ≤ a.tmod b ∧ a.tmod b < 2 ^ 31)) := by
  refine ⟨fun hn hd h0 => ?_, fun ha hb h0 hmin => ?_⟩
  · have hmod := Nat.div_add_mod n d
    exact ⟨_, _, udiv64_eq hn hd h0, umod64_eq hn hd h0, by omega, by omega⟩
  · have hmod := Int.mul_tdiv_add_tmod a b
    have hfit : Int.bmod (a.tmod b) (2 ^ 32) = a.tmod b ↔ -2 ^ 31 ≤ a.tmod b ∧ a.tmod b < 2 ^ 31 := by
      dsimp only [Int.bmod]
      split <;> omega
    exact ⟨_, _, sdiv64_eq ha hb h0 hmin, smod64_eq ha hb h0 hmin, hfit, by omega⟩

theorem remainders_exact_iff_ten :
    ∃ q r, udivdi3 10 3 = some q ∧ umoddi3 10 3 = some r ∧
      (r = 10 % 3 ↔ 10 % 3 < 2 ^ 32) ∧ (10 = 3 * q + r ↔ 10 % 3 < 2 ^ 32) :=
  (remainders_exact_iff 10 3 0 1).1 (by decide) (by decide) (by decide)

/-- The remainder of 2^32 by 2^33 is 2^32. -/
theorem remainder_loses_upper_bits :
    udivdi3 (2 ^ 32) (2 ^ 33) = some 0 ∧ umoddi3 (2 ^ 32) (2 ^ 33) = some 0 ∧
      2 ^ 32 % 2 ^ 33 = 2 ^ 32 ∧ moddi3 (2 ^ 32) (2 ^ 33) = some 0 := by
  decide +kernel

end Pintos.Kernel
