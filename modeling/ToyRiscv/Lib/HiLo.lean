import Mathlib.Data.Int.ModEq
import Mathlib.Tactic.Common
import Mathlib.Tactic.Ring

/-!
# Splitting a number into a rounded high part and a signed low part

The radix is `2 * h`; the low part is the residue in `[-h, h)`, and the high part
counts what is left in units of the radix, modulo `k`.
-/

namespace Lib.HiLo

variable (h k : ℕ)

/-- The nearest multiple of the radix. -/
def quot (N : ℤ) : ℤ := (N + h) / (2 * h)

def hi (N : ℤ) : ℤ := quot h N % k

def lo (N : ℤ) : ℤ := N.bmod (2 * h)

variable {h k}

theorem lo_eq (hh : 0 < h) (N : ℤ) : lo h N = (N + h) % (2 * h) - h := by
  have h0 : 0 ≤ (N + h) % (2 * h : ℤ) := Int.emod_nonneg _ (by omega)
  have h1 : (N + h) % (2 * h : ℤ) < 2 * h := Int.emod_lt_of_pos _ (by omega)
  refine (Int.bmod_eq_iff (by omega)).mpr ⟨by omega, by omega, ?_⟩
  have hdvd : ((2 * h : ℕ) : ℤ) ∣ (N + h) % (2 * h : ℤ) - (N + h) := by
    push_cast
    exact Int.dvd_emod_sub_self
  convert hdvd using 1
  ring

theorem le_lo (hh : 0 < h) (N : ℤ) : -(h : ℤ) ≤ lo h N := by
  have := Int.emod_nonneg (N + h) (b := (2 * h : ℤ)) (by omega)
  rw [lo_eq hh]
  omega

theorem lo_lt (hh : 0 < h) (N : ℤ) : lo h N < h := by
  have := Int.emod_lt_of_pos (N + h) (b := (2 * h : ℤ)) (by omega)
  rw [lo_eq hh]
  omega

theorem quot_mul_add_lo (hh : 0 < h) (N : ℤ) : 2 * h * quot h N + lo h N = N := by
  have := Int.mul_ediv_add_emod (N + h) (2 * h)
  rw [lo_eq hh, quot]
  omega

theorem hi_nonneg (hk : 0 < k) (N : ℤ) : 0 ≤ hi h k N := Int.emod_nonneg _ (by omega)

theorem hi_lt (hk : 0 < k) (N : ℤ) : hi h k N < k := Int.emod_lt_of_pos _ (by omega)

theorem hi_lo_modEq (hh : 0 < h) (N : ℤ) :
    2 * h * hi h k N + lo h N ≡ N [ZMOD 2 * h * k] := by
  have hq := quot_mul_add_lo hh N
  have hdiv := Int.mul_ediv_add_emod (quot h N) k
  refine Int.modEq_iff_dvd.mpr ⟨quot h N / k, ?_⟩
  calc N - (2 * h * hi h k N + lo h N)
      = 2 * h * quot h N - 2 * h * hi h k N := by omega
    _ = 2 * h * (k * (quot h N / k) + quot h N % k) - 2 * h * hi h k N := by rw [hdiv]
    _ = 2 * h * k * (quot h N / k) := by rw [hi]; ring

/-- The two parts are determined by their ranges and by what they add up to. -/
theorem hi_lo_unique (hh : 0 < h) {N a l : ℤ} (ha0 : 0 ≤ a) (hak : a < k) (hl0 : -(h : ℤ) ≤ l)
    (hlh : l < h) (hmod : 2 * h * a + l ≡ N [ZMOD 2 * h * k]) : a = hi h k N ∧ l = lo h N := by
  have hl : lo h N = l := by
    refine (Int.bmod_eq_iff (by omega)).mpr ⟨by omega, by omega, ?_⟩
    have hN : 2 * h * a + l ≡ N [ZMOD 2 * h] := hmod.of_mul_right k
    have hdvd : (2 * h : ℤ) ∣ 2 * h * a - (N - l) := by
      have := hN.symm.dvd
      convert this using 1
      ring
    have hsub := Int.dvd_sub hdvd (Dvd.intro a rfl)
    push_cast
    convert hsub using 1
    ring
  refine ⟨?_, hl.symm⟩
  have hq := quot_mul_add_lo hh N
  have hscaled : 2 * h * a ≡ 2 * h * quot h N [ZMOD 2 * h * k] := by
    have hcancel : 2 * h * a + l ≡ 2 * h * quot h N + l [ZMOD 2 * h * k] := by
      rw [← hl, hq, hl]
      exact hmod
    exact hcancel.add_right_cancel' l
  have hak' : a ≡ quot h N [ZMOD k] := Int.ModEq.mul_left_cancel' (by omega) hscaled
  rw [hi, ← hak', Int.emod_eq_of_lt ha0 hak]

theorem hi_lo_congr (hh : 0 < h) (hk : 0 < k) {M N : ℤ} (hmod : M ≡ N [ZMOD 2 * h * k]) :
    hi h k M = hi h k N ∧ lo h M = lo h N :=
  hi_lo_unique hh (hi_nonneg hk M) (hi_lt hk M) (le_lo hh M) (lo_lt hh M)
    ((hi_lo_modEq hh M).trans hmod)

theorem le_quot_iff (hh : 0 < h) (c N : ℤ) : c ≤ quot h N ↔ 2 * h * c - h ≤ N := by
  rw [quot, Int.le_ediv_iff_mul_le (by omega), Int.mul_comm c]
  omega

theorem bmod_hi (hh : 0 < h) {c : ℕ} {N q : ℤ} (hq0 : -(c : ℤ) ≤ q) (hq1 : q < c)
    (hmod : q ≡ quot h N [ZMOD (2 * c : ℕ)]) :
    (2 * h * hi h (2 * c) N).bmod (2 * h * (2 * c)) = 2 * h * q := by
  have hlow : -(2 * h * c : ℤ) ≤ 2 * h * q := by
    rw [← Int.mul_neg]
    exact Int.mul_le_mul_of_nonneg_left hq0 (by omega)
  have hupp : 2 * h * q < (2 * h * c : ℤ) := Int.mul_lt_mul_of_pos_left hq1 (by omega)
  have hword : ((2 * h * (2 * c) : ℕ) : ℤ) = 2 * (2 * h * c) := by
    push_cast
    ring
  have hpos : 0 < 2 * h * (2 * c) := Nat.mul_pos (by omega) (by omega)
  refine (Int.bmod_eq_iff hpos).mpr ⟨by omega, by omega, ?_⟩
  have hdvd : ((2 * c : ℕ) : ℤ) ∣ q - hi h (2 * c) N :=
    (hmod.trans (Int.mod_modEq _ _).symm).symm.dvd
  have hscaled := Int.mul_dvd_mul_left (2 * h : ℤ) hdvd
  rw [Int.mul_sub] at hscaled
  exact_mod_cast hscaled

/-- With the high part read as a signed number of the whole word, the parts add up
to `N` except where rounding carries into the sign. -/
theorem signed_hi_add_lo (hh : 0 < h) {c : ℕ} (hc : 0 < c) {N : ℤ} (h0 : -(2 * h * c) ≤ N)
    (h1 : N < 2 * h * c) :
    (2 * h * hi h (2 * c) N).bmod (2 * h * (2 * c)) + lo h N =
      if N < 2 * h * c - h then N else N - 2 * h * (2 * c) := by
  have hlow : -(c : ℤ) ≤ quot h N := by
    rw [le_quot_iff hh, Int.mul_neg]
    omega
  have hsum := quot_mul_add_lo hh N
  split_ifs with hcarry
  · have hq : quot h N < c := by
      have := (le_quot_iff hh c N).not
      omega
    rw [bmod_hi hh hlow hq (Int.ModEq.refl _)]
    exact hsum
  · have hq : quot h N = c := by
      have hle := (le_quot_iff hh c N).mpr (by omega)
      have hgt := (le_quot_iff hh (c + 1) N).not
      rw [Int.mul_add] at hgt
      omega
    have hmod : -(c : ℤ) ≡ quot h N [ZMOD (2 * c : ℕ)] := by
      rw [hq]
      refine Int.modEq_iff_dvd.mpr ⟨1, ?_⟩
      push_cast
      ring
    rw [bmod_hi hh (Int.le_refl _) (by omega) hmod]
    have hlo : lo h N = N - 2 * h * c := by
      rw [hq] at hsum
      omega
    rw [hlo]
    ring

end Lib.HiLo
