import ToyRiscv.Execution
import ToyRiscv.Lib.HiLo
import Mathlib.Tactic.NormNum

/-!
# Immediates in two parts

`HI20` and `LO12Sext` (TOYRISCVInstrInfo.td:47-60) and what an LUI followed by an
ADDI leaves in the register. A constant node holds an `XLenVT` value; the
transforms read it zero-extended to 64 bits, and the emitter sign-extends the
target constant they build.
-/

namespace ToyRiscv
open Lib

/-- `SignExtend64<12>(N->getZExtValue())`. -/
def lo12Sext (N : BitVec 64) : BitVec 64 := (N.setWidth 12).signExtend 64

/-- `((N->getZExtValue()+0x800) >> 12) & 0xfffff`. -/
def hi20 (N : BitVec 64) : BitVec 64 := ((N + 0x800#64) >>> 12) &&& 0xfffff#64

/-- The operand a target constant of the `w`-bit type becomes. -/
def targetConstant (w : ℕ) (val : BitVec 64) : ℤ := (val.setWidth w).toInt

/-- `(ADDI (LUI (HI20 imm:$imm)), (LO12Sext imm:$imm))`. -/
def materialize {ρ : Type} {w : ℕ} (c : BitVec w) (upper rd : ρ) : List (Inst ρ) :=
  [.lui upper (targetConstant w (hi20 (c.setWidth 64))),
    .ri .addi rd upper (targetConstant w (lo12Sext (c.setWidth 64)))]

/-! ### The parts as numbers -/

theorem hi20_toNat (N : BitVec 64) : ((hi20 N).toNat : ℤ) = HiLo.hi 2048 (2 ^ 20) N.toInt := by
  have hand : (hi20 N).toNat = (N.toNat + 2048) % 2 ^ 64 / 4096 % 2 ^ 20 := by
    rw [hi20, BitVec.toNat_and, BitVec.toNat_ushiftRight, BitVec.toNat_add,
      Nat.shiftRight_eq_div_pow]
    exact Nat.and_two_pow_sub_one_eq_mod _ 20
  rw [hand, HiLo.hi, HiLo.quot, BitVec.toInt_eq_toNat_cond]
  have := N.isLt
  split <;> omega

theorem hi20_range (N : ℤ) : 0 ≤ HiLo.hi 2048 (2 ^ 20) N ∧ HiLo.hi 2048 (2 ^ 20) N < 2 ^ 20 :=
  ⟨HiLo.hi_nonneg (by decide) N,
    by exact_mod_cast HiLo.hi_lt (h := 2048) (k := 2 ^ 20) (by decide) N⟩

theorem hi20_toInt (N : BitVec 64) : (hi20 N).toInt = HiLo.hi 2048 (2 ^ 20) N.toInt := by
  have hnat := hi20_toNat N
  have hrange := hi20_range N.toInt
  rw [BitVec.toInt_eq_toNat_cond]
  omega

theorem lo12Sext_toInt (N : BitVec 64) : (lo12Sext N).toInt = HiLo.lo 2048 N.toInt := by
  rw [lo12Sext, BitVec.toInt_signExtend_of_le (by decide), BitVec.toInt_setWidth, HiLo.lo,
    BitVec.toInt_eq_toNat_bmod, Int.bmod_bmod_of_dvd (by decide)]

theorem toInt_setWidth_of_isInt {w : ℕ} (hw : 0 < w) (hw64 : w ≤ 64) {v : BitVec 64}
    (hv : isInt w v.toInt) : (v.setWidth w).toInt = v.toInt := by
  have h : v.setWidth w = BitVec.ofInt w v.toInt := by
    rw [← setWidth_ofInt hw64, BitVec.ofInt_toInt]
  rw [h, toInt_ofInt_of_isInt hw hv]

theorem lo12_isInt (N : ℤ) : isInt 12 (HiLo.lo 2048 N) :=
  ⟨HiLo.le_lo (by decide) N, HiLo.lo_lt (by decide) N⟩

theorem targetConstant_hi20 {w : ℕ} (hw : 21 ≤ w) (hw64 : w ≤ 64) (N : BitVec 64) :
    targetConstant w (hi20 N) = HiLo.hi 2048 (2 ^ 20) N.toInt := by
  have hfits : isInt 21 (hi20 N).toInt := by
    rw [hi20_toInt]
    have hrange := hi20_range N.toInt
    exact ⟨by omega, by omega⟩
  rw [targetConstant, toInt_setWidth_of_isInt (by omega) hw64 (isInt_mono hw hfits), hi20_toInt]

theorem targetConstant_lo12Sext {w : ℕ} (hw : 12 ≤ w) (hw64 : w ≤ 64) (N : BitVec 64) :
    targetConstant w (lo12Sext N) = HiLo.lo 2048 N.toInt := by
  have hfits : isInt 12 (lo12Sext N).toInt := lo12Sext_toInt N ▸ lo12_isInt N.toInt
  rw [targetConstant, toInt_setWidth_of_isInt (by omega) hw64 (isInt_mono hw hfits),
    lo12Sext_toInt]

/-! ### LUI and ADDI -/

theorem imm20Value_eq {w : ℕ} (hw : 32 ≤ w) (v : ℤ) :
    imm20Value w v = BitVec.ofInt w ((4096 * v).bmod (2 ^ 32)) := by
  have hnat : (BitVec.ofInt 20 v ++ 0#12 : BitVec 32).toNat = 4096 * (v % 2 ^ 20).toNat := by
    rw [BitVec.toNat_append, BitVec.toNat_ofInt]
    simp [Nat.shiftLeft_eq, Nat.mul_comm]
  have hword : (BitVec.ofInt 20 v ++ 0#12 : BitVec 32) = BitVec.ofInt 32 (4096 * v) := by
    apply BitVec.eq_of_toNat_eq
    rw [hnat, BitVec.toNat_ofInt]
    omega
  rw [imm20Value, hword, ← BitVec.toInt_ofInt, ← BitVec.toInt_signExtend_of_le hw,
    BitVec.ofInt_toInt]

/-- The number behind `lui hi; addi lo` for a signed 32-bit `N`: rounding may carry
into the sign. -/
def luiCarry (N : ℤ) : ℤ := if N < 2 ^ 31 - 2048 then N else N - 2 ^ 32

theorem lui_addi_value {w : ℕ} (hw : 32 ≤ w) {N : ℤ} (hN : isInt 32 N) :
    imm20Value w (HiLo.hi 2048 (2 ^ 20) N) + imm12Value w (HiLo.lo 2048 N) =
      BitVec.ofInt w (luiCarry N) := by
  rw [luiCarry, imm20Value_eq hw, imm12Value_of_isInt (by omega) (lo12_isInt N), ← BitVec.ofInt_add]
  have hsum := HiLo.signed_hi_add_lo (h := 2048) (by decide) (c := 2 ^ 19) (by decide) hN.1 hN.2
  norm_num at hsum ⊢
  rw [hsum]

theorem luiCarry_of_lt {N : ℤ} (h : N < 2 ^ 31 - 2048) : luiCarry N = N := if_pos h

theorem ofInt_luiCarry (N : ℤ) : BitVec.ofInt 32 (luiCarry N) = BitVec.ofInt 32 N := by
  have hwrap : BitVec.ofInt 32 (N - 2 ^ 32) = BitVec.ofInt 32 N := by
    apply BitVec.eq_of_toInt_eq
    rw [BitVec.toInt_ofInt, BitVec.toInt_ofInt]
    exact Int.sub_bmod_right N (2 ^ 32)
  rw [luiCarry]
  split
  · rfl
  · exact hwrap

/-! ### The selected pair -/

theorem toInt_modEq_toNat {n : ℕ} (hn : 32 ≤ n) (x : BitVec n) :
    x.toInt ≡ x.toNat [ZMOD 2 ^ 32] := by
  rw [BitVec.toInt_eq_toNat_cond]
  split
  · rfl
  · apply Int.modEq_iff_dvd.mpr
    rw [Int.sub_sub_self]
    exact_mod_cast Nat.pow_dvd_pow 2 hn

theorem low_modEq {n : ℕ} (hn : 32 ≤ n) (x : BitVec n) :
    x.toInt ≡ (x.setWidth 32).toInt [ZMOD 2 ^ 32] := by
  have hlow : ((x.setWidth 32).toNat : ℤ) ≡ x.toNat [ZMOD 2 ^ 32] := by
    rw [BitVec.toNat_setWidth, Int.natCast_mod]
    exact Int.mod_modEq ..
  exact (toInt_modEq_toNat hn x).trans
    (hlow.symm.trans (toInt_modEq_toNat (Nat.le_refl 32) (x.setWidth 32)).symm)

theorem hi_lo_low {m n : ℕ} (hm : 32 ≤ m) (hn : 32 ≤ n) {x : BitVec m} {y : BitVec n}
    (h : x.setWidth 32 = y.setWidth 32) :
    HiLo.hi 2048 (2 ^ 20) x.toInt = HiLo.hi 2048 (2 ^ 20) y.toInt ∧
      HiLo.lo 2048 x.toInt = HiLo.lo 2048 y.toInt := by
  have hmod : x.toInt ≡ y.toInt [ZMOD 2 ^ 32] :=
    (low_modEq hm x).trans (h ▸ (low_modEq hn y).symm)
  apply HiLo.hi_lo_congr (by decide) (by decide)
  norm_num at hmod ⊢
  exact hmod

section Materialize
variable {ρ : Type} {w : ℕ}

theorem materialize_operands (hw : 32 ≤ w) (hw64 : w ≤ 64) (c : BitVec w) :
    targetConstant w (hi20 (c.setWidth 64)) = HiLo.hi 2048 (2 ^ 20) c.toInt ∧
      targetConstant w (lo12Sext (c.setWidth 64)) = HiLo.lo 2048 c.toInt := by
  rw [targetConstant_hi20 (by omega) hw64, targetConstant_lo12Sext (by omega) hw64]
  exact hi_lo_low (by decide) hw (BitVec.setWidth_setWidth_of_le c (by decide))

theorem materialize_fits (hw : 32 ≤ w) (hw64 : w ≤ 64) (c : BitVec w) (upper rd : ρ) :
    ∀ I ∈ materialize c upper rd, I.Fits := by
  obtain ⟨hhi, hlo⟩ := materialize_operands hw hw64 c
  simp only [materialize, hhi, hlo, List.forall_mem_cons]
  exact ⟨hi20_range c.toInt, lo12_isInt c.toInt, List.forall_mem_nil _⟩

variable [Zero ρ] [DecidableEq ρ]

theorem materialize_value (hw : 32 ≤ w) (hw64 : w ≤ 64) {c : BitVec w} (hc : isInt 32 c.toInt)
    {upper rd : ρ} (hupper : upper ≠ 0) (hrd : rd ≠ 0) (s : ArchState ρ w) :
    (run (materialize c upper rd) s).get rd =
      BitVec.ofInt w (luiCarry c.toInt) := by
  obtain ⟨hhi, hlo⟩ := materialize_operands hw hw64 c
  rw [← lui_addi_value hw hc, materialize, hhi, hlo, run_cons, run_cons, run_nil]
  simp only [Inst.exec, get_next, get_set_self _ hrd, get_set_self _ hupper, AluImmOp.value]

theorem materialize_get {c : BitVec w} {upper rd q : ρ} (hupper : q ≠ upper) (hrd : q ≠ rd)
    (s : ArchState ρ w) : (run (materialize c upper rd) s).get q = s.get q := by
  simp only [materialize, run_cons, run_nil, Inst.exec, get_next, get_set_of_ne _ hrd,
    get_set_of_ne _ hupper]

theorem materialize_mem (c : BitVec w) (upper rd : ρ) (s : ArchState ρ w) :
    (run (materialize c upper rd) s).mem = s.mem := rfl

end Materialize

end ToyRiscv
