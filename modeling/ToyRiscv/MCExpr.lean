import ToyRiscv.Immediates

/-!
# Target expressions

`TOYRISCVMCExpr` (MCTargetDesc/TOYRISCVMCExpr.h, TOYRISCVMCExpr.cpp:204-214): an
expression under a relocation modifier, and the number the modifier makes of it.
-/

namespace ToyRiscv
open Lib

/-- `TOYRISCVMCExpr::VariantKind`, less the prefix `VK_RISCV_`. -/
inductive VariantKind where
  | none
  | lo
  | hi
  | pcrelLo
  | pcrelHi
  | gotHi
  | tprelLo
  | tprelHi
  | tprelAdd
  | tlsGotHi
  | tlsGdHi
  | call
  | callPlt
  | pcrel32
  | invalid
  deriving DecidableEq, Repr

/-- The symbols the printer has for what an operand refers to. -/
inductive MCSymbol where
  | block (b : ℕ)
  | global (g : ℕ)
  | blockAddress (b : ℕ)
  | external (name : String)
  | constantPool (index : ℕ)
  | jumpTable (index : ℕ)
  deriving DecidableEq, Repr

inductive MCUnaryOp where
  | lnot
  | minus
  | not
  | plus
  deriving DecidableEq, Repr

inductive MCBinaryOp where
  | add
  | and
  | div
  | eq
  | gt
  | gte
  | land
  | lor
  | lt
  | lte
  | mod
  | mul
  | ne
  | or
  | shl
  | ashr
  | lshr
  | sub
  | xor
  deriving DecidableEq, Repr

inductive MCExpr where
  | constant (value : BitVec 64)
  | symbolRef (sym : MCSymbol)
  | unary (op : MCUnaryOp) (sub : MCExpr)
  | binary (op : MCBinaryOp) (lhs rhs : MCExpr)
  | target (kind : VariantKind) (sub : MCExpr)
  deriving DecidableEq, Repr

/-- `none` where the switch reaches `llvm_unreachable`. -/
def evaluateAsInt64 (kind : VariantKind) (value : BitVec 64) : Option (BitVec 64) :=
  match kind with
  | .lo => some ((value.setWidth 12).signExtend 64)
  | .hi => some ((value + 0x800#64).sshiftRight 12 &&& 0xfffff#64)
  | _ => none

/-- The number a symbol operand is resolved to once the symbols have addresses.
Of the operators only `+` occurs in such an operand. -/
def MCExpr.resolve (address : MCSymbol → BitVec 64) : MCExpr → Option (BitVec 64)
  | .constant value => some value
  | .symbolRef sym => some (address sym)
  | .binary .add lhs rhs =>
    match lhs.resolve address, rhs.resolve address with
    | some a, some b => some (a + b)
    | _, _ => none
  | .target kind sub => (sub.resolve address).bind (evaluateAsInt64 kind)
  | .unary .. | .binary .. => none

theorem evaluateAsInt64_lo (value : BitVec 64) :
    evaluateAsInt64 .lo value = some (lo12Sext value) := rfl

theorem getLsbD_mask20 {i : ℕ} (hi : i < 64) : (0xfffff#64).getLsbD i = decide (i < 20) := by
  rw [BitVec.getLsbD_ofNat, decide_eq_true hi, Bool.true_and]
  exact Nat.testBit_two_pow_sub_one 20 i

/-- Under the mask the two shifts agree. -/
theorem evaluateAsInt64_hi (value : BitVec 64) :
    evaluateAsInt64 .hi value = some (hi20 value) := by
  refine congrArg some (BitVec.eq_of_getLsbD_eq fun i hi => ?_)
  rw [hi20, BitVec.getLsbD_and, BitVec.getLsbD_and, getLsbD_mask20 hi, BitVec.getLsbD_sshiftRight,
    BitVec.getLsbD_ushiftRight]
  by_cases h : i < 20
  · have h64 : 12 + i < 64 := by omega
    have hi' : ¬ 64 ≤ i := by omega
    simp [h64, hi']
  · rw [decide_eq_false h, Bool.and_false, Bool.and_false]

/-! ### The two splitters -/

/-- The pairs an LUI and an ADDI can carry that make up `N` in the low word. -/
structure IsHiLo (N hi lo : ℤ) : Prop where
  hi_nonneg : 0 ≤ hi
  hi_lt : hi < 2 ^ 20
  le_lo : -2048 ≤ lo
  lo_le : lo ≤ 2047
  modEq : 2 ^ 12 * hi + lo ≡ N [ZMOD 2 ^ 32]

theorem isHiLo_parts (N : ℤ) : IsHiLo N (HiLo.hi 2048 (2 ^ 20) N) (HiLo.lo 2048 N) where
  hi_nonneg := (hi20_range N).1
  hi_lt := (hi20_range N).2
  le_lo := (lo12_isInt N).1
  lo_le := Int.le_of_lt_add_one (lo12_isInt N).2
  modEq := by
    have hmod := HiLo.hi_lo_modEq (h := 2048) (k := 2 ^ 20) (by decide) N
    norm_num at hmod ⊢
    exact hmod

theorem IsHiLo.unique {N hi lo : ℤ} (h : IsHiLo N hi lo) :
    hi = HiLo.hi 2048 (2 ^ 20) N ∧ lo = HiLo.lo 2048 N := by
  have hhi : hi < ((2 ^ 20 : ℕ) : ℤ) := h.hi_lt
  have hlo : lo < ((2048 : ℕ) : ℤ) := Int.lt_add_one_of_le h.lo_le
  apply HiLo.hi_lo_unique (by decide) h.hi_nonneg hhi h.le_lo hlo
  have hmod := h.modEq
  norm_num at hmod ⊢
  exact hmod

theorem evaluateAsInt64_eq_transforms (N : BitVec 64) :
    evaluateAsInt64 .hi N = some (hi20 N) ∧ evaluateAsInt64 .lo N = some (lo12Sext N) ∧
      IsHiLo N.toInt (hi20 N).toInt (lo12Sext N).toInt ∧
      ∀ hi lo : ℤ, IsHiLo N.toInt hi lo → hi = (hi20 N).toInt ∧ lo = (lo12Sext N).toInt := by
  refine ⟨evaluateAsInt64_hi N, evaluateAsInt64_lo N, ?_⟩
  rw [hi20_toInt, lo12Sext_toInt]
  exact ⟨isHiLo_parts N.toInt, fun _ _ h => h.unique⟩

end ToyRiscv
