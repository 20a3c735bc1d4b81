import Mathlib.Data.BitVec

/-!
# Word sizes and condition codes

The two modes of `XLenVT` (TOYRISCVRegisterInfo.td:49-52), the integer codes of
`ISD::CondCode`, the target's own `TOYRISCVCC::CondCode`
(TOYRISCVInstrInfo.h:19-29) and the two tables between them:
`getRISCVCCForIntCC` (TOYRISCVISelDagToDag.h:24-41) and `getBrCond`
(TOYRISCVInstrInfo.cpp:45-62).
-/

namespace ToyRiscv

/-- The hardware modes of `XLenVT`: `i32` in RV32, `i64` in RV64. -/
inductive XLen where
  | rv32
  | rv64
  deriving DecidableEq, Repr

def XLen.bits : XLen → ℕ
  | .rv32 => 32
  | .rv64 => 64

theorem XLen.bits_cases (x : XLen) : x.bits = 32 ∨ x.bits = 64 := by
  cases x with
  | rv32 => exact Or.inl rfl
  | rv64 => exact Or.inr rfl

theorem XLen.le_bits (x : XLen) : 32 ≤ x.bits := by cases x <;> decide

theorem XLen.bits_le (x : XLen) : x.bits ≤ 64 := by cases x <;> decide

theorem XLen.one_lt_bits (x : XLen) : 1 < x.bits := by
  have h := x.bits_cases
  omega

/-! ### `ISD::CondCode` -/

/-- The ten codes an integer SETCC carries; the floating point codes of the
enumeration never reach this target. -/
inductive IsdCondCode where
  | seteq
  | setne
  | setlt
  | setle
  | setgt
  | setge
  | setult
  | setule
  | setugt
  | setuge
  deriving DecidableEq, Repr

variable {w : ℕ}

def IsdCondCode.holds : IsdCondCode → BitVec w → BitVec w → Bool
  | .seteq, a, b => a == b
  | .setne, a, b => a != b
  | .setlt, a, b => a.slt b
  | .setle, a, b => a.sle b
  | .setgt, a, b => b.slt a
  | .setge, a, b => b.sle a
  | .setult, a, b => a.ult b
  | .setule, a, b => a.ule b
  | .setugt, a, b => b.ult a
  | .setuge, a, b => b.ule a

/-- `ISD::getSetCCSwappedOperands`: the code that holds of `(Y, X)` when the
argument holds of `(X, Y)`. -/
def getSetCCSwappedOperands : IsdCondCode → IsdCondCode
  | .seteq => .seteq
  | .setne => .setne
  | .setlt => .setgt
  | .setle => .setge
  | .setgt => .setlt
  | .setge => .setle
  | .setult => .setugt
  | .setule => .setuge
  | .setugt => .setult
  | .setuge => .setule

theorem swapped_holds (cc : IsdCondCode) (a b : BitVec w) :
    (getSetCCSwappedOperands cc).holds b a = cc.holds a b := by
  cases cc with
  | seteq =>
    simp only [getSetCCSwappedOperands, IsdCondCode.holds]
    exact Bool.beq_comm
  | setne =>
    simp only [getSetCCSwappedOperands, IsdCondCode.holds, bne]
    rw [Bool.beq_comm]
  | _ => rfl

/-! ### Branch instructions and `TOYRISCVCC::CondCode` -/

/-- The six conditional branches (TOYRISCVInstrInfo.td:187-192). -/
inductive BranchOp where
  | beq
  | bne
  | blt
  | bge
  | bltu
  | bgeu
  deriving DecidableEq, Repr

def BranchOp.taken : BranchOp → BitVec w → BitVec w → Bool
  | .beq, a, b => a == b
  | .bne, a, b => a != b
  | .blt, a, b => a.slt b
  | .bge, a, b => !a.slt b
  | .bltu, a, b => a.ult b
  | .bgeu, a, b => !a.ult b

inductive CondCode where
  | condEq
  | condNe
  | condLt
  | condGe
  | condLtu
  | condGeu
  | condInvalid
  deriving DecidableEq, Repr

/-- What a target condition code says of its operands; `COND_INVALID` says nothing. -/
def CondCode.holds? : CondCode → BitVec w → BitVec w → Option Bool
  | .condEq, a, b => some (a == b)
  | .condNe, a, b => some (a != b)
  | .condLt, a, b => some (a.slt b)
  | .condGe, a, b => some (b.sle a)
  | .condLtu, a, b => some (a.ult b)
  | .condGeu, a, b => some (b.ule a)
  | .condInvalid, _, _ => none

/-- `getBrCond`; `none` is the `llvm_unreachable` of the default case. -/
def getBrCond : CondCode → Option BranchOp
  | .condEq => some .beq
  | .condNe => some .bne
  | .condLt => some .blt
  | .condGe => some .bge
  | .condLtu => some .bltu
  | .condGeu => some .bgeu
  | .condInvalid => none

/-- `getRISCVCCForIntCC`; `none` is the `llvm_unreachable` of the default case. -/
def getRISCVCCForIntCC : IsdCondCode → Option CondCode
  | .seteq => some .condEq
  | .setne => some .condNe
  | .setlt => some .condLt
  | .setge => some .condGe
  | .setult => some .condLtu
  | .setuge => some .condGeu
  | _ => none

theorem getBrCond_isSome (cc : CondCode) (h : cc ≠ .condInvalid) :
    ∃ op, getBrCond cc = some op := by
  cases cc with
  | condInvalid => exact absurd rfl h
  | _ => exact ⟨_, rfl⟩

theorem not_slt_eq_sle (a b : BitVec w) : (!a.slt b) = b.sle a := by
  rw [BitVec.sle_eq_not_slt]

theorem not_ult_eq_ule (a b : BitVec w) : (!a.ult b) = b.ule a := by
  rw [BitVec.ule_eq_not_ult]

theorem getBrCond_taken (cc : CondCode) (op : BranchOp) (h : getBrCond cc = some op)
    (a b : BitVec w) : cc.holds? a b = some (op.taken a b) := by
  cases cc <;> simp only [getBrCond, Option.some.injEq, reduceCtorEq] at h
  all_goals
    subst h
    simp only [CondCode.holds?, BranchOp.taken, not_slt_eq_sle, not_ult_eq_ule]

/-- The two tables composed: the branch reached from an accepted ISD code is
taken exactly when the code holds. -/
theorem branch_of_intCC (cc : IsdCondCode) (rcc : CondCode) (op : BranchOp)
    (hcc : getRISCVCCForIntCC cc = some rcc) (hop : getBrCond rcc = some op)
    (a b : BitVec w) : op.taken a b = cc.holds a b := by
  cases cc <;> simp only [getRISCVCCForIntCC, Option.some.injEq, reduceCtorEq] at hcc
  all_goals
    subst hcc
    simp only [getBrCond, Option.some.injEq] at hop
    subst hop
    simp only [BranchOp.taken, IsdCondCode.holds, not_slt_eq_sle, not_ult_eq_ule]

theorem getRISCVCCForIntCC_valid (cc : IsdCondCode) (rcc : CondCode)
    (h : getRISCVCCForIntCC cc = some rcc) : rcc ≠ .condInvalid := by
  cases cc <;> simp only [getRISCVCCForIntCC, Option.some.injEq, reduceCtorEq] at h
  all_goals
    subst h
    simp

end ToyRiscv
