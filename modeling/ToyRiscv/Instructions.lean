import ToyRiscv.CondCode
import ToyRiscv.Lib.BitFields

/-!
# The instructions of TOYRISCVInstrInfo.td

The non-pseudo instructions, one constructor for each class they are defined by,
over any type of registers, with their immediate operands as integers; and the
words their format classes assemble (TOYRISCVInstrFormats.td:59-166).
-/

namespace ToyRiscv
open Lib.BitFields

/-- `isInt<n>`. -/
def isInt (n : ℕ) (v : ℤ) : Prop := -2 ^ (n - 1) ≤ v ∧ v < 2 ^ (n - 1)

instance (n : ℕ) (v : ℤ) : Decidable (isInt n v) :=
  inferInstanceAs (Decidable (_ ∧ _))

theorem toInt_ofInt_of_isInt {n : ℕ} (hn : 0 < n) {v : ℤ} (h : isInt n v) :
    (BitVec.ofInt n v).toInt = v :=
  BitVec.toInt_ofInt_eq_self hn h.1 h.2

theorem isInt_mono {m n : ℕ} (h : m ≤ n) {v : ℤ} (hv : isInt m v) : isInt n v := by
  have hpow : (2 : ℤ) ^ (m - 1) ≤ 2 ^ (n - 1) := by
    exact_mod_cast Nat.pow_le_pow_right (by decide : 0 < 2) (by omega : m - 1 ≤ n - 1)
  exact ⟨Int.le_trans (Int.neg_le_neg hpow) hv.1, Int.lt_of_lt_of_le hv.2 hpow⟩

theorem setWidth_ofInt {m n : ℕ} (h : m ≤ n) (v : ℤ) :
    (BitVec.ofInt n v).setWidth m = BitVec.ofInt m v := by
  have hdvd : (2 ^ m : ℤ) ∣ 2 ^ n := pow_dvd_pow 2 h
  have hne : (2 ^ n : ℤ) ≠ 0 := by simp
  apply BitVec.eq_of_toInt_eq
  rw [BitVec.toInt_setWidth, BitVec.toNat_ofInt, BitVec.toInt_ofInt,
    Int.toNat_of_nonneg (Int.emod_nonneg _ (by exact_mod_cast hne))]
  simp [Int.bmod_def, Int.emod_emod_of_dvd _ hdvd]

/-! ### Operations and their function codes -/

/-- `ALU_rr` (TOYRISCVInstrInfo.td:92-101). -/
inductive AluOp where
  | add
  | sub
  | sll
  | slt
  | sltu
  | xor
  | srl
  | sra
  | or
  | and
  deriving DecidableEq, Repr

/-- `ALU_ri` (TOYRISCVInstrInfo.td:121-131). -/
inductive AluImmOp where
  | addi
  | slti
  | sltiu
  | xori
  | ori
  | andi
  deriving DecidableEq, Repr

/-- `Load_ri` (TOYRISCVInstrInfo.td:133-137). -/
inductive LoadOp where
  | lb
  | lh
  | lw
  | lbu
  | lhu
  deriving DecidableEq, Repr

/-- `Store_rri` (TOYRISCVInstrInfo.td:162-164). -/
inductive StoreOp where
  | sb
  | sh
  | sw
  deriving DecidableEq, Repr

def AluOp.funct7 : AluOp → BitVec 7
  | .sub | .sra => 0b0100000
  | _ => 0b0000000

def AluOp.funct3 : AluOp → BitVec 3
  | .add => 0b000
  | .sub => 0b000
  | .sll => 0b001
  | .slt => 0b010
  | .sltu => 0b011
  | .xor => 0b100
  | .srl => 0b101
  | .sra => 0b101
  | .or => 0b110
  | .and => 0b111

def AluImmOp.funct3 : AluImmOp → BitVec 3
  | .addi => 0b000
  | .slti => 0b010
  | .sltiu => 0b011
  | .xori => 0b100
  | .ori => 0b110
  | .andi => 0b111

def LoadOp.funct3 : LoadOp → BitVec 3
  | .lb => 0b000
  | .lh => 0b001
  | .lw => 0b010
  | .lbu => 0b100
  | .lhu => 0b101

def StoreOp.funct3 : StoreOp → BitVec 3
  | .sb => 0b000
  | .sh => 0b001
  | .sw => 0b010

def BranchOp.funct3 : BranchOp → BitVec 3
  | .beq => 0b000
  | .bne => 0b001
  | .blt => 0b100
  | .bge => 0b101
  | .bltu => 0b110
  | .bgeu => 0b111

/-! ### Opcodes (TOYRISCVInstrFormats.td:23-44) -/

def opcLoad : BitVec 7 := 0b0000011
def opcOpImm : BitVec 7 := 0b0010011
def opcAuipc : BitVec 7 := 0b0010111
def opcStore : BitVec 7 := 0b0100011
def opcOp : BitVec 7 := 0b0110011
def opcLui : BitVec 7 := 0b0110111
def opcBranch : BitVec 7 := 0b1100011
def opcJalr : BitVec 7 := 0b1100111
def opcJal : BitVec 7 := 0b1101111

/-! ### Instructions -/

/-- Operands in the order of the `ins` lists behind the `outs`. -/
inductive Inst (ρ : Type) where
  | rr (op : AluOp) (rd rs1 rs2 : ρ)
  | ri (op : AluImmOp) (rd rs1 : ρ) (imm12 : ℤ)
  | load (op : LoadOp) (rd rs1 : ρ) (imm12 : ℤ)
  | jalr (rd rs1 : ρ) (imm12 : ℤ)
  | store (op : StoreOp) (rs2 rs1 : ρ) (imm12 : ℤ)
  | branch (op : BranchOp) (rs1 rs2 : ρ) (offset : ℤ)
  | lui (rd : ρ) (imm20 : ℤ)
  | auipc (rd : ρ) (imm20 : ℤ)
  | jal (rd : ρ) (offset : ℤ)
  deriving DecidableEq, Repr

def Inst.Fits {ρ : Type} : Inst ρ → Prop
  | .rr .. => True
  | .ri _ _ _ imm12 => isInt 12 imm12
  | .load _ _ _ imm12 => isInt 12 imm12
  | .jalr _ _ imm12 => isInt 12 imm12
  | .store _ _ _ imm12 => isInt 12 imm12
  | .branch _ _ _ offset => isInt 13 offset ∧ offset % 2 = 0
  | .lui _ imm20 => 0 ≤ imm20 ∧ imm20 < 2 ^ 20
  | .auipc _ imm20 => 0 ≤ imm20 ∧ imm20 < 2 ^ 20
  | .jal _ offset => isInt 21 offset ∧ offset % 2 = 0

/-! ### Format classes

Each `let Inst{hi-lo} = value` is an assignment, in the order of the classes.
The base class refers to the field `Opcode`, whose value the derived class sets. -/

def toyrvInst (Opcode : BitVec 7) : List Field := [⟨0, 7, Opcode⟩]

def toyrvInstR (funct7 : BitVec 7) (funct3 : BitVec 3) (opcode : BitVec 7)
    (rd rs1 rs2 : BitVec 5) : List Field :=
  toyrvInst opcode ++ [⟨25, 7, funct7⟩, ⟨20, 5, rs2⟩, ⟨15, 5, rs1⟩, ⟨12, 3, funct3⟩, ⟨7, 5, rd⟩,
    ⟨0, 7, opcode⟩]

def toyrvInstI (funct3 : BitVec 3) (opcode : BitVec 7) (rd rs1 : BitVec 5)
    (imm12 : BitVec 12) : List Field :=
  toyrvInst opcode ++ [⟨20, 12, imm12⟩, ⟨15, 5, rs1⟩, ⟨12, 3, funct3⟩, ⟨7, 5, rd⟩, ⟨0, 7, opcode⟩]

def toyrvInstS (funct3 : BitVec 3) (opcode : BitVec 7) (rs2 rs1 : BitVec 5)
    (imm12 : BitVec 12) : List Field :=
  toyrvInst opcode ++ [⟨25, 7, imm12.extractLsb 11 5⟩, ⟨20, 5, rs2⟩, ⟨15, 5, rs1⟩, ⟨12, 3, funct3⟩,
    ⟨7, 5, imm12.extractLsb 4 0⟩, ⟨0, 7, opcode⟩]

/-- `Inst{6-0}` comes from the base class alone. -/
def toyrvInstB (funct3 : BitVec 3) (opcode : BitVec 7) (rs1 rs2 : BitVec 5)
    (imm12 : BitVec 12) : List Field :=
  toyrvInst opcode ++ [⟨31, 1, imm12.extractLsb 11 11⟩, ⟨25, 6, imm12.extractLsb 9 4⟩, ⟨20, 5, rs2⟩,
    ⟨15, 5, rs1⟩, ⟨12, 3, funct3⟩, ⟨8, 4, imm12.extractLsb 3 0⟩, ⟨7, 1, imm12.extractLsb 10 10⟩]

def toyrvInstU (opcode : BitVec 7) (rd : BitVec 5) (imm20 : BitVec 20) : List Field :=
  toyrvInst opcode ++ [⟨12, 20, imm20⟩, ⟨7, 5, rd⟩, ⟨0, 7, opcode⟩]

def toyrvInstJ (opcode : BitVec 7) (rd : BitVec 5) (imm20 : BitVec 20) : List Field :=
  toyrvInst opcode ++ [⟨31, 1, imm20.extractLsb 19 19⟩, ⟨21, 10, imm20.extractLsb 9 0⟩,
    ⟨20, 1, imm20.extractLsb 10 10⟩, ⟨12, 8, imm20.extractLsb 18 11⟩, ⟨7, 5, rd⟩, ⟨0, 7, opcode⟩]

/-- The assignments of an instruction. The encoder of branch and jump offsets,
`getImmOpValueAsr1`, is generated elsewhere; its result is cut to the field. -/
def Inst.fields (getImmOpValueAsr1 : ℤ → BitVec 32) : Inst (BitVec 5) → List Field
  | .rr op rd rs1 rs2 => toyrvInstR op.funct7 op.funct3 opcOp rd rs1 rs2
  | .ri op rd rs1 imm12 => toyrvInstI op.funct3 opcOpImm rd rs1 (BitVec.ofInt 12 imm12)
  | .load op rd rs1 imm12 => toyrvInstI op.funct3 opcLoad rd rs1 (BitVec.ofInt 12 imm12)
  | .jalr rd rs1 imm12 => toyrvInstI 0b000 opcJalr rd rs1 (BitVec.ofInt 12 imm12)
  | .store op rs2 rs1 imm12 => toyrvInstS op.funct3 opcStore rs2 rs1 (BitVec.ofInt 12 imm12)
  | .branch op rs1 rs2 offset =>
    toyrvInstB op.funct3 opcBranch rs1 rs2 ((getImmOpValueAsr1 offset).setWidth 12)
  | .lui rd imm20 => toyrvInstU opcLui rd (BitVec.ofInt 20 imm20)
  | .auipc rd imm20 => toyrvInstU opcAuipc rd (BitVec.ofInt 20 imm20)
  | .jal rd offset => toyrvInstJ opcJal rd ((getImmOpValueAsr1 offset).setWidth 20)

def Inst.encode (getImmOpValueAsr1 : ℤ → BitVec 32) (I : Inst (BitVec 5)) : Option (BitVec 32) :=
  assemble 32 (I.fields getImmOpValueAsr1)

end ToyRiscv
