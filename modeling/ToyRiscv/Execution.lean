import ToyRiscv.Instructions
import ToyRiscv.Lib.ByteMemory

/-!
# Executing instructions

The base integer semantics (RV32I for `w = 32`, RV64I for `w = 64`) of the
instructions of TOYRISCVInstrInfo.td. The registers are of any type, physical or
virtual; register `0` is ZERO. Of an immediate operand only the bits of its field
matter.
-/

namespace ToyRiscv
open Lib.ByteMemory

structure ArchState (ρ : Type) (w : ℕ) where
  regs : ρ → BitVec w
  mem : Mem w
  pc : BitVec w

section Registers
variable {ρ : Type} {w : ℕ}

def ArchState.next (s : ArchState ρ w) : ArchState ρ w := { s with pc := s.pc + 4#w }

@[simp] theorem mem_next (s : ArchState ρ w) : s.next.mem = s.mem := rfl

variable [DecidableEq ρ]

def ArchState.set (s : ArchState ρ w) (r : ρ) (v : BitVec w) : ArchState ρ w :=
  { s with regs := Function.update s.regs r v }

@[simp] theorem mem_set (s : ArchState ρ w) (r : ρ) (v : BitVec w) : (s.set r v).mem = s.mem := rfl

variable [Zero ρ]

def ArchState.get (s : ArchState ρ w) (r : ρ) : BitVec w := if r = 0 then 0#w else s.regs r

@[simp] theorem get_zero (s : ArchState ρ w) : s.get 0 = 0#w := if_pos rfl

theorem get_set_self (s : ArchState ρ w) {r : ρ} (hr : r ≠ 0) (v : BitVec w) :
    (s.set r v).get r = v := by
  rw [ArchState.get, if_neg hr]
  exact Function.update_self r v s.regs

theorem get_set_of_ne (s : ArchState ρ w) {q r : ρ} (hqr : q ≠ r) (v : BitVec w) :
    (s.set r v).get q = s.get q := by
  have h : (s.set r v).regs q = s.regs q := by simp only [ArchState.set, Function.update_of_ne hqr]
  rw [ArchState.get, ArchState.get, h]

@[simp] theorem get_next (s : ArchState ρ w) (r : ρ) : s.next.get r = s.get r := rfl

end Registers

/-! ### Operands and operations -/

def imm12Value (w : ℕ) (imm12 : ℤ) : BitVec w := (BitVec.ofInt 12 imm12).signExtend w

/-- A 20-bit upper immediate: bits 31..12 of a 32-bit word, sign-extended. -/
def imm20Value (w : ℕ) (imm20 : ℤ) : BitVec w :=
  (BitVec.ofInt 20 imm20 ++ 0#12 : BitVec 32).signExtend w

def boolValue (w : ℕ) (c : Bool) : BitVec w := if c then 1#w else 0#w

/-- Shifts take the low `log2 w` bits of the amount. -/
def AluOp.value {w : ℕ} (a b : BitVec w) : AluOp → BitVec w
  | .add => a + b
  | .sub => a - b
  | .sll => a <<< (b.toNat % w)
  | .slt => boolValue w (a.slt b)
  | .sltu => boolValue w (a.ult b)
  | .xor => a ^^^ b
  | .srl => a >>> (b.toNat % w)
  | .sra => a.sshiftRight (b.toNat % w)
  | .or => a ||| b
  | .and => a &&& b

def AluImmOp.value {w : ℕ} (a b : BitVec w) : AluImmOp → BitVec w
  | .addi => a + b
  | .slti => boolValue w (a.slt b)
  | .sltiu => boolValue w (a.ult b)
  | .xori => a ^^^ b
  | .ori => a ||| b
  | .andi => a &&& b

def LoadOp.value {w : ℕ} (m : Mem w) (a : BitVec w) : LoadOp → BitVec w
  | .lb => (readBytes m a 1).signExtend w
  | .lh => (readBytes m a 2).signExtend w
  | .lw => (readBytes m a 4).signExtend w
  | .lbu => (readBytes m a 1).setWidth w
  | .lhu => (readBytes m a 2).setWidth w

def StoreOp.bytes : StoreOp → ℕ
  | .sb => 1
  | .sh => 2
  | .sw => 4

/-! ### Steps and straight-line runs -/

section Run
variable {ρ : Type} [Zero ρ] [DecidableEq ρ] {w : ℕ}

def Inst.exec (s : ArchState ρ w) : Inst ρ → ArchState ρ w
  | .rr op rd rs1 rs2 => (s.set rd (op.value (s.get rs1) (s.get rs2))).next
  | .ri op rd rs1 imm12 => (s.set rd (op.value (s.get rs1) (imm12Value w imm12))).next
  | .load op rd rs1 imm12 => (s.set rd (op.value s.mem (s.get rs1 + imm12Value w imm12))).next
  | .jalr rd rs1 imm12 =>
    { s.set rd (s.pc + 4#w) with pc := (s.get rs1 + imm12Value w imm12) &&& ~~~1#w }
  | .store op rs2 rs1 imm12 =>
    { s.next with mem := writeBytes s.mem (s.get rs1 + imm12Value w imm12) (s.get rs2) op.bytes }
  | .branch op rs1 rs2 offset =>
    if op.taken (s.get rs1) (s.get rs2) then
      { s with pc := s.pc + (BitVec.ofInt 13 offset).signExtend w }
    else s.next
  | .lui rd imm20 => (s.set rd (imm20Value w imm20)).next
  | .auipc rd imm20 => (s.set rd (s.pc + imm20Value w imm20)).next
  | .jal rd offset =>
    { s.set rd (s.pc + 4#w) with pc := s.pc + (BitVec.ofInt 21 offset).signExtend w }

def run (code : List (Inst ρ)) (s : ArchState ρ w) : ArchState ρ w :=
  code.foldl (fun s I => I.exec s) s

@[simp] theorem run_nil (s : ArchState ρ w) : run [] s = s := rfl

@[simp] theorem run_cons (I : Inst ρ) (code : List (Inst ρ)) (s : ArchState ρ w) :
    run (I :: code) s = run code (I.exec s) := rfl

@[simp] theorem run_append (c d : List (Inst ρ)) (s : ArchState ρ w) :
    run (c ++ d) s = run d (run c s) := List.foldl_append ..

def Inst.isStraight : Inst ρ → Bool
  | .jalr .. | .branch .. | .jal .. => false
  | _ => true

theorem exec_pc (s : ArchState ρ w) {I : Inst ρ} (h : I.isStraight = true) :
    (I.exec s).pc = s.pc + 4#w := by
  cases I <;> first | rfl | cases h

end Run

/-! ### Immediates that fit -/

theorem imm12Value_of_isInt {w : ℕ} (hw : 12 ≤ w) {v : ℤ} (hv : isInt 12 v) :
    imm12Value w v = BitVec.ofInt w v := by
  apply BitVec.eq_of_toInt_eq
  rw [imm12Value, BitVec.toInt_signExtend_of_le hw, toInt_ofInt_of_isInt (by decide) hv,
    toInt_ofInt_of_isInt (by omega) (isInt_mono hw hv)]

theorem imm12Value_toInt {w : ℕ} (hw : 12 ≤ w) {c : BitVec w} (hc : isInt 12 c.toInt) :
    imm12Value w c.toInt = c := by
  rw [imm12Value_of_isInt hw hc, BitVec.ofInt_toInt]

@[simp] theorem imm12Value_zero (w : ℕ) : imm12Value w 0 = 0#w := by
  apply BitVec.eq_of_getLsbD_eq
  intro i hi
  rw [imm12Value, BitVec.getLsbD_signExtend]
  simp

end ToyRiscv
