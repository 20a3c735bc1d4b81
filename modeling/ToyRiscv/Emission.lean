import ToyRiscv.Lib.OptionTraverse
import ToyRiscv.MCInstLower
import ToyRiscv.TargetInstr

/-!
# Emitting a machine function

`TOYRISCVAsmPrinter::emitInstruction` (TOYRISCVAsmPrinter.cpp:18-27) on every
instruction of every block in layout order, each block under its label. PseudoBR and
PseudoRET become the instructions of their `PseudoInstExpansion`
(TOYRISCVInstrInfo.td:282-290); all others are lowered operand by operand. Debug
instructions leave no code.
-/

namespace ToyRiscv
open Lib.OptionTraverse

/-! ### Functions behind register allocation -/

/-- An instruction with a part of a global's address for its immediate: `MO_HI` in LUI,
`MO_LO` in the others. -/
inductive SymbolInst where
  | lui (rd : Register) (global : ℕ) (offset : BitVec 64)
  | ri (op : AluImmOp) (rd rs1 : Register) (global : ℕ) (offset : BitVec 64)
  | load (op : LoadOp) (rd rs1 : Register) (global : ℕ) (offset : BitVec 64)
  | store (op : StoreOp) (rs2 rs1 : Register) (global : ℕ) (offset : BitVec 64)
  deriving DecidableEq, Repr

namespace SymbolInst

def global : SymbolInst → ℕ
  | .lui _ global _ | .ri _ _ _ global _ | .load _ _ _ global _ | .store _ _ _ global _ => global

def offset : SymbolInst → BitVec 64
  | .lui _ _ offset | .ri _ _ _ _ offset | .load _ _ _ _ offset | .store _ _ _ _ offset => offset

def flags : SymbolInst → TargetFlag
  | .lui .. => .hi
  | .ri .. | .load .. | .store .. => .lo

/-- With a number in place of the symbol. -/
def withImm (imm : ℤ) : SymbolInst → Inst Register
  | .lui rd _ _ => .lui rd imm
  | .ri op rd rs1 _ _ => .ri op rd rs1 imm
  | .load op rd rs1 _ _ => .load op rd rs1 imm
  | .store op rs2 rs1 _ _ => .store op rs2 rs1 imm

def opcode (I : SymbolInst) : Opcode := (I.withImm 0).opcode

def regs (I : SymbolInst) : List Register := (I.withImm 0).defs ++ (I.withImm 0).uses

/-- The part of the address `S` that goes into the field. -/
def part (S : BitVec 64) : SymbolInst → ℤ
  | .lui .. => (hi20 S).toInt
  | .ri .. | .load .. | .store .. => (lo12Sext S).toInt

def resolve (address : MCSymbol → BitVec 64) (I : SymbolInst) : Inst Register :=
  I.withImm (I.part (address (.global I.global) + I.offset))

def toMInst (I : SymbolInst) : MInst Opcode :=
  ⟨I.opcode, I.regs.map (.register · false) ++ [.globalAddress I.global I.offset I.flags]⟩

theorem withImm_isOrdinary (I : SymbolInst) (imm : ℤ) : (I.withImm imm).isOrdinary = true := by
  cases I <;> rfl

end SymbolInst

/-- The operands of a machine instruction, in the order of its operand lists. PHIs and the
select pseudo are gone by now. -/
def MachineInstr.toMInst : MachineInstr → Option (MInst Opcode)
  | .ordinary i => (Opcode.ofNumber i.opcode).map fun op =>
    ⟨op, i.defs.map (.register · false) ++ i.uses.map (.register · false) ++
      i.imms.map .immediate⟩
  | .branch op rs1 rs2 target =>
    some ⟨.branch op, [.register rs1 false, .register rs2 false, .machineBasicBlock target .none]⟩
  | .pseudoBR target => some ⟨.pseudoBR, [.machineBasicBlock target .none]⟩
  | .pseudoRET uses => some ⟨.pseudoRET, uses.map (.register · true)⟩
  | .phi .. | .select .. | .debug .. => none

inductive AllocatedInstr where
  | machine (I : MachineInstr)
  | symbol (I : SymbolInst)
  deriving DecidableEq, Repr

namespace AllocatedInstr

def isDebugInstr : AllocatedInstr → Bool
  | .machine I => I.isDebugInstr
  | .symbol _ => false

def targets : AllocatedInstr → List MBB
  | .machine I => I.targets
  | .symbol _ => []

def toMInst : AllocatedInstr → Option (MInst Opcode)
  | .machine I => I.toMInst
  | .symbol I => some I.toMInst

def resolve (address : MCSymbol → BitVec 64) : AllocatedInstr → MachineInstr
  | .machine I => I
  | .symbol I => (I.resolve address).machineInstr

theorem resolve_isDebugInstr (address : MCSymbol → BitVec 64) (I : AllocatedInstr) :
    (I.resolve address).isDebugInstr = I.isDebugInstr := by
  cases I <;> rfl

theorem resolve_targets (address : MCSymbol → BitVec 64) (I : AllocatedInstr) :
    (I.resolve address).targets = I.targets := by
  cases I <;> rfl

end AllocatedInstr

structure AllocatedFunction where
  layout : List MBB
  insts : MBB → List AllocatedInstr
  succs : MBB → List MBB

def AllocatedFunction.resolve (address : MCSymbol → BitVec 64) (F : AllocatedFunction) :
    MachineFunction where
  layout := F.layout
  insts b := (F.insts b).map (·.resolve address)
  succs := F.succs

@[simp] theorem resolve_layout (address : MCSymbol → BitVec 64) (F : AllocatedFunction) :
    (F.resolve address).layout = F.layout := rfl

@[simp] theorem resolve_insts (address : MCSymbol → BitVec 64) (F : AllocatedFunction) (b : MBB) :
    (F.resolve address).insts b = (F.insts b).map (·.resolve address) := rfl

/-! ### The printer -/

def regZERO : ℕ := 0

def regRA : ℕ := 1

/-- `some none` where the function returns false; `none` on a missing operand or as in
`lowerMachineOperandToMCOperand`. -/
def emitPseudoExpansionLowering (MI : MInst Opcode) : Option (Option (MCInst Opcode)) :=
  match MI.opcode, MI.operands with
  | .pseudoBR, imm20 :: _ =>
    (lowerMachineOperandToMCOperand imm20).map fun op => some ⟨.jal, .reg regZERO :: op.toList⟩
  | .pseudoBR, [] => none
  | .pseudoRET, _ => some (some ⟨.jalr, [.reg regZERO, .reg regRA, .imm 0]⟩)
  | _, _ => some none

def emitInstruction (MI : MInst Opcode) : Option (MCInst Opcode) :=
  match emitPseudoExpansionLowering MI with
  | none => none
  | some (some TmpInst) => some TmpInst
  | some none => lowerMachineInstrToMCInst MI

def emitMachineInstr (I : AllocatedInstr) : Option (MCInst Opcode) :=
  I.toMInst.bind emitInstruction

def emittedInstrs (l : List AllocatedInstr) : List AllocatedInstr :=
  l.filter fun I => !I.isDebugInstr

def emitBlock (l : List AllocatedInstr) : Option (List (MCInst Opcode)) :=
  (emittedInstrs l).mapM emitMachineInstr

/-- Each label with the instructions under it. -/
abbrev AsmFunction := List (MBB × List (MCInst Opcode))

def emitFunction (F : AllocatedFunction) : Option AsmFunction :=
  F.layout.mapM fun b => (emitBlock (F.insts b)).map fun code => (b, code)

theorem emittedInstrs_cons_debug {I : AllocatedInstr} (h : I.isDebugInstr = true)
    (l : List AllocatedInstr) : emittedInstrs (I :: l) = emittedInstrs l := by
  simp [emittedInstrs, h]

theorem emittedInstrs_cons {I : AllocatedInstr} (h : I.isDebugInstr = false)
    (l : List AllocatedInstr) : emittedInstrs (I :: l) = I :: emittedInstrs l := by
  simp [emittedInstrs, h]

/-! ### What it takes -/

/-- What may stand in a function when it is emitted: instructions that neither read nor set the
program counter, over registers, numbers and the two parts of a global's address, the
branches, PseudoBR and PseudoRET, and debug instructions. No pattern selects JAL, JALR or
AUIPC. -/
inductive AllocatedInstr.Emittable : AllocatedInstr → Prop
  | ordinary (I : Inst Register) (h : I.isOrdinary = true) :
    Emittable (.machine I.machineInstr)
  | symbol (I : SymbolInst) : Emittable (.symbol I)
  | branch (op : BranchOp) (rs1 rs2 : Register) (target : MBB) :
    Emittable (.machine (.branch op rs1 rs2 target))
  | pseudoBR (target : MBB) : Emittable (.machine (.pseudoBR target))
  | pseudoRET (uses : List Register) : Emittable (.machine (.pseudoRET uses))
  | debug (isDebugValue : Bool) (regs : List Register) :
    Emittable (.machine (.debug isDebugValue regs))

structure AllocatedFunction.Emittable (F : AllocatedFunction) : Prop where
  layout_ne : F.layout ≠ []
  layout_nodup : F.layout.Nodup
  insts : ∀ b ∈ F.layout, ∀ I ∈ F.insts b, I.Emittable
  targets : ∀ b ∈ F.layout, ∀ I ∈ F.insts b, ∀ t ∈ I.targets, t ∈ F.layout

theorem AllocatedInstr.Emittable.isPhi {I : AllocatedInstr} (h : I.Emittable)
    (address : MCSymbol → BitVec 64) : (I.resolve address).isPhi = false := by
  cases h <;> rfl

theorem lowerOperands_regs (regs : List ℕ) (operands : List MachineOperand) :
    lowerOperands (regs.map (.register · false) ++ operands) =
      (lowerOperands operands).map (regs.map .reg ++ ·) := by
  induction regs with
  | nil => exact Option.map_id'.symm
  | cons r regs ih =>
    rw [List.map_cons, List.cons_append, lowerOperands, ih, if_neg Bool.false_ne_true,
      Option.map_map]
    rfl

theorem lowerOperands_imms (imms : List ℤ) :
    lowerOperands (imms.map .immediate) = some (imms.map .imm) := by
  induction imms with
  | nil => rfl
  | cons imm imms ih =>
    rw [List.map_cons, lowerOperands, ih]
    rfl

theorem emitPseudoExpansionLowering_inst {ρ : Type} (I : Inst ρ) (operands : List MachineOperand) :
    emitPseudoExpansionLowering ⟨I.opcode, operands⟩ = some none := by
  cases I <;> rfl

theorem emitMachineInstr_ordinary (I : Inst Register) :
    emitMachineInstr (.machine I.machineInstr) =
      some ⟨I.opcode, (I.defs ++ I.uses).map .reg ++ I.imms.map .imm⟩ := by
  have hnumber : Opcode.ofNumber I.toOrdinary.opcode = some I.opcode := I.opcode.ofNumber_number
  have hoperands : I.toOrdinary.defs.map (MachineOperand.register · false) ++
      I.toOrdinary.uses.map (.register · false) ++ I.toOrdinary.imms.map .immediate =
      (I.defs ++ I.uses).map (.register · false) ++ I.imms.map .immediate := by
    rw [List.map_append]
    rfl
  rw [emitMachineInstr, AllocatedInstr.toMInst, Inst.machineInstr, MachineInstr.toMInst, hnumber,
    Option.map_some, Option.bind_some, hoperands, emitInstruction,
    emitPseudoExpansionLowering_inst]
  dsimp only
  rw [lowerMachineInstrToMCInst, lowerOperands_regs, lowerOperands_imms]
  rfl

/-- The address of a global, an offset added unless it is zero. -/
def addressExpr (global : ℕ) (offset : BitVec 64) : MCExpr :=
  if offset ≠ 0#64 then .binary .add (.symbolRef (.global global)) (.constant offset)
  else .symbolRef (.global global)

def SymbolInst.kind : SymbolInst → VariantKind
  | .lui .. => .hi
  | .ri .. | .load .. | .store .. => .lo

theorem emitMachineInstr_symbol (I : SymbolInst) :
    emitMachineInstr (.symbol I) = some ⟨I.opcode,
      I.regs.map .reg ++ [.expr (.target I.kind (addressExpr I.global I.offset))]⟩ := by
  have hoperand : lowerOperands [.globalAddress I.global I.offset I.flags] =
      some [.expr (.target I.kind (addressExpr I.global I.offset))] := by
    cases I <;> rfl
  rw [emitMachineInstr, AllocatedInstr.toMInst, Option.bind_some, SymbolInst.toMInst,
    emitInstruction, SymbolInst.opcode, emitPseudoExpansionLowering_inst]
  dsimp only
  rw [lowerMachineInstrToMCInst, lowerOperands_regs, hoperand]
  rfl

/-- No instruction of an emittable function stops the printer. -/
theorem AllocatedInstr.Emittable.emitted {I : AllocatedInstr} (h : I.Emittable)
    (hdebug : I.isDebugInstr = false) : ∃ m, emitMachineInstr I = some m := by
  cases h with
  | ordinary I => exact ⟨_, emitMachineInstr_ordinary I⟩
  | symbol I => exact ⟨_, emitMachineInstr_symbol I⟩
  | branch | pseudoBR | pseudoRET => exact ⟨_, rfl⟩
  | debug => cases hdebug

theorem emitBlock_isSome {l : List AllocatedInstr} (h : ∀ I ∈ l, I.Emittable) :
    ∃ code, emitBlock l = some code := by
  apply exists_mapM
  intro I hI
  obtain ⟨hmem, hdebug⟩ := List.mem_filter.mp hI
  exact (h I hmem).emitted (by simpa using hdebug)

def blockCode (F : AllocatedFunction) (b : MBB) : List (MCInst Opcode) :=
  (emitBlock (F.insts b)).getD []

theorem AllocatedFunction.Emittable.emitBlock {F : AllocatedFunction} (h : F.Emittable) {b : MBB}
    (hb : b ∈ F.layout) : emitBlock (F.insts b) = some (blockCode F b) := by
  obtain ⟨code, hcode⟩ := emitBlock_isSome (h.insts b hb)
  rw [blockCode, hcode]
  rfl

theorem AllocatedFunction.Emittable.emitFunction {F : AllocatedFunction} (h : F.Emittable) :
    emitFunction F = some (F.layout.map fun b => (b, blockCode F b)) := by
  have hall : ∀ b ∈ F.layout, ((ToyRiscv.emitBlock (F.insts b)).map fun code => (b, code)) =
      some (b, blockCode F b) := by
    intro b hb
    rw [h.emitBlock hb]
    rfl
  exact mapM_eq_map hall

/-- `A0` times the word at `G + 36`, by adding; the block behind the loop has no code. -/
def sumGlobal : AllocatedFunction where
  layout := [0, 1, 2, 3]
  insts
    | 0 => [.symbol (.lui 11 0 36#64), .symbol (.load .lw 11 11 0 36#64),
      .machine (Inst.ri .addi 12 0 0).machineInstr]
    | 1 => [.machine (.debug true [12]), .machine (Inst.rr .add 12 12 11).machineInstr,
      .machine (Inst.ri .addi 10 10 (-1)).machineInstr, .machine (.branch .bne 10 0 1)]
    | 3 => [.machine (Inst.ri .addi 10 12 0).machineInstr, .machine (.pseudoRET [10])]
    | _ => []
  succs
    | 0 => [1]
    | 1 => [1, 2]
    | 2 => [3]
    | _ => []

theorem sumGlobal_emittable : sumGlobal.Emittable where
  layout_ne := by decide
  layout_nodup := by decide
  insts := by
    intro b hb I hI
    simp only [sumGlobal, List.mem_cons, List.not_mem_nil, or_false] at hb
    rcases hb with rfl | rfl | rfl | rfl <;>
      simp only [sumGlobal, List.mem_cons, List.not_mem_nil, or_false] at hI
    · rcases hI with rfl | rfl | rfl
      · exact .symbol _
      · exact .symbol _
      · exact .ordinary _ rfl
    · rcases hI with rfl | rfl | rfl | rfl
      · exact .debug true [12]
      · exact .ordinary _ rfl
      · exact .ordinary _ rfl
      · exact .branch .bne 10 0 1
    · rcases hI with rfl | rfl
      · exact .ordinary _ rfl
      · exact .pseudoRET [10]
  targets := by decide

end ToyRiscv
