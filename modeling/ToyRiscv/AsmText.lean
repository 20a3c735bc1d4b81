import ToyRiscv.Emission
import ToyRiscv.Lib.Text

/-!
# The text of an instruction

`TOYRISCVInstPrinter` (MCTargetDesc/TOYRISCVInstPrinter.cpp:28-60) over the AsmStrings
of TOYRISCVInstrInfo.td, and `TOYRISCVMCExpr::printImpl`
(MCTargetDesc/TOYRISCVMCExpr.cpp:33-45) for a symbol under a modifier. No record has an
alias. How a symbol itself is written is a parameter.
-/

namespace ToyRiscv
open Lib.OptionTraverse Lib.Text

/-! ### The printer -/

def Opcode.opcodestr : Opcode → String
  | .rr .add => "add"
  | .rr .sub => "sub"
  | .rr .sll => "sll"
  | .rr .slt => "slt"
  | .rr .sltu => "sltu"
  | .rr .xor => "xor"
  | .rr .srl => "srl"
  | .rr .sra => "sra"
  | .rr .or => "or"
  | .rr .and => "and"
  | .ri .addi => "addi"
  | .ri .slti => "slti"
  | .ri .sltiu => "sltiu"
  | .ri .xori => "xori"
  | .ri .ori => "ori"
  | .ri .andi => "andi"
  | .jalr => "jalr"
  | .load .lb => "lb"
  | .load .lh => "lh"
  | .load .lw => "lw"
  | .load .lbu => "lbu"
  | .load .lhu => "lhu"
  | .store .sb => "sb"
  | .store .sh => "sh"
  | .store .sw => "sw"
  | .branch .beq => "beq"
  | .branch .bne => "bne"
  | .branch .blt => "blt"
  | .branch .bge => "bge"
  | .branch .bltu => "bltu"
  | .branch .bgeu => "bgeu"
  | .lui => "lui"
  | .auipc => "auipc"
  | .jal => "jal"
  | .pseudoBR | .pseudoRET => ""

/-- Text as it stands, or an operand by its place in `outs` and `ins`. -/
inductive AsmPiece where
  | text (s : String)
  | operand (i : ℕ)
  deriving DecidableEq, Repr

def Opcode.argstr : Opcode → List AsmPiece
  | .rr _ => [.text "\t", .operand 0, .text ", ", .operand 1, .text ", ", .operand 2]
  | .ri _ | .branch _ => [.operand 0, .text ", ", .operand 1, .text ", ", .operand 2]
  | .load _ | .jalr | .store _ =>
    [.operand 0, .text ", ", .operand 2, .text "(", .operand 1, .text ")"]
  | .lui | .auipc | .jal => [.operand 0, .text ", ", .operand 1]
  | .pseudoBR | .pseudoRET => []

def Opcode.asmString (opc : Opcode) : List AsmPiece :=
  .text opc.opcodestr :: .text "\t" :: opc.argstr

/-- The names under `ABIRegAltName`. -/
def registerNames : List String :=
  ["zero", "ra", "sp", "gp", "tp", "t0", "t1", "t2", "s0", "s1", "a0", "a1", "a2", "a3", "a4", "a5",
    "a6", "a7", "s2", "s3", "s4", "s5", "s6", "s7", "s8", "s9", "s10", "s11", "t3", "t4", "t5",
    "t6"]

def getRegisterName (RegNo : ℕ) : Option String := registerNames[RegNo]?

def printRegName (RegNo : ℕ) : Option (List Char) :=
  (getRegisterName RegNo).map fun n => n.toList.map Char.toLower

/-- `none` where the switch reaches `llvm_unreachable`. -/
def getVariantKindName : VariantKind → Option String
  | .invalid | .none => none
  | .lo => some "lo"
  | .hi => some "hi"
  | .pcrelLo => some "pcrel_lo"
  | .pcrelHi => some "pcrel_hi"
  | .gotHi => some "got_pcrel_hi"
  | .tprelLo => some "tprel_lo"
  | .tprelHi => some "tprel_hi"
  | .tprelAdd => some "tprel_add"
  | .tlsGotHi => some "tls_ie_pcrel_hi"
  | .tlsGdHi => some "tls_gd_pcrel_hi"
  | .call => some "call"
  | .callPlt => some "call_plt"
  | .pcrel32 => some "32_pcrel"

def VariantKind.hasVariant (Kind : VariantKind) : Bool :=
  Kind ≠ .none && Kind ≠ .call && Kind ≠ .callPlt

def printImpl (Kind : VariantKind) (Expr : List Char) : Option (List Char) :=
  let plt := if Kind = .callPlt then "@plt".toList else []
  if Kind.hasVariant then
    (getVariantKindName Kind).map fun n => '%' :: n.toList ++ '(' :: (Expr ++ plt ++ [')'])
  else some (Expr ++ plt)

/-- `X-42`, not `X+-42`. -/
def printOffset (v : ℤ) : List Char := if v < 0 then decimal v else '+' :: decimal v

section Printer
variable (name : MCSymbol → List Char)

/-- The expressions an operand is lowered to; others do not reach the printer. -/
def printExpr : MCExpr → Option (List Char)
  | .symbolRef sym => some (name sym)
  | .binary .add (.symbolRef sym) (.constant c) => some (name sym ++ printOffset c.toInt)
  | .target Kind sub => (printExpr sub).bind (printImpl Kind)
  | _ => none

def printOperand : MCOperand → Option (List Char)
  | .reg r => printRegName r
  | .imm i => some (decimal i)
  | .expr e => printExpr name e

def AsmPiece.print (operands : List MCOperand) : AsmPiece → Option (List Char)
  | .text s => some s.toList
  | .operand i => operands[i]?.bind (printOperand name)

def printInst (MI : MCInst Opcode) : Option (List Char) :=
  (MI.opcode.asmString.mapM (AsmPiece.print name MI.operands)).map List.flatten

/-- A line for each instruction, less the blanks it starts with. -/
def printInsts (code : List (MCInst Opcode)) : Option (List Char) :=
  (code.mapM (printInst name)).map unlines

end Printer

example : printInst (fun _ => "counter".toList)
    ⟨.load .lw, [.reg 10, .reg 5, .expr (.target .lo (.symbolRef (.global 0)))]⟩ =
      some "lw\ta0, %lo(counter)(t0)".toList := by decide

end ToyRiscv
