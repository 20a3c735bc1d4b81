import ToyRiscv.Emission
import ToyRiscv.SelectSplit
import ToyRiscv.Lib.StarSimulation

/-!
# Running the emitted code

The meaning of what the printer emits: instructions of four bytes one behind the
other from `base` on, labels at the address of what follows them, branch and jump
operands the distance to their target, and a symbol operand the part of the symbol's
address that its modifier picks. An emittable function and its code run alike.
-/

namespace ToyRiscv
open Lib.ByteMemory Lib.OptionTraverse Lib.StarSimulation Relation

/-! ### Addresses -/

def pcAt (base : BitVec 64) (k : ℕ) : BitVec 64 := base + BitVec.ofNat 64 (4 * k)

/-- How many instructions stand before a label. -/
def labelIndex (b : MBB) : AsmFunction → Option ℕ
  | [] => none
  | (c, code) :: P => if c = b then some 0 else (labelIndex b P).map (code.length + ·)

def LabelsPlaced (base : BitVec 64) (P : AsmFunction) (address : MCSymbol → BitVec 64) : Prop :=
  ∀ b k, labelIndex b P = some k → address (.block b) = pcAt base k

/-- A branch or jump operand of `n` bits at `pc`; `none` if it does not fit. -/
def pcRelative (n : ℕ) (address : MCSymbol → BitVec 64) (pc : BitVec 64) : MCOperand → Option ℤ
  | .expr e => (e.resolve address).bind fun v =>
    if isInt n (v - pc).toInt then some (v - pc).toInt else none
  | .imm v => if isInt n v then some v else none
  | .reg _ => none

/-- The number in an immediate field, or what a symbol operand is resolved to; `none` if the
field does not hold that. -/
def immediate (holds : ℤ → Prop) [DecidablePred holds] (address : MCSymbol → BitVec 64) :
    MCOperand → Option ℤ
  | .imm v => some v
  | .expr e => (e.resolve address).bind fun v => if holds v.toInt then some v.toInt else none
  | .reg _ => none

def simm12 (address : MCSymbol → BitVec 64) (op : MCOperand) : Option ℤ :=
  immediate (isInt 12) address op

def simm20u (address : MCSymbol → BitVec 64) (op : MCOperand) : Option ℤ :=
  immediate (fun v => 0 ≤ v ∧ v < 2 ^ 20) address op

def MCInst.assemble (address : MCSymbol → BitVec 64) (pc : BitVec 64) (m : MCInst Opcode) :
    Option (Inst Register) :=
  match m.opcode, m.operands with
  | .rr op, [.reg rd, .reg rs1, .reg rs2] => some (.rr op rd rs1 rs2)
  | .ri op, [.reg rd, .reg rs1, imm12] => (simm12 address imm12).map (.ri op rd rs1)
  | .load op, [.reg rd, .reg rs1, imm12] => (simm12 address imm12).map (.load op rd rs1)
  | .jalr, [.reg rd, .reg rs1, imm12] => (simm12 address imm12).map (.jalr rd rs1)
  | .store op, [.reg rs2, .reg rs1, imm12] => (simm12 address imm12).map (.store op rs2 rs1)
  | .branch op, [.reg rs1, .reg rs2, offset] =>
    (pcRelative 13 address pc offset).map (.branch op rs1 rs2)
  | .lui, [.reg rd, imm20] => (simm20u address imm20).map (.lui rd)
  | .auipc, [.reg rd, imm20] => (simm20u address imm20).map (.auipc rd)
  | .jal, [.reg rd, offset] => (pcRelative 21 address pc offset).map (.jal rd)
  | _, _ => none

def AsmFunction.code (P : AsmFunction) : List (MCInst Opcode) := P.flatMap Prod.snd

def assembleFunction (address : MCSymbol → BitVec 64) (base : BitVec 64) (P : AsmFunction) :
    Option (List (Inst Register)) :=
  P.code.zipIdx.mapM fun mk => mk.1.assemble address (pcAt base mk.2)

/-! ### The machine -/

section Machine
variable {w : ℕ}

def fetch (code : List (Inst Register)) (base pc : BitVec w) : Option (Inst Register) :=
  if (pc - base).toNat % 4 = 0 then code[(pc - base).toNat / 4]? else none

/-- JALR leaves the function. -/
def stepInst (t : ArchState Register w) (I : Inst Register) :
    ArchState Register w ⊕ ArchState Register w :=
  match I with
  | .jalr .. => .inr (I.exec t)
  | _ => .inl (I.exec t)

def machineStep (code : List (Inst Register)) (base : BitVec w) (t : ArchState Register w) :
    Option (ArchState Register w ⊕ ArchState Register w) :=
  (fetch code base t.pc).map (stepInst t)

/-- A machine function as a machine that goes from block to block. -/
def blockMachine {μ : Type} (sem : InstrSem w μ) (F : MachineFunction) (s : BlockState w μ) :
    Option (BlockState w μ ⊕ Store w μ) :=
  (execBlock sem F s).map fun e =>
    match e.next with
    | some s' => .inl s'
    | none => .inr e.store

theorem fetch_at {code : List (Inst Register)} {base : BitVec w} {k : ℕ} (hk : 4 * k < 2 ^ w) :
    fetch code base (base + BitVec.ofNat w (4 * k)) = code[k]? := by
  have hsub : base + BitVec.ofNat w (4 * k) - base = BitVec.ofNat w (4 * k) := by
    rw [BitVec.add_comm, BitVec.add_sub_cancel]
  rw [fetch, hsub, BitVec.toNat_ofNat, Nat.mod_eq_of_lt hk, Nat.mul_mod_right, if_pos rfl,
    Nat.mul_div_cancel_left k (by decide)]

end Machine

/-! ### Symbols -/

theorem resolve_addressExpr (address : MCSymbol → BitVec 64) (global : ℕ) (offset : BitVec 64) :
    (addressExpr global offset).resolve address = some (address (.global global) + offset) := by
  rw [addressExpr]
  split
  · rfl
  · next h => rw [not_not.mp h, BitVec.add_zero, MCExpr.resolve]

/-- A part of any address that the field holds. -/
theorem immediate_addressExpr {holds : ℤ → Prop} [DecidablePred holds] {kind : VariantKind}
    {part : BitVec 64 → BitVec 64} (hkind : ∀ S, evaluateAsInt64 kind S = some (part S))
    (hpart : ∀ S, holds (part S).toInt) (address : MCSymbol → BitVec 64) (global : ℕ)
    (offset : BitVec 64) :
    immediate holds address (.expr (.target kind (addressExpr global offset))) =
      some (part (address (.global global) + offset)).toInt := by
  rw [immediate, MCExpr.resolve, resolve_addressExpr, Option.bind_some, hkind, Option.bind_some,
    if_pos (hpart _)]

theorem simm12_lo (address : MCSymbol → BitVec 64) (global : ℕ) (offset : BitVec 64) :
    simm12 address (.expr (.target .lo (addressExpr global offset))) =
      some (lo12Sext (address (.global global) + offset)).toInt := by
  refine immediate_addressExpr evaluateAsInt64_lo (fun S => ?_) address global offset
  rw [lo12Sext_toInt]
  exact lo12_isInt S.toInt

theorem simm20u_hi (address : MCSymbol → BitVec 64) (global : ℕ) (offset : BitVec 64) :
    simm20u address (.expr (.target .hi (addressExpr global offset))) =
      some (hi20 (address (.global global) + offset)).toInt := by
  refine immediate_addressExpr evaluateAsInt64_hi (fun S => ?_) address global offset
  rw [hi20_toInt]
  exact hi20_range S.toInt

/-- Wherever the symbol lies, the part of its address fits the field. -/
theorem SymbolInst.assembled (address : MCSymbol → BitVec 64) (pc : BitVec 64) (I : SymbolInst) :
    (emitMachineInstr (.symbol I)).bind (·.assemble address pc) = some (I.resolve address) := by
  rw [emitMachineInstr_symbol, Option.bind_some]
  cases I with
  | lui rd global offset => exact congrArg (Option.map _) (simm20u_hi address global offset)
  | ri op rd rs1 global offset | load op rd rs1 global offset | store op rs2 rs1 global offset =>
    exact congrArg (Option.map _) (simm12_lo address global offset)

/-! ### Offsets -/

theorem ofInt_signExtend {n w : ℕ} (hn : 0 < n) (hw : n ≤ w) {v : ℤ} (hv : isInt n v) :
    (BitVec.ofInt n v).signExtend w = BitVec.ofInt w v := by
  apply BitVec.eq_of_toInt_eq
  rw [BitVec.toInt_signExtend_of_le hw, toInt_ofInt_of_isInt hn hv,
    toInt_ofInt_of_isInt (by omega) (isInt_mono hw hv)]

theorem setWidth_pcAt {w : ℕ} (hw : w ≤ 64) (base : BitVec 64) (k : ℕ) :
    (pcAt base k).setWidth w = base.setWidth w + BitVec.ofNat w (4 * k) := by
  rw [pcAt, BitVec.setWidth_add _ _ hw, BitVec.setWidth_ofNat_of_le hw]

/-- A taken branch lands on its label. -/
theorem add_offset {n w : ℕ} (hn : 0 < n) (hnw : n ≤ w) (hw : w ≤ 64) {v pc : BitVec 64}
    (hv : isInt n (v - pc).toInt) :
    pc.setWidth w + (BitVec.ofInt n (v - pc).toInt).signExtend w = v.setWidth w := by
  have hwidth : BitVec.ofInt w (v - pc).toInt = (v - pc).setWidth w := by
    rw [← setWidth_ofInt hw, BitVec.ofInt_toInt]
  rw [ofInt_signExtend hn hnw hv, hwidth, ← BitVec.setWidth_add _ _ hw, BitVec.add_comm,
    BitVec.sub_add_cancel]

end ToyRiscv
