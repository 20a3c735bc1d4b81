import ToyRiscv.Execution
import ToyRiscv.MachineSemantics

/-!
# Machine instructions of the target

The operand lists and flags TOYRISCVInstrInfo.td gives each instruction, and that
they are right about what its execution reads and writes. So a machine function
over physical registers runs by the instruction set: `isaSem` is the effect of its
ordinary instructions.
-/

namespace ToyRiscv
open Lib.ByteMemory

/-- The records of TOYRISCVInstrInfo.td that reach the printer, in its order. -/
inductive Opcode where
  | rr (op : AluOp)
  | ri (op : AluImmOp)
  | jalr
  | load (op : LoadOp)
  | store (op : StoreOp)
  | branch (op : BranchOp)
  | lui
  | auipc
  | jal
  | pseudoBR
  | pseudoRET
  deriving DecidableEq, Repr

def Opcode.all : List Opcode :=
  [AluOp.add, .sub, .sll, .slt, .sltu, .xor, .srl, .sra, .or, .and].map .rr ++ [.jalr] ++
  [AluImmOp.addi, .slti, .sltiu, .xori, .ori, .andi].map .ri ++
  [LoadOp.lb, .lh, .lw, .lbu, .lhu].map .load ++ [StoreOp.sb, .sh, .sw].map .store ++
  [BranchOp.beq, .bne, .blt, .bge, .bltu, .bgeu].map .branch ++
  [.lui, .auipc, .jal, .pseudoBR, .pseudoRET]

def Opcode.number (op : Opcode) : ℕ := Opcode.all.idxOf op

def Opcode.ofNumber (n : ℕ) : Option Opcode := Opcode.all[n]?

theorem Opcode.mem_all (op : Opcode) : op ∈ Opcode.all := by
  cases op with
  | rr op | ri op | load op | store op | branch op => cases op <;> decide
  | jalr | lui | auipc | jal | pseudoBR | pseudoRET => decide

theorem Opcode.ofNumber_number (op : Opcode) : Opcode.ofNumber op.number = some op :=
  List.getElem?_idxOf op.mem_all

/-! ### Operand lists and flags -/

namespace Inst
variable {ρ : Type}

def opcode : Inst ρ → Opcode
  | .rr op .. => .rr op
  | .ri op .. => .ri op
  | .load op .. => .load op
  | .jalr .. => .jalr
  | .store op .. => .store op
  | .branch op .. => .branch op
  | .lui .. => .lui
  | .auipc .. => .auipc
  | .jal .. => .jal

/-- The `outs` list. -/
def defs : Inst ρ → List ρ
  | .rr _ rd _ _ | .ri _ rd _ _ | .load _ rd _ _ | .jalr rd _ _ | .lui rd _ | .auipc rd _
  | .jal rd _ => [rd]
  | .store .. | .branch .. => []

/-- The registers of the `ins` list; immediates follow them. -/
def uses : Inst ρ → List ρ
  | .rr _ _ rs1 rs2 => [rs1, rs2]
  | .ri _ _ rs1 _ | .load _ _ rs1 _ | .jalr _ rs1 _ => [rs1]
  | .store _ rs2 rs1 _ => [rs2, rs1]
  | .branch _ rs1 rs2 _ => [rs1, rs2]
  | .lui .. | .auipc .. | .jal .. => []

def imms : Inst ρ → List ℤ
  | .rr .. => []
  | .ri _ _ _ imm12 | .load _ _ _ imm12 | .jalr _ _ imm12 | .store _ _ _ imm12 => [imm12]
  | .branch _ _ _ offset | .jal _ offset => [offset]
  | .lui _ imm20 | .auipc _ imm20 => [imm20]

def mayLoad : Inst ρ → Bool
  | .load .. => true
  | _ => false

def mayStore : Inst ρ → Bool
  | .store .. => true
  | _ => false

/-- The instruction an opcode makes of its operands. -/
def ofOperands : Opcode → List ρ → List ρ → List ℤ → Option (Inst ρ)
  | .rr op, [rd], [rs1, rs2], [] => some (.rr op rd rs1 rs2)
  | .ri op, [rd], [rs1], [imm12] => some (.ri op rd rs1 imm12)
  | .load op, [rd], [rs1], [imm12] => some (.load op rd rs1 imm12)
  | .jalr, [rd], [rs1], [imm12] => some (.jalr rd rs1 imm12)
  | .store op, [], [rs2, rs1], [imm12] => some (.store op rs2 rs1 imm12)
  | .branch op, [], [rs1, rs2], [offset] => some (.branch op rs1 rs2 offset)
  | .lui, [rd], [], [imm20] => some (.lui rd imm20)
  | .auipc, [rd], [], [imm20] => some (.auipc rd imm20)
  | .jal, [rd], [], [offset] => some (.jal rd offset)
  | _, _, _, _ => none

theorem ofOperands_self (I : Inst ρ) : ofOperands I.opcode I.defs I.uses I.imms = some I := by
  cases I <;> rfl

/-- Neither reads nor sets the program counter. -/
def isOrdinary : Inst ρ → Bool
  | .jalr .. | .branch .. | .jal .. | .auipc .. => false
  | _ => true

theorem isStraight_of_isOrdinary {I : Inst ρ} (h : I.isOrdinary = true) : I.isStraight = true := by
  cases I with
  | jalr | branch | jal | auipc => cases h
  | rr | ri | load | store | lui => rfl

end Inst

/-! ### What an instruction reads and writes -/

section Frame
variable {ρ : Type} [Zero ρ] [DecidableEq ρ] {w : ℕ}

theorem get_set (s : ArchState ρ w) (q r : ρ) (v : BitVec w) :
    (s.set r v).get q = if q = 0 then 0#w else if q = r then v else s.get q := by
  by_cases hq : q = 0
  · rw [if_pos hq, hq, get_zero]
  · rw [if_neg hq]
    by_cases hqr : q = r
    · rw [if_pos hqr, hqr]
      exact get_set_self s (hqr ▸ hq) v
    · rw [if_neg hqr, get_set_of_ne s hqr]

/-- Registers outside the `outs` list keep their value. -/
theorem exec_get_of_notMem_defs (s : ArchState ρ w) (I : Inst ρ) {r : ρ} (h : r ∉ I.defs) :
    (I.exec s).get r = s.get r := by
  cases I with
  | rr op rd | ri op rd | load op rd | lui rd | auipc rd =>
    exact get_set_of_ne s (fun he => h (List.mem_singleton.mpr he)) _
  | jalr rd | jal rd => exact get_set_of_ne s (fun he => h (List.mem_singleton.mpr he)) _
  | store => rfl
  | branch op rs1 rs2 =>
    rw [Inst.exec]
    split <;> rfl

theorem exec_mem_of_not_mayStore (s : ArchState ρ w) {I : Inst ρ} (h : I.mayStore = false) :
    (I.exec s).mem = s.mem := by
  cases I with
  | store => cases h
  | branch op rs1 rs2 =>
    rw [Inst.exec]
    split <;> rfl
  | rr | ri | load | jalr | lui | auipc | jal => rfl

/-- The registers of the `ins` list, and the memory where `mayLoad` is set, are all an
ordinary instruction reads for its result. -/
theorem exec_get_congr {s t : ArchState ρ w} {I : Inst ρ} (hI : I.isOrdinary = true)
    (huses : ∀ r ∈ I.uses, s.get r = t.get r) (hmem : I.mayLoad = true → s.mem = t.mem)
    {d : ρ} (hd : d ∈ I.defs) : (I.exec s).get d = (I.exec t).get d := by
  cases I with
  | rr op rd rs1 rs2 =>
    cases List.mem_singleton.mp hd
    simp only [Inst.exec, get_next, get_set, huses rs1 (by simp [Inst.uses]),
      huses rs2 (by simp [Inst.uses]), if_true]
  | ri op rd rs1 imm12 =>
    cases List.mem_singleton.mp hd
    simp only [Inst.exec, get_next, get_set, huses rs1 (by simp [Inst.uses]), if_true]
  | load op rd rs1 imm12 =>
    cases List.mem_singleton.mp hd
    simp only [Inst.exec, get_next, get_set, huses rs1 (by simp [Inst.uses]), hmem rfl, if_true]
  | lui rd imm20 =>
    cases List.mem_singleton.mp hd
    simp only [Inst.exec, get_next, get_set, if_true]
  | store | branch => cases hd
  | jalr | jal | auipc => cases hI

theorem exec_mem_congr {s t : ArchState ρ w} {I : Inst ρ}
    (huses : ∀ r ∈ I.uses, s.get r = t.get r) (hmem : s.mem = t.mem) :
    (I.exec s).mem = (I.exec t).mem := by
  cases hstore : I.mayStore with
  | false => rw [exec_mem_of_not_mayStore s hstore, exec_mem_of_not_mayStore t hstore, hmem]
  | true =>
    cases I with
    | store op rs2 rs1 imm12 =>
      simp only [Inst.exec, huses rs1 (by simp [Inst.uses]), huses rs2 (by simp [Inst.uses]), hmem]
    | rr | ri | load | jalr | branch | lui | auipc | jal => cases hstore

end Frame

/-! ### Ordinary machine instructions -/

def Inst.toOrdinary (I : Inst Register) : OrdinaryInstr where
  opcode := I.opcode.number
  defs := I.defs
  uses := I.uses
  imms := I.imms
  hasSideEffects := false
  mayLoad := I.mayLoad
  mayStore := I.mayStore

def Inst.machineInstr (I : Inst Register) : MachineInstr := .ordinary I.toOrdinary

def instOf (i : OrdinaryInstr) : Option (Inst Register) :=
  (Opcode.ofNumber i.opcode).bind fun op => Inst.ofOperands op i.defs i.uses i.imms

theorem instOf_toOrdinary (I : Inst Register) : instOf I.toOrdinary = some I := by
  rw [instOf, Inst.toOrdinary, Opcode.ofNumber_number]
  exact I.ofOperands_self

variable {w : ℕ}

/-- The instruction set as the meaning of ordinary instructions: run the instruction where its
uses hold the given values. -/
def isaSem : InstrSem w (Mem w) := fun i vals m =>
  match instOf i with
  | some I =>
    let s := I.exec ⟨fun r => vals.getD (i.uses.idxOf r) 0#w, m, 0#w⟩
    (fun k => s.get (i.defs.getD k 0), s.mem)
  | none => (fun _ => 0#w, m)

/-- A machine state holds the registers and the memory of a store, whatever its program counter. -/
structure Holds (t : ArchState Register w) (st : Store w (Mem w)) : Prop where
  regs : ∀ r, t.get r = st.regs r
  mem : t.mem = st.mem

theorem Holds.withPc {t : ArchState Register w} {st : Store w (Mem w)} (h : Holds t st)
    (pc : BitVec w) : Holds { t with pc := pc } st := ⟨h.regs, h.mem⟩

theorem holds_start {st : Store w (Mem w)} (h : st.regs 0 = 0#w) (pc : BitVec w) :
    Holds ⟨st.regs, st.mem, pc⟩ st where
  regs r := by
    rw [ArchState.get]
    split
    · next hr => rw [hr, h]
    · rfl
  mem := rfl

theorem getD_idxOf (regs : Regs w) (l : List Register) {r : Register} (h : r ∈ l) :
    (l.map regs).getD (l.idxOf r) 0#w = regs r := by
  rw [List.getD_eq_getElem?_getD, List.getElem?_map, List.getElem?_idxOf h]
  rfl

/-- The step lemma between the two levels. -/
theorem Holds.exec {t : ArchState Register w} {st : Store w (Mem w)} (h : Holds t st)
    {I : Inst Register} (hI : I.isOrdinary = true) :
    ∃ st', execInstr isaSem st (.ordinary I.toOrdinary) = some (st', .next) ∧
      Holds (I.exec t) st' := by
  let u : ArchState Register w :=
    ⟨fun r => (I.uses.map st.regs).getD (I.uses.idxOf r) 0#w, st.mem, 0#w⟩
  have huses : ∀ r ∈ I.uses, u.get r = t.get r := by
    intro r hr
    by_cases h0 : r = 0
    · rw [h0, get_zero, get_zero]
    · rw [h.regs r, ArchState.get, if_neg h0]
      exact getD_idxOf st.regs I.uses hr
  have hmem : u.mem = t.mem := h.mem.symm
  refine ⟨⟨writeDefs st.regs I.defs fun k => (I.exec u).get (I.defs.getD k 0), (I.exec u).mem⟩,
    ?_, ?_, ?_⟩
  · have hsem : isaSem I.toOrdinary (I.toOrdinary.uses.map st.regs) st.mem =
        (fun k => (I.exec u).get (I.defs.getD k 0), (I.exec u).mem) := by
      rw [isaSem, instOf_toOrdinary]
      rfl
    rw [execInstr, hsem]
    rfl
  · intro r
    dsimp only
    rw [writeDefs]
    split
    · next hr =>
      have hget : I.defs.getD (I.defs.idxOf r) 0 = r := by
        rw [List.getD_eq_getElem?_getD, List.getElem?_idxOf hr]
        rfl
      rw [hget, exec_get_congr hI huses (fun _ => hmem) hr]
    · next hr => rw [exec_get_of_notMem_defs t I hr, h.regs r]
  · exact (exec_mem_congr huses hmem).symm

theorem execBody_ordinary {code : List (Inst Register)} (hcode : ∀ I ∈ code, I.isOrdinary = true)
    {t : ArchState Register w} {st : Store w (Mem w)} (h : Holds t st) :
    ∃ st', execBody isaSem (code.map Inst.machineInstr) st = some (st', .next) ∧
      Holds (run code t) st' := by
  induction code generalizing t st with
  | nil => exact ⟨st, rfl, h⟩
  | cons I code ih =>
    obtain ⟨hI, hrest⟩ := List.forall_mem_cons.mp hcode
    obtain ⟨st₁, hexec, hst₁⟩ := h.exec hI
    obtain ⟨st', hbody, hst'⟩ := ih hrest hst₁
    refine ⟨st', ?_, hst'⟩
    rw [List.map_cons, execBody, Inst.machineInstr, hexec]
    exact hbody

end ToyRiscv
