import ToyRiscv.Instructions

/-!
# Encodings round-trip

A decoder written from the base format table (TOYRISCVInstrFormats.td:1-16) and
the function codes, and the proof that it inverts the format classes.
-/

namespace ToyRiscv
open Lib.BitFields

/-! ### The decoder -/

def AluOp.all : List AluOp := [.add, .sub, .sll, .slt, .sltu, .xor, .srl, .sra, .or, .and]

def AluImmOp.all : List AluImmOp := [.addi, .slti, .sltiu, .xori, .ori, .andi]

def LoadOp.all : List LoadOp := [.lb, .lh, .lw, .lbu, .lhu]

def StoreOp.all : List StoreOp := [.sb, .sh, .sw]

def BranchOp.all : List BranchOp := [.beq, .bne, .blt, .bge, .bltu, .bgeu]

structure Columns where
  opcode : BitVec 7
  rd : BitVec 5
  funct3 : BitVec 3
  rs1 : BitVec 5
  rs2 : BitVec 5
  funct7 : BitVec 7
  deriving DecidableEq, Repr

def columns (W : BitVec 32) : Columns where
  opcode := W.extractLsb' 0 7
  rd := W.extractLsb' 7 5
  funct3 := W.extractLsb' 12 3
  rs1 := W.extractLsb' 15 5
  rs2 := W.extractLsb' 20 5
  funct7 := W.extractLsb' 25 7

/-- imm[11:0] in bits 31..20. -/
def immI (W : BitVec 32) : ℤ := (W.extractLsb' 20 12).toInt

/-- imm[11:5] in bits 31..25, imm[4:0] in bits 11..7. -/
def immS (W : BitVec 32) : ℤ := (W.extractLsb' 25 7 ++ W.extractLsb' 7 5 : BitVec 12).toInt

/-- imm[12] in bit 31, imm[10:5] in bits 30..25, imm[4:1] in bits 11..8, imm[11] in bit 7. -/
def immB (W : BitVec 32) : ℤ :=
  (W.extractLsb' 31 1 ++ W.extractLsb' 7 1 ++ W.extractLsb' 25 6 ++ W.extractLsb' 8 4 ++ 0#1 :
    BitVec 13).toInt

/-- imm[31:12] in bits 31..12; the operand is the field. -/
def immU (W : BitVec 32) : ℤ := (W.extractLsb' 12 20).toNat

/-- imm[20] in bit 31, imm[10:1] in bits 30..21, imm[11] in bit 20, imm[19:12] in bits 19..12. -/
def immJ (W : BitVec 32) : ℤ :=
  (W.extractLsb' 31 1 ++ W.extractLsb' 12 8 ++ W.extractLsb' 20 1 ++ W.extractLsb' 21 10 ++ 0#1 :
    BitVec 21).toInt

def decode (W : BitVec 32) : Option (Inst (BitVec 5)) :=
  let c := columns W
  if c.opcode = opcOp then
    (AluOp.all.find? fun op => op.funct7 = c.funct7 ∧ op.funct3 = c.funct3).map
      fun op => .rr op c.rd c.rs1 c.rs2
  else if c.opcode = opcOpImm then
    (AluImmOp.all.find? fun op => op.funct3 = c.funct3).map fun op => .ri op c.rd c.rs1 (immI W)
  else if c.opcode = opcLoad then
    (LoadOp.all.find? fun op => op.funct3 = c.funct3).map fun op => .load op c.rd c.rs1 (immI W)
  else if c.opcode = opcJalr then
    if c.funct3 = 0b000 then some (.jalr c.rd c.rs1 (immI W)) else none
  else if c.opcode = opcStore then
    (StoreOp.all.find? fun op => op.funct3 = c.funct3).map fun op => .store op c.rs2 c.rs1 (immS W)
  else if c.opcode = opcBranch then
    (BranchOp.all.find? fun op => op.funct3 = c.funct3).map
      fun op => .branch op c.rs1 c.rs2 (immB W)
  else if c.opcode = opcLui then some (.lui c.rd (immU W))
  else if c.opcode = opcAuipc then some (.auipc c.rd (immU W))
  else if c.opcode = opcJal then some (.jal c.rd (immJ W))
  else none

/-! ### Immediates through their fields -/

theorem toNat_ofInt_of_lt {n : ℕ} {v : ℤ} (h0 : 0 ≤ v) (h : v < 2 ^ n) :
    ((BitVec.ofInt n v).toNat : ℤ) = v := by
  rw [BitVec.toNat_ofInt, Int.emod_eq_of_lt h0 (by exact_mod_cast h), Int.toNat_of_nonneg h0]

theorem toInt_append_zero {n : ℕ} (x : BitVec n) :
    (x ++ 0#1 : BitVec (n + 1)).toInt = 2 * x.toInt := by
  have hnat : (x ++ 0#1 : BitVec (n + 1)).toNat = 2 * x.toNat := by
    rw [BitVec.toNat_append]
    simp [Nat.shiftLeft_eq, Nat.mul_comm]
  rw [BitVec.toInt_eq_toNat_cond, BitVec.toInt_eq_toNat_cond, hnat]
  have hpow : 2 ^ (n + 1) = 2 * 2 ^ n := by rw [Nat.pow_succ, Nat.mul_comm]
  rw [hpow]
  split_ifs with h1 h2 h2
  · push_cast
    rfl
  · omega
  · omega
  · push_cast
    rw [Int.mul_sub]

/-! ### Columns of the assembled words -/

theorem determinedR (funct7 : BitVec 7) (funct3 : BitVec 3) (opcode : BitVec 7)
    (rd rs1 rs2 : BitVec 5) : Determined 32 (toyrvInstR funct7 funct3 opcode rd rs1 rs2) :=
  determined_of_ranges [(0, 7), (25, 7), (20, 5), (15, 5), (12, 3), (7, 5), (0, 7)] rfl (by decide)

theorem determinedI (funct3 : BitVec 3) (opcode : BitVec 7) (rd rs1 : BitVec 5)
    (imm12 : BitVec 12) : Determined 32 (toyrvInstI funct3 opcode rd rs1 imm12) :=
  determined_of_ranges [(0, 7), (20, 12), (15, 5), (12, 3), (7, 5), (0, 7)] rfl (by decide)

theorem determinedS (funct3 : BitVec 3) (opcode : BitVec 7) (rs2 rs1 : BitVec 5)
    (imm12 : BitVec 12) : Determined 32 (toyrvInstS funct3 opcode rs2 rs1 imm12) :=
  determined_of_ranges [(0, 7), (25, 7), (20, 5), (15, 5), (12, 3), (7, 5), (0, 7)] rfl (by decide)

theorem determinedB (funct3 : BitVec 3) (opcode : BitVec 7) (rs1 rs2 : BitVec 5)
    (imm12 : BitVec 12) : Determined 32 (toyrvInstB funct3 opcode rs1 rs2 imm12) :=
  determined_of_ranges [(0, 7), (31, 1), (25, 6), (20, 5), (15, 5), (12, 3), (8, 4), (7, 1)] rfl
    (by decide)

theorem determinedU (opcode : BitVec 7) (rd : BitVec 5) (imm20 : BitVec 20) :
    Determined 32 (toyrvInstU opcode rd imm20) :=
  determined_of_ranges [(0, 7), (12, 20), (7, 5), (0, 7)] rfl (by decide)

theorem determinedJ (opcode : BitVec 7) (rd : BitVec 5) (imm20 : BitVec 20) :
    Determined 32 (toyrvInstJ opcode rd imm20) :=
  determined_of_ranges [(0, 7), (31, 1), (21, 10), (20, 1), (12, 8), (7, 5), (0, 7)] rfl (by decide)

variable {W : BitVec 32}

theorem columnsR {funct7 : BitVec 7} {funct3 : BitVec 3} {opcode : BitVec 7} {rd rs1 rs2 : BitVec 5}
    (h : assemble 32 (toyrvInstR funct7 funct3 opcode rd rs1 rs2) = some W) :
    columns W = ⟨opcode, rd, funct3, rs1, rs2, funct7⟩ := by
  have h0 := extract_assemble h 6 rfl (by decide) (by simp [toyrvInstR, toyrvInst])
  have h7 := extract_assemble h 5 rfl (by decide) (by simp [toyrvInstR, toyrvInst])
  have h12 := extract_assemble h 4 rfl (by decide) (by simp [toyrvInstR, toyrvInst])
  have h15 := extract_assemble h 3 rfl (by decide) (by simp [toyrvInstR, toyrvInst])
  have h20 := extract_assemble h 2 rfl (by decide) (by simp [toyrvInstR, toyrvInst])
  have h25 := extract_assemble h 1 rfl (by decide) (by simp [toyrvInstR, toyrvInst])
  rw [columns]
  congr 1

theorem columnsI {funct3 : BitVec 3} {opcode : BitVec 7} {rd rs1 : BitVec 5} {imm12 : BitVec 12}
    (h : assemble 32 (toyrvInstI funct3 opcode rd rs1 imm12) = some W) :
    (columns W).opcode = opcode ∧ (columns W).rd = rd ∧ (columns W).funct3 = funct3 ∧
      (columns W).rs1 = rs1 ∧ immI W = imm12.toInt := by
  have h0 := extract_assemble h 5 rfl (by decide) (by simp [toyrvInstI, toyrvInst])
  have h7 := extract_assemble h 4 rfl (by decide) (by simp [toyrvInstI, toyrvInst])
  have h12 := extract_assemble h 3 rfl (by decide) (by simp [toyrvInstI, toyrvInst])
  have h15 := extract_assemble h 2 rfl (by decide) (by simp [toyrvInstI, toyrvInst])
  have h20 := extract_assemble h 1 rfl (by decide) (by simp [toyrvInstI, toyrvInst])
  exact ⟨h0, h7, h12, h15, congrArg BitVec.toInt h20⟩

theorem columnsS {funct3 : BitVec 3} {opcode : BitVec 7} {rs2 rs1 : BitVec 5} {imm12 : BitVec 12}
    (h : assemble 32 (toyrvInstS funct3 opcode rs2 rs1 imm12) = some W) :
    (columns W).opcode = opcode ∧ (columns W).funct3 = funct3 ∧ (columns W).rs1 = rs1 ∧
      (columns W).rs2 = rs2 ∧ immS W = imm12.toInt := by
  have h0 := extract_assemble h 6 rfl (by decide) (by simp [toyrvInstS, toyrvInst])
  have h7 := extract_assemble h 5 rfl (by decide) (by simp [toyrvInstS, toyrvInst])
  have h12 := extract_assemble h 4 rfl (by decide) (by simp [toyrvInstS, toyrvInst])
  have h15 := extract_assemble h 3 rfl (by decide) (by simp [toyrvInstS, toyrvInst])
  have h20 := extract_assemble h 2 rfl (by decide) (by simp [toyrvInstS, toyrvInst])
  have h25 := extract_assemble h 1 rfl (by decide) (by simp [toyrvInstS, toyrvInst])
  refine ⟨h0, h12, h15, h20, congrArg BitVec.toInt ?_⟩
  calc (W.extractLsb' 25 7 ++ W.extractLsb' 7 5 : BitVec 12)
      = imm12.extractLsb' 5 7 ++ imm12.extractLsb' 0 5 := congrArg₂ _ h25 h7
    _ = imm12.extractLsb' 0 (7 + 5) := BitVec.extractLsb'_append_extractLsb'_eq_extractLsb' rfl
    _ = imm12 := BitVec.extractLsb'_eq_self

theorem columnsB {funct3 : BitVec 3} {opcode : BitVec 7} {rs1 rs2 : BitVec 5} {imm12 : BitVec 12}
    (h : assemble 32 (toyrvInstB funct3 opcode rs1 rs2 imm12) = some W) :
    (columns W).opcode = opcode ∧ (columns W).funct3 = funct3 ∧ (columns W).rs1 = rs1 ∧
      (columns W).rs2 = rs2 ∧ immB W = 2 * imm12.toInt := by
  have h0 := extract_assemble h 0 rfl (by decide) (by simp [toyrvInstB, toyrvInst])
  have h31 := extract_assemble h 1 rfl (by decide) (by simp [toyrvInstB, toyrvInst])
  have h25 := extract_assemble h 2 rfl (by decide) (by simp [toyrvInstB, toyrvInst])
  have h20 := extract_assemble h 3 rfl (by decide) (by simp [toyrvInstB, toyrvInst])
  have h15 := extract_assemble h 4 rfl (by decide) (by simp [toyrvInstB, toyrvInst])
  have h12 := extract_assemble h 5 rfl (by decide) (by simp [toyrvInstB, toyrvInst])
  have h8 := extract_assemble h 6 rfl (by decide) (by simp [toyrvInstB, toyrvInst])
  have h7 := extract_assemble h 7 rfl (by decide) (by simp [toyrvInstB, toyrvInst])
  refine ⟨h0, h12, h15, h20, ?_⟩
  have himm : (W.extractLsb' 31 1 ++ W.extractLsb' 7 1 ++ W.extractLsb' 25 6 ++
      W.extractLsb' 8 4 : BitVec 12) = imm12 := by
    calc (W.extractLsb' 31 1 ++ W.extractLsb' 7 1 ++ W.extractLsb' 25 6 ++ W.extractLsb' 8 4 :
          BitVec 12)
        = imm12.extractLsb' 11 1 ++ imm12.extractLsb' 10 1 ++ imm12.extractLsb' 4 6 ++
          imm12.extractLsb' 0 4 := congrArg₂ _ (congrArg₂ _ (congrArg₂ _ h31 h7) h25) h8
      _ = imm12.extractLsb' 0 (1 + 1 + 6 + 4) := by
        rw [BitVec.extractLsb'_append_extractLsb'_eq_extractLsb' (by rfl),
          BitVec.extractLsb'_append_extractLsb'_eq_extractLsb' (by rfl),
          BitVec.extractLsb'_append_extractLsb'_eq_extractLsb' (by rfl)]
      _ = imm12 := BitVec.extractLsb'_eq_self
  rw [immB, himm]
  exact toInt_append_zero imm12

theorem columnsU {opcode : BitVec 7} {rd : BitVec 5} {imm20 : BitVec 20}
    (h : assemble 32 (toyrvInstU opcode rd imm20) = some W) :
    (columns W).opcode = opcode ∧ (columns W).rd = rd ∧ immU W = imm20.toNat := by
  have h0 := extract_assemble h 3 rfl (by decide) (by simp [toyrvInstU, toyrvInst])
  have h7 := extract_assemble h 2 rfl (by decide) (by simp [toyrvInstU, toyrvInst])
  have h12 := extract_assemble h 1 rfl (by decide) (by simp [toyrvInstU, toyrvInst])
  exact ⟨h0, h7, congrArg (fun x : BitVec 20 => (x.toNat : ℤ)) h12⟩

theorem columnsJ {opcode : BitVec 7} {rd : BitVec 5} {imm20 : BitVec 20}
    (h : assemble 32 (toyrvInstJ opcode rd imm20) = some W) :
    (columns W).opcode = opcode ∧ (columns W).rd = rd ∧ immJ W = 2 * imm20.toInt := by
  have h0 := extract_assemble h 6 rfl (by decide) (by simp [toyrvInstJ, toyrvInst])
  have h7 := extract_assemble h 5 rfl (by decide) (by simp [toyrvInstJ, toyrvInst])
  have h12 := extract_assemble h 4 rfl (by decide) (by simp [toyrvInstJ, toyrvInst])
  have h20 := extract_assemble h 3 rfl (by decide) (by simp [toyrvInstJ, toyrvInst])
  have h21 := extract_assemble h 2 rfl (by decide) (by simp [toyrvInstJ, toyrvInst])
  have h31 := extract_assemble h 1 rfl (by decide) (by simp [toyrvInstJ, toyrvInst])
  refine ⟨h0, h7, ?_⟩
  have himm : (W.extractLsb' 31 1 ++ W.extractLsb' 12 8 ++ W.extractLsb' 20 1 ++
      W.extractLsb' 21 10 : BitVec 20) = imm20 := by
    calc (W.extractLsb' 31 1 ++ W.extractLsb' 12 8 ++ W.extractLsb' 20 1 ++ W.extractLsb' 21 10 :
          BitVec 20)
        = imm20.extractLsb' 19 1 ++ imm20.extractLsb' 11 8 ++ imm20.extractLsb' 10 1 ++
          imm20.extractLsb' 0 10 := congrArg₂ _ (congrArg₂ _ (congrArg₂ _ h31 h12) h20) h21
      _ = imm20.extractLsb' 0 (1 + 8 + 1 + 10) := by
        rw [BitVec.extractLsb'_append_extractLsb'_eq_extractLsb' (by rfl),
          BitVec.extractLsb'_append_extractLsb'_eq_extractLsb' (by rfl),
          BitVec.extractLsb'_append_extractLsb'_eq_extractLsb' (by rfl)]
      _ = imm20 := BitVec.extractLsb'_eq_self
  rw [immJ, himm]
  exact toInt_append_zero imm20

/-! ### Function codes determine the operation -/

theorem find_alu (op : AluOp) : (AluOp.all.find? fun op' =>
    op'.funct7 = op.funct7 ∧ op'.funct3 = op.funct3) = some op := by
  cases op <;> rfl

theorem find_aluImm (op : AluImmOp) :
    (AluImmOp.all.find? fun op' => op'.funct3 = op.funct3) = some op := by
  cases op <;> rfl

theorem find_load (op : LoadOp) :
    (LoadOp.all.find? fun op' => op'.funct3 = op.funct3) = some op := by
  cases op <;> rfl

theorem find_store (op : StoreOp) :
    (StoreOp.all.find? fun op' => op'.funct3 = op.funct3) = some op := by
  cases op <;> rfl

theorem find_branch (op : BranchOp) :
    (BranchOp.all.find? fun op' => op'.funct3 = op.funct3) = some op := by
  cases op <;> rfl

/-! ### The round trip -/

/-- What is assumed of the generated encoder: on even offsets the field bits are
those of the offset shifted right by one. -/
def ShiftsRight (getImmOpValueAsr1 : ℤ → BitVec 32) : Prop :=
  ∀ offset : ℤ, isInt 21 offset → offset % 2 = 0 →
    (getImmOpValueAsr1 offset).setWidth 20 = BitVec.ofInt 20 (offset / 2)

theorem isInt_half (n : ℕ) {offset : ℤ} (h : isInt (n + 2) offset) :
    isInt (n + 1) (offset / 2) := by
  have hpow : (2 : ℤ) ^ (n + 1) = 2 ^ n * 2 := Int.pow_succ ..
  unfold isInt at h ⊢
  rw [Nat.add_sub_cancel, show n + 2 - 1 = n + 1 from rfl] at *
  omega

theorem ShiftsRight.branch {getImmOpValueAsr1 : ℤ → BitVec 32} (h : ShiftsRight getImmOpValueAsr1)
    {offset : ℤ} (hr : isInt 13 offset) (heven : offset % 2 = 0) :
    ((getImmOpValueAsr1 offset).setWidth 12).toInt = offset / 2 := by
  have hr21 : isInt 21 offset := by
    unfold isInt at hr ⊢
    omega
  have h12 : (getImmOpValueAsr1 offset).setWidth 12 = BitVec.ofInt 12 (offset / 2) := by
    calc (getImmOpValueAsr1 offset).setWidth 12
        = ((getImmOpValueAsr1 offset).setWidth 20).setWidth 12 := by
          rw [BitVec.setWidth_setWidth_of_le _ (by decide)]
      _ = (BitVec.ofInt 20 (offset / 2)).setWidth 12 := by rw [h offset hr21 heven]
      _ = BitVec.ofInt 12 (offset / 2) := by
          rw [setWidth_ofInt (by decide)]
  rw [h12]
  exact toInt_ofInt_of_isInt (by decide) (isInt_half 11 hr)

theorem ShiftsRight.jump {getImmOpValueAsr1 : ℤ → BitVec 32} (h : ShiftsRight getImmOpValueAsr1)
    {offset : ℤ} (hr : isInt 21 offset) (heven : offset % 2 = 0) :
    ((getImmOpValueAsr1 offset).setWidth 20).toInt = offset / 2 := by
  rw [h offset hr heven]
  exact toInt_ofInt_of_isInt (by decide) (isInt_half 19 hr)

theorem Inst.determined (getImmOpValueAsr1 : ℤ → BitVec 32) (I : Inst (BitVec 5)) :
    Determined 32 (I.fields getImmOpValueAsr1) := by
  cases I with
  | rr => exact determinedR _ _ _ _ _ _
  | ri => exact determinedI _ _ _ _ _
  | load => exact determinedI _ _ _ _ _
  | jalr => exact determinedI _ _ _ _ _
  | store => exact determinedS _ _ _ _ _
  | branch => exact determinedB _ _ _ _ _
  | lui => exact determinedU _ _ _
  | auipc => exact determinedU _ _ _
  | jal => exact determinedJ _ _ _

theorem decode_encode {getImmOpValueAsr1 : ℤ → BitVec 32} (hasr : ShiftsRight getImmOpValueAsr1)
    (I : Inst (BitVec 5)) (hI : I.Fits) (h : I.encode getImmOpValueAsr1 = some W) :
    decode W = some I := by
  cases I with
  | rr op rd rs1 rs2 =>
    have hc := columnsR h
    simp only [decode, hc, if_true, find_alu, Option.map_some]
  | ri op rd rs1 imm12 =>
    obtain ⟨hop, hrd, hf3, hrs1, himm⟩ := columnsI h
    rw [toInt_ofInt_of_isInt (by decide) hI] at himm
    simp only [decode, hop, hrd, hf3, hrs1, himm, find_aluImm, Option.map_some]
    rfl
  | load op rd rs1 imm12 =>
    obtain ⟨hop, hrd, hf3, hrs1, himm⟩ := columnsI h
    rw [toInt_ofInt_of_isInt (by decide) hI] at himm
    simp only [decode, hop, hrd, hf3, hrs1, himm, find_load, Option.map_some]
    rfl
  | jalr rd rs1 imm12 =>
    obtain ⟨hop, hrd, hf3, hrs1, himm⟩ := columnsI h
    rw [toInt_ofInt_of_isInt (by decide) hI] at himm
    simp only [decode, hop, hrd, hf3, hrs1, himm]
    rfl
  | store op rs2 rs1 imm12 =>
    obtain ⟨hop, hf3, hrs1, hrs2, himm⟩ := columnsS h
    rw [toInt_ofInt_of_isInt (by decide) hI] at himm
    simp only [decode, hop, hf3, hrs1, hrs2, himm, find_store, Option.map_some]
    rfl
  | branch op rs1 rs2 offset =>
    obtain ⟨hop, hf3, hrs1, hrs2, himm⟩ := columnsB h
    have heven : 2 * (offset / 2) = offset := Int.mul_ediv_cancel' (Int.dvd_of_emod_eq_zero hI.2)
    rw [hasr.branch hI.1 hI.2, heven] at himm
    simp only [decode, hop, hf3, hrs1, hrs2, himm, find_branch, Option.map_some]
    rfl
  | lui rd imm20 =>
    obtain ⟨hop, hrd, himm⟩ := columnsU h
    rw [toNat_ofInt_of_lt hI.1 hI.2] at himm
    simp only [decode, hop, hrd, himm]
    rfl
  | auipc rd imm20 =>
    obtain ⟨hop, hrd, himm⟩ := columnsU h
    rw [toNat_ofInt_of_lt hI.1 hI.2] at himm
    simp only [decode, hop, hrd, himm]
    rfl
  | jal rd offset =>
    obtain ⟨hop, hrd, himm⟩ := columnsJ h
    have heven : 2 * (offset / 2) = offset := Int.mul_ediv_cancel' (Int.dvd_of_emod_eq_zero hI.2)
    rw [hasr.jump hI.1 hI.2, heven] at himm
    simp only [decode, hop, hrd, himm]
    rfl

/-- Every bit of the word is determined, the word decodes to the instruction it
came from, and so no two instructions share a word. -/
theorem encode_roundtrip (getImmOpValueAsr1 : ℤ → BitVec 32)
    (hasr : ShiftsRight getImmOpValueAsr1) :
    (∀ I : Inst (BitVec 5), Determined 32 (I.fields getImmOpValueAsr1)) ∧
    (∀ I : Inst (BitVec 5), I.Fits →
      ∃ W, I.encode getImmOpValueAsr1 = some W ∧ decode W = some I) ∧
    ∀ I J : Inst (BitVec 5), I.Fits → J.Fits →
      I.encode getImmOpValueAsr1 = J.encode getImmOpValueAsr1 → I = J := by
  have hround : ∀ I : Inst (BitVec 5), I.Fits →
      ∃ W, I.encode getImmOpValueAsr1 = some W ∧ decode W = some I := fun I hI => by
    have hW := assemble_eq_some (I.determined getImmOpValueAsr1)
    exact ⟨_, hW, decode_encode hasr I hI hW⟩
  refine ⟨fun I => I.determined getImmOpValueAsr1, hround, fun I J hI hJ heq => ?_⟩
  obtain ⟨W, hW, hdec⟩ := hround I hI
  have hdec' := decode_encode hasr J hJ (heq ▸ hW)
  exact Option.some.inj (hdec.symm.trans hdec')

/-- The offset as a 32-bit word, shifted right by one. -/
def shiftedOffset (offset : ℤ) : BitVec 32 := BitVec.ofInt 32 offset >>> 1

theorem shiftedOffset_shiftsRight : ShiftsRight shiftedOffset := by
  intro offset _ heven
  apply BitVec.eq_of_toNat_eq
  rw [shiftedOffset, BitVec.toNat_setWidth, BitVec.toNat_ushiftRight, BitVec.toNat_ofInt,
    BitVec.toNat_ofInt, Nat.shiftRight_eq_div_pow]
  omega

theorem encode_roundtrip_shiftedOffset :
    (∀ I : Inst (BitVec 5), Determined 32 (I.fields shiftedOffset)) ∧
    (∀ I : Inst (BitVec 5), I.Fits →
      ∃ W, I.encode shiftedOffset = some W ∧ decode W = some I) ∧
    ∀ I J : Inst (BitVec 5), I.Fits → J.Fits →
      I.encode shiftedOffset = J.encode shiftedOffset → I = J :=
  encode_roundtrip shiftedOffset shiftedOffset_shiftsRight

example : (Inst.branch .bne 10 11 (-4)).encode shiftedOffset = some 0xFEB51EE3#32 := by decide

end ToyRiscv
