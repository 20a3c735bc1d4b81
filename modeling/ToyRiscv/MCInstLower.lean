import ToyRiscv.MCExpr
import Mathlib.Data.List.ReduceOption

/-!
# Lowering machine instructions to MC instructions

`lowerSymbolOperand`, `LowerTOYRISCVMachineInstrToMCInst` and, for the operands of expanded
pseudos, `LowerTOYRISCVMachineOperandToMCOperand` (TOYRISCVMCInstLower.cpp:28-139).
-/

namespace ToyRiscv

/-- `TOYRISCVII::MO_*`. -/
inductive TargetFlag where
  | none
  | call
  | plt
  | lo
  | hi
  | pcrelLo
  | pcrelHi
  deriving DecidableEq, Repr

inductive MachineOperand where
  | register (reg : ℕ) (isImplicit : Bool)
  | registerMask
  | immediate (imm : ℤ)
  | machineBasicBlock (mbb : ℕ) (flags : TargetFlag)
  | globalAddress (global : ℕ) (offset : BitVec 64) (flags : TargetFlag)
  | blockAddress (block : ℕ) (offset : BitVec 64) (flags : TargetFlag)
  | externalSymbol (name : String) (offset : BitVec 64) (flags : TargetFlag)
  | constantPoolIndex (index : ℕ) (offset : BitVec 64) (flags : TargetFlag)
  | jumpTableIndex (index : ℕ) (flags : TargetFlag)
  deriving DecidableEq, Repr

inductive MCOperand where
  | reg (reg : ℕ)
  | imm (imm : ℤ)
  | expr (e : MCExpr)
  deriving DecidableEq, Repr

structure MInst (ω : Type) where
  opcode : ω
  operands : List MachineOperand
  deriving DecidableEq, Repr

structure MCInst (ω : Type) where
  opcode : ω
  operands : List MCOperand
  deriving DecidableEq, Repr

def MachineOperand.getTargetFlags : MachineOperand → TargetFlag
  | .machineBasicBlock _ flags | .globalAddress _ _ flags | .blockAddress _ _ flags
  | .externalSymbol _ _ flags | .constantPoolIndex _ _ flags | .jumpTableIndex _ flags => flags
  | .register .. | .registerMask | .immediate .. => .none

/-- The offset added to the symbol: none for jump tables and blocks. -/
def MachineOperand.symbolOffset : MachineOperand → BitVec 64
  | .globalAddress _ offset _ | .blockAddress _ offset _ | .externalSymbol _ offset _
  | .constantPoolIndex _ offset _ => offset
  | _ => 0#64

/-- The `switch` on the flags; `none` where it reaches `llvm_unreachable`. -/
def variantKindOf : TargetFlag → Option VariantKind
  | .none => some .none
  | .call => some .call
  | .lo => some .lo
  | .hi => some .hi
  | .pcrelLo => some .pcrelLo
  | .pcrelHi => some .pcrelHi
  | .plt => none

def lowerSymbolOperand (MO : MachineOperand) (Sym : MCSymbol) : Option MCOperand :=
  (variantKindOf MO.getTargetFlags).map fun Kind =>
    let ref := MCExpr.symbolRef Sym
    let ME := if MO.symbolOffset ≠ 0#64 then
      .binary .add ref (.constant MO.symbolOffset) else ref
    .expr (if Kind ≠ .none then .target Kind ME else ME)

/-- The operands of `OutMI`; `none` on `report_fatal_error` and `llvm_unreachable`. -/
def lowerOperands : List MachineOperand → Option (List MCOperand)
  | [] => some []
  | .register reg isImplicit :: operands =>
    if isImplicit then lowerOperands operands else (lowerOperands operands).map (.reg reg :: ·)
  | .immediate imm :: operands => (lowerOperands operands).map (.imm imm :: ·)
  | .machineBasicBlock mbb _ :: operands =>
    (lowerOperands operands).map (.expr (.symbolRef (.block mbb)) :: ·)
  | .globalAddress global offset flags :: operands =>
    match lowerSymbolOperand (.globalAddress global offset flags) (.global global),
      lowerOperands operands with
    | some op, some ops => some (op :: ops)
    | _, _ => none
  | _ :: _ => none

def lowerMachineInstrToMCInst {ω : Type} (MI : MInst ω) : Option (MCInst ω) :=
  (lowerOperands MI.operands).map fun operands => ⟨MI.opcode, operands⟩

/-- `some none` where the function returns false; `none` as in `lowerOperands`. -/
def lowerMachineOperandToMCOperand (MO : MachineOperand) : Option (Option MCOperand) :=
  match MO with
  | .register reg isImplicit => some (if isImplicit then none else some (.reg reg))
  | .registerMask => some none
  | .immediate imm => some (some (.imm imm))
  | .machineBasicBlock mbb _ => (lowerSymbolOperand MO (.block mbb)).map some
  | .globalAddress global _ _ => (lowerSymbolOperand MO (.global global)).map some
  | .blockAddress block _ _ => (lowerSymbolOperand MO (.blockAddress block)).map some
  | .externalSymbol name _ _ => (lowerSymbolOperand MO (.external name)).map some
  | .constantPoolIndex index _ _ => (lowerSymbolOperand MO (.constantPool index)).map some
  | .jumpTableIndex index _ => (lowerSymbolOperand MO (.jumpTable index)).map some

/-! ### The two paths -/

/-- The operands one at a time, those that return false left out. -/
def lowerEachOperand (operands : List MachineOperand) : Option (List MCOperand) :=
  (operands.mapM lowerMachineOperandToMCOperand).map List.reduceOption

def LoweringsAgree {ω : Type} (MI : MInst ω) : Prop :=
  lowerMachineInstrToMCInst MI =
      (lowerEachOperand MI.operands).map (fun operands => ⟨MI.opcode, operands⟩) ∧
    (lowerMachineInstrToMCInst MI = none →
      ∃ MO ∈ MI.operands, lowerMachineOperandToMCOperand MO = none)

/-- The operands both switches treat alike. -/
def MachineOperand.isCommon : MachineOperand → Bool
  | .register .. | .immediate _ | .globalAddress .. => true
  | .machineBasicBlock _ flags => flags == .none
  | .registerMask | .blockAddress .. | .externalSymbol .. | .constantPoolIndex ..
  | .jumpTableIndex .. => false

theorem lowerSymbolOperand_isSome {MO : MachineOperand} (h : MO.getTargetFlags ≠ .plt)
    (Sym : MCSymbol) : ∃ op, lowerSymbolOperand MO Sym = some op := by
  have hkind : ∃ Kind, variantKindOf MO.getTargetFlags = some Kind := by
    cases hflags : MO.getTargetFlags with
    | plt => exact absurd hflags h
    | none | call | lo | hi | pcrelLo | pcrelHi => exact ⟨_, rfl⟩
  obtain ⟨Kind, hKind⟩ := hkind
  rw [lowerSymbolOperand, hKind]
  exact ⟨_, rfl⟩

theorem lowerMachineOperandToMCOperand_isSome {MO : MachineOperand}
    (h : MO.getTargetFlags ≠ .plt) : ∃ op, lowerMachineOperandToMCOperand MO = some op := by
  cases MO with
  | register reg isImplicit => exact ⟨_, rfl⟩
  | registerMask => exact ⟨_, rfl⟩
  | immediate imm => exact ⟨_, rfl⟩
  | machineBasicBlock | globalAddress | blockAddress | externalSymbol | constantPoolIndex
  | jumpTableIndex =>
    obtain ⟨op, hop⟩ := lowerSymbolOperand_isSome h _
    exact ⟨some op, congrArg (Option.map some) hop⟩

theorem lowerEachOperand_cons {MO : MachineOperand} {op : Option MCOperand}
    (hop : lowerMachineOperandToMCOperand MO = some op) (operands : List MachineOperand) :
    lowerEachOperand (MO :: operands) = (lowerEachOperand operands).map (op.toList ++ ·) := by
  rw [lowerEachOperand, lowerEachOperand, List.mapM_cons, hop]
  cases operands.mapM lowerMachineOperandToMCOperand with
  | none => rfl
  | some ops =>
    cases op with
    | none => exact congrArg some (List.reduceOption_cons_of_none ops)
    | some op => exact congrArg some (List.reduceOption_cons_of_some op ops)

theorem lowerSymbolOperand_block_iff (mbb : ℕ) (flags : TargetFlag) :
    lowerSymbolOperand (.machineBasicBlock mbb flags) (.block mbb) =
        some (.expr (.symbolRef (.block mbb))) ↔ flags = .none := by
  cases flags with
  | none => exact iff_of_true rfl rfl
  | call | plt | lo | hi | pcrelLo | pcrelHi =>
    apply iff_of_false
    · intro h
      cases h
    · exact TargetFlag.noConfusion

theorem map_cons_eq_some_iff {α : Type} {x : Option (List α)} {a b : α} {l : List α} :
    x.map (a :: ·) = some (b :: l) ↔ a = b ∧ x = some l := by
  cases x with
  | none => exact iff_of_false nofun nofun
  | some l' =>
    rw [Option.map_some, Option.some_inj, Option.some_inj]
    exact List.cons_eq_cons

theorem lowerOperands_cons_eq_iff {MO : MachineOperand} {op : Option MCOperand}
    (hop : lowerMachineOperandToMCOperand MO = some op) (operands : List MachineOperand)
    (lowered : List MCOperand) :
    lowerOperands (MO :: operands) = some (op.toList ++ lowered) ↔
      MO.isCommon = true ∧ lowerOperands operands = some lowered := by
  cases MO with
  | register reg isImplicit =>
    cases hop
    cases isImplicit with
    | true => exact (and_iff_right rfl).symm
    | false => exact map_cons_eq_some_iff.trans (and_congr_left' (iff_of_true rfl rfl))
  | immediate imm =>
    cases hop
    exact map_cons_eq_some_iff.trans (and_congr_left' (iff_of_true rfl rfl))
  | machineBasicBlock mbb flags =>
    obtain ⟨sym, hsym, rfl⟩ := Option.map_eq_some_iff.mp hop
    have hflags : MCOperand.expr (.symbolRef (.block mbb)) = sym ↔ flags = .none := by
      rw [← lowerSymbolOperand_block_iff mbb, hsym, Option.some_inj]
      exact eq_comm
    exact map_cons_eq_some_iff.trans (and_congr_left' (hflags.trans beq_iff_eq.symm))
  | globalAddress global offset flags =>
    obtain ⟨sym, hsym, rfl⟩ := Option.map_eq_some_iff.mp hop
    have hmap : lowerOperands (.globalAddress global offset flags :: operands) =
        (lowerOperands operands).map (sym :: ·) := by
      rw [lowerOperands, hsym]
      cases lowerOperands operands <;> rfl
    rw [hmap]
    exact map_cons_eq_some_iff.trans (and_congr_left' (iff_of_true rfl rfl))
  | registerMask | blockAddress | externalSymbol | constantPoolIndex | jumpTableIndex =>
    exact iff_of_false nofun fun h => Bool.noConfusion h.1

theorem lowerOperands_eq_lowerEachOperand_iff {operands : List MachineOperand}
    (hflags : ∀ MO ∈ operands, MO.getTargetFlags ≠ .plt) :
    ∃ lowered, lowerEachOperand operands = some lowered ∧
      (lowerOperands operands = some lowered ↔ ∀ MO ∈ operands, MO.isCommon = true) := by
  induction operands with
  | nil => exact ⟨[], rfl, iff_of_true rfl (List.forall_mem_nil _)⟩
  | cons MO operands ih =>
    obtain ⟨hMO, htail⟩ := List.forall_mem_cons.mp hflags
    obtain ⟨op, hop⟩ := lowerMachineOperandToMCOperand_isSome hMO
    obtain ⟨lowered, heach, hiff⟩ := ih htail
    refine ⟨op.toList ++ lowered, ?_, ?_⟩
    · rw [lowerEachOperand_cons hop, heach]
      rfl
    · rw [lowerOperands_cons_eq_iff hop, hiff, List.forall_mem_cons]

theorem loweringsAgree_iff {ω : Type} {MI : MInst ω}
    (hflags : ∀ MO ∈ MI.operands, MO.getTargetFlags ≠ .plt) :
    LoweringsAgree MI ↔ ∀ MO ∈ MI.operands, MO.isCommon = true := by
  obtain ⟨lowered, heach, hiff⟩ := lowerOperands_eq_lowerEachOperand_iff hflags
  rw [← hiff, LoweringsAgree, lowerMachineInstrToMCInst, heach]
  constructor
  · intro h
    obtain ⟨lowered', hfirst, hinst⟩ := Option.map_eq_some_iff.mp h.1
    cases hinst
    exact hfirst
  · intro hfirst
    rw [hfirst]
    exact ⟨rfl, nofun⟩

theorem loweringsAgree_iff_jump :
    LoweringsAgree (⟨(), [.register 5 false, .machineBasicBlock 1 .none]⟩ : MInst Unit) ↔
      ∀ MO ∈ [MachineOperand.register 5 false, .machineBasicBlock 1 .none], MO.isCommon = true :=
  loweringsAgree_iff (by decide)

/-- The upper half of the address of a constant-pool entry. -/
theorem lowerings_constantPool :
    ¬ LoweringsAgree
      (⟨(), [.register 5 false, .constantPoolIndex 0 0#64 .hi]⟩ : MInst Unit) := by
  intro h
  cases h.1

end ToyRiscv
