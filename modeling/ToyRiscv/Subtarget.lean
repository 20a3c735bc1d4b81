import ToyRiscv.CondCode

/-!
# The word size of a target machine

Three places decide it: the data layout (TOYRISCVTargetMachine.cpp:17-34), the
subtarget's `XLenVT` (TOYRISCVSubtarget.cpp:13-46), and the features of the
MC subtarget info (TOYRISCVMCTargetDesc.cpp:56-63).
-/

namespace ToyRiscv

/-- `Triple::ArchType`, as far as this target looks at it. -/
inductive ArchType where
  | toyriscv32
  | toyriscv64
  | other (pointerBits : ℕ)
  deriving DecidableEq, Repr

/-- `Triple::getArchPointerBitWidth` (Support/Triple.cpp). -/
def ArchType.pointerBitWidth : ArchType → ℕ
  | .toyriscv32 => 32
  | .toyriscv64 => 64
  | .other pointerBits => pointerBits

def ArchType.isArch64Bit (TT : ArchType) : Bool := TT.pointerBitWidth == 64

def ArchType.isArch32Bit (TT : ArchType) : Bool := TT.pointerBitWidth == 32

/-! ### The data layout -/

inductive LayoutSpec where
  | littleEndian
  | mangling (mode : Char)
  | pointer (size abi : ℕ)
  | integer (size abi : ℕ) (pref : Option ℕ)
  | native (size : ℕ)
  | stack (align : ℕ)
  deriving DecidableEq, Repr

/-- `none` where the assertion fails. -/
def computeDataLayout (TT : ArchType) : Option (List LayoutSpec) :=
  if TT.isArch64Bit then
    some [.littleEndian, .mangling 'm', .pointer 64 64, .integer 8 8 (some 32),
      .integer 16 16 (some 32), .integer 64 64 none, .native 64, .stack 128]
  else if TT.isArch32Bit then
    some [.littleEndian, .mangling 'm', .pointer 32 32, .integer 8 8 (some 32),
      .integer 16 16 (some 32), .integer 64 64 none, .native 32, .stack 64]
  else none

def pointerWidth : List LayoutSpec → Option ℕ
  | [] => none
  | .pointer size _ :: _ => some size
  | _ :: specs => pointerWidth specs

/-! ### Features -/

structure FeatureFlag where
  enable : Bool
  name : String
  deriving DecidableEq, Repr

/-- `FeatureRV64`, the only feature. -/
structure FeatureBits where
  hasRV64 : Bool
  deriving DecidableEq, Repr

structure ProcessorModel where
  name : String
  features : FeatureBits
  deriving DecidableEq, Repr

/-- TOYRISCV.td:21-24. -/
def processorModels : List ProcessorModel := [⟨"cpu-rv32", ⟨false⟩⟩, ⟨"cpu-rv64", ⟨true⟩⟩]

/-- An unknown name is ignored. -/
def cpuFeatures (CPU : String) : FeatureBits :=
  match processorModels.find? fun p => p.name == CPU with
  | some p => p.features
  | none => ⟨false⟩

/-- An unknown feature is ignored. -/
def applyFeatureFlag (bits : FeatureBits) (flag : FeatureFlag) : FeatureBits :=
  if flag.name = "64bit" then { bits with hasRV64 := flag.enable } else bits

def getFeatures (CPU : String) (FS : List FeatureFlag) : FeatureBits :=
  FS.foldl applyFeatureFlag (cpuFeatures CPU)

/-! ### The subtarget and the MC subtarget info -/

/-- `XLenVT`; `none` where the constructor aborts. -/
def initializeSubtargetDependencies (TT : ArchType) (CPU : String) (FS : List FeatureFlag) :
    Option XLen :=
  let parse := fun cpu => if (getFeatures cpu FS).hasRV64 then XLen.rv64 else XLen.rv32
  match TT with
  | .toyriscv32 => some (parse (if CPU = "" ∨ CPU = "generic" then "cpu-rv32" else CPU))
  | .toyriscv64 => some (parse (if CPU = "" ∨ CPU = "generic" then "cpu-rv64" else CPU))
  | .other _ => none

def createMCSubtargetInfo (TT : ArchType) (CPU : String) (FS : List FeatureFlag) : FeatureBits :=
  getFeatures (if CPU = "" then if TT.isArch64Bit then "cpu-rv64" else "cpu-rv32" else CPU) FS

structure TargetMachine where
  dataLayout : List LayoutSpec
  xLenVT : XLen
  mcFeatures : FeatureBits
  deriving DecidableEq, Repr

def createTargetMachine (TT : ArchType) (CPU : String) (FS : List FeatureFlag) :
    Option TargetMachine :=
  match computeDataLayout TT, initializeSubtargetDependencies TT CPU FS with
  | some dataLayout, some xLenVT => some ⟨dataLayout, xLenVT, createMCSubtargetInfo TT CPU FS⟩
  | _, _ => none

def TargetMachine.Agrees (TM : TargetMachine) : Prop :=
  pointerWidth TM.dataLayout = some TM.xLenVT.bits ∧
    TM.xLenVT.bits = if TM.mcFeatures.hasRV64 then 64 else 32

instance (TM : TargetMachine) : Decidable TM.Agrees := inferInstanceAs (Decidable (_ ∧ _))

/-! ### When they agree -/

def lastRV64Flag : List FeatureFlag → Option Bool
  | [] => none
  | flag :: FS => (lastRV64Flag FS).or (if flag.name = "64bit" then some flag.enable else none)

theorem foldl_applyFeatureFlag (FS : List FeatureFlag) (bits : FeatureBits) :
    (FS.foldl applyFeatureFlag bits).hasRV64 = (lastRV64Flag FS).getD bits.hasRV64 := by
  induction FS generalizing bits with
  | nil => rfl
  | cons flag FS ih =>
    rw [List.foldl_cons, ih, lastRV64Flag, applyFeatureFlag]
    cases lastRV64Flag FS with
    | some e => rfl
    | none => split <;> rfl

theorem cpuFeatures_hasRV64 (CPU : String) :
    (cpuFeatures CPU).hasRV64 = decide (CPU = "cpu-rv64") := by
  by_cases h32 : "cpu-rv32" = CPU
  · subst h32
    decide
  · by_cases h64 : "cpu-rv64" = CPU
    · subst h64
      decide
    · simp [cpuFeatures, processorModels, h32, h64, Ne.symm h64]

theorem getFeatures_hasRV64 (CPU : String) (FS : List FeatureFlag) :
    (getFeatures CPU FS).hasRV64 = (lastRV64Flag FS).getD (decide (CPU = "cpu-rv64")) := by
  rw [getFeatures, foldl_applyFeatureFlag, cpuFeatures_hasRV64]

def archOf : XLen → ArchType
  | .rv32 => .toyriscv32
  | .rv64 => .toyriscv64

def defaultCPU : XLen → String
  | .rv32 => "cpu-rv32"
  | .rv64 => "cpu-rv64"

theorem defaultCPU_eq (x : XLen) : (defaultCPU x = "cpu-rv64") = (x = .rv64) := by
  cases x <;> decide

def subtargetCPU (x : XLen) (CPU : String) : String :=
  if CPU = "" ∨ CPU = "generic" then defaultCPU x else CPU

def mcCPU (x : XLen) (CPU : String) : String := if CPU = "" then defaultCPU x else CPU

theorem createTargetMachine_archOf (x : XLen) (CPU : String) (FS : List FeatureFlag) :
    ∃ dataLayout, pointerWidth dataLayout = some x.bits ∧
      createTargetMachine (archOf x) CPU FS = some ⟨dataLayout,
        if (getFeatures (subtargetCPU x CPU) FS).hasRV64 then .rv64 else .rv32,
        getFeatures (mcCPU x CPU) FS⟩ := by
  cases x with
  | rv32 => exact ⟨_, rfl, rfl⟩
  | rv64 => exact ⟨_, rfl, rfl⟩

theorem agrees_iff {x : XLen} {dataLayout : List LayoutSpec}
    (h : pointerWidth dataLayout = some x.bits) (s m : Bool) :
    (TargetMachine.mk dataLayout (if s then .rv64 else .rv32) ⟨m⟩).Agrees ↔
      s = decide (x = .rv64) ∧ m = decide (x = .rv64) := by
  rw [TargetMachine.Agrees, h]
  cases x <;> cases s <;> cases m <;> simp [XLen.bits]

/-- Without flags the two lookups ask for the word size of the triple unless the CPU
is named and stands for the other one. -/
theorem cpus_ask_iff (x : XLen) (CPU : String) :
    ((subtargetCPU x CPU = "cpu-rv64" ↔ x = .rv64) ∧ (mcCPU x CPU = "cpu-rv64" ↔ x = .rv64)) ↔
      CPU = "" ∨ (CPU = "cpu-rv64" ↔ x = .rv64) := by
  by_cases hempty : CPU = ""
  · rw [subtargetCPU, mcCPU, if_pos (Or.inl hempty), if_pos hempty, defaultCPU_eq]
    simp [hempty]
  · by_cases hgeneric : CPU = "generic"
    · rw [subtargetCPU, mcCPU, if_pos (Or.inr hgeneric), if_neg hempty, defaultCPU_eq]
      simp [hempty]
    · rw [subtargetCPU, mcCPU, if_neg (not_or.mpr ⟨hempty, hgeneric⟩), if_neg hempty]
      simp [hempty]

/-- The flags of the feature string, or else the CPU, ask for the word size of the
triple. -/
def AsksFor (x : XLen) (CPU : String) (FS : List FeatureFlag) : Prop :=
  match lastRV64Flag FS with
  | some enable => enable = decide (x = .rv64)
  | none => CPU = "" ∨ (CPU = "cpu-rv64" ↔ x = .rv64)

theorem wordSizes_agree_iff (x : XLen) (CPU : String) (FS : List FeatureFlag) :
    (∀ TM, createTargetMachine (archOf x) CPU FS = some TM → TM.Agrees) ↔ AsksFor x CPU FS := by
  obtain ⟨dataLayout, hwidth, hTM⟩ := createTargetMachine_archOf x CPU FS
  have hagree : (∀ TM, createTargetMachine (archOf x) CPU FS = some TM → TM.Agrees) ↔
      (getFeatures (subtargetCPU x CPU) FS).hasRV64 = decide (x = .rv64) ∧
        (getFeatures (mcCPU x CPU) FS).hasRV64 = decide (x = .rv64) := by
    rw [hTM, ← agrees_iff hwidth]
    constructor
    · exact fun hall => hall _ rfl
    · intro hA TM hTM'
      cases hTM'
      exact hA
  rw [hagree, getFeatures_hasRV64, getFeatures_hasRV64, AsksFor]
  cases lastRV64Flag FS with
  | some enable => exact and_self_iff
  | none =>
    simp only [Option.getD_none, decide_eq_decide]
    exact cpus_ask_iff x CPU

/-- The subtarget takes `generic` for the default processor, the MC subtarget info
for an unknown one. -/
theorem wordSizes_generic :
    ∃ TM, createTargetMachine .toyriscv64 "generic" [] = some TM ∧ ¬ TM.Agrees :=
  ⟨_, rfl, by decide⟩

end ToyRiscv
