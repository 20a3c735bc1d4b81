import ToyRiscv.CallingConv
import ToyRiscv.Listing
import ToyRiscv.Lib.StarSimulation

/-!
# Frame indices

A stack object stands in an instruction by its frame index until `eliminateFrameIndex`
(TOYRISCVRegisterInfo.cpp:45-75) puts the frame register and an offset there. Where
the objects lie in the frame is decided elsewhere.
-/

namespace ToyRiscv
open Lib.StarSimulation Relation

/-- What is read of a machine function; `indexOffset` is the offset that
`getFrameIndexReference` gives an object, from the frame register on. -/
structure FrameInfo where
  disableFramePointerElim : Bool
  hasStackRealignment : Bool
  hasVarSizedObjects : Bool
  isFrameAddressTaken : Bool
  indexOffset : ℤ → ℤ

namespace FrameInfo

/-- TOYRISCVFrameLowering.cpp:20-28. -/
def hasFP (MF : FrameInfo) : Bool :=
  MF.disableFramePointerElim || MF.hasStackRealignment || MF.hasVarSizedObjects ||
    MF.isFrameAddressTaken

def getFrameRegister (MF : FrameInfo) : Register := if MF.hasFP then 8 else 2

/-- ZERO, RA, FP, SP, GP, TP. -/
def getReservedRegs : List Register := [0, 1, 8, 2, 3, 4]

/-- The operands that replace a frame index and the immediate behind it. -/
def eliminateFrameIndex (asserts : Bool) (MF : FrameInfo) (SPAdj FrameIndex imm12 : ℤ) :
    Except Failure (Register × ℤ) :=
  if asserts && SPAdj != 0 then .error (.assertion "Unexpected non-zero SPAdj value")
  else
    let Offset := MF.indexOffset FrameIndex + imm12
    if asserts && !MF.hasFP then
      .error (.assertion "eliminateFrameIndex currently requires hasFP")
    else if ¬ isInt 12 Offset then
      .error (.fatalError "Frame offsets outside of the signed 12-bit range not supported")
    else .ok (MF.getFrameRegister, Offset)

theorem getFrameRegister_reserved (MF : FrameInfo) : MF.getFrameRegister ∈ getReservedRegs := by
  rw [getFrameRegister]
  split <;> decide

theorem getFrameRegister_ne_zero (MF : FrameInfo) : MF.getFrameRegister ≠ 0 := by
  rw [getFrameRegister]
  split <;> decide

theorem getFrameRegister_ne_ra (MF : FrameInfo) : MF.getFrameRegister ≠ 1 := by
  rw [getFrameRegister]
  split <;> decide

end FrameInfo

/-! ### Code with frame indices -/

/-- An instruction, or one whose base register is still a stack object. -/
inductive FrameInst where
  | inst (I : Inst Register)
  | addi (rd : Register) (FI imm12 : ℤ)
  | load (op : LoadOp) (rd : Register) (FI imm12 : ℤ)
  | store (op : StoreOp) (rs2 : Register) (FI imm12 : ℤ)
  deriving DecidableEq, Repr

/-- The case of `ISD::FrameIndex` in `Select` (TOYRISCVISelDagToDag.cpp:33-39). -/
def selectFrameIndex (rd : Register) (FI : ℤ) : FrameInst := .addi rd FI 0

namespace FrameInst

def defs : FrameInst → List Register
  | .inst I => I.defs
  | .addi rd _ _ | .load _ rd _ _ => [rd]
  | .store .. => []

/-- The frame index and the immediate operand behind it. -/
def reference : FrameInst → Option (ℤ × ℤ)
  | .inst _ => none
  | .addi _ FI imm12 | .load _ _ FI imm12 | .store _ _ FI imm12 => some (FI, imm12)

def withBase (base : Register) (imm12 : ℤ) : FrameInst → Inst Register
  | .inst I => I
  | .addi rd _ _ => .ri .addi rd base imm12
  | .load op rd _ _ => .load op rd base imm12
  | .store op rs2 _ _ => .store op rs2 base imm12

def replaceFrameIndex (asserts : Bool) (MF : FrameInfo) (I : FrameInst) :
    Except Failure (Inst Register) :=
  match I.reference with
  | none => .ok (I.withBase 0 0)
  | some (FI, imm12) =>
    match MF.eliminateFrameIndex asserts 0 FI imm12 with
    | .error e => .error e
    | .ok (base, imm12) => .ok (I.withBase base imm12)

/-- The instruction where the object `FI` lies at the address `addr FI`. -/
def step {w : ℕ} (addr : ℤ → BitVec w) (s : ArchState Register w) :
    FrameInst → ArchState Register w ⊕ ArchState Register w
  | .inst I => stepInst s I
  | .addi rd FI imm12 => .inl (s.set rd (addr FI + BitVec.ofInt w imm12)).next
  | .load op rd FI imm12 => .inl (s.set rd (op.value s.mem (addr FI + BitVec.ofInt w imm12))).next
  | .store op rs2 FI imm12 =>
    .inl { s.next with
      mem := Lib.ByteMemory.writeBytes s.mem (addr FI + BitVec.ofInt w imm12) (s.get rs2) op.bytes }

end FrameInst

/-- What `Select` puts for a frame index is the address of the object. -/
theorem selectFrameIndex_step {w : ℕ} (addr : ℤ → BitVec w) (s : ArchState Register w)
    (rd : Register) (FI : ℤ) :
    (selectFrameIndex rd FI).step addr s = .inl (s.set rd (addr FI)).next := by
  simp only [selectFrameIndex, FrameInst.step, BitVec.ofInt_ofNat, BitVec.add_zero]

/-- The call of `eliminateFrameIndex` on each reference; no call frame is open. -/
def replaceFrameIndices (asserts : Bool) (MF : FrameInfo) :
    List FrameInst → Except Failure (List (Inst Register))
  | [] => .ok []
  | I :: code =>
    match I.replaceFrameIndex asserts MF with
    | .error e => .error e
    | .ok J =>
      match replaceFrameIndices asserts MF code with
      | .error e => .error e
      | .ok out => .ok (J :: out)

def frameStep {w : ℕ} (addr : ℤ → BitVec w) (code : List FrameInst) (base : BitVec w)
    (s : ArchState Register w) : Option (ArchState Register w ⊕ ArchState Register w) :=
  (if (s.pc - base).toNat % 4 = 0 then code[(s.pc - base).toNat / 4]? else none).map
    (FrameInst.step addr s)

def FrameInfo.address {w : ℕ} (MF : FrameInfo) (s : ArchState Register w) (FI : ℤ) : BitVec w :=
  s.get MF.getFrameRegister + BitVec.ofInt w (MF.indexOffset FI)

/-! ### What comes out -/

section Outcome
variable (asserts : Bool) (MF : FrameInfo)

/-- What stops a reference to `FI`. -/
def FrameInst.problem (I : FrameInst) : Option Failure :=
  I.reference.bind fun r =>
    if asserts && !MF.hasFP then
      some (.assertion "eliminateFrameIndex currently requires hasFP")
    else if isInt 12 (MF.indexOffset r.1 + r.2) then none
    else some (.fatalError "Frame offsets outside of the signed 12-bit range not supported")

def FrameInst.addressed (I : FrameInst) : Inst Register :=
  I.withBase MF.getFrameRegister ((I.reference.map fun r => MF.indexOffset r.1 + r.2).getD 0)

theorem replaceFrameIndex_eq (I : FrameInst) :
    I.replaceFrameIndex asserts MF =
      match I.problem asserts MF with
      | some e => .error e
      | none => .ok (I.addressed MF) := by
  rcases hr : I.reference with - | ⟨FI, imm12⟩
  · have hI : ∀ base imm12, I.withBase base imm12 = I.withBase 0 0 := by
      cases I with
      | inst => exact fun _ _ => rfl
      | addi | load | store => cases hr
    simp only [FrameInst.replaceFrameIndex, FrameInst.problem, hr, Option.bind_none,
      FrameInst.addressed, hI]
  · simp only [FrameInst.replaceFrameIndex, FrameInst.problem, hr, Option.bind_some,
      FrameInst.addressed, FrameInfo.eliminateFrameIndex, bne_self_eq_false, Bool.and_false,
      Bool.false_eq_true, if_false, Option.map_some, Option.getD_some]
    by_cases hFP : (asserts && !MF.hasFP) = true
    · simp only [if_pos hFP]
    · by_cases hfit : isInt 12 (MF.indexOffset FI + imm12)
      · simp only [if_neg hFP, if_pos hfit, not_not.mpr hfit, if_false]
      · simp only [if_neg hFP, hfit, not_false_eq_true, if_true, if_false]

theorem replaceFrameIndices_eq (code : List FrameInst) :
    replaceFrameIndices asserts MF code =
      match code.findSome? (FrameInst.problem asserts MF) with
      | some e => .error e
      | none => .ok (code.map (FrameInst.addressed MF)) := by
  induction code with
  | nil => rfl
  | cons I code ih =>
    rw [replaceFrameIndices, replaceFrameIndex_eq, ih, List.findSome?_cons]
    cases I.problem asserts MF with
    | some e => rfl
    | none =>
      cases code.findSome? (FrameInst.problem asserts MF) with
      | some e => rfl
      | none => rfl

theorem isInt_of_problem {I : FrameInst} (h : I.problem asserts MF = none) {FI imm12 : ℤ}
    (hr : I.reference = some (FI, imm12)) : isInt 12 (MF.indexOffset FI + imm12) := by
  simp only [FrameInst.problem, hr, Option.bind_some] at h
  split at h
  · cases h
  · split at h
    · next hfit => exact hfit
    · cases h

theorem addressed_fits {I : FrameInst} (h : I.problem asserts MF = none)
    (hinst : ∀ J, I = .inst J → J.Fits) : (I.addressed MF).Fits := by
  cases I with
  | inst J => exact hinst J rfl
  | addi | load | store => exact isInt_of_problem asserts MF h rfl

end Outcome

/-! ### Running it -/

section Running
variable {asserts : Bool} {MF : FrameInfo} {w : ℕ}

theorem addressed_defs (I : FrameInst) : (I.addressed MF).defs = I.defs := by
  cases I <;> rfl

theorem address_add (hw : 12 ≤ w) (s : ArchState Register w) {FI imm12 : ℤ}
    (h : isInt 12 (MF.indexOffset FI + imm12)) :
    s.get MF.getFrameRegister + imm12Value w (MF.indexOffset FI + imm12) =
      MF.address s FI + BitVec.ofInt w imm12 := by
  rw [imm12Value_of_isInt hw h, FrameInfo.address, BitVec.ofInt_add, BitVec.add_assoc]

theorem addressed_step (hw : 12 ≤ w) (s : ArchState Register w) {I : FrameInst}
    (h : I.problem asserts MF = none) :
    stepInst s (I.addressed MF) = I.step (MF.address s) s := by
  cases I with
  | inst J => rfl
  | addi rd FI imm12 =>
    have haddr := address_add hw s (isInt_of_problem asserts MF h rfl)
    simp only [FrameInst.step, ← haddr]
    rfl
  | load op rd FI imm12 =>
    have haddr := address_add hw s (isInt_of_problem asserts MF h rfl)
    simp only [FrameInst.step, ← haddr]
    rfl
  | store op rs2 FI imm12 =>
    have haddr := address_add hw s (isInt_of_problem asserts MF h rfl)
    simp only [FrameInst.step, ← haddr]
    rfl

theorem frameStep_eq (hw : 12 ≤ w) {code : List FrameInst}
    (h : ∀ I ∈ code, I.problem asserts MF = none) (base : BitVec w) (s : ArchState Register w) :
    machineStep (code.map (FrameInst.addressed MF)) base s =
      frameStep (MF.address s) code base s := by
  rw [machineStep, fetch, frameStep]
  split
  · rw [List.getElem?_map]
    cases hI : code[(s.pc - base).toNat / 4]? with
    | none => rfl
    | some I =>
      exact congrArg some (addressed_step hw s (h I (List.mem_of_getElem? hI)))
  · rfl

/-- Of the reserved registers only ZERO and RA are written. -/
def FrameInst.KeepsReserved (I : FrameInst) : Prop :=
  ∀ r ∈ I.defs, r ∈ FrameInfo.getReservedRegs → r = 0 ∨ r = 1

theorem FrameInst.KeepsReserved.frameRegister {I : FrameInst} (h : I.KeepsReserved) :
    MF.getFrameRegister ∉ I.defs := by
  intro hmem
  rcases h _ hmem MF.getFrameRegister_reserved with h0 | h1
  · exact MF.getFrameRegister_ne_zero h0
  · exact MF.getFrameRegister_ne_ra h1

theorem eq_exec_of_stepInst {s s' : ArchState Register w} {I : Inst Register}
    (h : stepInst s I = .inl s') : s' = I.exec s := by
  cases I with
  | jalr => cases h
  | rr | ri | load | store | branch | lui | auipc | jal => exact (Sum.inl.inj h).symm

theorem next_getFrameRegister {code : List FrameInst} (hkeep : ∀ I ∈ code, I.KeepsReserved)
    {base : BitVec w} {s s' : ArchState Register w}
    (h : Next (machineStep (code.map (FrameInst.addressed MF)) base) s s') :
    s'.get MF.getFrameRegister = s.get MF.getFrameRegister := by
  obtain ⟨J, hJ, hstep⟩ := Option.map_eq_some_iff.mp h
  rw [fetch] at hJ
  split at hJ
  · obtain ⟨I, hI, rfl⟩ := List.mem_map.mp (List.mem_of_getElem? hJ)
    rw [eq_exec_of_stepInst hstep]
    apply exec_get_of_notMem_defs
    rw [addressed_defs]
    exact (hkeep I hI).frameRegister
  · cases hJ

/-- The objects stay where they are while the code runs, since nothing moves the frame register. -/
theorem frame_starSim (hw : 12 ≤ w) {code : List FrameInst}
    (h : ∀ I ∈ code, I.problem asserts MF = none) (hkeep : ∀ I ∈ code, I.KeepsReserved)
    (base : BitVec w) (addr : ℤ → BitVec w) :
    StarSim (frameStep addr code base) (machineStep (code.map (FrameInst.addressed MF)) base)
      (fun s t => s = t ∧ MF.address s = addr) Eq fun _ => 0 where
  next := by
    intro s t hst s' hs'
    obtain ⟨rfl, rfl⟩ := hst
    have hnext : Next (machineStep (code.map (FrameInst.addressed MF)) base) s s' := by
      rw [Next, frameStep_eq hw h]
      exact hs'
    refine ⟨s', ⟨rfl, ?_⟩, .inl (.single hnext)⟩
    funext FI
    rw [FrameInfo.address, FrameInfo.address, next_getFrameRegister hkeep hnext]
  ends := by
    intro s t hst o ho
    obtain ⟨rfl, rfl⟩ := hst
    refine ⟨s, o, .refl, ?_, ?_⟩
    · rw [frameStep_eq hw h, ho]
    · cases o with
      | none => exact .none
      | some r => exact .some rfl

end Running

/-- The first reference that cannot be addressed is the error; without one the code runs, in
either word size, as if each object had its address in the frame. -/
theorem replaceFrameIndices_runs (asserts : Bool) (MF : FrameInfo) (code : List FrameInst) :
    (∀ e, code.findSome? (FrameInst.problem asserts MF) = some e →
      replaceFrameIndices asserts MF code = .error e) ∧
    (code.findSome? (FrameInst.problem asserts MF) = none →
      ∃ out, replaceFrameIndices asserts MF code = .ok out ∧ out.length = code.length ∧
        ((∀ J, .inst J ∈ code → J.Fits) → ∀ I ∈ out, I.Fits) ∧
        ((∀ I ∈ code, I.KeepsReserved) →
          ∀ (x : XLen) (base : BitVec x.bits) (s : ArchState Register x.bits),
            SameRuns (frameStep (MF.address s) code base) (machineStep out base)
              (fun t t' => t = t' ∧ MF.address t = MF.address s) Eq s s)) := by
  constructor
  · intro e he
    rw [replaceFrameIndices_eq, he]
  · intro hnone
    have hproblem : ∀ I ∈ code, I.problem asserts MF = none := List.findSome?_eq_none_iff.mp hnone
    refine ⟨code.map (FrameInst.addressed MF), ?_, List.length_map .., ?_, ?_⟩
    · rw [replaceFrameIndices_eq, hnone]
    · intro hfits J hJ
      obtain ⟨I, hI, rfl⟩ := List.mem_map.mp hJ
      exact addressed_fits asserts MF (hproblem I hI) fun K hK => hfits K (hK ▸ hI)
    · intro hkeep x base s
      have hw : 12 ≤ x.bits := Nat.le_trans (by decide) x.le_bits
      exact (frame_starSim hw hproblem hkeep base (MF.address s)).sameRuns ⟨rfl, rfl⟩

end ToyRiscv
