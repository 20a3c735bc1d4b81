import ToyRiscv.MachineFunction
import ToyRiscv.Lib.Positions

/-!
# Select expansion (TOYRISCVISelLowering.cpp:256-387)

`emitSelectPseudo` scans forward from a `Select_GPR_Using_CC_GPR` for further
selects on the same condition, splits the block behind the last one it accepts
and turns the accepted selects into PHIs of the new tail. An iterator into a
block is the position of its instruction; `none` is an `llvm_unreachable`.
-/

namespace ToyRiscv
open Lib.Positions

structure SelectSequence where
  selectDests : List Register
  lastSelectPseudo : ℕ
  selectDebugValues : List ℕ
  deriving DecidableEq, Repr

/-- `MachineInstr::collectDebugValues` on the instructions behind the one that
defines `dst`: the run of DBG_VALUEs there, as far as it names `dst`. -/
def collectDebugValues (dst : Register) : ℕ → List MachineInstr → List ℕ
  | k, .debug true regs :: l =>
    if dst ∈ regs then k :: collectDebugValues dst (k + 1) l
    else collectDebugValues dst (k + 1) l
  | _, _ => []

/-- The loop at TOYRISCVISelLowering.cpp:293-316 on the instructions from
position `k` to the end of the block. -/
def scanSequence (LHS RHS : Register) (CC : CondCode) :
    ℕ → List MachineInstr → SelectSequence → SelectSequence
  | _, [], q => q
  | k, I :: l, q =>
    if I.isDebugInstr then scanSequence LHS RHS CC (k + 1) l q
    else match I.asSelect with
    | some s =>
      if s.lhs ≠ LHS ∨ s.rhs ≠ RHS ∨ s.cc ≠ CC ∨
          s.trueV ∈ q.selectDests ∨ s.falseV ∈ q.selectDests then q
      else scanSequence LHS RHS CC (k + 1) l
        ⟨s.dst :: q.selectDests, k, q.selectDebugValues ++ collectDebugValues s.dst (k + 1) l⟩
    | none =>
      if I.hasUnmodeledSideEffects || I.mayLoadOrStore then q
      else if I.uses.any fun r => decide (r ∈ q.selectDests) then q
      else scanSequence LHS RHS CC (k + 1) l q

/-- `MachineBasicBlock::replacePhiUsesWith` on one instruction. -/
def replacePhiUsesWith (old new : MBB) : MachineInstr → MachineInstr
  | .phi d inc => .phi d (inc.map fun rp => (rp.1, if rp.2 = old then new else rp.2))
  | I => I

/-- `F->insert(I, ..)` for the blocks `new`, `I` being the iterator behind `b`. -/
def insertAfter (b : MBB) (new : List MBB) : List MBB → List MBB
  | [] => []
  | a :: l => if a = b then a :: (new ++ l) else a :: insertAfter b new l

def MachineFunction.freshBlock (F : MachineFunction) : MBB := F.layout.foldr max 0 + 1

/-- The CFG part of the expansion: `BB` keeps the instructions `head`, an empty
IfFalseMBB and a TailMBB with the instructions `tail` follow it in layout, and
the successors of `BB` with the PHIs that name it go over to TailMBB
(`transferSuccessorsAndUpdatePHIs`). -/
def splitBlock (F : MachineFunction) (BB : MBB) (tailMBB ifFalseMBB : MBB)
    (head tail : List MachineInstr) : MachineFunction where
  layout := insertAfter BB [ifFalseMBB, tailMBB] F.layout
  insts b :=
    if b = tailMBB then tail
    else if b = ifFalseMBB then []
    else if b ∈ F.succs BB then
      (if b = BB then head else F.insts b).map (replacePhiUsesWith BB tailMBB)
    else if b = BB then head else F.insts b
  succs b :=
    if b = tailMBB then F.succs BB
    else if b = ifFalseMBB then [tailMBB]
    else if b = BB then [ifFalseMBB, tailMBB]
    else F.succs b

/-- `%Result = phi [ %TrueValue, HeadMBB ], [ %FalseValue, IfFalseMBB ]`. -/
def selectPhi (headMBB ifFalseMBB : MBB) (s : SelectPseudo) : MachineInstr :=
  .phi s.dst [(s.trueV, headMBB), (s.falseV, ifFalseMBB)]

/-- `emitSelectPseudo` on the select at position `MI` of `BB`: the rewritten
function and TailMBB. -/
def emitSelectPseudo (F : MachineFunction) (BB : MBB) (MI : ℕ) :
    Option (MachineFunction × MBB) :=
  let insts := F.insts BB
  match insts[MI]?.bind MachineInstr.asSelect with
  | none => none
  | some s =>
    let q := scanSequence s.lhs s.rhs s.cc MI (insts.drop MI) ⟨[s.dst], MI, []⟩
    let tailMBB := F.freshBlock
    let ifFalseMBB := F.freshBlock + 1
    -- debug values of the selects move to TailMBB first, then all that follows the sequence
    let selectEnd := q.lastSelectPseudo + 1
    let debugValues := pickAt q.selectDebugValues 0 insts
    let before := insts.take MI
    let sequence := dropAt q.selectDebugValues MI ((insts.take selectEnd).drop MI)
    let after := dropAt q.selectDebugValues selectEnd (insts.drop selectEnd)
    let selects := sequence.filterMap MachineInstr.asSelect
    let others := sequence.filter fun I => !I.isSelectPseudo
    (getBrCond s.cc).map fun brCond =>
      (splitBlock F BB tailMBB ifFalseMBB
        (before ++ others ++ [.branch brCond s.lhs s.rhs tailMBB])
        (selects.map (selectPhi BB ifFalseMBB) ++ debugValues ++ after), tailMBB)

/-- `EmitInstrWithCustomInserter`; only the select pseudo has the flag. -/
def emitInstrWithCustomInserter (F : MachineFunction) (BB : MBB) (MI : ℕ) :
    Option (MachineFunction × MBB) :=
  match (F.insts BB)[MI]? with
  | some (.select _) => emitSelectPseudo F BB MI
  | _ => none

end ToyRiscv
