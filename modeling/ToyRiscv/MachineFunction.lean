import ToyRiscv.CondCode
import ToyRiscv.Lib.Dominance

/-!
# Machine functions in SSA form

The part of LLVM's `MachineFunction` that `emitSelectPseudo`
(TOYRISCVISelLowering.cpp:256-376) reads and rewrites: basic blocks in layout
order, their instruction lists and successor lists, virtual registers, PHIs and
debug instructions. `MachineFunction.SSA` is the well-formedness the machine
verifier asks of a function at this point of instruction selection.
-/

namespace ToyRiscv
open Lib.Dominance

abbrev Register := ℕ

abbrev MBB := ℕ

/-- Operands 0 to 5 of `Select_GPR_Using_CC_GPR` (TOYRISCVInstrInfo.td:266-275). -/
structure SelectPseudo where
  dst : Register
  lhs : Register
  rhs : Register
  cc : CondCode
  trueV : Register
  falseV : Register
  deriving DecidableEq, Repr

/-- Any instruction without a role of its own below: its register and immediate
operands and the three properties TableGen records for its opcode. -/
structure OrdinaryInstr where
  opcode : ℕ
  defs : List Register
  uses : List Register
  imms : List ℤ
  hasSideEffects : Bool
  mayLoad : Bool
  mayStore : Bool
  deriving DecidableEq, Repr

inductive MachineInstr where
  | phi (dst : Register) (incoming : List (Register × MBB))
  | select (s : SelectPseudo)
  | branch (op : BranchOp) (rs1 rs2 : Register) (target : MBB)
  | pseudoBR (target : MBB)
  | pseudoRET (uses : List Register)
  | debug (isDebugValue : Bool) (regs : List Register)
  | ordinary (i : OrdinaryInstr)
  deriving DecidableEq, Repr

namespace MachineInstr

def defs : MachineInstr → List Register
  | .phi d _ => [d]
  | .select s => [s.dst]
  | .ordinary i => i.defs
  | _ => []

def uses : MachineInstr → List Register
  | .phi _ inc => inc.map Prod.fst
  | .select s => [s.lhs, s.rhs, s.trueV, s.falseV]
  | .branch _ a b _ => [a, b]
  | .pseudoBR _ => []
  | .pseudoRET us => us
  | .debug _ rs => rs
  | .ordinary i => i.uses

def isPhi : MachineInstr → Bool
  | .phi .. => true
  | _ => false

def isDebugInstr : MachineInstr → Bool
  | .debug .. => true
  | _ => false

def asSelect : MachineInstr → Option SelectPseudo
  | .select s => some s
  | _ => none

def phiResult : MachineInstr → Option Register
  | .phi d _ => some d
  | _ => none

/-- `isSelectPseudo` (TOYRISCVISelLowering.cpp:247-254). -/
def isSelectPseudo (I : MachineInstr) : Bool := I.asSelect.isSome

def hasUnmodeledSideEffects : MachineInstr → Bool
  | .ordinary i => i.hasSideEffects
  | _ => false

def mayLoadOrStore : MachineInstr → Bool
  | .ordinary i => i.mayLoad || i.mayStore
  | _ => false

def isTerminator : MachineInstr → Bool
  | .branch .. => true
  | .pseudoBR .. => true
  | .pseudoRET .. => true
  | _ => false

def isBarrier : MachineInstr → Bool
  | .pseudoBR .. => true
  | .pseudoRET .. => true
  | _ => false

def targets : MachineInstr → List MBB
  | .branch _ _ _ t => [t]
  | .pseudoBR t => [t]
  | _ => []

/-- Uses that read their register where the instruction stands: a PHI reads at
the end of its predecessors, and debug uses are exempt from dominance. -/
def orderedUses : MachineInstr → List Register
  | .phi .. => []
  | .debug .. => []
  | I => I.uses

theorem asSelect_eq_some {I : MachineInstr} {s : SelectPseudo} :
    I.asSelect = some s ↔ I = .select s := by
  cases I <;> simp [asSelect]

theorem filterMap_asSelect_cons (s : SelectPseudo) (l : List MachineInstr) :
    (.select s :: l).filterMap asSelect = s :: l.filterMap asSelect :=
  List.filterMap_cons_some rfl

theorem eq_phi {I : MachineInstr} (h : I.isPhi = true) : ∃ d inc, I = .phi d inc := by
  cases I with
  | phi d inc => exact ⟨d, inc, rfl⟩
  | _ => cases h

theorem eq_debug {I : MachineInstr} (h : I.isDebugInstr = true) : ∃ v rs, I = .debug v rs := by
  cases I with
  | debug v rs => exact ⟨v, rs, rfl⟩
  | _ => cases h

theorem not_barrier {I : MachineInstr} (h : I.isTerminator = false) : I.isBarrier = false := by
  cases I with
  | pseudoBR t => cases h
  | pseudoRET us => cases h
  | _ => rfl

theorem targets_eq_nil {I : MachineInstr} (h : I.isTerminator = false) : I.targets = [] := by
  cases I with
  | branch op a b t => cases h
  | pseudoBR t => cases h
  | _ => rfl

end MachineInstr

structure MachineFunction where
  layout : List MBB
  insts : MBB → List MachineInstr
  succs : MBB → List MBB

def defsOf (l : List MachineInstr) : List Register := l.flatMap MachineInstr.defs

@[simp] theorem defsOf_nil : defsOf [] = [] := rfl

@[simp] theorem defsOf_cons (I : MachineInstr) (l : List MachineInstr) :
    defsOf (I :: l) = I.defs ++ defsOf l := rfl

@[simp] theorem defsOf_append (l m : List MachineInstr) :
    defsOf (l ++ m) = defsOf l ++ defsOf m := List.flatMap_append

def nextIn (b : MBB) : List MBB → Option MBB
  | a :: c :: l => if a = b then some c else nextIn b (c :: l)
  | _ => none

namespace MachineFunction

def entry (F : MachineFunction) : MBB := F.layout.headD 0

def nextBlock (F : MachineFunction) (b : MBB) : Option MBB := nextIn b F.layout

def edge (F : MachineFunction) (a b : MBB) : Prop := a ∈ F.layout ∧ b ∈ F.succs a

def dominates (F : MachineFunction) (d u : MBB) : Prop := Dominates F.edge F.entry d u

def defs (F : MachineFunction) : List Register := F.layout.flatMap fun b => defsOf (F.insts b)

/-- Registers defined in another block that dominates `b`. -/
def availableIn (F : MachineFunction) (b : MBB) (r : Register) : Prop :=
  ∃ d ∈ F.layout, d ≠ b ∧ r ∈ defsOf (F.insts d) ∧ F.dominates d b

/-- Registers defined in a block that dominates the end of `p`. -/
def availableOut (F : MachineFunction) (p : MBB) (r : Register) : Prop :=
  ∃ d ∈ F.layout, r ∈ defsOf (F.insts d) ∧ F.dominates d p

def selects (F : MachineFunction) : List SelectPseudo :=
  (F.layout.flatMap F.insts).filterMap MachineInstr.asSelect

def phiResults (F : MachineFunction) : List Register :=
  (F.layout.flatMap F.insts).filterMap MachineInstr.phiResult

end MachineFunction

/-- Every ordered use is available on entry or defined earlier in the list. -/
def UsesDefined (avail : Register → Prop) : List MachineInstr → Prop
  | [] => True
  | I :: l => (∀ r ∈ I.orderedUses, avail r) ∧
      UsesDefined (fun r => avail r ∨ r ∈ I.defs) l

/-- SSA form, with the block structure the machine verifier checks. -/
structure MachineFunction.SSA (F : MachineFunction) : Prop where
  layout_ne : F.layout ≠ []
  layout_nodup : F.layout.Nodup
  defs_nodup : F.defs.Nodup
  uses_dominated : ∀ b ∈ F.layout, UsesDefined (F.availableIn b) (F.insts b)
  phi_dominated : ∀ b ∈ F.layout, ∀ d inc, .phi d inc ∈ F.insts b →
    ∀ rp ∈ inc, F.availableOut rp.2 rp.1
  phi_incoming : ∀ b ∈ F.layout, ∀ d inc, .phi d inc ∈ F.insts b →
    (inc.map Prod.snd).Nodup ∧ ∀ p, p ∈ inc.map Prod.snd ↔ F.edge p b
  phis_first : ∀ b ∈ F.layout,
    (F.insts b).Pairwise fun I J => J.isPhi = true → I.isPhi = true
  terminators_last : ∀ b ∈ F.layout,
    (F.insts b).Pairwise fun I J => I.isTerminator = true → J.isTerminator = true
  succs_in : ∀ b ∈ F.layout, ∀ s ∈ F.succs b, s ∈ F.layout
  targets_in : ∀ b ∈ F.layout, ∀ I ∈ F.insts b, ∀ t ∈ I.targets, t ∈ F.succs b
  falls_through : ∀ b ∈ F.layout, (∀ I ∈ F.insts b, I.isBarrier = false) →
    ∀ n, F.nextBlock b = some n → n ∈ F.succs b
  select_cc : ∀ b ∈ F.layout, ∀ s, .select s ∈ F.insts b → s.cc ≠ .condInvalid

/-! ### Lists whose uses are defined -/

theorem usesDefined_mono {A B : Register → Prop} (h : ∀ r, A r → B r) :
    ∀ l : List MachineInstr, UsesDefined A l → UsesDefined B l := by
  intro l
  induction l generalizing A B with
  | nil => exact fun _ => trivial
  | cons I l ih =>
    intro hl
    exact ⟨fun r hr => h r (hl.1 r hr), ih (fun r => Or.imp_left (h r)) hl.2⟩

theorem usesDefined_append {A : Register → Prop} (l m : List MachineInstr) :
    UsesDefined A (l ++ m) ↔
      UsesDefined A l ∧ UsesDefined (fun r => A r ∨ r ∈ defsOf l) m := by
  induction l generalizing A with
  | nil => simp [UsesDefined]
  | cons I l ih =>
    simp only [List.cons_append, UsesDefined, ih, defsOf_cons, List.mem_append, or_assoc, and_assoc]

/-! ### Dropping debug instructions -/

def nonDebug (l : List MachineInstr) : List MachineInstr := l.filter fun I => !I.isDebugInstr

@[simp] theorem nonDebug_nil : nonDebug [] = [] := rfl

@[simp] theorem nonDebug_append (l m : List MachineInstr) :
    nonDebug (l ++ m) = nonDebug l ++ nonDebug m := List.filter_append l m

theorem nonDebug_cons_debug {I : MachineInstr} (h : I.isDebugInstr = true)
    (l : List MachineInstr) : nonDebug (I :: l) = nonDebug l := by
  simp [nonDebug, h]

theorem nonDebug_cons {I : MachineInstr} (h : I.isDebugInstr = false)
    (l : List MachineInstr) : nonDebug (I :: l) = I :: nonDebug l := by
  simp [nonDebug, h]

theorem MachineInstr.debug_defs {I : MachineInstr} (h : I.isDebugInstr = true) : I.defs = [] := by
  obtain ⟨v, rs, rfl⟩ := eq_debug h
  rfl

theorem MachineInstr.debug_orderedUses {I : MachineInstr} (h : I.isDebugInstr = true) :
    I.orderedUses = [] := by
  obtain ⟨v, rs, rfl⟩ := eq_debug h
  rfl

theorem MachineInstr.debug_asSelect {I : MachineInstr} (h : I.isDebugInstr = true) :
    I.asSelect = none := by
  obtain ⟨v, rs, rfl⟩ := eq_debug h
  rfl

theorem nonDebug_eq_nil {l : List MachineInstr} (h : ∀ I ∈ l, I.isDebugInstr = true) :
    nonDebug l = [] := by
  simpa [nonDebug] using h

theorem usesDefined_nonDebug {A : Register → Prop} (l : List MachineInstr) :
    UsesDefined A (nonDebug l) ↔ UsesDefined A l := by
  induction l generalizing A with
  | nil => exact Iff.rfl
  | cons I l ih =>
    by_cases h : I.isDebugInstr = true
    · rw [nonDebug_cons_debug h, ih, UsesDefined, I.debug_orderedUses h, I.debug_defs h]
      simp
    · rw [nonDebug_cons (by simpa using h), UsesDefined, UsesDefined, ih]

theorem defsOf_nonDebug (l : List MachineInstr) : defsOf (nonDebug l) = defsOf l := by
  induction l with
  | nil => rfl
  | cons I l ih =>
    by_cases h : I.isDebugInstr = true
    · rw [nonDebug_cons_debug h, ih, defsOf_cons, I.debug_defs h, List.nil_append]
    · rw [nonDebug_cons (by simpa using h), defsOf_cons, defsOf_cons, ih]

theorem usesDefined_of_nonDebug_eq {A : Register → Prop} {l m : List MachineInstr}
    (h : nonDebug l = nonDebug m) : UsesDefined A l ↔ UsesDefined A m := by
  rw [← usesDefined_nonDebug l, h, usesDefined_nonDebug m]

theorem defsOf_of_nonDebug_eq {l m : List MachineInstr} (h : nonDebug l = nonDebug m) :
    defsOf l = defsOf m := by
  rw [← defsOf_nonDebug l, h, defsOf_nonDebug m]

end ToyRiscv
