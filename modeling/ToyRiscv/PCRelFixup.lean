import ToyRiscv.TargetExpr

/-!
# The fixup behind a PC-relative low part

`TOYRISCVMCExpr::getPCRelHiFixup` (MCTargetDesc/TOYRISCVMCExpr.cpp:47-71). The fixup
kinds and which of them are PC-relative HI kinds are parameters.
-/

namespace ToyRiscv

structure MCFixup (κ : Type) where
  offset : ℕ
  kind : κ
  deriving DecidableEq, Repr

structure MCDataFragment (κ : Type) where
  contents : List (BitVec 8)
  fixups : List (MCFixup κ)
  deriving DecidableEq, Repr

inductive MCFragment (κ : Type) where
  | data (DF : MCDataFragment κ)
  | other
  deriving DecidableEq, Repr

/-- A fragment by its section and its place in the section's list. -/
structure FragmentPtr where
  sectionIndex : ℕ
  index : ℕ
  deriving DecidableEq, Repr

structure MCAssembler (κ : Type) where
  sections : List (List (MCFragment κ))
  getFragment : MCSymbol → Option FragmentPtr
  getOffset : MCSymbol → ℕ

def FragmentPtr.getNextNode (p : FragmentPtr) : FragmentPtr := ⟨p.sectionIndex, p.index + 1⟩

variable {κ : Type}

/-- `dyn_cast_or_null<MCDataFragment>`. -/
def MCAssembler.dataFragment (asm : MCAssembler κ) (p : FragmentPtr) :
    Option (MCDataFragment κ) :=
  match (asm.sections[p.sectionIndex]?).bind (·[p.index]?) with
  | some (.data DF) => some DF
  | _ => none

section
variable (asm : MCAssembler κ) (evaluateAsRelocatable : MCExpr → Option MCValue)
  (E : TOYRISCVMCExpr)

/-- `DF` and `Offset` once the symbol is located; `none` on the early exits. -/
def TOYRISCVMCExpr.auipcLocation : Option (FragmentPtr × ℕ) := do
  let AUIPCLoc ← evaluateAsRelocatable E.expr
  let AUIPCSymbol ← AUIPCLoc.symA
  let p ← asm.getFragment AUIPCSymbol
  let DF ← asm.dataFragment p
  if DF.contents.length = asm.getOffset AUIPCSymbol then
    let _ ← asm.dataFragment p.getNextNode
    return (p.getNextNode, 0)
  else
    return (p, asm.getOffset AUIPCSymbol)

/-- The fixup, and the cell `DFOut` points to, if it is not null, as the call leaves it. -/
def TOYRISCVMCExpr.getPCRelHiFixup (DFOut : Option (Option FragmentPtr)) :
    Option (MCFixup κ) × Option (Option FragmentPtr) :=
  match E.auipcLocation asm evaluateAsRelocatable with
  | none => (none, DFOut)
  -- the fragment and the offset are known here, but nothing looks at the fixups
  | some _ => (none, DFOut)

end

/-- The place of the instruction a symbol labels: at the end of a fragment it is the
start of the next one. -/
inductive MCAssembler.LabelsAt (asm : MCAssembler κ) (sym : MCSymbol) : FragmentPtr → ℕ → Prop where
  | inside {p : FragmentPtr} {DF : MCDataFragment κ} (hfragment : asm.getFragment sym = some p)
    (hdata : asm.dataFragment p = some DF) (hoffset : asm.getOffset sym ≠ DF.contents.length) :
    LabelsAt asm sym p (asm.getOffset sym)
  | next {p : FragmentPtr} {DF DF' : MCDataFragment κ} (hfragment : asm.getFragment sym = some p)
    (hdata : asm.dataFragment p = some DF) (hoffset : asm.getOffset sym = DF.contents.length)
    (hnext : asm.dataFragment p.getNextNode = some DF') :
    LabelsAt asm sym p.getNextNode 0

section Spec
variable (asm : MCAssembler κ) (isPCRelHi : κ → Prop) (eval : MCExpr → Option MCValue)
  (E : TOYRISCVMCExpr)

def LocatesAt (F : FragmentPtr) (p : ℕ) : Prop :=
  ∃ value sym, eval E.expr = some value ∧ value.symA = some sym ∧ asm.LabelsAt sym F p

/-- `f` is a PC-relative HI fixup of the fragment `F` at the labelled instruction. -/
def RecordedHiFixup (F : FragmentPtr) (f : MCFixup κ) : Prop :=
  ∃ p DF, LocatesAt asm eval E F p ∧ asm.dataFragment F = some DF ∧ f ∈ DF.fixups ∧
    f.offset = p ∧ isPCRelHi f.kind

/-- What the comment on `getPCRelHiFixup` promises. -/
structure FindsHiFixup (DFOut : Option (Option FragmentPtr))
    (result : Option (MCFixup κ) × Option (Option FragmentPtr)) : Prop where
  found : ∀ F f, RecordedHiFixup asm isPCRelHi eval E F f →
    ∃ f', result = (some f', DFOut.map fun _ => some F) ∧
      RecordedHiFixup asm isPCRelHi eval E F f'
  missing : result.1 = none ↔ ∀ F f, ¬ RecordedHiFixup asm isPCRelHi eval E F f

variable {asm isPCRelHi eval E}

theorem getPCRelHiFixup_eq (DFOut : Option (Option FragmentPtr)) :
    E.getPCRelHiFixup asm eval DFOut = (none, DFOut) := by
  rw [TOYRISCVMCExpr.getPCRelHiFixup]
  split <;> rfl

end Spec

theorem getPCRelHiFixup_finds_iff (asm : MCAssembler κ) (isPCRelHi : κ → Prop)
    (eval : MCExpr → Option MCValue) (E : TOYRISCVMCExpr) (DFOut : Option (Option FragmentPtr)) :
    FindsHiFixup asm isPCRelHi eval E DFOut (E.getPCRelHiFixup asm eval DFOut) ↔
      ∀ F f, ¬ RecordedHiFixup asm isPCRelHi eval E F f := by
  rw [getPCRelHiFixup_eq]
  constructor
  · intro h
    exact h.missing.mp rfl
  · intro h
    exact ⟨fun F f hf => absurd hf (h F f), iff_of_true rfl h⟩

/-- A fragment that starts with an AUIPC and its fixup, under the symbol `g`. -/
def auipcAssembler : MCAssembler Unit where
  sections := [[.data ⟨List.replicate 4 0#8, [⟨0, ()⟩]⟩]]
  getFragment := fun _ => some ⟨0, 0⟩
  getOffset := fun _ => 0

theorem recordedHiFixup_auipc : RecordedHiFixup auipcAssembler (fun _ => True) evaluateLeaf
    ⟨.symbolRef (.global 0), .pcrelLo⟩ ⟨0, 0⟩ ⟨0, ()⟩ :=
  ⟨0, _, ⟨_, .global 0, rfl, rfl, .inside (p := ⟨0, 0⟩) rfl rfl (by decide)⟩, rfl,
    List.mem_singleton.mpr rfl, rfl, trivial⟩

theorem getPCRelHiFixup_auipc :
    ¬ FindsHiFixup auipcAssembler (fun _ => True) evaluateLeaf
      ⟨.symbolRef (.global 0), .pcrelLo⟩ (some none)
      (TOYRISCVMCExpr.getPCRelHiFixup auipcAssembler evaluateLeaf
        ⟨.symbolRef (.global 0), .pcrelLo⟩ (some none)) := by
  intro h
  obtain ⟨f, hresult, _⟩ := h.found _ _ recordedHiFixup_auipc
  cases hresult

end ToyRiscv
