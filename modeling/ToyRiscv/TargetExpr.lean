import ToyRiscv.MCExpr

/-!
# Constants under a modifier

`TOYRISCVMCExpr::evaluateAsConstant` (MCTargetDesc/TOYRISCVMCExpr.cpp:184-202). What a
sub-expression folds to is up to `MCExpr::evaluateAsRelocatable`, a parameter here.
-/

namespace ToyRiscv

structure TOYRISCVMCExpr where
  expr : MCExpr
  kind : VariantKind
  deriving DecidableEq, Repr

/-- `symA - symB + constant`. -/
structure MCValue where
  symA : Option MCSymbol
  symB : Option MCSymbol
  constant : BitVec 64
  deriving DecidableEq, Repr

def MCValue.isAbsolute (v : MCValue) : Bool := v.symA.isNone && v.symB.isNone

/-- The kinds `evaluateAsConstant` turns away before it looks at the sub-expression. -/
def VariantKind.isRelocation : VariantKind → Bool
  | .pcrelHi | .pcrelLo | .gotHi | .tprelHi | .tprelLo | .tprelAdd | .tlsGotHi | .tlsGdHi | .call
  | .callPlt => true
  | .none | .lo | .hi | .pcrel32 | .invalid => false

/-- The result and what `Res` holds afterwards; `none` where `evaluateAsInt64` reaches
`llvm_unreachable`. -/
def TOYRISCVMCExpr.evaluateAsConstant (evaluateAsRelocatable : MCExpr → Option MCValue)
    (E : TOYRISCVMCExpr) (Res : BitVec 64) : Option (Bool × BitVec 64) :=
  if E.kind.isRelocation then some (false, Res)
  else match evaluateAsRelocatable E.expr with
    | none => some (false, Res)
    | some Value =>
      if Value.isAbsolute then (evaluateAsInt64 E.kind Value.constant).map fun v => (true, v)
      else some (false, Res)

/-- The numbers the field under a modifier can hold: 20 bits of LUI or AUIPC, 12 signed
bits of ADDI, a load or a store, otherwise a word. -/
def VariantKind.InField : VariantKind → ℤ → Prop
  | .hi, v | .pcrelHi, v | .gotHi, v | .tprelHi, v | .tlsGotHi, v | .tlsGdHi, v =>
    0 ≤ v ∧ v < 2 ^ 20
  | .lo, v | .pcrelLo, v | .tprelLo, v => isInt 12 v
  | .none, v | .tprelAdd, v | .call, v | .callPlt, v | .pcrel32, v | .invalid, v => isInt 32 v

/-- False with `Res` as it was, or true with a number for the field. -/
def CleanOutcome (kind : VariantKind) (Res : BitVec 64) : Option (Bool × BitVec 64) → Prop
  | none => False
  | some (false, Res') => Res' = Res
  | some (true, Res') => kind.InField Res'.toInt

/-- Kinds in neither list: not turned away, and not handled by `evaluateAsInt64`. -/
def VariantKind.isUnhandled : VariantKind → Bool
  | .none | .pcrel32 | .invalid => true
  | _ => false

def FoldsToAbsolute (evaluateAsRelocatable : MCExpr → Option MCValue) (e : MCExpr) : Prop :=
  ∃ Value, evaluateAsRelocatable e = some Value ∧ Value.isAbsolute

theorem evaluateAsInt64_inField {kind : VariantKind} (hlet : kind.isRelocation = false)
    (hgap : kind.isUnhandled = false) (value : BitVec 64) :
    ∃ v, evaluateAsInt64 kind value = some v ∧ kind.InField v.toInt := by
  cases kind with
  | lo =>
    refine ⟨_, evaluateAsInt64_lo value, ?_⟩
    rw [lo12Sext_toInt]
    exact lo12_isInt value.toInt
  | hi =>
    refine ⟨_, evaluateAsInt64_hi value, ?_⟩
    rw [hi20_toInt]
    exact hi20_range value.toInt
  | none | pcrel32 | invalid => cases hgap
  | pcrelLo | pcrelHi | gotHi | tprelLo | tprelHi | tprelAdd | tlsGotHi | tlsGdHi | call
  | callPlt => cases hlet

theorem evaluateAsInt64_unhandled {kind : VariantKind} (hgap : kind.isUnhandled = true)
    (value : BitVec 64) : kind.isRelocation = false ∧ evaluateAsInt64 kind value = none := by
  cases kind with
  | none | pcrel32 | invalid => exact ⟨rfl, rfl⟩
  | lo | hi | pcrelLo | pcrelHi | gotHi | tprelLo | tprelHi | tprelAdd | tlsGotHi | tlsGdHi | call
  | callPlt => cases hgap

section Constant
variable {eval : MCExpr → Option MCValue} {E : TOYRISCVMCExpr} {Res : BitVec 64}

theorem evaluateAsConstant_of_relocation (h : E.kind.isRelocation = true) :
    E.evaluateAsConstant eval Res = some (false, Res) := if_pos h

theorem evaluateAsConstant_of_not_absolute (h : ¬ FoldsToAbsolute eval E.expr) :
    E.evaluateAsConstant eval Res = some (false, Res) := by
  rw [TOYRISCVMCExpr.evaluateAsConstant]
  split
  · rfl
  · cases he : eval E.expr with
    | none => rfl
    | some Value =>
      have habs : ¬ Value.isAbsolute = true := fun habs => h ⟨Value, he, habs⟩
      exact if_neg habs

theorem evaluateAsConstant_of_absolute (hlet : E.kind.isRelocation = false) {Value : MCValue}
    (he : eval E.expr = some Value) (habs : Value.isAbsolute = true) :
    E.evaluateAsConstant eval Res =
      (evaluateAsInt64 E.kind Value.constant).map fun v => (true, v) := by
  simp [TOYRISCVMCExpr.evaluateAsConstant, hlet, he, habs]

end Constant

theorem evaluateAsConstant_clean_iff (eval : MCExpr → Option MCValue) (E : TOYRISCVMCExpr)
    (Res : BitVec 64) :
    CleanOutcome E.kind Res (E.evaluateAsConstant eval Res) ↔
      E.kind.isUnhandled = false ∨ ¬ FoldsToAbsolute eval E.expr := by
  by_cases hfold : FoldsToAbsolute eval E.expr
  · obtain ⟨Value, he, habs⟩ := id hfold
    cases hgap : E.kind.isUnhandled with
    | true =>
      obtain ⟨hlet, hnone⟩ := evaluateAsInt64_unhandled hgap Value.constant
      rw [evaluateAsConstant_of_absolute hlet he habs, hnone]
      exact iff_of_false id (fun h => h.elim Bool.noConfusion (· hfold))
    | false =>
      refine iff_of_true ?_ (Or.inl rfl)
      cases hlet : E.kind.isRelocation with
      | true =>
        rw [evaluateAsConstant_of_relocation hlet]
        exact rfl
      | false =>
        obtain ⟨v, hv, hfield⟩ := evaluateAsInt64_inField hlet hgap Value.constant
        rw [evaluateAsConstant_of_absolute hlet he habs, hv]
        exact hfield
  · rw [evaluateAsConstant_of_not_absolute hfold]
    exact iff_of_true rfl (Or.inr hfold)

/-- `MCExpr::evaluateAsRelocatable` on the leaves of an expression. -/
def evaluateLeaf : MCExpr → Option MCValue
  | .constant value => some ⟨none, none, value⟩
  | .symbolRef sym => some ⟨some sym, none, 0#64⟩
  | .unary .. | .binary .. | .target .. => none

theorem evaluateAsConstant_pcrel32 :
    ¬ CleanOutcome .pcrel32 0#64
      (TOYRISCVMCExpr.evaluateAsConstant evaluateLeaf ⟨.constant 4#64, .pcrel32⟩ 0#64) :=
  id

end ToyRiscv
