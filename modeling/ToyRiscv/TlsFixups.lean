import ToyRiscv.TargetExpr
import ToyRiscv.Lib.Overwrite

/-!
# Thread-local symbols

`fixELFSymbolsInTLSFixups` (MCTargetDesc/TOYRISCVMCExpr.cpp:142-182) marks the symbols
under a thread-local modifier in the table of symbol types.
-/

namespace ToyRiscv
open Lib.Overwrite

/-- `ELF::STT_*`, the type of a symbol. -/
inductive SymbolType where
  | noType
  | object
  | func
  | sect
  | common
  | tls
  | gnuIFunc
  deriving DecidableEq, Repr

abbrev SymbolTable := MCSymbol → SymbolType

def SymbolTable.setType (T : SymbolTable) (sym : MCSymbol) (type : SymbolType) : SymbolTable :=
  Function.update T sym type

/-- `none` where a nested target expression reaches `llvm_unreachable`. -/
def fixELFSymbolsInTLSFixupsImpl : MCExpr → SymbolTable → Option SymbolTable
  | .target .., _ => none
  | .constant _, T => some T
  | .binary _ lhs rhs, T =>
    (fixELFSymbolsInTLSFixupsImpl lhs T).bind (fixELFSymbolsInTLSFixupsImpl rhs)
  | .symbolRef sym, T => some (T.setType sym .tls)
  | .unary _ sub, T => fixELFSymbolsInTLSFixupsImpl sub T

def TOYRISCVMCExpr.fixELFSymbolsInTLSFixups (E : TOYRISCVMCExpr) (T : SymbolTable) :
    Option SymbolTable :=
  match E.kind with
  | .tprelHi | .tlsGotHi | .tlsGdHi => fixELFSymbolsInTLSFixupsImpl E.expr T
  | _ => some T

def MCExpr.Plain : MCExpr → Prop
  | .target .. => False
  | .constant _ | .symbolRef _ => True
  | .unary _ sub => sub.Plain
  | .binary _ lhs rhs => lhs.Plain ∧ rhs.Plain

inductive MCExpr.References (sym : MCSymbol) : MCExpr → Prop where
  | symbolRef : References sym (.symbolRef sym)
  | unary {op : MCUnaryOp} {sub : MCExpr} (h : References sym sub) :
    References sym (.unary op sub)
  | lhs {op : MCBinaryOp} {lhs rhs : MCExpr} (h : References sym lhs) :
    References sym (.binary op lhs rhs)
  | rhs {op : MCBinaryOp} {lhs rhs : MCExpr} (h : References sym rhs) :
    References sym (.binary op lhs rhs)

def VariantKind.IsTlsHi (kind : VariantKind) : Prop :=
  kind = .tprelHi ∨ kind = .tlsGotHi ∨ kind = .tlsGdHi

def TOYRISCVMCExpr.tlsSymbols (E : TOYRISCVMCExpr) : Set MCSymbol :=
  {sym | E.kind.IsTlsHi ∧ E.expr.References sym}

/-! ### One expression -/

theorem references_constant (value : BitVec 64) :
    {sym | (MCExpr.constant value).References sym} = ∅ :=
  Set.eq_empty_of_forall_notMem fun _ h => nomatch h

theorem references_symbolRef (sym : MCSymbol) :
    {s | (MCExpr.symbolRef sym).References s} = {sym} := by
  ext s
  constructor
  · intro h
    cases h with
    | symbolRef => rfl
  · intro h
    rw [h]
    exact .symbolRef

theorem references_unary (op : MCUnaryOp) (sub : MCExpr) :
    {s | (MCExpr.unary op sub).References s} = {s | sub.References s} := by
  ext s
  constructor
  · intro h
    cases h with
    | unary h => exact h
  · exact .unary

theorem references_binary (op : MCBinaryOp) (lhs rhs : MCExpr) :
    {s | (MCExpr.binary op lhs rhs).References s} =
      {s | lhs.References s} ∪ {s | rhs.References s} := by
  ext s
  constructor
  · intro h
    cases h with
    | lhs h => exact Or.inl h
    | rhs h => exact Or.inr h
  · intro h
    rcases h with h | h
    · exact .lhs h
    · exact .rhs h

theorem fixELFSymbolsInTLSFixupsImpl_eq {e : MCExpr} (he : e.Plain) (T : SymbolTable) :
    fixELFSymbolsInTLSFixupsImpl e T = some (overwrite .tls {s | e.References s} T) := by
  induction e generalizing T with
  | constant value => rw [references_constant, overwrite_empty, fixELFSymbolsInTLSFixupsImpl]
  | symbolRef sym =>
    rw [references_symbolRef, overwrite_singleton, fixELFSymbolsInTLSFixupsImpl,
      SymbolTable.setType]
  | unary op sub ih => rw [references_unary, fixELFSymbolsInTLSFixupsImpl, ih he]
  | binary op lhs rhs ihl ihr =>
    rw [references_binary, fixELFSymbolsInTLSFixupsImpl, ihl he.1, Option.bind_some, ihr he.2,
      overwrite_overwrite]
  | target kind sub => exact he.elim

theorem fixELFSymbolsInTLSFixups_eq {E : TOYRISCVMCExpr} (hE : E.expr.Plain) (T : SymbolTable) :
    E.fixELFSymbolsInTLSFixups T = some (overwrite .tls E.tlsSymbols T) := by
  by_cases hkind : E.kind.IsTlsHi
  · have hsymbols : E.tlsSymbols = {sym | E.expr.References sym} :=
      Set.ext fun sym => and_iff_right hkind
    rw [hsymbols, ← fixELFSymbolsInTLSFixupsImpl_eq hE]
    rcases hkind with h | h | h <;> rw [TOYRISCVMCExpr.fixELFSymbolsInTLSFixups, h]
  · have hsymbols : E.tlsSymbols = ∅ :=
      Set.eq_empty_of_forall_notMem fun sym h => hkind h.1
    rw [hsymbols, overwrite_empty, TOYRISCVMCExpr.fixELFSymbolsInTLSFixups]
    split
    · exact (hkind (Or.inl ‹_›)).elim
    · exact (hkind (Or.inr (Or.inl ‹_›))).elim
    · exact (hkind (Or.inr (Or.inr ‹_›))).elim
    · rfl

/-! ### Several expressions -/

def fixELFSymbols (Es : List TOYRISCVMCExpr) (T : SymbolTable) : Option SymbolTable :=
  Es.foldlM (fun T E => E.fixELFSymbolsInTLSFixups T) T

theorem fixELFSymbols_eq {Es : List TOYRISCVMCExpr} (hEs : ∀ E ∈ Es, E.expr.Plain)
    (T : SymbolTable) :
    fixELFSymbols Es T = some (overwrite .tls {sym | ∃ E ∈ Es, sym ∈ E.tlsSymbols} T) := by
  induction Es generalizing T with
  | nil =>
    have hnone : {sym | ∃ E ∈ ([] : List TOYRISCVMCExpr), sym ∈ E.tlsSymbols} = ∅ :=
      Set.eq_empty_of_forall_notMem fun sym ⟨E, hE, _⟩ => List.not_mem_nil hE
    rw [hnone, overwrite_empty]
    rfl
  | cons E Es ih =>
    have hcons : {sym | ∃ E' ∈ E :: Es, sym ∈ E'.tlsSymbols} =
        E.tlsSymbols ∪ {sym | ∃ E' ∈ Es, sym ∈ E'.tlsSymbols} :=
      Set.ext fun sym => List.exists_mem_cons_iff ..
    rw [hcons, ← overwrite_overwrite, ← ih fun E' h => hEs E' (List.mem_cons_of_mem _ h),
      fixELFSymbols, List.foldlM_cons, fixELFSymbolsInTLSFixups_eq (hEs E List.mem_cons_self)]
    rfl

theorem fixELFSymbols_perm {Es Es' : List TOYRISCVMCExpr} (hEs : ∀ E ∈ Es, E.expr.Plain)
    (hperm : Es.Perm Es') (T : SymbolTable) : fixELFSymbols Es' T = fixELFSymbols Es T := by
  have hEs' : ∀ E ∈ Es', E.expr.Plain := fun E h => hEs E (hperm.mem_iff.mpr h)
  have hsymbols : {sym | ∃ E ∈ Es', sym ∈ E.tlsSymbols} = {sym | ∃ E ∈ Es, sym ∈ E.tlsSymbols} :=
    Set.ext fun sym => exists_congr fun E => and_congr_left' hperm.mem_iff.symm
  rw [fixELFSymbols_eq hEs', fixELFSymbols_eq hEs, hsymbols]

/-- The referenced symbols become thread-local under a thread-local kind, nothing else
changes, and a second application finds nothing to do. -/
def MarksExactly (E : TOYRISCVMCExpr) (T : SymbolTable) : Prop :=
  ∃ T', E.fixELFSymbolsInTLSFixups T = some T' ∧
    (∀ sym, E.kind.IsTlsHi ∧ E.expr.References sym → T' sym = .tls) ∧
    (∀ sym, ¬ (E.kind.IsTlsHi ∧ E.expr.References sym) → T' sym = T sym) ∧
    E.fixELFSymbolsInTLSFixups T' = some T'

theorem tlsMarking_exact (T : SymbolTable) {E : TOYRISCVMCExpr} (hE : E.expr.Plain)
    {Es Es' : List TOYRISCVMCExpr} (hEs : ∀ E ∈ Es, E.expr.Plain) (hperm : Es.Perm Es') :
    MarksExactly E T ∧ ∃ T', fixELFSymbols Es T = some T' ∧ fixELFSymbols Es' T = some T' := by
  constructor
  · refine ⟨_, fixELFSymbolsInTLSFixups_eq hE T, ?_, ?_, ?_⟩
    · intro sym h
      exact overwrite_of_mem h
    · intro sym h
      exact overwrite_of_notMem h
    · rw [fixELFSymbolsInTLSFixups_eq hE, overwrite_idem]
  · refine ⟨_, fixELFSymbols_eq hEs T, ?_⟩
    rw [fixELFSymbols_perm hEs hperm, fixELFSymbols_eq hEs]

/-- `%tprel_hi(g + 4)`. -/
def tprelHiSum : TOYRISCVMCExpr :=
  ⟨.binary .add (.symbolRef (.global 0)) (.constant 4#64), .tprelHi⟩

theorem tlsMarking_exact_tprelHiSum :
    MarksExactly tprelHiSum (fun _ => .object) ∧
      ∃ T', fixELFSymbols [tprelHiSum, ⟨.symbolRef (.global 1), .tlsGdHi⟩] (fun _ => .object) =
          some T' ∧
        fixELFSymbols [⟨.symbolRef (.global 1), .tlsGdHi⟩, tprelHiSum] (fun _ => .object) =
          some T' :=
  tlsMarking_exact (E := tprelHiSum) _ ⟨trivial, trivial⟩
    (List.forall_mem_cons.mpr ⟨⟨trivial, trivial⟩, List.forall_mem_singleton.mpr trivial⟩)
    (List.Perm.swap ..)

end ToyRiscv
