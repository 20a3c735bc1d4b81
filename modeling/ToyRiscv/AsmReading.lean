import ToyRiscv.AsmOperands

/-!
# What the text of an instruction determines

The mnemonic ends at the first tab, every field but the last one at a comma, and a
base register opens at the last parenthesis; so the text fixes the opcode and the
fields, and these the operands.
-/

namespace ToyRiscv
open Lib.OptionTraverse Lib.Text

/-! ### Lines -/

def AsmPiece.fill (ts : List (List Char)) : AsmPiece → List Char
  | .text s => s.toList
  | .operand i => ts.getD i []

def Opcode.fill (opc : Opcode) (ts : List (List Char)) : List Char :=
  opc.asmString.flatMap (AsmPiece.fill ts)

theorem opcodestr_injective {opc opc' : Opcode} (h : opc.opcodestr ≠ "")
    (heq : opc.opcodestr = opc'.opcodestr) : opc = opc' := by
  have hnodup : ((Opcode.all.filter (·.opcodestr ≠ "")).map Opcode.opcodestr).Nodup := by decide
  have hmem : ∀ {opc : Opcode}, opc.opcodestr ≠ "" →
      opc ∈ Opcode.all.filter (·.opcodestr ≠ "") := fun h =>
    List.mem_filter.mpr ⟨Opcode.mem_all _, by simpa using h⟩
  exact List.inj_on_of_nodup_map hnodup (hmem h) (hmem (heq ▸ h)) heq

theorem tab_notMem_opcodestr (opc : Opcode) :
    '\t' ∉ opc.opcodestr.toList ∧ '\n' ∉ opc.opcodestr.toList := by
  have hall : ∀ opc ∈ Opcode.all,
      '\t' ∉ opc.opcodestr.toList ∧ '\n' ∉ opc.opcodestr.toList := by decide
  exact hall opc opc.mem_all

theorem comma_inj {a b r s : List Char} (ha : ',' ∉ a) (hb : ',' ∉ b)
    (h : a ++ (", ".toList ++ r) = b ++ (", ".toList ++ s)) : a = b ∧ r = s := by
  obtain ⟨hab, -, hrs⟩ := append_cons_inj (p := (· = ',')) (fun x hx he => ha (he ▸ hx))
    (fun x hx he => hb (he ▸ hx)) rfl rfl h
  exact ⟨hab, (List.cons_eq_cons.mp hrs).2⟩

/-- The last parenthesis opens the base register. -/
theorem base_inj {a b r s : List Char} (hr : '(' ∉ r) (hs : '(' ∉ s)
    (h : a ++ ("(".toList ++ (r ++ ")".toList)) = b ++ ("(".toList ++ (s ++ ")".toList))) :
    a = b ∧ r = s := by
  have hclosed : ∀ {r : List Char}, '(' ∉ r → ∀ x ∈ r ++ ")".toList, ¬ x = '(' := by
    intro r hr x hx he
    exact List.not_mem_append hr (by decide) (he ▸ hx)
  obtain ⟨hab, -, hrs⟩ := append_cons_inj_right (p := (· = '(')) (hclosed hr) (hclosed hs) rfl rfl h
  exact ⟨hab, List.append_cancel_right hrs⟩

theorem gpr_notMem {t : List Char} (h : OperandKind.gpr.FieldText t) {c : Char}
    (hc : isNameChar c = false) : c ∉ t := fun hmem => by
  rw [h c hmem] at hc
  cases hc

theorem fields_two {k1 k2 : OperandKind} {ts : List (List Char)}
    (h : List.Forall₂ OperandKind.FieldText [k1, k2] ts) :
    ∃ t1 t2, ts = [t1, t2] ∧ k1.FieldText t1 ∧ k2.FieldText t2 := by
  cases h with
  | cons h1 h =>
    cases h with
    | cons h2 h =>
      cases h
      exact ⟨_, _, rfl, h1, h2⟩

theorem fields_three {k1 k2 k3 : OperandKind} {ts : List (List Char)}
    (h : List.Forall₂ OperandKind.FieldText [k1, k2, k3] ts) :
    ∃ t1 t2 t3, ts = [t1, t2, t3] ∧ k1.FieldText t1 ∧ k2.FieldText t2 ∧ k3.FieldText t3 := by
  cases h with
  | cons h1 h =>
    obtain ⟨t2, t3, rfl, h2, h3⟩ := fields_two h
    exact ⟨_, t2, t3, rfl, h1, h2, h3⟩

/-- The fields of a line with the same mnemonic. -/
theorem args_injective {opc : Opcode} (hreal : opc.opcodestr ≠ "") {ts ts' : List (List Char)}
    (h : List.Forall₂ OperandKind.FieldText opc.operandKinds ts)
    (h' : List.Forall₂ OperandKind.FieldText opc.operandKinds ts')
    (heq : opc.argstr.flatMap (AsmPiece.fill ts) = opc.argstr.flatMap (AsmPiece.fill ts')) :
    ts = ts' := by
  have hcomma : isNameChar ',' = false := by decide
  have hparen : isNameChar '(' = false := by decide
  cases opc with
  | rr op =>
    obtain ⟨t1, t2, t3, rfl, h1, h2, h3⟩ := fields_three h
    obtain ⟨u1, u2, u3, rfl, h1', h2', h3'⟩ := fields_three h'
    obtain ⟨rfl, heq⟩ := comma_inj (gpr_notMem h1 hcomma) (gpr_notMem h1' hcomma)
      (List.append_cancel_left heq)
    obtain ⟨rfl, heq⟩ := comma_inj (gpr_notMem h2 hcomma) (gpr_notMem h2' hcomma) heq
    have hlast : t3 = u3 := List.append_cancel_right heq
    rw [hlast]
  | ri op | branch op =>
    obtain ⟨t1, t2, t3, rfl, h1, h2, h3⟩ := fields_three h
    obtain ⟨u1, u2, u3, rfl, h1', h2', h3'⟩ := fields_three h'
    obtain ⟨rfl, heq⟩ := comma_inj (gpr_notMem h1 hcomma) (gpr_notMem h1' hcomma) heq
    obtain ⟨rfl, heq⟩ := comma_inj (gpr_notMem h2 hcomma) (gpr_notMem h2' hcomma) heq
    have hlast : t3 = u3 := List.append_cancel_right heq
    rw [hlast]
  | load op | jalr | store op =>
    obtain ⟨t1, t2, t3, rfl, h1, h2, h3⟩ := fields_three h
    obtain ⟨u1, u2, u3, rfl, h1', h2', h3'⟩ := fields_three h'
    obtain ⟨rfl, heq⟩ := comma_inj (gpr_notMem h1 hcomma) (gpr_notMem h1' hcomma) heq
    obtain ⟨rfl, rfl⟩ := base_inj (gpr_notMem h2 hparen) (gpr_notMem h2' hparen) heq
    rfl
  | lui | auipc | jal =>
    obtain ⟨t1, t2, rfl, h1, h2⟩ := fields_two h
    obtain ⟨u1, u2, rfl, h1', h2'⟩ := fields_two h'
    obtain ⟨rfl, heq⟩ := comma_inj (gpr_notMem h1 hcomma) (gpr_notMem h1' hcomma) heq
    have hlast : t2 = u2 := List.append_cancel_right heq
    rw [hlast]
  | pseudoBR | pseudoRET => exact absurd rfl hreal

theorem fill_injective {opc opc' : Opcode} (hreal : opc.opcodestr ≠ "") {ts ts' : List (List Char)}
    (h : List.Forall₂ OperandKind.FieldText opc.operandKinds ts)
    (h' : List.Forall₂ OperandKind.FieldText opc'.operandKinds ts')
    (heq : opc.fill ts = opc'.fill ts') : opc = opc' ∧ ts = ts' := by
  have htab : ∀ opc : Opcode, ∀ x ∈ opc.opcodestr.toList, ¬ x = '\t' :=
    fun opc x hx he => (tab_notMem_opcodestr opc).1 (he ▸ hx)
  obtain ⟨hname, -, hargs⟩ := append_cons_inj (p := (· = '\t')) (htab opc) (htab opc') rfl rfl heq
  obtain rfl := opcodestr_injective hreal (String.toList_inj.mp hname)
  exact ⟨rfl, args_injective hreal h h' hargs⟩

theorem newline_notMem_fill {opc : Opcode} {ts : List (List Char)}
    (h : List.Forall₂ OperandKind.FieldText opc.operandKinds ts) : '\n' ∉ opc.fill ts := by
  have hfield : ∀ t ∈ ts, '\n' ∉ t := by
    intro t ht
    obtain ⟨i, hi, rfl⟩ := List.mem_iff_getElem.mp ht
    have hkind := h.get (h.length_eq ▸ hi) hi
    cases hk : opc.operandKinds.get ⟨i, h.length_eq ▸ hi⟩ with
    | gpr =>
      rw [hk] at hkind
      exact gpr_notMem hkind (by decide)
    | value =>
      rw [hk] at hkind
      exact hkind.2
  have htext : ∀ opc ∈ Opcode.all, ∀ p ∈ opc.asmString, '\n' ∉ p.fill [] := by decide
  intro hmem
  obtain ⟨p, hp, hpmem⟩ := List.mem_flatMap.mp hmem
  cases p with
  | text s => exact htext opc opc.mem_all _ hp hpmem
  | operand i =>
    rw [AsmPiece.fill, List.getD_eq_getElem?_getD] at hpmem
    cases hi : ts[i]? with
    | none =>
      rw [hi] at hpmem
      exact List.not_mem_nil hpmem
    | some t =>
      rw [hi] at hpmem
      exact hfield t (List.mem_of_getElem? hi) hpmem

/-! ### Instructions -/

/-- A symbol of `S`, or a sum with an offset. -/
inductive MCExpr.IsSum (S : Set MCSymbol) : MCExpr → Prop
  | symbol {sym : MCSymbol} (h : sym ∈ S) : IsSum S (.symbolRef sym)
  | offset {sym : MCSymbol} (h : sym ∈ S) (c : BitVec 64) :
    IsSum S (.binary .add (.symbolRef sym) (.constant c))

/-- What `lowerSymbolOperand` makes, under any modifier. -/
inductive MCExpr.IsOperand (S : Set MCSymbol) : MCExpr → Prop
  | sum {e : MCExpr} (h : e.IsSum S) : IsOperand S e
  | target {e : MCExpr} (h : e.IsSum S) {Kind : VariantKind} (hKind : Kind ≠ .invalid) :
    IsOperand S (.target Kind e)

def OperandKind.Fits (S : Set MCSymbol) : OperandKind → MCOperand → Prop
  | .gpr, .reg r => r < 32
  | .value, .imm _ => True
  | .value, .expr e => e.IsOperand S
  | _, _ => False

structure MCInst.Printable (S : Set MCSymbol) (MI : MCInst Opcode) : Prop where
  mnemonic : MI.opcode.opcodestr ≠ ""
  operands : List.Forall₂ (OperandKind.Fits S) MI.opcode.operandKinds MI.operands

def MCOperand.unmarked : MCOperand → MCOperand
  | .expr e => .expr e.unmarked
  | op => op

def MCInst.unmarked (MI : MCInst Opcode) : MCInst Opcode :=
  ⟨MI.opcode, MI.operands.map MCOperand.unmarked⟩

section Instructions
variable {name : MCSymbol → List Char} {S : Set MCSymbol}

def operandText (name : MCSymbol → List Char) (op : MCOperand) : List Char :=
  (printOperand name op).getD []

theorem MCExpr.IsSum.text (name : MCSymbol → List Char) {e : MCExpr} (h : e.IsSum S) :
    ∃ t, SumText name S e t := by
  cases h with
  | symbol h => exact ⟨_, .symbol h⟩
  | offset h c => exact ⟨_, .offset h c⟩

theorem MCExpr.IsSum.unmarked {e : MCExpr} (h : e.IsSum S) : e.unmarked = e := by
  cases h <;> rfl

theorem MCExpr.IsOperand.text {e : MCExpr} (h : e.IsOperand S) :
    ∃ t, printExpr name e = some t ∧ ModText name S e.unmarked t := by
  cases h with
  | sum h =>
    obtain ⟨t, ht⟩ := h.text name
    exact ⟨t, ht.print, h.unmarked.symm ▸ .sum ht⟩
  | target h hKind =>
    obtain ⟨t, ht⟩ := h.text name
    exact ht.target hKind

theorem OperandKind.Fits.text {kind : OperandKind} {op : MCOperand} (h : kind.Fits S op) :
    printOperand name op = some (operandText name op) ∧
      OperandText name S kind op.unmarked (operandText name op) := by
  have hsome : ∃ t, printOperand name op = some t ∧ OperandText name S kind op.unmarked t := by
    cases kind with
    | gpr =>
      cases op with
      | reg r =>
        have hr : getRegisterName r = some registerNames[r] := List.getElem?_eq_getElem h
        have hprint : printRegName r = some (registerNames[r].toList.map Char.toLower) := by
          rw [printRegName, hr, Option.map_some]
        exact ⟨_, hprint, .gpr hprint⟩
      | imm | expr => cases h
    | value =>
      cases op with
      | reg => cases h
      | imm i => exact ⟨_, rfl, .imm i⟩
      | expr e =>
        obtain ⟨t, hprint, ht⟩ := MCExpr.IsOperand.text h
        exact ⟨t, hprint, .expr ht⟩
  obtain ⟨t, hprint, ht⟩ := hsome
  rw [operandText, hprint]
  exact ⟨rfl, ht⟩

theorem operand_lt (opc : Opcode) {i : ℕ} (h : .operand i ∈ opc.asmString) :
    i < opc.operandKinds.length := by
  have hall : ∀ opc ∈ Opcode.all, ∀ i ∈ opc.asmString.filterMap
      (fun | .operand i => some i | .text _ => none), i < opc.operandKinds.length := by decide
  exact hall opc opc.mem_all i (List.mem_filterMap.mpr ⟨_, h, rfl⟩)

theorem MCInst.Printable.print {MI : MCInst Opcode} (h : MI.Printable S) :
    printInst name MI = some (MI.opcode.fill (MI.operands.map (operandText name))) := by
  have hpiece : ∀ p ∈ MI.opcode.asmString, AsmPiece.print name MI.operands p =
      some (p.fill (MI.operands.map (operandText name))) := by
    intro p hp
    cases p with
    | text s => rfl
    | operand i =>
      have hk : i < MI.opcode.operandKinds.length := operand_lt MI.opcode hp
      have hi : i < MI.operands.length := h.operands.length_eq ▸ hk
      have hfit := h.operands.get hk hi
      rw [AsmPiece.print, AsmPiece.fill, List.getElem?_eq_getElem hi, Option.bind_some,
        List.getD_eq_getElem?_getD, List.getElem?_map, List.getElem?_eq_getElem hi]
      exact (OperandKind.Fits.text hfit).1
  rw [printInst, mapM_eq_map hpiece, Option.map_some, Opcode.fill, List.flatMap_def]

theorem MCInst.Printable.fields (hname : UnquotedNames name S) {MI : MCInst Opcode}
    (h : MI.Printable S) : List.Forall₂ OperandKind.FieldText MI.opcode.operandKinds
      (MI.operands.map (operandText name)) :=
  List.forall₂_map_right_iff.mpr (h.operands.imp fun _ _ hfit => hfit.text.2.fieldText hname)

theorem operandTexts_injective (hname : UnquotedNames name S) {kinds : List OperandKind}
    {ops ops' : List MCOperand} (h : List.Forall₂ (OperandKind.Fits S) kinds ops)
    (h' : List.Forall₂ (OperandKind.Fits S) kinds ops')
    (heq : ops.map (operandText name) = ops'.map (operandText name)) :
    ops.map MCOperand.unmarked = ops'.map MCOperand.unmarked := by
  induction h generalizing ops' with
  | nil =>
    cases h'
    rfl
  | cons hfit _ ih =>
    cases h' with
    | cons hfit' h' =>
      obtain ⟨hfirst, hrest⟩ := List.cons_eq_cons.mp heq
      rw [List.map_cons, List.map_cons, ih h' hrest,
        hfit.text.2.injective hname hfit'.text.2 hfirst]

theorem printInst_injective (hname : UnquotedNames name S) {I J : MCInst Opcode}
    (hI : I.Printable S) (hJ : J.Printable S) (heq : printInst name I = printInst name J) :
    I.unmarked = J.unmarked := by
  rw [hI.print, hJ.print] at heq
  obtain ⟨hopc, htexts⟩ := fill_injective hI.mnemonic (hI.fields hname) (hJ.fields hname)
    (Option.some.inj heq)
  obtain ⟨opc, ops⟩ := I
  obtain ⟨opc', ops'⟩ := J
  obtain rfl : opc = opc' := hopc
  rw [MCInst.unmarked, MCInst.unmarked, operandTexts_injective hname hI.operands hJ.operands htexts]

/-! ### Sequences -/

theorem printInsts_eq {code : List (MCInst Opcode)} (hcode : ∀ I ∈ code, I.Printable S) :
    printInsts name code = some (unlines
      (code.map fun I => I.opcode.fill (I.operands.map (operandText name)))) := by
  rw [printInsts, mapM_eq_map fun I hI => (hcode I hI).print, Option.map_some]

theorem map_unmarked_of_lines (hname : UnquotedNames name S) {code code' : List (MCInst Opcode)}
    (hcode : ∀ I ∈ code, I.Printable S) (hcode' : ∀ I ∈ code', I.Printable S)
    (heq : code.map (printInst name) = code'.map (printInst name)) :
    code.map MCInst.unmarked = code'.map MCInst.unmarked := by
  induction code generalizing code' with
  | nil =>
    cases code' with
    | nil => rfl
    | cons J code' => cases heq
  | cons I code ih =>
    cases code' with
    | nil => cases heq
    | cons J code' =>
      obtain ⟨hI, hcode⟩ := List.forall_mem_cons.mp hcode
      obtain ⟨hJ, hcode'⟩ := List.forall_mem_cons.mp hcode'
      obtain ⟨hfirst, hrest⟩ := List.cons_eq_cons.mp heq
      rw [List.map_cons, List.map_cons, printInst_injective hname hI hJ hfirst,
        ih hcode hcode' hrest]

theorem printInsts_injective (hname : UnquotedNames name S) {code code' : List (MCInst Opcode)}
    (hcode : ∀ I ∈ code, I.Printable S) (hcode' : ∀ I ∈ code', I.Printable S)
    (heq : printInsts name code = printInsts name code') :
    code.map MCInst.unmarked = code'.map MCInst.unmarked := by
  have hlines : ∀ {code : List (MCInst Opcode)}, (∀ I ∈ code, I.Printable S) → ∀ t ∈
      code.map (fun I => I.opcode.fill (I.operands.map (operandText name))), '\n' ∉ t := by
    intro code hcode t ht
    obtain ⟨I, hI, rfl⟩ := List.mem_map.mp ht
    exact newline_notMem_fill ((hcode I hI).fields hname)
  rw [printInsts_eq hcode, printInsts_eq hcode', Option.some_inj] at heq
  have htexts := unlines_injective (hlines hcode) (hlines hcode') heq
  apply map_unmarked_of_lines hname hcode hcode'
  have hprint : ∀ {code : List (MCInst Opcode)}, (∀ I ∈ code, I.Printable S) →
      code.map (printInst name) = (code.map fun I =>
        I.opcode.fill (I.operands.map (operandText name))).map some := by
    intro code hcode
    rw [List.map_map]
    exact List.map_congr_left fun I hI => (hcode I hI).print
  rw [hprint hcode, hprint hcode', htexts]

/-- Every sequence of instructions is printed, and its text is that of no other sequence, but
for the marks that are not written. -/
theorem printInsts_determines (hname : UnquotedNames name S) {code : List (MCInst Opcode)}
    (hcode : ∀ I ∈ code, I.Printable S) :
    ∃ text, printInsts name code = some text ∧ ∀ code' : List (MCInst Opcode),
      (∀ I ∈ code', I.Printable S) → printInsts name code' = some text →
        code'.map MCInst.unmarked = code.map MCInst.unmarked := by
  refine ⟨_, printInsts_eq hcode, fun code' hcode' heq => ?_⟩
  exact printInsts_injective hname hcode' hcode (heq.trans (printInsts_eq hcode).symm)

/-- The upper half of the address of `counter` and the word there. -/
def loadCounter : List (MCInst Opcode) :=
  [⟨.lui, [.reg 10, .expr (.target .hi (.symbolRef (.global 0)))]⟩,
    ⟨.load .lw, [.reg 10, .reg 10, .expr (.target .lo (.symbolRef (.global 0)))]⟩]

theorem counter_unquoted : UnquotedNames (fun _ => "counter".toList) {MCSymbol.global 0} where
  injOn := Set.injOn_singleton ..
  chars _ _ := List.all_eq_true.mp (by decide)
  head _ _ := ⟨'c', "ounter".toList, rfl, by decide⟩

theorem loadCounter_printable : ∀ I ∈ loadCounter, I.Printable {MCSymbol.global 0} := by
  have hsum : (MCExpr.symbolRef (.global 0)).IsSum {MCSymbol.global 0} := .symbol rfl
  have hlt : 10 < 32 := by decide
  have ha0 : OperandKind.gpr.Fits {MCSymbol.global 0} (.reg 10) := hlt
  intro I hI
  simp only [loadCounter, List.mem_cons, List.not_mem_nil, or_false] at hI
  rcases hI with rfl | rfl
  · exact ⟨by decide, .cons ha0 (.cons (.target hsum (by decide)) .nil)⟩
  · exact ⟨by decide, .cons ha0 (.cons ha0 (.cons (.target hsum (by decide)) .nil))⟩

theorem printInsts_determines_loadCounter :
    ∃ text, printInsts (fun _ => "counter".toList) loadCounter = some text ∧
      ∀ code' : List (MCInst Opcode), (∀ I ∈ code', I.Printable {MCSymbol.global 0}) →
        printInsts (fun _ => "counter".toList) code' = some text →
          code'.map MCInst.unmarked = loadCounter.map MCInst.unmarked :=
  printInsts_determines counter_unquoted loadCounter_printable

/-! ### Functions -/

/-- The text under each label. -/
def AsmFunction.text (name : MCSymbol → List Char) (P : AsmFunction) :
    Option (List (MBB × List Char)) :=
  P.mapM fun p => (printInsts name p.2).map fun t => (p.1, t)

def AllocatedInstr.regs : AllocatedInstr → List Register
  | .machine I => I.defs ++ I.orderedUses
  | .symbol I => I.regs

/-- Physical registers, all of them in the class GPR. -/
def AllocatedFunction.Physical (F : AllocatedFunction) : Prop :=
  ∀ b ∈ F.layout, ∀ I ∈ F.insts b, ∀ r ∈ I.regs, r < 32

def AllocatedInstr.symbols : AllocatedInstr → List MCSymbol
  | .machine I => I.targets.map .block
  | .symbol I => [.global I.global]

/-- The labels of a function and the symbols its instructions refer to. -/
def AllocatedFunction.symbols (F : AllocatedFunction) : List MCSymbol :=
  F.layout.flatMap fun b => .block b :: (F.insts b).flatMap AllocatedInstr.symbols

theorem opcodestr_ne (opc : Opcode) (hBR : opc ≠ .pseudoBR) (hRET : opc ≠ .pseudoRET) :
    opc.opcodestr ≠ "" := by
  have hall : ∀ opc ∈ Opcode.all, opc ≠ .pseudoBR → opc ≠ .pseudoRET → opc.opcodestr ≠ "" := by
    decide
  exact hall opc opc.mem_all hBR hRET

theorem Inst.opcodestr_ne (I : Inst Register) : I.opcode.opcodestr ≠ "" := by
  apply ToyRiscv.opcodestr_ne
  · cases I <;> exact Opcode.noConfusion
  · cases I <;> exact Opcode.noConfusion

theorem Inst.operands_fit (S : Set MCSymbol) {I : Inst Register}
    (h : ∀ r ∈ I.defs ++ I.uses, r < 32) :
    List.Forall₂ (OperandKind.Fits S) I.opcode.operandKinds
      ((I.defs ++ I.uses).map MCOperand.reg ++ I.imms.map .imm) := by
  cases I with
  | rr op rd rs1 rs2 =>
    exact .cons (h rd (by simp [defs])) (.cons (h rs1 (by simp [uses]))
      (.cons (h rs2 (by simp [uses])) .nil))
  | ri op rd rs1 imm | load op rd rs1 imm | jalr rd rs1 imm =>
    exact .cons (h rd (by simp [defs])) (.cons (h rs1 (by simp [uses])) (.cons trivial .nil))
  | store op rs2 rs1 imm =>
    exact .cons (h rs2 (by simp [uses])) (.cons (h rs1 (by simp [uses])) (.cons trivial .nil))
  | branch op rs1 rs2 imm =>
    exact .cons (h rs1 (by simp [uses])) (.cons (h rs2 (by simp [uses])) (.cons trivial .nil))
  | lui rd imm | auipc rd imm | jal rd imm =>
    exact .cons (h rd (by simp [defs])) (.cons trivial .nil)

theorem zero_lt_gprs : regZERO < 32 := by decide

theorem ra_lt_gprs : regRA < 32 := by decide

theorem SymbolInst.operands_fit {I : SymbolInst} (hregs : ∀ r ∈ I.regs, r < 32)
    (hsym : MCSymbol.global I.global ∈ S) :
    List.Forall₂ (OperandKind.Fits S) I.opcode.operandKinds
      (I.regs.map MCOperand.reg ++ [.expr (.target I.kind (addressExpr I.global I.offset))]) := by
  have hsum : (addressExpr I.global I.offset).IsSum S := by
    rw [addressExpr]
    split
    · exact .offset hsym _
    · exact .symbol hsym
  have hkind : I.kind ≠ .invalid := by cases I <;> exact VariantKind.noConfusion
  have hvalue : OperandKind.value.Fits S (.expr (.target I.kind (addressExpr I.global I.offset))) :=
    .target hsum hkind
  cases I with
  | lui rd => exact .cons (hregs rd (List.mem_cons_self ..)) (.cons hvalue .nil)
  | ri op r1 r2 | load op r1 r2 | store op r1 r2 =>
    exact .cons (hregs r1 (List.mem_cons_self ..))
      (.cons (hregs r2 (List.mem_cons_of_mem _ (List.mem_cons_self ..))) (.cons hvalue .nil))

theorem AllocatedInstr.Emittable.printable {I : AllocatedInstr} (h : I.Emittable)
    (hregs : ∀ r ∈ I.regs, r < 32) (hsymbols : ∀ sym ∈ I.symbols, sym ∈ S) {J : MCInst Opcode}
    (hJ : emitMachineInstr I = some J) : J.Printable S ∧ J.unmarked = J := by
  cases h with
  | ordinary I =>
    rw [emitMachineInstr_ordinary, Option.some_inj] at hJ
    rw [← hJ]
    refine ⟨⟨I.opcodestr_ne, I.operands_fit S hregs⟩, ?_⟩
    cases I <;> rfl
  | symbol I =>
    rw [emitMachineInstr_symbol, Option.some_inj] at hJ
    rw [← hJ]
    have hsym := hsymbols _ (List.mem_singleton.mpr rfl)
    refine ⟨⟨(I.withImm 0).opcodestr_ne, I.operands_fit hregs hsym⟩, ?_⟩
    cases I <;> rfl
  | branch op rs1 rs2 target =>
    cases hJ
    refine ⟨⟨opcodestr_ne (.branch op) (by simp) (by simp), ?_⟩, rfl⟩
    have hrs1 : rs1 < 32 := hregs rs1 (List.mem_cons_self ..)
    have hrs2 : rs2 < 32 := hregs rs2 (List.mem_cons_of_mem _ (List.mem_cons_self ..))
    exact .cons hrs1 (.cons hrs2
      (.cons (.sum (.symbol (hsymbols _ (List.mem_singleton.mpr rfl)))) .nil))
  | pseudoBR target =>
    cases hJ
    refine ⟨⟨opcodestr_ne .jal (by decide) (by decide), .cons zero_lt_gprs (.cons ?_ .nil)⟩, rfl⟩
    exact .sum (.symbol (hsymbols _ (List.mem_singleton.mpr rfl)))
  | pseudoRET =>
    cases hJ
    exact ⟨⟨opcodestr_ne .jalr (by decide) (by decide),
      .cons zero_lt_gprs (.cons ra_lt_gprs (.cons trivial .nil))⟩, rfl⟩
  | debug => cases hJ

theorem blockCode_printable {F : AllocatedFunction} (hF : F.Emittable) (hphys : F.Physical)
    (hS : ∀ sym ∈ F.symbols, sym ∈ S) {b : MBB} (hb : b ∈ F.layout) :
    ∀ J ∈ blockCode F b, J.Printable S ∧ J.unmarked = J := by
  intro J hJ
  obtain ⟨i, hi⟩ := List.mem_iff_getElem?.mp hJ
  rw [getElem?_mapM (hF.emitBlock hb)] at hi
  obtain ⟨I, hI, hemit⟩ := Option.bind_eq_some_iff.mp hi
  obtain ⟨hmem, -⟩ := List.mem_filter.mp (List.mem_of_getElem? hI)
  refine (hF.insts b hb I hmem).printable (hphys b hb I hmem) (fun sym hsym => hS sym ?_) hemit
  exact List.mem_flatMap.mpr ⟨b, hb, List.mem_cons_of_mem _ (List.mem_flatMap.mpr ⟨I, hmem, hsym⟩)⟩

theorem text_injective (hname : UnquotedNames name S) {P Q : AsmFunction}
    (hP : ∀ p ∈ P, ∀ J ∈ p.2, J.Printable S ∧ J.unmarked = J)
    (hQ : ∀ p ∈ Q, ∀ J ∈ p.2, J.Printable S ∧ J.unmarked = J)
    (heq : P.map (fun p => (p.1, printInsts name p.2)) =
      Q.map fun p => (p.1, printInsts name p.2)) : P = Q := by
  have hself : ∀ {code : List (MCInst Opcode)}, (∀ J ∈ code, J.Printable S ∧ J.unmarked = J) →
      code.map MCInst.unmarked = code := fun h =>
    (List.map_congr_left fun J hJ => (h J hJ).2).trans (List.map_id _)
  induction P generalizing Q with
  | nil =>
    cases Q with
    | nil => rfl
    | cons q Q => cases heq
  | cons p P ih =>
    cases Q with
    | nil => cases heq
    | cons q Q =>
      obtain ⟨hp, hP⟩ := List.forall_mem_cons.mp hP
      obtain ⟨hq, hQ⟩ := List.forall_mem_cons.mp hQ
      obtain ⟨hfirst, hrest⟩ := List.cons_eq_cons.mp heq
      obtain ⟨hlabel, htext⟩ := Prod.mk.inj hfirst
      have hcode := printInsts_injective hname (fun J hJ => (hp J hJ).1) (fun J hJ => (hq J hJ).1)
        htext
      rw [hself hp, hself hq] at hcode
      rw [Prod.ext hlabel hcode, ih hP hQ hrest]

theorem AllocatedFunction.Emittable.text (name : MCSymbol → List Char) {F : AllocatedFunction}
    (hF : F.Emittable) (hphys : F.Physical) (hS : ∀ sym ∈ F.symbols, sym ∈ S) :
    ∃ P textP, ToyRiscv.emitFunction F = some P ∧ P.text name = some textP ∧
      (∀ p ∈ P, ∀ J ∈ p.2, J.Printable S ∧ J.unmarked = J) ∧
      textP.map (fun p => (p.1, some p.2)) = P.map fun p => (p.1, printInsts name p.2) := by
  have hP : ∀ p ∈ F.layout.map (fun b => (b, blockCode F b)), ∀ J ∈ p.2,
      J.Printable S ∧ J.unmarked = J := by
    intro p hp
    obtain ⟨b, hb, rfl⟩ := List.mem_map.mp hp
    exact blockCode_printable hF hphys hS hb
  have hprint : ∀ p ∈ F.layout.map (fun b => (b, blockCode F b)), printInsts name p.2 =
      some ((printInsts name p.2).getD []) := by
    intro p hp
    rw [printInsts_eq fun J hJ => (hP p hp J hJ).1, Option.getD_some]
  refine ⟨_, _, hF.emitFunction, mapM_eq_map (g := fun p =>
    (p.1, (printInsts name p.2).getD [])) fun p hp => ?_, hP, ?_⟩
  · rw [hprint p hp, Option.map_some, Option.getD_some]
  · rw [List.map_map]
    exact List.map_congr_left fun p hp => by rw [hprint p hp]; rfl

/-- Emittable functions over physical registers are printed, and if their text is the same so is
the code the printer emitted for them. -/
theorem emitFunction_text (hname : UnquotedNames name S) {F G : AllocatedFunction}
    (hF : F.Emittable) (hG : G.Emittable) (hFphys : F.Physical) (hGphys : G.Physical)
    (hFS : ∀ sym ∈ F.symbols, sym ∈ S) (hGS : ∀ sym ∈ G.symbols, sym ∈ S) :
    ∃ P Q textP textQ, emitFunction F = some P ∧ emitFunction G = some Q ∧
      P.text name = some textP ∧ Q.text name = some textQ ∧ (textP = textQ → P = Q) := by
  obtain ⟨P, textP, hemitP, htextP, hP, hmapP⟩ := hF.text name hFphys hFS
  obtain ⟨Q, textQ, hemitQ, htextQ, hQ, hmapQ⟩ := hG.text name hGphys hGS
  refine ⟨P, Q, textP, textQ, hemitP, hemitQ, htextP, htextQ, fun heq => ?_⟩
  apply text_injective hname hP hQ
  rw [← hmapP, ← hmapQ, heq]

end Instructions

/-- Private labels of the first function, and globals by number. -/
def symbolName : MCSymbol → List Char
  | .block b => ".LBB0_".toList ++ digits b
  | .global g => "G".toList ++ digits g
  | _ => []

def namedSymbols : Set MCSymbol := Set.range MCSymbol.block ∪ Set.range MCSymbol.global

theorem symbolName_unquoted : UnquotedNames symbolName namedSymbols where
  injOn := by
    rintro sym (⟨b, rfl⟩ | ⟨g, rfl⟩) sym' (⟨b', rfl⟩ | ⟨g', rfl⟩) heq
    · rw [digits_injective (List.append_cancel_left heq)]
    · exact absurd (List.cons_eq_cons.mp heq).1 (by decide)
    · exact absurd (List.cons_eq_cons.mp heq).1 (by decide)
    · rw [digits_injective (List.append_cancel_left heq)]
  chars := by
    have hchars : ∀ (pre : List Char) (n : ℕ), pre.all isNameChar = true →
        ∀ c ∈ pre ++ digits n, isNameChar c = true := by
      intro pre n hpre c hc
      rcases List.mem_append.mp hc with hc | hc
      · exact List.all_eq_true.mp hpre c hc
      · exact isNameChar_of_isDigit (isDigit_of_mem_digits hc)
    rintro sym (⟨b, rfl⟩ | ⟨g, rfl⟩)
    · exact hchars ".LBB0_".toList b (by decide)
    · exact hchars "G".toList g (by decide)
  head := by
    rintro sym (⟨b, rfl⟩ | ⟨g, rfl⟩)
    · exact ⟨'.', "LBB0_".toList ++ digits b, rfl, by decide⟩
    · exact ⟨'G', digits g, rfl, by decide⟩

theorem sumGlobal_physical : sumGlobal.Physical := by
  rw [AllocatedFunction.Physical]
  decide

theorem sumGlobal_symbols : ∀ sym ∈ sumGlobal.symbols, sym ∈ namedSymbols := by
  have hsymbols : sumGlobal.symbols =
      [.block 0, .global 0, .global 0, .block 1, .block 1, .block 2, .block 3] := rfl
  have hblock : ∀ b, MCSymbol.block b ∈ namedSymbols := fun b => Or.inl ⟨b, rfl⟩
  have hglobal : ∀ g, MCSymbol.global g ∈ namedSymbols := fun g => Or.inr ⟨g, rfl⟩
  simp [hsymbols, hblock, hglobal]

theorem emitFunction_text_sumGlobal :
    ∃ P Q textP textQ, emitFunction sumGlobal = some P ∧ emitFunction sumGlobal = some Q ∧
      P.text symbolName = some textP ∧ Q.text symbolName = some textQ ∧ (textP = textQ → P = Q) :=
  emitFunction_text symbolName_unquoted sumGlobal_emittable sumGlobal_emittable sumGlobal_physical
    sumGlobal_physical sumGlobal_symbols sumGlobal_symbols

end ToyRiscv
