import Mathlib.Data.Set.Function
import ToyRiscv.AsmText

/-!
# What the text of an operand determines

A register, a number and a symbol with its offset and modifier are told apart by their
text. Only the marks of a call and of no modifier are not written.
-/

namespace ToyRiscv
open Lib.Text

/-! ### Symbols and offsets -/

def isNameChar (c : Char) : Bool := c.isAlphanum || c == '_' || c == '.' || c == '$'

/-- The symbols of `S` are written without quotes, each by a name of its own. -/
structure UnquotedNames (name : MCSymbol → List Char) (S : Set MCSymbol) : Prop where
  injOn : S.InjOn name
  chars : ∀ sym ∈ S, ∀ c ∈ name sym, isNameChar c = true
  head : ∀ sym ∈ S, ∃ c l, name sym = c :: l ∧ c.isDigit = false

theorem isNameChar_of_isDigit {c : Char} (h : c.isDigit = true) : isNameChar c = true := by
  simp [isNameChar, Char.isAlphanum, h]

def signChar (v : ℤ) : Char := if v < 0 then '-' else '+'

theorem isNameChar_signChar (v : ℤ) : isNameChar (signChar v) = false := by
  rw [signChar]
  split <;> decide

theorem signChar_eq_iff {v v' : ℤ} : signChar v = signChar v' ↔ (v < 0 ↔ v' < 0) := by
  by_cases hv : v < 0 <;> by_cases hv' : v' < 0 <;> simp [signChar, hv, hv']

theorem printOffset_eq (v : ℤ) : printOffset v = signChar v :: digits v.natAbs := by
  rw [printOffset, decimal, signChar]
  split <;> rfl

theorem printOffset_injective {v v' : ℤ} (h : printOffset v = printOffset v') : v = v' := by
  rw [printOffset_eq, printOffset_eq] at h
  obtain ⟨hsign, hdigits⟩ := List.cons_eq_cons.mp h
  have hneg := signChar_eq_iff.mp hsign
  have habs := digits_injective hdigits
  omega

section Expressions
variable {name : MCSymbol → List Char} {S : Set MCSymbol}

/-- A symbol of `S`, or a sum with an offset, and its text. -/
inductive SumText (name : MCSymbol → List Char) (S : Set MCSymbol) : MCExpr → List Char → Prop
  | symbol {sym : MCSymbol} (h : sym ∈ S) : SumText name S (.symbolRef sym) (name sym)
  | offset {sym : MCSymbol} (h : sym ∈ S) (c : BitVec 64) :
    SumText name S (.binary .add (.symbolRef sym) (.constant c))
      (name sym ++ printOffset c.toInt)

theorem SumText.print {e : MCExpr} {t : List Char} (h : SumText name S e t) :
    printExpr name e = some t := by
  cases h <;> rfl

theorem SumText.chars (hname : UnquotedNames name S) {e : MCExpr} {t : List Char}
    (h : SumText name S e t) : ∀ c ∈ t, isNameChar c = true ∨ c = '+' ∨ c = '-' := by
  cases h with
  | symbol h => exact fun c hc => .inl (hname.chars _ h c hc)
  | offset h v =>
    intro c hc
    rw [printOffset_eq] at hc
    rcases List.mem_append.mp hc with hc | hc
    · exact .inl (hname.chars _ h c hc)
    · rcases List.mem_cons.mp hc with hc | hc
      · rw [hc, signChar]
        split
        · exact .inr (.inr rfl)
        · exact .inr (.inl rfl)
      · exact .inl (isNameChar_of_isDigit (isDigit_of_mem_digits hc))

theorem SumText.notMem (hname : UnquotedNames name S) {e : MCExpr} {t : List Char}
    (h : SumText name S e t) {c : Char} (hc : isNameChar c = false) (hplus : c ≠ '+')
    (hminus : c ≠ '-') : c ∉ t := by
  intro hmem
  rcases h.chars hname c hmem with h | h | h
  · rw [hc] at h
    cases h
  · exact hplus h
  · exact hminus h

theorem SumText.head (hname : UnquotedNames name S) {e : MCExpr} {t : List Char}
    (h : SumText name S e t) : ∃ c l, t = c :: l ∧ c.isDigit = false ∧ c ≠ '-' := by
  have hsym : ∀ {sym : MCSymbol}, sym ∈ S →
      ∃ c l, name sym = c :: l ∧ c.isDigit = false ∧ c ≠ '-' := by
    intro sym hsym
    obtain ⟨c, l, hcl, hdigit⟩ := hname.head sym hsym
    refine ⟨c, l, hcl, hdigit, ?_⟩
    rintro rfl
    exact absurd (hname.chars sym hsym '-' (hcl ▸ List.mem_cons_self ..)) (by decide)
  cases h with
  | symbol h => exact hsym h
  | offset h v =>
    obtain ⟨c, l, hcl, hc⟩ := hsym h
    exact ⟨c, l ++ printOffset v.toInt, by rw [hcl, List.cons_append], hc⟩

/-- The sign is the first character that is not part of a name. -/
theorem UnquotedNames.ne_offset (hname : UnquotedNames name S) {sym sym' : MCSymbol} {v : ℤ}
    (h : sym ∈ S) : name sym ≠ name sym' ++ printOffset v := by
  intro heq
  have hmem : signChar v ∈ name sym := by
    rw [heq, printOffset_eq]
    exact List.mem_append_right _ (List.mem_cons_self ..)
  have hchar := hname.chars sym h _ hmem
  rw [isNameChar_signChar] at hchar
  cases hchar

theorem UnquotedNames.offset_injective (hname : UnquotedNames name S) {sym sym' : MCSymbol}
    {v v' : ℤ} (h : sym ∈ S) (h' : sym' ∈ S)
    (heq : name sym ++ printOffset v = name sym' ++ printOffset v') : sym = sym' ∧ v = v' := by
  have hchars : ∀ {sym : MCSymbol}, sym ∈ S → ∀ x ∈ name sym, ¬ isNameChar x = false :=
    fun hsym x hx => by simp [hname.chars _ hsym x hx]
  rw [printOffset_eq, printOffset_eq] at heq
  obtain ⟨hsym, hsign, hdigits⟩ := append_cons_inj (p := (isNameChar · = false)) (hchars h)
    (hchars h') (isNameChar_signChar v) (isNameChar_signChar v') heq
  have hoffset : printOffset v = printOffset v' := by
    rw [printOffset_eq, printOffset_eq, hsign, hdigits]
  exact ⟨hname.injOn h h' hsym, printOffset_injective hoffset⟩

theorem SumText.injective (hname : UnquotedNames name S) {e e' : MCExpr} {t t' : List Char}
    (h : SumText name S e t) (h' : SumText name S e' t') (heq : t = t') : e = e' := by
  cases h with
  | symbol h =>
    cases h' with
    | symbol h' => rw [hname.injOn h h' heq]
    | offset h' c' => exact absurd heq (hname.ne_offset h)
  | offset h c =>
    cases h' with
    | symbol h' => exact absurd heq.symm (hname.ne_offset h')
    | offset h' c' =>
      obtain ⟨rfl, hc⟩ := hname.offset_injective h h' heq
      rw [BitVec.eq_of_toInt_eq hc]

/-! ### Modifiers -/

def getVariantKindForName (name : String) : VariantKind :=
  if name = "lo" then .lo
  else if name = "hi" then .hi
  else if name = "pcrel_lo" then .pcrelLo
  else if name = "pcrel_hi" then .pcrelHi
  else if name = "got_pcrel_hi" then .gotHi
  else if name = "tprel_lo" then .tprelLo
  else if name = "tprel_hi" then .tprelHi
  else if name = "tprel_add" then .tprelAdd
  else if name = "tls_ie_pcrel_hi" then .tlsGotHi
  else if name = "tls_gd_pcrel_hi" then .tlsGdHi
  else .invalid

/-- Of the modifiers that are printed only one has a name that is not read. -/
theorem getVariantKindForName_name {Kind : VariantKind} {n : String}
    (hKind : Kind.hasVariant = true) (hn : getVariantKindName Kind = some n) :
    getVariantKindForName n = if Kind = .pcrel32 then .invalid else Kind := by
  cases Kind <;> cases hn <;> first | decide | cases hKind

theorem getVariantKindName_injective {Kind Kind' : VariantKind} {n : String}
    (hKind : Kind.hasVariant = true) (hKind' : Kind'.hasVariant = true)
    (hn : getVariantKindName Kind = some n) (hn' : getVariantKindName Kind' = some n) :
    Kind = Kind' := by
  have hinvalid : ∀ {Kind : VariantKind}, getVariantKindName Kind = some n → Kind ≠ .invalid := by
    intro Kind hn h
    rw [h] at hn
    cases hn
  have hread := getVariantKindForName_name hKind hn
  rw [getVariantKindForName_name hKind' hn'] at hread
  split at hread <;> split at hread
  · simp [*]
  · exact absurd hread.symm (hinvalid hn)
  · exact absurd hread (hinvalid hn')
  · exact hread.symm

theorem paren_notMem_kindName {Kind : VariantKind} {n : String}
    (hn : getVariantKindName Kind = some n) :
    '(' ∉ n.toList ∧ ',' ∉ n.toList ∧ '\n' ∉ n.toList := by
  cases Kind <;> cases hn <;> decide

/-- The expression as the text shows it. -/
def MCExpr.unmarked : MCExpr → MCExpr
  | .target .none sub | .target .call sub => sub
  | e => e

/-- An expression no part of which is lost, and its text. -/
inductive ModText (name : MCSymbol → List Char) (S : Set MCSymbol) : MCExpr → List Char → Prop
  | sum {e : MCExpr} {t : List Char} (h : SumText name S e t) : ModText name S e t
  | plt {e : MCExpr} {t : List Char} (h : SumText name S e t) :
    ModText name S (.target .callPlt e) (t ++ "@plt".toList)
  | variant {Kind : VariantKind} {n : String} {e : MCExpr} {t : List Char}
      (hKind : Kind.hasVariant = true) (hn : getVariantKindName Kind = some n)
      (h : SumText name S e t) :
    ModText name S (.target Kind e) ('%' :: n.toList ++ '(' :: (t ++ [')']))

theorem SumText.target {e : MCExpr} {t : List Char} (h : SumText name S e t)
    {Kind : VariantKind} (hKind : Kind ≠ .invalid) :
    ∃ t', printExpr name (.target Kind e) = some t' ∧
      ModText name S (MCExpr.target Kind e).unmarked t' := by
  have hprint : printExpr name (.target Kind e) = printImpl Kind t := by
    rw [printExpr, h.print, Option.bind_some]
  rw [hprint]
  cases Kind with
  | invalid => exact absurd rfl hKind
  | none | call => exact ⟨t ++ [], rfl, by rw [List.append_nil]; exact .sum h⟩
  | callPlt => exact ⟨_, rfl, .plt h⟩
  | lo | hi | pcrelLo | pcrelHi | gotHi | tprelLo | tprelHi | tprelAdd | tlsGotHi | tlsGdHi
  | pcrel32 =>
    refine ⟨_, rfl, ?_⟩
    rw [if_neg (by decide), List.append_nil]
    exact .variant rfl rfl h

theorem ModText.injective (hname : UnquotedNames name S) {e e' : MCExpr} {t t' : List Char}
    (h : ModText name S e t) (h' : ModText name S e' t') (heq : t = t') : e = e' := by
  have hat : ∀ {e t}, SumText name S e t → '@' ∉ t := fun h =>
    h.notMem hname (by decide) (by decide) (by decide)
  have hpercent : ∀ {e t}, SumText name S e t → '%' ∉ t := fun h =>
    h.notMem hname (by decide) (by decide) (by decide)
  have hplt : ∀ {e t}, SumText name S e t → '%' ∉ t ++ "@plt".toList := fun h =>
    List.not_mem_append (hpercent h) (by decide)
  cases h with
  | sum h =>
    cases h' with
    | sum h' => exact h.injective hname h' heq
    | plt h' =>
      exact absurd (heq ▸ List.mem_append_right _ (by decide)) (hat h)
    | variant hKind' hn' h' => exact absurd (heq ▸ List.mem_cons_self ..) (hpercent h)
  | plt h =>
    cases h' with
    | sum h' => exact absurd (heq ▸ List.mem_append_right _ (by decide)) (hat h')
    | plt h' => rw [h.injective hname h' (List.append_cancel_right heq)]
    | variant hKind' hn' h' => exact absurd (heq ▸ List.mem_cons_self ..) (hplt h)
  | variant hKind hn h =>
    cases h' with
    | sum h' => exact absurd (heq ▸ List.mem_cons_self ..) (hpercent h')
    | plt h' => exact absurd (heq ▸ List.mem_cons_self ..) (hplt h')
    | variant hKind' hn' h' =>
      have hparen : ∀ {Kind : VariantKind} {n : String}, getVariantKindName Kind = some n →
          ∀ x ∈ n.toList, ¬ x = '(' :=
        fun hn x hx hx' => (paren_notMem_kindName hn).1 (hx' ▸ hx)
      obtain ⟨hnames, -, hrest⟩ := append_cons_inj (p := (· = '(')) (hparen hn) (hparen hn') rfl rfl
        (List.cons_eq_cons.mp heq).2
      rw [String.toList_inj] at hnames
      rw [getVariantKindName_injective hKind hKind' hn (hnames ▸ hn'),
        h.injective hname h' (List.append_cancel_right hrest)]

theorem ModText.notMem (hname : UnquotedNames name S) {e : MCExpr} {t : List Char}
    (h : ModText name S e t) {c : Char} (hc : c = ',' ∨ c = '\n') : c ∉ t := by
  have hsum : ∀ {e t}, SumText name S e t → c ∉ t := by
    intro e t h
    rcases hc with rfl | rfl <;> exact h.notMem hname (by decide) (by decide) (by decide)
  cases h with
  | sum h => exact hsum h
  | plt h =>
    refine List.not_mem_append (hsum h) ?_
    rcases hc with rfl | rfl <;> decide
  | variant hKind hn h =>
    obtain ⟨-, hcomma, hnewline⟩ := paren_notMem_kindName hn
    rcases hc with rfl | rfl
    · simp [hcomma, hsum h]
    · simp [hnewline, hsum h]

theorem ModText.head (hname : UnquotedNames name S) {e : MCExpr} {t : List Char}
    (h : ModText name S e t) : ∃ c l, t = c :: l ∧ c.isDigit = false ∧ c ≠ '-' := by
  cases h with
  | sum h => exact h.head hname
  | plt h =>
    obtain ⟨c, l, rfl, hc⟩ := h.head hname
    exact ⟨c, l ++ "@plt".toList, rfl, hc⟩
  | variant hKind hn h => exact ⟨_, _, rfl, by decide, by decide⟩

/-! ### Operands -/

inductive OperandKind where
  | gpr
  | value
  deriving DecidableEq, Repr

/-- The operands in the order of `outs` and `ins`. -/
def Opcode.operandKinds : Opcode → List OperandKind
  | .rr _ => [.gpr, .gpr, .gpr]
  | .ri _ | .load _ | .jalr | .store _ | .branch _ => [.gpr, .gpr, .value]
  | .lui | .auipc | .jal => [.gpr, .value]
  | .pseudoBR => [.value]
  | .pseudoRET => []

/-- An operand of its kind, with every symbol in `S`, and its text. -/
inductive OperandText (name : MCSymbol → List Char) (S : Set MCSymbol) :
    OperandKind → MCOperand → List Char → Prop
  | gpr {r : ℕ} {t : List Char} (h : printRegName r = some t) : OperandText name S .gpr (.reg r) t
  | imm (i : ℤ) : OperandText name S .value (.imm i) (decimal i)
  | expr {e : MCExpr} {t : List Char} (h : ModText name S e t) :
    OperandText name S .value (.expr e) t

theorem printRegName_chars {r : ℕ} {t : List Char} (h : printRegName r = some t) :
    ∀ c ∈ t, isNameChar c = true := by
  have hall : (registerNames.all fun n => (n.toList.map Char.toLower).all isNameChar) = true := by
    decide
  obtain ⟨n, hn, rfl⟩ := Option.map_eq_some_iff.mp h
  exact List.all_eq_true.mp (List.all_eq_true.mp hall n (List.mem_of_getElem? hn))

theorem printRegName_injective {r r' : ℕ} {t : List Char} (h : printRegName r = some t)
    (h' : printRegName r' = some t) : r = r' := by
  have hnodup : (registerNames.map fun n => n.toList.map Char.toLower).Nodup := by decide
  rw [printRegName, getRegisterName, ← List.getElem?_map] at h h'
  obtain ⟨hr, -⟩ := List.getElem?_eq_some_iff.mp h
  exact (List.getElem?_inj hr hnodup).mp (h.trans h'.symm)

theorem OperandText.injective (hname : UnquotedNames name S) {kind : OperandKind}
    {op op' : MCOperand} {t t' : List Char} (h : OperandText name S kind op t)
    (h' : OperandText name S kind op' t') (heq : t = t') : op = op' := by
  have hnumber : ∀ {e t} {i : ℤ}, ModText name S e t → t ≠ decimal i := by
    intro e t i h heq
    obtain ⟨c, l, rfl, hdigit, hminus⟩ := h.head hname
    rcases mem_decimal (heq ▸ List.mem_cons_self ..) with hc | hc
    · rw [hdigit] at hc
      cases hc
    · exact hminus hc
  cases h with
  | gpr h =>
    cases h' with
    | gpr h' => rw [printRegName_injective h (heq ▸ h')]
  | imm i =>
    cases h' with
    | imm i' => rw [decimal_injective heq]
    | expr h' => exact absurd heq.symm (hnumber h')
  | expr h =>
    cases h' with
    | imm i' => exact absurd heq (hnumber h)
    | expr h' => rw [h.injective hname h' heq]

/-- What the layout of a line relies on. -/
def OperandKind.FieldText : OperandKind → List Char → Prop
  | .gpr, t => ∀ c ∈ t, isNameChar c = true
  | .value, t => ',' ∉ t ∧ '\n' ∉ t

theorem OperandText.fieldText (hname : UnquotedNames name S) {kind : OperandKind}
    {op : MCOperand} {t : List Char} (h : OperandText name S kind op t) : kind.FieldText t := by
  have hdecimal : ∀ {i : ℤ} {c : Char}, c.isDigit = false → c ≠ '-' → c ∉ decimal i := by
    intro i c hdigit hminus hmem
    rcases mem_decimal hmem with hc | hc
    · rw [hdigit] at hc
      cases hc
    · exact hminus hc
  cases h with
  | gpr h => exact printRegName_chars h
  | imm i => exact ⟨hdecimal (by decide) (by decide), hdecimal (by decide) (by decide)⟩
  | expr h => exact ⟨h.notMem hname (.inl rfl), h.notMem hname (.inr rfl)⟩

end Expressions

end ToyRiscv
