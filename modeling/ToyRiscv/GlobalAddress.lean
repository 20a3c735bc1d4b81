import ToyRiscv.CondCode
import ToyRiscv.MCInstLower
import ToyRiscv.WordSelection

/-!
# Global addresses

`getAddr` and `lowerGlobalAddress` (TOYRISCVISelLowering.cpp:115-180), the machine
instructions of the nodes they build, and the code these become once
`lowerSymbolOperand` has lowered their operands and the symbols have addresses.
-/

namespace ToyRiscv
open Lib

inductive CodeModel where
  | tiny
  | small
  | kernel
  | medium
  | large
  deriving DecidableEq, Repr

structure GlobalAddressSDNode where
  global : ℕ
  offset : BitVec 64
  deriving DecidableEq, Repr

/-- `DAG.getTargetGlobalAddress(global, DL, Ty, offset, flags)`. -/
structure TargetGlobalAddress where
  global : ℕ
  offset : BitVec 64
  flags : TargetFlag
  deriving DecidableEq, Repr

def getTargetNode (N : GlobalAddressSDNode) (flags : TargetFlag) : TargetGlobalAddress :=
  ⟨N.global, 0#64, flags⟩

inductive AddrNode where
  | lui (hi : TargetGlobalAddress)
  | addi (rs1 : AddrNode) (lo : TargetGlobalAddress)
  | pseudoLLA (addr : TargetGlobalAddress)
  | pseudoLA (addr : TargetGlobalAddress)
  deriving DecidableEq, Repr

/-- `none` on `report_fatal_error`. -/
def getAddr (isPositionIndependent : Bool) (codeModel : CodeModel) (N : GlobalAddressSDNode)
    (IsLocal : Bool) : Option AddrNode :=
  if isPositionIndependent then
    if IsLocal then some (.pseudoLLA (getTargetNode N .none))
    else some (.pseudoLA (getTargetNode N .none))
  else
    match codeModel with
    | .small => some (.addi (.lui (getTargetNode N .hi)) (getTargetNode N .lo))
    | .medium => some (.pseudoLLA (getTargetNode N .none))
    | _ => none

structure LoweredAddress (x : XLen) where
  addr : AddrNode
  addend : Option (BitVec x.bits)
  deriving DecidableEq, Repr

def lowerGlobalAddress (x : XLen) (isPositionIndependent : Bool) (codeModel : CodeModel)
    (N : GlobalAddressSDNode) (IsLocal : Bool) : Option (LoweredAddress x) :=
  (getAddr isPositionIndependent codeModel N IsLocal).map fun Addr =>
    if N.offset ≠ 0#64 then ⟨Addr, some (N.offset.setWidth x.bits)⟩ else ⟨Addr, none⟩

/-! ### From the nodes to instructions -/

inductive AddrOpcode where
  | lui
  | addi
  | pseudoLLA
  | pseudoLA
  deriving DecidableEq, Repr

def TargetGlobalAddress.operand (a : TargetGlobalAddress) : MachineOperand :=
  .globalAddress a.global a.offset a.flags

/-- The instructions of the nodes, in registers from `n` on, and the register of
the result. -/
def AddrNode.emit (n : ℕ) : AddrNode → List (MInst AddrOpcode) × ℕ
  | .lui hi => ([⟨.lui, [.register n false, hi.operand]⟩], n)
  | .addi rs1 lo =>
    let (code, r) := rs1.emit n
    (code ++ [⟨.addi, [.register (r + 1) false, .register r false, lo.operand]⟩], r + 1)
  | .pseudoLLA addr => ([⟨.pseudoLLA, [.register n false, addr.operand]⟩], n)
  | .pseudoLA addr => ([⟨.pseudoLA, [.register n false, addr.operand]⟩], n)

/-- The instruction with its symbol operand resolved; the pseudos need expansion first. -/
def MCInst.link (address : MCSymbol → BitVec 64) : MCInst AddrOpcode → Option (Inst ℕ)
  | ⟨.lui, [.reg rd, .expr e]⟩ => (e.resolve address).map fun v => .lui rd v.toInt
  | ⟨.addi, [.reg rd, .reg rs1, .expr e]⟩ =>
    (e.resolve address).map fun v => .ri .addi rd rs1 v.toInt
  | _ => none

def linkCode (address : MCSymbol → BitVec 64) : List (MInst AddrOpcode) → Option (List (Inst ℕ))
  | [] => some []
  | MI :: code =>
    match (lowerMachineInstrToMCInst MI).bind (MCInst.link address), linkCode address code with
    | some I, some l => some (I :: l)
    | _, _ => none

/-- `code`, in registers from `n` on, leaves in `r` what a lowered address stands
for; the ADD is covered by the selection patterns. -/
inductive GlobalAddressCode {x : XLen} (address : MCSymbol → BitVec 64) (n : ℕ) :
    LoweredAddress x → List (Inst ℕ) → ℕ → Prop
  | plain {Addr : AddrNode} {code : List (Inst ℕ)}
      (h : linkCode address (Addr.emit n).1 = some code) :
      GlobalAddressCode address n ⟨Addr, none⟩ code (Addr.emit n).2
  | add {Addr : AddrNode} {code d : List (Inst ℕ)} {c : BitVec x.bits} {r n' : ℕ}
      (h : linkCode address (Addr.emit n).1 = some code)
      (hadd : Selects (fun _ => (Addr.emit n).2) ((Addr.emit n).2 + 1)
        (.bin .add (.arg 0) (.const c)) d r n') :
      GlobalAddressCode address n ⟨Addr, some c⟩ (code ++ d) r

/-! ### The address -/

theorem resolve_hi (address : MCSymbol → BitVec 64) (sym : MCSymbol) :
    (MCExpr.target .hi (.symbolRef sym)).resolve address = some (hi20 (address sym)) :=
  evaluateAsInt64_hi (address sym)

theorem resolve_lo (address : MCSymbol → BitVec 64) (sym : MCSymbol) :
    (MCExpr.target .lo (.symbolRef sym)).resolve address = some (lo12Sext (address sym)) :=
  evaluateAsInt64_lo (address sym)

theorem small_code (address : MCSymbol → BitVec 64) (n : ℕ) (N : GlobalAddressSDNode) :
    linkCode address
        (AddrNode.emit n (.addi (.lui (getTargetNode N .hi)) (getTargetNode N .lo))).1 =
      some [.lui n (hi20 (address (.global N.global))).toInt,
        .ri .addi (n + 1) n (lo12Sext (address (.global N.global))).toInt] := by
  have hhi : lowerMachineInstrToMCInst
      (⟨.lui, [.register n false, (getTargetNode N .hi).operand]⟩ : MInst AddrOpcode) =
      some ⟨.lui, [.reg n, .expr (.target .hi (.symbolRef (.global N.global)))]⟩ := rfl
  have hlo : lowerMachineInstrToMCInst
      (⟨.addi, [.register (n + 1) false, .register n false, (getTargetNode N .lo).operand]⟩ :
        MInst AddrOpcode) =
      some ⟨.addi, [.reg (n + 1), .reg n,
        .expr (.target .lo (.symbolRef (.global N.global)))]⟩ := rfl
  simp only [AddrNode.emit, List.singleton_append, linkCode, hhi, hlo, Option.bind_some,
    MCInst.link, resolve_hi, resolve_lo, Option.map_some]

/-- Only the low word of the symbol's address is used. -/
theorem lui_addi_symbol {w : ℕ} (hw : 32 ≤ w) (S : BitVec 64) {n : ℕ} (hn : 0 < n)
    (s : ArchState ℕ w) :
    (run [.lui n (hi20 S).toInt, .ri .addi (n + 1) n (lo12Sext S).toInt] s).get (n + 1) =
      BitVec.ofInt w (luiCarry (S.setWidth 32).toInt) := by
  have hne : n ≠ 0 := by omega
  have hne1 : n + 1 ≠ 0 := by omega
  have hlow := hi_lo_low (by decide) (by decide) (BitVec.setWidth_eq (S.setWidth 32)).symm
  rw [run_cons, run_cons, run_nil]
  simp only [Inst.exec, get_next, get_set_self _ hne, get_set_self _ hne1, AluImmOp.value]
  rw [hi20_toInt, lo12Sext_toInt, hlow.1, hlow.2,
    lui_addi_value hw ⟨BitVec.le_toInt _, BitVec.toInt_lt⟩]

theorem lowerGlobalAddress_small (x : XLen) (N : GlobalAddressSDNode) (IsLocal : Bool) :
    lowerGlobalAddress x false .small N IsLocal =
      some ⟨.addi (.lui (getTargetNode N .hi)) (getTargetNode N .lo),
        if N.offset ≠ 0#64 then some (N.offset.setWidth x.bits) else none⟩ := by
  rw [lowerGlobalAddress, getAddr, if_neg Bool.false_ne_true, Option.map_some]
  split <;> rfl

theorem GlobalAddressCode.value (x : XLen) (N : GlobalAddressSDNode) (IsLocal : Bool)
    {address : MCSymbol → BitVec 64} {n : ℕ} (hn : 0 < n) {A : LoweredAddress x}
    (hA : lowerGlobalAddress x false .small N IsLocal = some A) {code : List (Inst ℕ)} {r : ℕ}
    (hcode : GlobalAddressCode address n A code r) (s : ArchState ℕ x.bits) :
    isInt 32 (N.offset.setWidth x.bits).toInt ∧ (run code s).get r =
      BitVec.ofInt x.bits (luiCarry ((address (.global N.global)).setWidth 32).toInt) +
        BitVec.ofInt x.bits (luiCarry (N.offset.setWidth x.bits).toInt) := by
  have hw : 32 ≤ x.bits := by cases x <;> decide
  have hw64 : x.bits ≤ 64 := by cases x <;> decide
  rw [lowerGlobalAddress_small, Option.some.injEq] at hA
  subst hA
  by_cases hoff : N.offset = 0#64
  · rw [if_neg (not_not.mpr hoff)] at hcode
    cases hcode with
    | plain h =>
      rw [small_code, Option.some.injEq] at h
      subst h
      rw [hoff, BitVec.setWidth_zero, BitVec.toInt_zero]
      refine ⟨by decide, (lui_addi_symbol hw _ hn s).trans ?_⟩
      have hzero : BitVec.ofInt x.bits (luiCarry 0) = 0#x.bits := BitVec.ofInt_natCast x.bits 0
      rw [hzero, BitVec.add_zero]
  · rw [if_pos hoff] at hcode
    cases hcode with
    | add h hadd =>
      rw [small_code, Option.some.injEq] at h
      subst h
      have hf : FreshFrom (fun _ => n + 1) (n + 2) := ⟨by omega, fun _ => by omega⟩
      obtain ⟨hc, hval⟩ := hadd.addConst hw hw64 hf
        (run [.lui n (hi20 (address (.global N.global))).toInt,
          .ri .addi (n + 1) n (lo12Sext (address (.global N.global))).toInt] s)
      rw [lui_addi_symbol hw _ hn s, ← run_append] at hval
      exact ⟨hc, hval⟩

/-! ### Exactness -/

theorem sum_rv32 (S offset : BitVec 64) :
    BitVec.ofInt 32 (luiCarry (S.setWidth 32).toInt) +
        BitVec.ofInt 32 (luiCarry (offset.setWidth 32).toInt) = (S + offset).setWidth 32 := by
  rw [ofInt_luiCarry, ofInt_luiCarry, BitVec.ofInt_toInt, BitVec.ofInt_toInt,
    BitVec.setWidth_add _ _ (by decide)]

/-- A carry in either part shows in the sum, and so do two. -/
theorem sum_rv64 {S offset : BitVec 64} (hS : S.toNat < 2 ^ 31)
    (hoff : isInt 32 (offset.setWidth 64).toInt) :
    BitVec.ofInt 64 (luiCarry (S.setWidth 32).toInt) +
        BitVec.ofInt 64 (luiCarry (offset.setWidth 64).toInt) = (S + offset).setWidth 64 ↔
      S.toNat < 2 ^ 31 - 2048 ∧ offset.toInt < 2 ^ 31 - 2048 := by
  rw [BitVec.setWidth_eq] at hoff
  rw [BitVec.setWidth_eq, BitVec.setWidth_eq]
  have hS64 : S.toInt = S.toNat := by
    rw [BitVec.toInt_eq_toNat_cond]
    omega
  have hS32 : (S.setWidth 32).toInt = S.toNat := by
    rw [BitVec.toInt_eq_toNat_cond, BitVec.toNat_setWidth]
    omega
  have hsum : S + offset = BitVec.ofInt 64 (S.toNat + offset.toInt) := by
    rw [BitVec.ofInt_add, ← hS64, BitVec.ofInt_toInt, BitVec.ofInt_toInt]
  rw [hS32, hsum, ← BitVec.ofInt_add]
  have hoff0 := hoff.1
  have hoff1 := hoff.2
  have hcarry : isInt 64 (luiCarry S.toNat + luiCarry offset.toInt) := by
    unfold luiCarry isInt
    split_ifs <;> omega
  have hexact : isInt 64 (S.toNat + offset.toInt) := by
    unfold isInt
    omega
  constructor
  · intro h
    have hint := congrArg BitVec.toInt h
    rw [toInt_ofInt_of_isInt (by decide) hcarry, toInt_ofInt_of_isInt (by decide) hexact] at hint
    unfold luiCarry at hint
    split_ifs at hint <;> omega
  · intro h
    rw [luiCarry_of_lt (by omega), luiCarry_of_lt h.2]

/-- The addresses a symbol may have: 32 bits, or the first 2 GiB. -/
def addressLimit : XLen → ℕ
  | .rv32 => 2 ^ 32
  | .rv64 => 2 ^ 31

/-- Under the static small code model the address is lowered and its code is
selected, and any such code leaves `S + Offset` in its result register. -/
def ExactAddress (x : XLen) (address : MCSymbol → BitVec 64) (N : GlobalAddressSDNode)
    (IsLocal : Bool) (n : ℕ) : Prop :=
  ∃ A, lowerGlobalAddress x false .small N IsLocal = some A ∧
    (∃ code r, GlobalAddressCode address n A code r) ∧
    ∀ code r, GlobalAddressCode address n A code r → ∀ s : ArchState ℕ x.bits,
      (run code s).get r = (address (.global N.global) + N.offset).setWidth x.bits

theorem exists_globalAddressCode (x : XLen) (address : MCSymbol → BitVec 64)
    (N : GlobalAddressSDNode) (IsLocal : Bool) (n : ℕ)
    (hoff : isInt 32 (N.offset.setWidth x.bits).toInt) :
    ∃ A, lowerGlobalAddress x false .small N IsLocal = some A ∧
      ∃ code r, GlobalAddressCode address n A code r := by
  refine ⟨_, lowerGlobalAddress_small x N IsLocal, ?_⟩
  by_cases h0 : N.offset ≠ 0#64
  · rw [if_pos h0]
    have hpat : (DagOp.add, AluOp.add) ∈ patGprGpr := by decide
    exact ⟨_, _, .add (small_code address n N) (.gprGpr hpat (.arg _ 0) (.simm32 _ _ hoff))⟩
  · rw [if_neg h0]
    exact ⟨_, _, .plain (small_code address n N)⟩

theorem exactAddress_iff_sum (x : XLen) (address : MCSymbol → BitVec 64) (N : GlobalAddressSDNode)
    (IsLocal : Bool) {n : ℕ} (hn : 0 < n) :
    ExactAddress x address N IsLocal n ↔ isInt 32 (N.offset.setWidth x.bits).toInt ∧
      BitVec.ofInt x.bits (luiCarry ((address (.global N.global)).setWidth 32).toInt) +
        BitVec.ofInt x.bits (luiCarry (N.offset.setWidth x.bits).toInt) =
          (address (.global N.global) + N.offset).setWidth x.bits := by
  constructor
  · rintro ⟨A, hA, ⟨code, r, hcode⟩, hall⟩
    have s : ArchState ℕ x.bits := ⟨fun _ => 0#_, fun _ => 0#8, 0#_⟩
    obtain ⟨hoff, hval⟩ := hcode.value x N IsLocal hn hA s
    exact ⟨hoff, hval.symm.trans (hall code r hcode s)⟩
  · rintro ⟨hoff, hsum⟩
    obtain ⟨A, hA, hex⟩ := exists_globalAddressCode x address N IsLocal n hoff
    exact ⟨A, hA, hex, fun code r hcode s => (hcode.value x N IsLocal hn hA s).2.trans hsum⟩

/-- In 64-bit mode neither the symbol nor the addend may round up to 2 GiB, and the
addend must have a pattern. -/
theorem exactAddress_iff (x : XLen) {address : MCSymbol → BitVec 64} (N : GlobalAddressSDNode)
    (IsLocal : Bool) (hS : (address (.global N.global)).toNat < addressLimit x) {n : ℕ}
    (hn : 0 < n) :
    ExactAddress x address N IsLocal n ↔ x = .rv32 ∨
      ((address (.global N.global)).toNat < 2 ^ 31 - 2048 ∧ -2 ^ 31 ≤ N.offset.toInt ∧
        N.offset.toInt < 2 ^ 31 - 2048) := by
  rw [exactAddress_iff_sum x address N IsLocal hn]
  cases x with
  | rv32 =>
    have hfits : isInt 32 (N.offset.setWidth 32).toInt := ⟨BitVec.le_toInt _, BitVec.toInt_lt⟩
    exact iff_of_true ⟨hfits, sum_rv32 _ _⟩ (Or.inl rfl)
  | rv64 =>
    refine Iff.trans ?_ (or_iff_right (by decide)).symm
    constructor
    · rintro ⟨hoff, hsum⟩
      have hsmall := (sum_rv64 hS hoff).mp hsum
      have hoff64 : isInt 32 (N.offset.setWidth 64).toInt := hoff
      rw [BitVec.setWidth_eq] at hoff64
      exact ⟨hsmall.1, hoff64.1, hsmall.2⟩
    · rintro ⟨hsym, hlow, hupp⟩
      have hoff : isInt 32 (N.offset.setWidth 64).toInt := by
        rw [BitVec.setWidth_eq]
        exact ⟨hlow, by omega⟩
      exact ⟨hoff, (sum_rv64 hS hoff).mpr ⟨hsym, hupp⟩⟩

theorem exactAddress_iff_page :
    ExactAddress .rv64 (fun _ => 0x1000#64) ⟨0, 8#64⟩ true 1 ↔ XLen.rv64 = .rv32 ∨
      ((0x1000#64).toNat < 2 ^ 31 - 2048 ∧ -2 ^ 31 ≤ (8#64).toInt ∧ (8#64).toInt < 2 ^ 31 - 2048) :=
  exactAddress_iff .rv64 ⟨0, 8#64⟩ true (by decide) (by decide)

/-- The last 2 KiB of the first 2 GiB. -/
theorem exactAddress_top :
    (0x7ffff800#64).toNat < addressLimit .rv64 ∧
      ¬ ExactAddress .rv64 (fun _ => 0x7ffff800#64) ⟨0, 0#64⟩ true 1 := by
  refine ⟨by decide, fun ⟨A, hA, _, hall⟩ => ?_⟩
  cases hA
  have hcode := small_code (fun _ => 0x7ffff800#64) 1 ⟨0, 0#64⟩
  have hval := hall _ _ (.plain hcode) ⟨fun _ => 0#64, fun _ => 0#8, 0#64⟩
  exact absurd hval (by decide)

end ToyRiscv
