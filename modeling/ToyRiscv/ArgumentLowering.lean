import ToyRiscv.CallingConv

/-!
# Arguments and return values

`LowerFormalArguments` and `LowerReturn` (TOYRISCVISelLowering.cpp:416-505).
-/

namespace ToyRiscv

/-! ### Arguments -/

structure MachineRegisterInfo where
  numVirtRegs : ℕ
  liveIns : List (MCPhysReg × ℕ)
  deriving DecidableEq, Repr

def MachineRegisterInfo.createVirtualRegister (RI : MachineRegisterInfo) :
    ℕ × MachineRegisterInfo :=
  (RI.numVirtRegs, { RI with numVirtRegs := RI.numVirtRegs + 1 })

def MachineRegisterInfo.addLiveIn (RI : MachineRegisterInfo) (reg : MCPhysReg) (vreg : ℕ) :
    MachineRegisterInfo :=
  { RI with liveIns := RI.liveIns ++ [(reg, vreg)] }

structure CopyFromReg (χ : Type) where
  chain : χ
  reg : ℕ
  vt : MVT
  deriving DecidableEq, Repr

section Arguments
variable {χ : Type} (x : XLen) (chain : χ)

/-- The loop over `ArgLocs`, with the `InVals` it pushes. -/
def lowerArgLocs : List CCValAssign → MachineRegisterInfo →
    Except Failure (MachineRegisterInfo × List (CopyFromReg χ))
  | [], RegInfo => .ok (RegInfo, [])
  | VA :: ArgLocs, RegInfo =>
    match VA.loc with
    | .mem _ => .error (.fatalError "Defined with too many args")
    | .reg r =>
      if VA.locVT ≠ x.vt then .error (.fatalError "unhandled argument type")
      else
        let (VReg, RegInfo) := RegInfo.createVirtualRegister
        match lowerArgLocs ArgLocs (RegInfo.addLiveIn r VReg) with
        | .error e => .error e
        | .ok (RegInfo, InVals) => .ok (RegInfo, ⟨chain, VReg, VA.locVT⟩ :: InVals)

def callingConvC : ℕ := 0

/-- The types of `Ins` come in; the register info, `InVals` and the chain come out. -/
def lowerFormalArguments (CallConv : ℕ) (IsVarArg : Bool) (Ins : List MVT)
    (RegInfo : MachineRegisterInfo) :
    Except Failure (MachineRegisterInfo × List (CopyFromReg χ) × χ) :=
  if CallConv ≠ callingConvC then .error (.fatalError "Unsupported calling convention")
  else if IsVarArg then .error (.fatalError "VarArg not supported")
  else
    match CCState.init.analyze CC_RISCV32 0 Ins with
    | .error e => .error e
    | .ok CCInfo =>
      match lowerArgLocs x chain CCInfo.locs RegInfo with
      | .error e => .error e
      | .ok (RegInfo, InVals) => .ok (RegInfo, InVals, chain)

end Arguments

/-! ### Return values -/

/-- The incoming chain, or a `CopyToReg` node: what it copies where, the chain before it
and the node whose second result is its glue. -/
inductive RetChain (χ ν : Type) where
  | entry (chain : χ)
  | copyToReg (chain : RetChain χ ν) (reg : MCPhysReg) (val : ν) (flag : Option (RetChain χ ν))

/-- `Outs[i]` and `OutVals[i]`. -/
structure OutputPart (ν : Type) where
  vt : MVT
  val : ν
  deriving DecidableEq, Repr

structure RetFlag (χ ν : Type) where
  chain : RetChain χ ν
  regs : List (MCPhysReg × MVT)
  flag : Option (RetChain χ ν)

section Returns
variable {χ ν : Type}

/-- The loop over `RVLocs`, from the part `i` on. -/
def lowerRVLocs (Outs : List (OutputPart ν)) (i : ℕ) : List CCValAssign → RetFlag χ ν →
    Except Failure (RetFlag χ ν)
  | [], Ret => .ok Ret
  | VA :: RVLocs, Ret =>
    match VA.loc with
    | .mem _ => .error (.assertion "Can only return in registers!")
    | .reg r =>
      match Outs[i]? with
      | none => .error (.assertion "index out of bounds")
      | some Out =>
        let Chain := .copyToReg Ret.chain r Out.val Ret.flag
        lowerRVLocs Outs (i + 1) RVLocs ⟨Chain, Ret.regs ++ [(r, VA.locVT)], some Chain⟩

def lowerReturn (chain : χ) (IsVarArg : Bool) (Outs : List (OutputPart ν)) :
    Except Failure (RetFlag χ ν) :=
  if IsVarArg then .error (.fatalError "VarArg not supported")
  else
    match CCState.init.analyze RetCC_RISCV32 0 (Outs.map OutputPart.vt) with
    | .error e => .error e
    | .ok CCInfo => lowerRVLocs Outs 0 CCInfo.locs ⟨.entry chain, [], none⟩

end Returns

/-! ### The copies of the return values -/

section Returns
variable {χ ν : Type}

def RetChain.copies : RetChain χ ν → List (MCPhysReg × ν)
  | .entry _ => []
  | .copyToReg chain reg val _ => chain.copies ++ [(reg, val)]

def RetChain.root : RetChain χ ν → χ
  | .entry chain => chain
  | .copyToReg chain .. => chain.root

/-- The glue a node gives: a copy its second result, the incoming chain none. -/
def RetChain.glue (C : RetChain χ ν) : Option (RetChain χ ν) :=
  match C with
  | .entry _ => none
  | .copyToReg .. => some C

def RetChain.Glued : RetChain χ ν → Prop
  | .entry _ => True
  | .copyToReg chain _ _ flag => chain.Glued ∧ flag = chain.glue

/-- The first `i` parts are copied, each into its register, and the registers are listed. -/
structure ReturnCopies (regs : List MCPhysReg) (vt : MVT) (chain : χ) (Outs : List (OutputPart ν))
    (i : ℕ) (Ret : RetFlag χ ν) : Prop where
  root_eq : Ret.chain.root = chain
  copies_eq : Ret.chain.copies = (regs.take i).zip ((Outs.take i).map OutputPart.val)
  glued : Ret.chain.Glued
  regs_eq : Ret.regs = (regs.take i).map fun r => (r, vt)
  flag_eq : Ret.flag = Ret.chain.glue

variable {regs : List MCPhysReg} {vt : MVT} {chain : χ} {Outs : List (OutputPart ν)} {i : ℕ}
  {Ret : RetFlag χ ν}

theorem ReturnCopies.step (h : ReturnCopies regs vt chain Outs i Ret) {r : MCPhysReg}
    (hr : regs[i]? = some r) {Out : OutputPart ν} (hOut : Outs[i]? = some Out) :
    ReturnCopies regs vt chain Outs (i + 1)
      ⟨.copyToReg Ret.chain r Out.val Ret.flag, Ret.regs ++ [(r, vt)],
        some (.copyToReg Ret.chain r Out.val Ret.flag)⟩ := by
  have hi : i < regs.length := (List.getElem?_eq_some_iff.mp hr).1
  have hi' : i < Outs.length := (List.getElem?_eq_some_iff.mp hOut).1
  have hlen : (regs.take i).length = ((Outs.take i).map OutputPart.val).length := by
    rw [List.length_map, List.length_take_of_le hi.le, List.length_take_of_le hi'.le]
  refine ⟨h.root_eq, ?_, ⟨h.glued, h.flag_eq⟩, ?_, rfl⟩
  · rw [List.take_add_one, hr, List.take_add_one, hOut, List.map_append, List.zip_append hlen,
      ← h.copies_eq]
    rfl
  · rw [List.take_add_one, hr, List.map_append, h.regs_eq]
    rfl

theorem lowerRVLocs_regs (n : ℕ) (hregs : i + n ≤ regs.length) (hOuts : i + n ≤ Outs.length)
    (h : ReturnCopies regs vt chain Outs i Ret) :
    ∃ Ret', lowerRVLocs Outs i
        ((((regs.drop i).take n).zipIdx i).map fun (r, i) => ⟨i, vt, vt, .reg r⟩) Ret = .ok Ret' ∧
      ReturnCopies regs vt chain Outs (i + n) Ret' := by
  induction n generalizing i Ret with
  | zero => exact ⟨Ret, rfl, h⟩
  | succ n ih =>
    have hr : i < regs.length := by omega
    have hOut : i < Outs.length := by omega
    have hstep := h.step (List.getElem?_eq_getElem hr) (List.getElem?_eq_getElem hOut)
    obtain ⟨Ret', hrest, hcopies⟩ := ih (by omega) (by omega) hstep
    refine ⟨Ret', ?_, ?_⟩
    · rw [List.drop_eq_getElem_cons hr, List.take_succ_cons, List.zipIdx_cons, List.map_cons,
        lowerRVLocs]
      simp only [List.getElem?_eq_getElem hOut]
      exact hrest
    · rw [Nat.add_assoc, Nat.add_comm 1 n] at hcopies
      exact hcopies

theorem map_vt_eq_replicate {vt : MVT} (hOuts : ∀ Out ∈ Outs, Out.vt = vt) :
    Outs.map OutputPart.vt = List.replicate Outs.length vt := by
  apply List.eq_replicate_iff.mpr
  exact ⟨List.length_map .., List.forall_mem_map.mpr hOuts⟩

theorem lowerReturn_regs (x : XLen) (chain : χ) (hOuts : ∀ Out ∈ Outs, Out.vt = x.vt)
    (hle : Outs.length ≤ returnRegs.length) :
    ∃ Ret, lowerReturn chain false Outs = .ok Ret ∧
      ReturnCopies returnRegs x.vt chain Outs Outs.length Ret := by
  have hanalyze := analyze_returns x [] hle
  rw [List.append_nil] at hanalyze
  have hinit : ReturnCopies returnRegs x.vt chain Outs 0 ⟨.entry chain, [], none⟩ :=
    ⟨rfl, rfl, trivial, rfl, rfl⟩
  obtain ⟨Ret, hloop, hcopies⟩ := lowerRVLocs_regs Outs.length (by omega) (by omega) hinit
  rw [Nat.zero_add] at hcopies
  refine ⟨Ret, ?_, hcopies⟩
  rw [lowerReturn, if_neg Bool.false_ne_true, map_vt_eq_replicate hOuts, hanalyze]
  exact hloop

theorem lowerReturn_unreachable (x : XLen) (chain : χ) (hOuts : ∀ Out ∈ Outs, Out.vt = x.vt)
    (hlt : returnRegs.length < Outs.length) :
    lowerReturn chain false Outs = .error .unreachable := by
  obtain ⟨m, hm⟩ := Nat.exists_eq_add_of_lt hlt
  rw [lowerReturn, if_neg Bool.false_ne_true, map_vt_eq_replicate hOuts, hm, Nat.add_assoc,
    analyze_returns_unreachable]

end Returns

end ToyRiscv
