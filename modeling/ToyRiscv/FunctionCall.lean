import ToyRiscv.FunctionSelection
import ToyRiscv.Listing
import ToyRiscv.Signatures
import Mathlib.Data.List.TakeWhile

/-!
# Calling a selected function

The function its caller sees: the arguments copied out of the registers
`LowerFormalArguments` found for them, the covers of all blocks, and before each
return the copies `LowerReturn` made. A COPY is what `copyPhysReg` expands it to
(TOYRISCVInstrInfo.cpp:31-42).
-/

namespace ToyRiscv
open Lib.ByteMemory Lib.StarSimulation Relation

variable {w : ℕ}

/-! ### Copies -/

def copyPhysReg (DstReg SrcReg : Register) : Inst Register := .ri .addi DstReg SrcReg 0

/-- The destination of each copy stands first. -/
def copyCode (copies : List (Register × Register)) : List (Inst Register) :=
  copies.map fun c => copyPhysReg c.1 c.2

theorem copyCode_ordinary (copies : List (Register × Register)) :
    ∀ I ∈ copyCode copies, I.isOrdinary = true := by
  intro I hI
  obtain ⟨c, -, rfl⟩ := List.mem_map.mp hI
  rfl

theorem copyPhysReg_get {c : Register × Register} (hc : c.1 ≠ 0) (t : ArchState Register w) :
    ((copyPhysReg c.1 c.2).exec t).get c.1 = t.get c.2 ∧
      ∀ r, r ≠ c.1 → ((copyPhysReg c.1 c.2).exec t).get r = t.get r := by
  constructor
  · rw [copyPhysReg, Inst.exec, get_next, get_set_self t hc, AluImmOp.value, imm12Value_zero,
      BitVec.add_zero]
  · intro r hr
    rw [copyPhysReg, Inst.exec, get_next, get_set_of_ne t hr]

/-- Copies one after the other, none of which reads what another one writes. -/
structure Copies (copies : List (Register × Register)) : Prop where
  nodup : (copies.map Prod.fst).Nodup
  ne_zero : ∀ c ∈ copies, c.1 ≠ 0
  apart : ∀ c ∈ copies, ∀ c' ∈ copies, c.1 ≠ c'.2

theorem Copies.run {copies : List (Register × Register)} (h : Copies copies)
    (t : ArchState Register w) :
    (run (copyCode copies) t).mem = t.mem ∧
      (∀ c ∈ copies, (run (copyCode copies) t).get c.1 = t.get c.2) ∧
      ∀ r, r ∉ copies.map Prod.fst → (run (copyCode copies) t).get r = t.get r := by
  induction copies generalizing t with
  | nil => exact ⟨rfl, List.forall_mem_nil _, fun _ _ => rfl⟩
  | cons c copies ih =>
    obtain ⟨hc, hrest⟩ := List.nodup_cons.mp h.nodup
    have htail : Copies copies :=
      ⟨hrest, fun d hd => h.ne_zero d (List.mem_cons_of_mem _ hd),
        fun d hd d' hd' => h.apart d (List.mem_cons_of_mem _ hd) d' (List.mem_cons_of_mem _ hd')⟩
    obtain ⟨hself, hothers⟩ := copyPhysReg_get (h.ne_zero c (List.mem_cons_self ..)) t
    obtain ⟨hmem, hvalues, hkept⟩ := ih htail ((copyPhysReg c.1 c.2).exec t)
    refine ⟨hmem, List.forall_mem_cons.mpr ⟨?_, fun d hd => ?_⟩, fun r hr => ?_⟩
    · exact (hkept c.1 hc).trans hself
    · have hne : d.2 ≠ c.1 := (h.apart c (List.mem_cons_self ..) d (List.mem_cons_of_mem _ hd)).symm
      exact (hvalues d hd).trans (hothers d.2 hne)
    · rw [List.map_cons, List.mem_cons, not_or] at hr
      exact (hkept r hr.2).trans (hothers r hr.1)

theorem Copies.execBody {copies : List (Register × Register)} (h : Copies copies)
    {st : Store w (Mem w)} (hzero : st.regs 0 = 0#w) :
    ∃ st', execBody isaSem ((copyCode copies).map Inst.machineInstr) st = some (st', .next) ∧
      st'.mem = st.mem ∧ (∀ c ∈ copies, st'.regs c.1 = st.regs c.2) ∧
      ∀ r, r ∉ copies.map Prod.fst → st'.regs r = st.regs r := by
  have hst : Holds (⟨st.regs, st.mem, 0#w⟩ : ArchState Register w) st := holds_start hzero 0#w
  obtain ⟨st', hbody, hst'⟩ := execBody_ordinary (copyCode_ordinary copies) hst
  obtain ⟨hmem, hvalues, hkept⟩ := h.run (⟨st.regs, st.mem, 0#w⟩ : ArchState Register w)
  refine ⟨st', hbody, hst'.mem.symm.trans hmem, fun c hc => ?_, fun r hr => ?_⟩
  · rw [← hst'.regs c.1, hvalues c hc, hst.regs c.2]
  · rw [← hst'.regs r, hkept r hr, hst.regs r]

/-! ### Arguments and return values -/

/-- Virtual registers have the numbers behind the physical ones. -/
def virtReg (VReg : ℕ) : Register := 32 + VReg

/-- Formal arguments that could be lowered, at the start of the function. -/
structure FormalArguments (χ : Type) (x : XLen) where
  chain : χ
  CallConv : ℕ
  IsVarArg : Bool
  Ins : List MVT
  numVirtRegs : ℕ
  RegInfo : MachineRegisterInfo
  InVals : List (CopyFromReg χ)
  lowered : lowerFormalArguments x chain CallConv IsVarArg Ins ⟨numVirtRegs, []⟩ =
    .ok (RegInfo, InVals, chain)

/-- Return values that could be lowered, each under its name. -/
structure ReturnValues (χ : Type) (x : XLen) where
  chain : χ
  IsVarArg : Bool
  Outs : List (OutputPart ℕ)
  word : ∀ Out ∈ Outs, Out.vt = x.vt
  Ret : RetFlag χ ℕ
  lowered : lowerReturn chain IsVarArg Outs = .ok Ret

section Lowered
variable {χ : Type} {x : XLen}

/-- The live-in registers are copied at the head of the function. -/
def FormalArguments.copies (A : FormalArguments χ x) : List (Register × Register) :=
  A.RegInfo.liveIns.map fun p => (virtReg p.2, p.1.val)

def ReturnValues.copies (R : ReturnValues χ x) (vregs : ℕ → ℕ) : List (Register × Register) :=
  R.Ret.chain.copies.map fun p => (p.1.val, vregs p.2)

/-- The registers on RET_FLAG. -/
def ReturnValues.regs (R : ReturnValues χ x) : List Register := R.Ret.regs.map fun p => p.1.val

theorem virtReg_ge (VReg : ℕ) : 32 ≤ virtReg VReg := Nat.le_add_right 32 VReg

theorem FormalArguments.spec (A : FormalArguments χ x) :
    A.Ins.length ≤ argumentRegs.length ∧
      A.RegInfo.liveIns =
        (argumentRegs.take A.Ins.length).zip (List.range' A.numVirtRegs A.Ins.length) ∧
      A.InVals = argumentCopies x A.chain A.numVirtRegs A.Ins.length := by
  obtain ⟨⟨-, -, hle, -⟩, heq⟩ := lowerFormalArguments_ok A.chain A.lowered
  simp only [Prod.mk.injEq, List.nil_append] at heq
  exact ⟨hle, by rw [heq.1], heq.2.1⟩

theorem FormalArguments.copies_ok (A : FormalArguments χ x) : Copies A.copies := by
  obtain ⟨hle, hlive, -⟩ := A.spec
  have hlen : (List.range' A.numVirtRegs A.Ins.length).length ≤
      (argumentRegs.take A.Ins.length).length := by
    rw [List.length_range', List.length_take_of_le hle]
  constructor
  · have hmap : A.copies.map Prod.fst =
        (List.range' A.numVirtRegs A.Ins.length).map virtReg := by
      calc A.copies.map Prod.fst = A.RegInfo.liveIns.map (virtReg ∘ Prod.snd) := List.map_map ..
        _ = (A.RegInfo.liveIns.map Prod.snd).map virtReg := (List.map_map ..).symm
        _ = _ := by rw [hlive, List.map_snd_zip hlen]
    rw [hmap]
    exact List.Nodup.map (fun a b hab => Nat.add_left_cancel hab) List.nodup_range'
  · intro c hc
    obtain ⟨p, -, rfl⟩ := List.mem_map.mp hc
    exact Nat.ne_of_gt (Nat.lt_of_lt_of_le (by decide) (virtReg_ge p.2))
  · intro c hc c' hc'
    obtain ⟨p, -, rfl⟩ := List.mem_map.mp hc
    obtain ⟨p', -, rfl⟩ := List.mem_map.mp hc'
    exact Nat.ne_of_gt (Nat.lt_of_lt_of_le p'.1.isLt (virtReg_ge p.2))

theorem FormalArguments.runs (A : FormalArguments χ x) {st : Store w (Mem w)}
    (hzero : st.regs 0 = 0#w) :
    ∃ st', execBody isaSem ((copyCode A.copies).map Inst.machineInstr) st = some (st', .next) ∧
      st'.mem = st.mem ∧ (∀ q < 32, st'.regs q = st.regs q) ∧
      ∀ (i : ℕ) (c : CopyFromReg χ) (r : MCPhysReg), A.InVals[i]? = some c →
        argumentRegs[i]? = some r → st'.regs (virtReg c.reg) = st.regs r.val := by
  obtain ⟨st', hbody, hmem, hvalues, hkept⟩ := A.copies_ok.execBody hzero
  refine ⟨st', hbody, hmem, fun q hq => hkept q fun hmem => ?_, fun i c r hc hr => ?_⟩
  · obtain ⟨d, hd, rfl⟩ := List.mem_map.mp hmem
    obtain ⟨p, -, rfl⟩ := List.mem_map.mp hd
    exact absurd (virtReg_ge p.2) (Nat.not_le.mpr hq)
  · obtain ⟨hle, hlive, hvals⟩ := A.spec
    rw [hvals, argumentCopies, List.getElem?_map, Option.map_eq_some_iff] at hc
    obtain ⟨v, hv, rfl⟩ := hc
    have hi : i < A.Ins.length := by
      have hlt := (List.getElem?_eq_some_iff.mp hv).1
      rwa [List.length_range'] at hlt
    have hmem : (r, v) ∈ A.RegInfo.liveIns := by
      rw [hlive]
      apply List.mem_of_getElem? (i := i)
      rw [List.getElem?_zip_eq_some]
      exact ⟨by rw [List.getElem?_take_of_lt hi, hr], hv⟩
    exact hvalues (virtReg v, r.val) (List.mem_map.mpr ⟨(r, v), hmem, rfl⟩)

theorem ReturnValues.spec (R : ReturnValues χ x) :
    R.Outs.length ≤ returnRegs.length ∧
      ReturnCopies returnRegs x.vt R.chain R.Outs R.Outs.length R.Ret := by
  have hlowered := R.lowered
  cases hvar : R.IsVarArg with
  | true =>
    rw [hvar] at hlowered
    cases hlowered
  | false =>
    rw [hvar] at hlowered
    rcases Nat.lt_or_ge returnRegs.length R.Outs.length with hlt | hle
    · rw [lowerReturn_unreachable x R.chain R.word hlt] at hlowered
      cases hlowered
    · obtain ⟨Ret, hRet, hcopies⟩ := lowerReturn_regs x R.chain R.word hle
      cases Except.ok.inj (hRet.symm.trans hlowered)
      exact ⟨hle, hcopies⟩

theorem ReturnValues.chain_copies (R : ReturnValues χ x) :
    R.Ret.chain.copies = (returnRegs.take R.Outs.length).zip (R.Outs.map OutputPart.val) := by
  obtain ⟨-, hcopies⟩ := R.spec
  rw [hcopies.copies_eq, List.take_length]

theorem ReturnValues.regs_eq (R : ReturnValues χ x) :
    R.regs = (returnRegs.take R.Outs.length).map Fin.val := by
  obtain ⟨-, hcopies⟩ := R.spec
  rw [ReturnValues.regs, hcopies.regs_eq, List.map_map]
  rfl

/-- What is copied into are the registers on RET_FLAG. -/
theorem ReturnValues.copies_fst (R : ReturnValues χ x) (vregs : ℕ → ℕ) :
    (R.copies vregs).map Prod.fst = R.regs := by
  have hlen : (returnRegs.take R.Outs.length).length ≤ (R.Outs.map OutputPart.val).length := by
    rw [List.length_map]
    exact List.length_take_le ..
  calc (R.copies vregs).map Prod.fst = R.Ret.chain.copies.map (Fin.val ∘ Prod.fst) :=
        List.map_map ..
    _ = (R.Ret.chain.copies.map Prod.fst).map Fin.val := (List.map_map ..).symm
    _ = R.regs := by rw [R.chain_copies, List.map_fst_zip hlen, R.regs_eq]

theorem ReturnValues.copies_ok (R : ReturnValues χ x) {vregs : ℕ → ℕ}
    (hvregs : ∀ Out ∈ R.Outs, 32 ≤ vregs Out.val) : Copies (R.copies vregs) := by
  have hsource : ∀ p ∈ R.Ret.chain.copies, p.1 ∈ returnRegs ∧ 32 ≤ vregs p.2 := by
    intro p hp
    rw [R.chain_copies] at hp
    obtain ⟨hr, hv⟩ := List.of_mem_zip hp
    obtain ⟨Out, hOut, hval⟩ := List.mem_map.mp hv
    exact ⟨List.mem_of_mem_take hr, hval ▸ hvregs Out hOut⟩
  constructor
  · rw [R.copies_fst, R.regs_eq]
    exact List.Nodup.map Fin.val_injective (returnRegs_nodup.sublist (List.take_sublist ..))
  · intro c hc
    obtain ⟨p, hp, rfl⟩ := List.mem_map.mp hc
    have hne : ∀ r ∈ returnRegs, r.val ≠ 0 := by decide
    exact hne p.1 (hsource p hp).1
  · intro c hc c' hc'
    obtain ⟨p, hp, rfl⟩ := List.mem_map.mp hc
    obtain ⟨p', hp', rfl⟩ := List.mem_map.mp hc'
    exact Nat.ne_of_lt (Nat.lt_of_lt_of_le p.1.isLt (hsource p' hp').2)

theorem ReturnValues.runs (R : ReturnValues χ x) {vregs : ℕ → ℕ}
    (hvregs : ∀ Out ∈ R.Outs, 32 ≤ vregs Out.val) {st : Store w (Mem w)} (hzero : st.regs 0 = 0#w) :
    ∃ st', execBody isaSem ((copyCode (R.copies vregs)).map Inst.machineInstr) st =
        some (st', .next) ∧ st'.mem = st.mem ∧ (∀ q, q ∉ R.regs → st'.regs q = st.regs q) ∧
      ∀ (i : ℕ) (Out : OutputPart ℕ) (r : MCPhysReg), R.Outs[i]? = some Out →
        returnRegs[i]? = some r → st'.regs r.val = st.regs (vregs Out.val) := by
  obtain ⟨st', hbody, hmem, hvalues, hkept⟩ := (R.copies_ok hvregs).execBody hzero
  refine ⟨st', hbody, hmem, fun q hq => hkept q (R.copies_fst vregs ▸ hq),
    fun i Out r hOut hr => ?_⟩
  have hi : i < R.Outs.length := (List.getElem?_eq_some_iff.mp hOut).1
  have hp : (r, Out.val) ∈ R.Ret.chain.copies := by
    rw [R.chain_copies]
    apply List.mem_of_getElem? (i := i)
    rw [List.getElem?_zip_eq_some]
    exact ⟨by rw [List.getElem?_take_of_lt hi, hr], by rw [List.getElem?_map, hOut]; rfl⟩
  exact hvalues (r.val, vregs Out.val) (List.mem_map.mpr ⟨(r, Out.val), hp, rfl⟩)

end Lowered

/-! ### The function with its copies -/

section Called
variable {χ : Type} {x : XLen} (P : DagFunction x.bits) (V : Assignment)
  (code : MBB → List MachineInstr) (A : FormalArguments χ x) (R : MBB → ReturnValues χ x)

def entryCode (b : MBB) : List MachineInstr :=
  if b = P.entry then (copyCode A.copies).map Inst.machineInstr else []

def returnCode (b : MBB) : List MachineInstr :=
  match (P.block b).last with
  | .retFlag _ => (copyCode ((R b).copies (V.vregs' b))).map Inst.machineInstr
  | _ => []

structure CalledFunction (F : MachineFunction) : Prop where
  selected : SelectedFunction P V code
  layout : F.layout = P.layout
  insts : ∀ b ∈ P.layout, ∃ body, code b = body ++ (P.block b).last.insts ∧
    F.insts b = (P.phis b).map (V.phi b) ++
      (entryCode P A b ++ (body ++ returnCode P V R b ++ (P.block b).last.insts))
  arg_names : ∀ i c, A.InVals[i]? = some c → V.vregs P.entry i = virtReg c.reg
  entry_through : ∀ y ∈ V.through P.entry, y < A.InVals.length
  returns : ∀ b ∈ P.layout, ∀ regs, (P.block b).last = .retFlag regs →
    (P.block b).branch = none ∧ regs = (R b).regs ∧
      ∀ Out ∈ (R b).Outs, Out.val ∈ P.known V b ∧ 32 ≤ V.vregs' b Out.val

/-- What the caller that passed `st` finds when the function has returned with `st'`. -/
structure CallResult (R : ReturnValues χ x) (t : ChainState x.bits)
    (st st' : Store x.bits (Mem x.bits)) : Prop where
  values : ∀ (i : ℕ) (Out : OutputPart ℕ) (r : MCPhysReg), R.Outs[i]? = some Out →
    returnRegs[i]? = some r → st'.regs r.val = t.env Out.val
  kept : ∀ q < 32, q ∉ R.regs → st'.regs q = st.regs q

variable {P V code A R} {F : MachineFunction}

/-- In front of RET_FLAG there is straight-line code only. -/
theorem SelectsBlock.body_plain {w : ℕ} {vregs vregs' : ℕ → ℕ} {n n' : ℕ} {B : DagBlock w}
    {code body : List MachineInstr} (h : SelectsBlock vregs n B code vregs' n')
    (hbranch : B.branch = none) (hcode : code = body ++ B.last.insts) : ∀ I ∈ body, I.Plain := by
  cases h with
  | intro hnodes hsel =>
    rw [hbranch] at hsel
    cases hsel
    rw [List.map_nil, List.append_nil, List.append_nil] at hcode
    rw [← List.append_cancel_right hcode]
    exact hnodes.plain

theorem execBody_body {w : ℕ} {μ : Type} {sem : InstrSem w μ} {body ends : List MachineInstr}
    (hplain : ∀ I ∈ body, I.Plain) {st st' : Store w μ} {f : Flow}
    (h : execBody sem (body ++ ends) st = some (st', f)) :
    ∃ st₁, execBody sem body st = some (st₁, .next) ∧ execBody sem ends st₁ = some (st', f) := by
  rw [execBody_append] at h
  cases hbody : execBody sem body st with
  | none =>
    rw [hbody] at h
    cases h
  | some o =>
    obtain ⟨st₁, f₁⟩ := o
    obtain rfl := execBody_of_no_terminator (fun I hI => (hplain I hI).not_terminator) hbody
    rw [hbody] at h
    exact ⟨st₁, rfl, h⟩

theorem CalledFunction.block_runs (h : CalledFunction P V code A R F) {b : MBB}
    (hb : b ∈ P.layout) {body : List MachineInstr} (hcode : code b = body ++ (P.block b).last.insts)
    {s : ChainState x.bits} {st : Store x.bits (Mem x.bits)} (hzero : st.regs 0 = 0#(x.bits))
    (hagree : Agree (P.live V b) s (storeState (V.vregs b) st)) :
    ∃ t f st', (P.block b).Means .word s t f ∧
      execBody isaSem (body ++ returnCode P V R b ++ (P.block b).last.insts) st = some (st', f) ∧
      st'.mem = t.mem ∧
      (f ≠ .ret → (∀ q < 32, st'.regs q = st.regs q) ∧
        Agree (P.known V b) t (storeState (V.vregs' b) st')) ∧
      (f = .ret → CallResult (R b) t st st') := by
  obtain ⟨t, f, st₁, hmeans, hbody, hkept, hknown⟩ := h.selected.block_runs hb hzero hagree
  by_cases hret : ∃ regs, (P.block b).last = .retFlag regs
  · obtain ⟨regs, hlast⟩ := hret
    obtain ⟨hbranch, -, houts⟩ := h.returns b hb regs hlast
    obtain ⟨n, n', -, -, hcover⟩ := h.selected.covers b hb
    rw [hcode] at hbody
    obtain ⟨st₂, hstraight, hends⟩ := execBody_body (hcover.body_plain hbranch hcode) hbody
    rw [BlockEnd.runs, hlast] at hends
    cases hends
    have hvirtual : ∀ Out ∈ (R b).Outs, 32 ≤ V.vregs' b Out.val := fun Out hOut =>
      (houts Out hOut).2
    obtain ⟨st', hcopies, hmem, hothers, hvalues⟩ :=
      (R b).runs hvirtual ((hkept 0 (by decide)).trans hzero)
    have hcode' : returnCode P V R b =
        (copyCode ((R b).copies (V.vregs' b))).map Inst.machineInstr := by
      rw [returnCode, hlast]
    refine ⟨t, .ret, st', hmeans, ?_, hmem.trans hknown.mem.symm, fun hne => absurd rfl hne,
      fun _ => ⟨fun i Out r hOut hr => ?_, fun q hq hout => ?_⟩⟩
    · rw [List.append_assoc, execBody_append_next hstraight, hcode', execBody_append_next hcopies,
        BlockEnd.runs, hlast]
      rfl
    · rw [hvalues i Out r hOut hr]
      exact (hknown.env Out.val (houts Out (List.mem_of_getElem? hOut)).1).symm
    · rw [hothers q hout, hkept q hq]
  · have hcode' : returnCode P V R b = [] := by
      rw [returnCode]
      split
      · next regs hlast => exact absurd ⟨regs, hlast⟩ hret
      · rfl
    have hf : f ≠ .ret := by
      rintro rfl
      exact hret (DagBlock.last_of_ret hmeans.mem_flows)
    rw [hcode', List.append_nil, ← hcode]
    exact ⟨t, f, st₁, hmeans, hbody, hknown.mem.symm, fun _ => ⟨hkept, hknown⟩,
      fun he => absurd he hf⟩

/-! ### Runs of the function -/

variable {env : ℕ → BitVec x.bits} {st : Store x.bits (Mem x.bits)} {d : DagState x.bits}
  {s : BlockState x.bits (Mem x.bits)} {D : DagSem x.bits}

/-- The arguments in the caller's registers, under the names of the `InVals`. -/
def ArgumentsIn (A : FormalArguments χ x) (env : ℕ → BitVec x.bits)
    (st : Store x.bits (Mem x.bits)) : Prop :=
  ∀ (i : ℕ) (r : MCPhysReg), i < A.Ins.length → argumentRegs[i]? = some r → env i = st.regs r.val

def DagFunction.start (P : DagFunction x.bits) (env : ℕ → BitVec x.bits) (m : Mem x.bits) :
    DagState x.bits := ⟨none, P.entry, ⟨env, m⟩⟩

variable (P V F) in
/-- Both at their start, or before the same block with the caller's registers as they were. -/
def InStep (env : ℕ → BitVec x.bits) (st : Store x.bits (Mem x.bits)) (d : DagState x.bits)
    (s : BlockState x.bits (Mem x.bits)) : Prop :=
  d = P.start env st.mem ∧ s = F.start st ∨
    Related P V d s ∧ ∀ q < 32, s.store.regs q = st.regs q

theorem CalledFunction.entry_mem (h : CalledFunction P V code A R F) : P.entry ∈ P.layout := by
  have hne := h.selected.layout_ne
  rw [DagFunction.entry]
  cases hl : P.layout with
  | nil => exact absurd hl hne
  | cons b l => exact List.mem_cons_self ..

theorem CalledFunction.start_block (h : CalledFunction P V code A R F)
    (st : Store x.bits (Mem x.bits)) : (F.start st).block = P.entry := by
  rw [MachineFunction.start, MachineFunction.entry, h.layout, DagFunction.entry]

/-- Behind the PHIs and the copies of the arguments, the names a block needs are in place. -/
theorem CalledFunction.comes_in (h : CalledFunction P V code A R F) (hzero : st.regs 0 = 0#(x.bits))
    (hargs : ArgumentsIn A env st) (hds : InStep P V F env st d s) :
    ∃ env' R₀ st₁,
      execPhis d.pred d.state.env ((P.phis d.block).map fun φ => .phi φ.1 φ.2) = some env' ∧
      execPhis s.pred s.store.regs ((P.phis d.block).map (V.phi d.block)) = some R₀ ∧
      execBody isaSem (entryCode P A d.block) ⟨R₀, s.store.mem⟩ = some (st₁, .next) ∧
      (∀ q < 32, st₁.regs q = st.regs q) ∧
      Agree (P.live V d.block) ⟨env', d.state.mem⟩ (storeState (V.vregs d.block) st₁) := by
  rcases hds with ⟨rfl, rfl⟩ | ⟨hds, hregs⟩
  · obtain ⟨st₁, hbody, hmem, hkept, hvalues⟩ := A.runs hzero
    have hphis : P.phis (P.start env st.mem).block = [] := h.selected.entry_phis
    have hcode : entryCode P A (P.start env st.mem).block =
        (copyCode A.copies).map Inst.machineInstr := if_pos rfl
    rw [hphis, hcode]
    refine ⟨env, st.regs, st₁, rfl, rfl, hbody, hkept, ⟨fun y hy => ?_, hmem.symm⟩⟩
    rcases hy with hy | hy
    · obtain ⟨hle, -, hvals⟩ := A.spec
      have hy' : y < A.InVals.length := h.entry_through y hy
      have hlen : A.InVals.length = A.Ins.length := by
        rw [hvals, argumentCopies, List.length_map, List.length_range']
      have hc := List.getElem?_eq_getElem hy'
      have hr := List.getElem?_eq_getElem (Nat.lt_of_lt_of_le (hlen ▸ hy') hle)
      have hreg : V.vregs P.entry y = virtReg A.InVals[y].reg := h.arg_names y _ hc
      calc env y = st.regs _ := hargs y _ (hlen ▸ hy') hr
        _ = st₁.regs (virtReg A.InVals[y].reg) := (hvalues y _ _ hc hr).symm
        _ = st₁.regs (V.vregs P.entry y) := by rw [hreg]
    · have hy : y ∈ P.phiNames P.entry := hy
      rw [DagFunction.phiNames, h.selected.entry_phis] at hy
      cases hy
  · obtain ⟨env', R₀, henv, hR, hkept, hagree⟩ := h.selected.enters hds
    have hcode : entryCode P A d.block = [] := by
      obtain ⟨p, -, hedge, -⟩ := hds.after
      have hne : d.block ≠ P.entry := fun he => h.selected.entry_edge p (he ▸ hedge)
      exact if_neg hne
    rw [hcode]
    exact ⟨env', R₀, ⟨R₀, s.store.mem⟩, henv, hR, rfl,
      fun q hq => (hkept q hq).trans (hregs q hq), hagree⟩

theorem execBlock_phis {w : ℕ} {μ : Type} {sem : InstrSem w μ} {s : BlockState w μ} {R₀ : Regs w}
    {phis rest : List MachineInstr} (hinsts : F.insts s.block = phis ++ rest)
    (hphis : ∀ I ∈ phis, I.isPhi = true) (hrest : ∀ I ∈ rest, I.isPhi = false)
    (hR : execPhis s.pred s.store.regs phis = some R₀) {st' : Store w μ} {f : Flow}
    (hbody : execBody sem rest ⟨R₀, s.store.mem⟩ = some (st', f)) :
    execBlock sem F s = leave F s.block st' f := by
  rw [execBlock, hinsts, execPhis_append hrest, hR, dropWhile_phi_append hrest,
    List.dropWhile_eq_nil_iff.mpr hphis, List.nil_append, Option.bind_some, hbody, Option.bind_some]

theorem blockMachine_goes (hlayout : F.layout = P.layout) {μ : Type} {sem : InstrSem x.bits μ}
    {s : BlockState x.bits μ} {st' : Store x.bits μ} {f : Flow}
    (h : execBlock sem F s = leave F s.block st' f) :
    blockMachine sem F s = P.goes s.block f st' := by
  rw [blockMachine, h]
  cases f with
  | next =>
    rw [leave, MachineFunction.nextBlock, hlayout, DagFunction.goes, if_neg (by simp),
      DagFunction.dest, Option.map_map]
    rfl
  | goto c => rfl
  | ret => rfl

theorem InStep.same (h : CalledFunction P V code A R F) (hds : InStep P V F env st d s) :
    d.block = s.block ∧ d.block ∈ P.layout ∧ d.state.mem = s.store.mem := by
  rcases hds with ⟨rfl, rfl⟩ | ⟨hds, -⟩
  · exact ⟨(h.start_block st).symm, h.entry_mem, rfl⟩
  · obtain ⟨p, -, -, hagree⟩ := hds.after
    exact ⟨hds.block, hds.mem, hagree.mem⟩

theorem CalledFunction.no_phi (h : CalledFunction P V code A R F) {b : MBB} (hb : b ∈ P.layout)
    {body : List MachineInstr} (hcode : code b = body ++ (P.block b).last.insts) :
    ∀ I ∈ entryCode P A b ++ (body ++ returnCode P V R b ++ (P.block b).last.insts),
      I.isPhi = false := by
  obtain ⟨n, n', -, -, hcover⟩ := h.selected.covers b hb
  have hphi := hcover.no_phi
  rw [hcode] at hphi
  obtain ⟨hbody, hlast⟩ := List.forall_mem_append.mp hphi
  have hcopies : ∀ copies, ∀ I ∈ (copyCode copies).map Inst.machineInstr, I.isPhi = false :=
    fun copies I hI => (plain_machineInstr _ I hI).not_phi
  have hentry : ∀ I ∈ entryCode P A b, I.isPhi = false := by
    rw [entryCode]
    split
    · exact hcopies _
    · exact List.forall_mem_nil _
  have hreturn : ∀ I ∈ returnCode P V R b, I.isPhi = false := by
    rw [returnCode]
    split
    · exact hcopies _
    · exact List.forall_mem_nil _
  exact List.forall_mem_append.mpr
    ⟨hentry, List.forall_mem_append.mpr ⟨List.forall_mem_append.mpr ⟨hbody, hreturn⟩, hlast⟩⟩

/-- One block: the machine leaves it as the DAG may. -/
theorem CalledFunction.leaves (h : CalledFunction P V code A R F) (hD : P.AllowsWord D)
    (hzero : st.regs 0 = 0#(x.bits)) (hargs : ArgumentsIn A env st)
    (hds : InStep P V F env st d s) :
    ∃ t f st', P.Leaves D d t f ∧ st'.mem = t.mem ∧
      blockMachine isaSem F s = P.goes d.block f st' ∧
      (f ≠ .ret → (∀ q < 32, st'.regs q = st.regs q) ∧
        Agree (P.known V d.block) t (storeState (V.vregs' d.block) st')) ∧
      (f = .ret → CallResult (R d.block) t st st') := by
  obtain ⟨hblock, hmem, -⟩ := hds.same h
  obtain ⟨env', R₀, st₁, henv, hR, hentry, hkept, hagree⟩ := h.comes_in hzero hargs hds
  obtain ⟨body, hcode, hinsts⟩ := h.insts d.block hmem
  obtain ⟨t, f, st', hmeans, hbody, hstore, hnext, hret⟩ :=
    h.block_runs hmem hcode ((hkept 0 (by decide)).trans hzero) hagree
  have hphis : ∀ I ∈ (P.phis d.block).map (V.phi d.block), I.isPhi = true := by
    intro I hI
    obtain ⟨φ, -, rfl⟩ := List.mem_map.mp hI
    rfl
  have hexec : execBlock isaSem F s = leave F s.block st' f := by
    refine execBlock_phis (hblock ▸ hinsts) hphis (h.no_phi hmem hcode) hR ?_
    rw [execBody_append_next hentry, hbody]
  refine ⟨t, f, st', ⟨env', henv, hD d.block hmem _ _ _ hmeans⟩, hstore,
    hblock ▸ blockMachine_goes h.layout hexec, fun hf => ?_, fun hf => ?_⟩
  · obtain ⟨hregs, hknown⟩ := hnext hf
    exact ⟨fun q hq => (hregs q hq).trans (hkept q hq), hknown⟩
  · have hreturned := hret hf
    exact ⟨hreturned.values, fun q hq hout => (hreturned.kept q hq hout).trans (hkept q hq)⟩

theorem CalledFunction.step (h : CalledFunction P V code A R F) (hD : P.AllowsWord D)
    (hzero : st.regs 0 = 0#(x.bits)) (hargs : ArgumentsIn A env st)
    (hds : InStep P V F env st d s) {s' : BlockState x.bits (Mem x.bits)}
    (hnext : Next (blockMachine isaSem F) s s') :
    ∃ d', P.Step D d d' ∧ InStep P V F env st d' s' := by
  obtain ⟨-, hmem, -⟩ := hds.same h
  obtain ⟨t, f, st', hleaves, -, hgoes, hgo, -⟩ := h.leaves hD hzero hargs hds
  have hflow : f ∈ (P.block d.block).flows := by
    obtain ⟨env', -, hmeans⟩ := hleaves
    exact hmeans.mem_flows
  rw [Next, hgoes, DagFunction.goes] at hnext
  split at hnext
  · cases hnext
  · next hf =>
    obtain ⟨c, hc, hs'⟩ := Option.map_eq_some_iff.mp hnext
    cases hs'
    obtain ⟨hregs, hknown⟩ := hgo hf
    have hedge : P.Edge d.block c := ⟨hmem, f, hflow, hc⟩
    refine ⟨⟨some d.block, c, t⟩, ⟨t, f, c, hleaves, hc, rfl⟩, .inr ⟨?_, hregs⟩⟩
    exact {
      pred := rfl
      block := rfl
      mem := h.selected.edge_mem d.block c hedge
      after := ⟨d.block, rfl, hedge, hknown⟩ }

theorem CalledFunction.reaches (h : CalledFunction P V code A R F) (hD : P.AllowsWord D)
    (hzero : st.regs 0 = 0#(x.bits)) (hargs : ArgumentsIn A env st)
    (hrun : ReflTransGen (Next (blockMachine isaSem F)) (F.start st) s) :
    ∃ d, ReflTransGen (P.Step D) (P.start env st.mem) d ∧ InStep P V F env st d s := by
  induction hrun with
  | refl => exact ⟨_, .refl, .inl ⟨rfl, rfl⟩⟩
  | tail _ hnext ih =>
    obtain ⟨d₁, hd₁, hds₁⟩ := ih
    obtain ⟨d, hd, hds⟩ := h.step hD hzero hargs hds₁ hnext
    exact ⟨d, hd₁.tail hd, hds⟩

end Called

/-! ### A loop -/

end ToyRiscv
