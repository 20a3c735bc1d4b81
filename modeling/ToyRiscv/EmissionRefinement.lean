import ToyRiscv.GlobalAddress
import ToyRiscv.Listing

/-!
# The emitted code runs as the function

One traversal of a block is matched by the run of its instructions: none at all for
a block without code, which only its place in the layout tells from the next one.
-/

namespace ToyRiscv
open Lib.ByteMemory Lib.OptionTraverse Lib.StarSimulation Relation

/-! ### Where the code of a block stands -/

section Layout
variable {F : AllocatedFunction} {bs cs : List MBB} {b : MBB}

theorem labelIndex_split (f : MBB → List (MCInst Opcode)) (hb : b ∉ bs) :
    labelIndex b ((bs ++ b :: cs).map fun c => (c, f c)) = some (bs.flatMap f).length := by
  induction bs with
  | nil => simp [labelIndex]
  | cons c bs ih =>
    simp only [List.mem_cons, not_or] at hb
    rw [List.cons_append, List.map_cons, labelIndex, if_neg (Ne.symm hb.1), ih hb.2,
      List.flatMap_cons, List.length_append]
    rfl

theorem code_map (f : MBB → List (MCInst Opcode)) (l : List MBB) :
    AsmFunction.code (l.map fun c => (c, f c)) = l.flatMap f := by
  induction l with
  | nil => rfl
  | cons c l ih =>
    rw [AsmFunction.code, List.map_cons, List.flatMap_cons, List.flatMap_cons, ← ih]
    rfl

/-- The instructions of `l` stand in the code from position `k` on. -/
def PlacedAt (address : MCSymbol → BitVec 64) (base : BitVec 64) (code : List (Inst Register))
    (k : ℕ) (l : List AllocatedInstr) : Prop :=
  ∀ i I, (emittedInstrs l)[i]? = some I → ∃ J, code[k + i]? = some J ∧
    (emitMachineInstr I).bind (·.assemble address (pcAt base (k + i))) = some J

variable {address : MCSymbol → BitVec 64} {base : BitVec 64} {code : List (Inst Register)}

theorem PlacedAt.debug {k : ℕ} {I : AllocatedInstr} {l : List AllocatedInstr}
    (h : PlacedAt address base code k (I :: l)) (hI : I.isDebugInstr = true) :
    PlacedAt address base code k l := by
  rw [PlacedAt, emittedInstrs_cons_debug hI] at h
  exact h

theorem PlacedAt.head {k : ℕ} {I : AllocatedInstr} {l : List AllocatedInstr}
    (h : PlacedAt address base code k (I :: l)) (hI : I.isDebugInstr = false) :
    ∃ J, code[k]? = some J ∧
      (emitMachineInstr I).bind (·.assemble address (pcAt base k)) = some J := by
  rw [PlacedAt, emittedInstrs_cons hI] at h
  exact h 0 I rfl

theorem PlacedAt.tail {k : ℕ} {I : AllocatedInstr} {l : List AllocatedInstr}
    (h : PlacedAt address base code k (I :: l)) (hI : I.isDebugInstr = false) :
    PlacedAt address base code (k + 1) l := by
  rw [PlacedAt, emittedInstrs_cons hI] at h
  intro i J hJ
  have := h (i + 1) J hJ
  rwa [Nat.add_comm i 1, ← Nat.add_assoc] at this

theorem length_blockCode (hF : F.Emittable) (hb : b ∈ F.layout) :
    (blockCode F b).length = (emittedInstrs (F.insts b)).length :=
  length_mapM (hF.emitBlock hb)

/-- A linked function: its emitted code, assembled, with the labels where they stand. -/
structure Linked (F : AllocatedFunction) (address : MCSymbol → BitVec 64) (base : BitVec 64)
    (code : List (Inst Register)) : Prop where
  emittable : F.Emittable
  labels : LabelsPlaced base (F.layout.map fun c => (c, blockCode F c)) address
  assembled : assembleFunction address base (F.layout.map fun c => (c, blockCode F c)) = some code

theorem Linked.length (h : Linked F address base code) :
    code.length = (F.layout.flatMap (blockCode F)).length := by
  rw [length_mapM h.assembled, List.length_zipIdx, code_map]

theorem Linked.address_eq (h : Linked F address base code) (hlayout : F.layout = bs ++ b :: cs)
    (hb : b ∉ bs) : address (.block b) = pcAt base (bs.flatMap (blockCode F)).length := by
  apply h.labels
  rw [hlayout]
  exact labelIndex_split (blockCode F) hb

theorem Linked.placedAt (h : Linked F address base code) (hlayout : F.layout = bs ++ b :: cs) :
    PlacedAt address base code (bs.flatMap (blockCode F)).length (F.insts b) := by
  intro i I hI
  have hb : b ∈ F.layout := by simp [hlayout]
  have hemit := getElem?_mapM (h.emittable.emitBlock hb) i
  rw [hI, Option.bind_some] at hemit
  have hlt : i < (blockCode F b).length := by
    rw [length_blockCode h.emittable hb]
    exact (List.getElem?_eq_some_iff.mp hI).1
  obtain ⟨m, hm⟩ : ∃ m, (blockCode F b)[i]? = some m := ⟨_, List.getElem?_eq_getElem hlt⟩
  have hflat : (F.layout.flatMap (blockCode F))[(bs.flatMap (blockCode F)).length + i]? =
      some m := by
    rw [hlayout, List.flatMap_append, List.flatMap_cons,
      List.getElem?_append_right (Nat.le_add_right _ _), Nat.add_sub_cancel_left,
      List.getElem?_append_left hlt, hm]
  have hcode := getElem?_mapM h.assembled ((bs.flatMap (blockCode F)).length + i)
  rw [code_map, List.getElem?_zipIdx, hflat] at hcode
  have hsome : (bs.flatMap (blockCode F)).length + i < code.length := by
    rw [h.length]
    exact (List.getElem?_eq_some_iff.mp hflat).1
  obtain ⟨J, hJ⟩ : ∃ J, code[(bs.flatMap (blockCode F)).length + i]? = some J :=
    ⟨_, List.getElem?_eq_getElem hsome⟩
  refine ⟨J, hJ, ?_⟩
  rw [← hemit, hm, Option.bind_some, ← hJ, hcode]
  simp

end Layout

/-! ### One instruction -/

section Step
variable {x : XLen} {address : MCSymbol → BitVec 64} {base : BitVec 64}
  {code : List (Inst Register)} {k : ℕ} {t : ArchState Register x.bits}
  {st : Store x.bits (Mem x.bits)}

/-- Where the machine gets to from `t` when control goes on to position `k`, to a block or
back to the caller. -/
inductive Reached (address : MCSymbol → BitVec 64) (base : BitVec 64) (code : List (Inst Register))
    (k : ℕ) (t : ArchState Register x.bits) (st : Store x.bits (Mem x.bits)) : Flow → Prop
  | next (t' : ArchState Register x.bits)
    (run : TransGen (Next (machineStep code (base.setWidth x.bits))) t t') (holds : Holds t' st)
    (pc : t'.pc = (pcAt base k).setWidth x.bits) : Reached address base code k t st .next
  | goto (b : MBB) (t' : ArchState Register x.bits)
    (run : TransGen (Next (machineStep code (base.setWidth x.bits))) t t') (holds : Holds t' st)
    (pc : t'.pc = (address (.block b)).setWidth x.bits) :
    Reached address base code k t st (.goto b)
  | ret (t' u : ArchState Register x.bits)
    (run : ReflTransGen (Next (machineStep code (base.setWidth x.bits))) t t')
    (last : machineStep code (base.setWidth x.bits) t' = some (.inr u)) (holds : Holds u st)
    (pc : u.pc = st.regs regRA &&& ~~~1#x.bits) : Reached address base code k t st .ret

theorem Reached.head {t' : ArchState Register x.bits} {f : Flow}
    (hrun : TransGen (Next (machineStep code (base.setWidth x.bits))) t t')
    (h : Reached address base code k t' st f) : Reached address base code k t st f := by
  cases h with
  | next u run holds pc => exact .next u (hrun.trans run) holds pc
  | goto b u run holds pc => exact .goto b u (hrun.trans run) holds pc
  | ret u v run last holds pc => exact .ret u v (hrun.to_reflTransGen.trans run) last holds pc

theorem machineStep_at {J : Inst Register} (hcode : code[k]? = some J) (hk : 4 * k < 2 ^ x.bits)
    (hpc : t.pc = (pcAt base k).setWidth x.bits) :
    machineStep code (base.setWidth x.bits) t = some (stepInst t J) := by
  rw [machineStep, hpc, setWidth_pcAt x.bits_le, fetch_at hk, hcode]
  rfl

theorem assemble_ordinary {I : Inst Register} (hI : I.isOrdinary = true) (pc : BitVec 64) :
    MCInst.assemble address pc ⟨I.opcode, (I.defs ++ I.uses).map .reg ++ I.imms.map .imm⟩ =
      some I := by
  cases I with
  | jalr | branch | jal | auipc => cases hI
  | rr | ri | load | store | lui => rfl

theorem pcRelative_symbol {n : ℕ} {pc : BitVec 64} {b : MBB} {offset : ℤ}
    (h : pcRelative n address pc (.expr (.symbolRef (.block b))) = some offset) :
    offset = (address (.block b) - pc).toInt ∧ isInt n (address (.block b) - pc).toInt := by
  simp only [pcRelative, MCExpr.resolve, Option.bind_some] at h
  split at h
  · next hfits => exact ⟨(Option.some.inj h).symm, hfits⟩
  · cases h

theorem get_set_zero (r : Register) (v : BitVec x.bits) : (t.set 0 v).get r = t.get r := by
  rw [get_set]
  split
  · next hr => rw [hr, get_zero]
  · rfl

theorem pc_next (base : BitVec 64) (k : ℕ) :
    (pcAt base k).setWidth x.bits + 4#x.bits = (pcAt base (k + 1)).setWidth x.bits := by
  rw [setWidth_pcAt x.bits_le, setWidth_pcAt x.bits_le, BitVec.add_assoc, ← BitVec.ofNat_add]
  rfl

theorem reached_ordinary {J : Inst Register} (hJ : J.isOrdinary = true) (hcode : code[k]? = some J)
    (hk : 4 * k < 2 ^ x.bits) (h : Holds t st) (hpc : t.pc = (pcAt base k).setWidth x.bits) :
    ∃ st', execInstr isaSem st J.machineInstr = some (st', .next) ∧
      Reached address base code (k + 1) t st' .next := by
  have hstep := machineStep_at hcode hk hpc
  obtain ⟨st', hexec, hholds⟩ := h.exec hJ
  have hnext : Next (machineStep code (base.setWidth x.bits)) t (J.exec t) := by
    rw [Next, hstep]
    cases J with
    | jalr => cases hJ
    | _ => rfl
  refine ⟨st', hexec, .next _ (.single hnext) hholds ?_⟩
  rw [exec_pc t (Inst.isStraight_of_isOrdinary hJ), hpc, pc_next]

theorem AllocatedInstr.Emittable.step {I : AllocatedInstr} (hI : I.Emittable)
    (hdebug : I.isDebugInstr = false) {J : Inst Register} (hcode : code[k]? = some J)
    (hJ : (emitMachineInstr I).bind (·.assemble address (pcAt base k)) = some J)
    (hk : 4 * k < 2 ^ x.bits) (h : Holds t st) (hpc : t.pc = (pcAt base k).setWidth x.bits) :
    ∃ st' f, execInstr isaSem st (I.resolve address) = some (st', f) ∧
      Reached address base code (k + 1) t st' f := by
  have hstep := machineStep_at hcode hk hpc
  cases hI with
  | ordinary I hI =>
    rw [emitMachineInstr_ordinary, Option.bind_some, assemble_ordinary hI] at hJ
    cases hJ
    obtain ⟨st', hexec, hreach⟩ := reached_ordinary hI hcode hk h hpc
    exact ⟨st', .next, hexec, hreach⟩
  | symbol I =>
    rw [SymbolInst.assembled] at hJ
    cases hJ
    obtain ⟨st', hexec, hreach⟩ := reached_ordinary (I.withImm_isOrdinary _) hcode hk h hpc
    exact ⟨st', .next, hexec, hreach⟩
  | branch op rs1 rs2 target =>
    obtain ⟨offset, hoffset, rfl⟩ := Option.map_eq_some_iff.mp hJ
    obtain ⟨rfl, hfits⟩ := pcRelative_symbol hoffset
    refine ⟨st, _, rfl, ?_⟩
    have htaken : op.taken (t.get rs1) (t.get rs2) = op.taken (st.regs rs1) (st.regs rs2) := by
      rw [h.regs, h.regs]
    cases hc : op.taken (st.regs rs1) (st.regs rs2) with
    | true =>
      refine .goto target _ (.single hstep) ?_ ?_
      · rw [Inst.exec, htaken, hc]
        exact h.withPc _
      · rw [Inst.exec, htaken, hc, if_pos rfl, hpc]
        exact add_offset (by decide) (Nat.le_trans (by decide) x.le_bits) x.bits_le hfits
    | false =>
      refine .next _ (.single hstep) ?_ ?_
      · rw [Inst.exec, htaken, hc]
        exact h.withPc _
      · rw [Inst.exec, htaken, hc, if_neg Bool.false_ne_true]
        show t.pc + 4#x.bits = _
        rw [hpc, pc_next]
  | pseudoBR target =>
    obtain ⟨offset, hoffset, rfl⟩ := Option.map_eq_some_iff.mp hJ
    obtain ⟨rfl, hfits⟩ := pcRelative_symbol hoffset
    refine ⟨st, .goto target, rfl, .goto target _ (.single hstep) ?_ ?_⟩
    · exact ⟨fun r => (get_set_zero r _).trans (h.regs r), h.mem⟩
    · show t.pc + _ = _
      rw [hpc]
      exact add_offset (by decide) (Nat.le_trans (by decide) x.le_bits) x.bits_le hfits
  | pseudoRET uses =>
    cases hJ
    refine ⟨st, .ret, rfl, .ret t _ .refl hstep ?_ ?_⟩
    · exact ⟨fun r => (get_set_zero r _).trans (h.regs r), h.mem⟩
    · show (t.get regRA + imm12Value x.bits 0) &&& _ = _
      rw [h.regs, imm12Value_zero, BitVec.add_zero]
  | debug => cases hdebug

/-! ### One block -/

theorem Reached.at {k' : ℕ} {f : Flow} (h : Reached address base code k t st f) (hf : f ≠ .next) :
    Reached address base code k' t st f := by
  cases h with
  | next => exact absurd rfl hf
  | goto b u run holds pc => exact .goto b u run holds pc
  | ret u v run last holds pc => exact .ret u v run last holds pc

/-- The run of a list of instructions; without code among them it is no run at all. -/
theorem reached_execBody (hsize : ∀ j < code.length, 4 * j < 2 ^ x.bits) {l : List AllocatedInstr}
    (hl : ∀ I ∈ l, I.Emittable) (hplaced : PlacedAt address base code k l) (h : Holds t st)
    (hpc : t.pc = (pcAt base k).setWidth x.bits) :
    ∃ st' f, execBody isaSem (l.map (·.resolve address)) st = some (st', f) ∧
      (Reached address base code (k + (emittedInstrs l).length) t st' f ∨
        emittedInstrs l = [] ∧ st' = st ∧ f = .next) := by
  induction l generalizing k t st with
  | nil => exact ⟨st, .next, rfl, .inr ⟨rfl, rfl, rfl⟩⟩
  | cons I l ih =>
    obtain ⟨hI, htail⟩ := List.forall_mem_cons.mp hl
    by_cases hdebug : I.isDebugInstr = true
    · have hskip : execInstr isaSem st (I.resolve address) = some (st, .next) :=
        execInstr_debug (hdebug ▸ I.resolve_isDebugInstr address) st
      rw [List.map_cons, execBody, hskip, emittedInstrs_cons_debug hdebug]
      exact ih htail (hplaced.debug hdebug) h hpc
    · have hdebug' : I.isDebugInstr = false := by simpa using hdebug
      obtain ⟨J, hcode, hJ⟩ := hplaced.head hdebug'
      have hlt : k < code.length := (List.getElem?_eq_some_iff.mp hcode).1
      obtain ⟨st1, f1, hexec, hreach⟩ := hI.step hdebug' hcode hJ (hsize k hlt) h hpc
      have hlen : k + (emittedInstrs (I :: l)).length = k + 1 + (emittedInstrs l).length := by
        rw [emittedInstrs_cons hdebug', List.length_cons]
        omega
      rw [List.map_cons, execBody, hexec, hlen]
      cases f1 with
      | next =>
        obtain ⟨t1, hrun, hholds, hpc1⟩ := hreach
        obtain ⟨st', f, hbody, hrest⟩ := ih htail (hplaced.tail hdebug') hholds hpc1
        refine ⟨st', f, hbody, .inl ?_⟩
        rcases hrest with hrest | ⟨hnil, rfl, rfl⟩
        · exact hrest.head hrun
        · rw [hnil]
          exact .next t1 hrun hholds hpc1
      | goto b => exact ⟨st1, .goto b, rfl, .inl (hreach.at (by simp))⟩
      | ret => exact ⟨st1, .ret, rfl, .inl (hreach.at (by simp))⟩

end Step

/-! ### The simulation -/

theorem execBlock_of_no_phi {w : ℕ} {μ : Type} (sem : InstrSem w μ) {F : MachineFunction}
    {s : BlockState w μ} (h : ∀ I ∈ F.insts s.block, I.isPhi = false) :
    execBlock sem F s =
      (execBody sem (F.insts s.block) s.store).bind fun o => leave F s.block o.1 o.2 := by
  have hphis := execPhis_append h s.pred s.store.regs []
  have hdrop := dropWhile_phi_append h []
  rw [List.nil_append] at hphis hdrop
  rw [execBlock, hphis, hdrop]
  rfl

section Simulation
variable {x : XLen} {F : AllocatedFunction} {address : MCSymbol → BitVec 64} {base : BitVec 64}
  {code : List (Inst Register)}

/-- The machine stands at the label of the block, with its store. -/
structure AtBlock (F : AllocatedFunction) (address : MCSymbol → BitVec 64)
    (s : BlockState x.bits (Mem x.bits)) (t : ArchState Register x.bits) : Prop where
  mem : s.block ∈ F.layout
  pc : t.pc = (address (.block s.block)).setWidth x.bits
  holds : Holds t s.store

/-- Back at the caller. -/
structure Returned (st : Store x.bits (Mem x.bits)) (u : ArchState Register x.bits) : Prop where
  holds : Holds u st
  pc : u.pc = st.regs regRA &&& ~~~1#x.bits

/-- Falling through moves on in the layout. -/
def layoutRank (F : AllocatedFunction) (s : BlockState x.bits (Mem x.bits)) : ℕ :=
  (F.layout.dropWhile fun b => b != s.block).length

theorem dropWhile_ne_append {b : MBB} {bs : List MBB} (hb : b ∉ bs) (cs : List MBB) :
    (bs ++ b :: cs).dropWhile (fun c => c != b) = b :: cs := by
  induction bs with
  | nil => simp
  | cons a bs ih =>
    simp only [List.mem_cons, not_or] at hb
    have hne : (a != b) = true := by simpa using Ne.symm hb.1
    rw [List.cons_append, List.dropWhile_cons, if_pos hne, ih hb.2]

/-- What a block comes to, in the function and in its code. -/
theorem Linked.block (h : Linked F address base code) (hsize : 4 * code.length < 2 ^ x.bits)
    {s : BlockState x.bits (Mem x.bits)} {t : ArchState Register x.bits}
    (hs : AtBlock F address s t) {bs cs : List MBB} (hlayout : F.layout = bs ++ s.block :: cs)
    (hb : s.block ∉ bs) :
    ∃ st' f, execBody isaSem ((F.resolve address).insts s.block) s.store = some (st', f) ∧
      execBlock isaSem (F.resolve address) s = leave (F.resolve address) s.block st' f ∧
      (Reached address base code ((bs ++ [s.block]).flatMap (blockCode F)).length t st' f ∨
        emittedInstrs (F.insts s.block) = [] ∧ st' = s.store ∧ f = .next) := by
  have hinsts := h.emittable.insts s.block hs.mem
  have hpc : t.pc = (pcAt base (bs.flatMap (blockCode F)).length).setWidth x.bits := by
    rw [hs.pc, h.address_eq hlayout hb]
  obtain ⟨st', f, hbody, hreach⟩ := reached_execBody (fun j hj => by omega) hinsts
    (h.placedAt hlayout) hs.holds hpc
  have hlen : ((bs ++ [s.block]).flatMap (blockCode F)).length =
      (bs.flatMap (blockCode F)).length + (emittedInstrs (F.insts s.block)).length := by
    rw [List.flatMap_append, List.length_append, List.flatMap_singleton,
      length_blockCode h.emittable hs.mem]
  refine ⟨st', f, hbody, ?_, by rwa [hlen]⟩
  have hphi : ∀ I ∈ (F.resolve address).insts s.block, I.isPhi = false := by
    intro J hJ
    obtain ⟨I, hI, rfl⟩ := List.mem_map.mp hJ
    exact (hinsts I hI).isPhi address
  rw [execBlock_of_no_phi isaSem hphi, resolve_insts, hbody]
  rfl

theorem notMem_of_layout (hF : F.Emittable) {c : MBB} {bs cs : List MBB}
    (hlayout : F.layout = bs ++ c :: cs) : c ∉ bs := by
  have hnd := hF.layout_nodup
  rw [hlayout] at hnd
  exact fun hc => (List.nodup_append.mp hnd).2.2 c hc c (List.mem_cons_self ..) rfl

theorem Linked.code_eq_nil (h : Linked F address base code) {b : MBB} (hb : b ∈ F.layout)
    (hnil : emittedInstrs (F.insts b) = []) (bs : List MBB) :
    (bs ++ [b]).flatMap (blockCode F) = bs.flatMap (blockCode F) := by
  have hempty : blockCode F b = [] := by
    rw [← List.length_eq_zero_iff, length_blockCode h.emittable hb, hnil]
    rfl
  rw [List.flatMap_append, List.flatMap_singleton, hempty, List.append_nil]

/-- Falling through into the next block; its label is at the same address if there was no code. -/
theorem Linked.fallthrough (h : Linked F address base code)
    {s : BlockState x.bits (Mem x.bits)} {t : ArchState Register x.bits}
    (hs : AtBlock F address s t) {bs cs : List MBB} {c : MBB}
    (hlayout : F.layout = bs ++ s.block :: c :: cs) (hb : s.block ∉ bs)
    {st' : Store x.bits (Mem x.bits)}
    (hreach :
      Reached address base code ((bs ++ [s.block]).flatMap (blockCode F)).length t st' .next ∨
        emittedInstrs (F.insts s.block) = [] ∧ st' = s.store) :
    ∃ t', AtBlock F address ⟨some s.block, c, st'⟩ t' ∧
      (TransGen (Next (machineStep code (base.setWidth x.bits))) t t' ∨
        t' = t ∧ layoutRank F ⟨some s.block, c, st'⟩ < layoutRank F s) := by
  have hsplit : F.layout = (bs ++ [s.block]) ++ c :: cs := by rw [hlayout, List.append_assoc]; rfl
  have hc := notMem_of_layout h.emittable hsplit
  have hmem : c ∈ F.layout := by simp [hlayout]
  have haddr := h.address_eq hsplit hc
  rcases hreach with ⟨t', hrun, hholds, hpc⟩ | ⟨hnil, rfl⟩
  · exact ⟨t', ⟨hmem, by rw [hpc, haddr], hholds⟩, .inl hrun⟩
  · refine ⟨t, ⟨hmem, ?_, hs.holds⟩, .inr ⟨rfl, ?_⟩⟩
    · rw [hs.pc, h.address_eq hlayout hb, haddr, h.code_eq_nil hs.mem hnil]
    · have hrank : layoutRank F s = (s.block :: c :: cs).length := by
        rw [layoutRank, hlayout, dropWhile_ne_append hb]
      have hrank' : layoutRank F ⟨some s.block, c, s.store⟩ = (c :: cs).length := by
        rw [layoutRank, hsplit, dropWhile_ne_append hc]
      rw [hrank, hrank']
      exact Nat.lt_succ_self _

/-- Behind the last block nothing is fetched. -/
theorem Linked.off_end (h : Linked F address base code) (hsize : 4 * code.length < 2 ^ x.bits)
    {s : BlockState x.bits (Mem x.bits)} {t : ArchState Register x.bits}
    (hs : AtBlock F address s t) {bs : List MBB} (hlayout : F.layout = bs ++ [s.block])
    (hb : s.block ∉ bs) {st' : Store x.bits (Mem x.bits)}
    (hreach :
      Reached address base code ((bs ++ [s.block]).flatMap (blockCode F)).length t st' .next ∨
        emittedInstrs (F.insts s.block) = [] ∧ st' = s.store) :
    ∃ t', ReflTransGen (Next (machineStep code (base.setWidth x.bits))) t t' ∧
      machineStep code (base.setWidth x.bits) t' = none := by
  have hstuck : ∀ u : ArchState Register x.bits,
      u.pc = (pcAt base code.length).setWidth x.bits →
      machineStep code (base.setWidth x.bits) u = none := by
    intro u hu
    rw [machineStep, hu, setWidth_pcAt x.bits_le, fetch_at hsize,
      List.getElem?_eq_none (Nat.le_refl _)]
    rfl
  have hlen : ((bs ++ [s.block]).flatMap (blockCode F)).length = code.length := by
    rw [h.length, hlayout]
  rw [hlen] at hreach
  rcases hreach with ⟨t', hrun, -, hpc⟩ | ⟨hnil, -⟩
  · exact ⟨t', hrun.to_reflTransGen, hstuck t' hpc⟩
  · refine ⟨t, .refl, hstuck t ?_⟩
    rw [hs.pc, h.address_eq hlayout hb, ← hlen, h.code_eq_nil hs.mem hnil]

theorem nextBlock_eq {b : MBB} {bs cs : List MBB} (hlayout : F.layout = bs ++ b :: cs)
    (hb : b ∉ bs) : (F.resolve address).nextBlock b = cs.head? := by
  rw [MachineFunction.nextBlock, resolve_layout, hlayout, nextIn_append hb]

theorem Linked.starSim (h : Linked F address base code) (hsize : 4 * code.length < 2 ^ x.bits) :
    StarSim (blockMachine isaSem (F.resolve address)) (machineStep code (base.setWidth x.bits))
      (AtBlock F address) Returned (layoutRank F) where
  next s t hs s' hnext := by
    obtain ⟨bs, cs, hlayout, hb⟩ := List.eq_append_cons_of_mem hs.mem
    obtain ⟨st', f, hbody, hblock, hreach⟩ := h.block hsize hs hlayout hb
    rw [Next, blockMachine, hblock] at hnext
    cases f with
    | next =>
      rw [leave, nextBlock_eq hlayout hb] at hnext
      cases cs with
      | nil => cases hnext
      | cons c cs =>
        cases hnext
        exact h.fallthrough hs hlayout hb (hreach.imp_right fun he => ⟨he.1, he.2.1⟩)
    | goto c =>
      cases hnext
      obtain ⟨J, hJ, hc⟩ := execBody_goto hbody
      obtain ⟨I, hI, rfl⟩ := List.mem_map.mp hJ
      rw [I.resolve_targets] at hc
      have hmem := h.emittable.targets s.block hs.mem I hI c hc
      rcases hreach with hreach | ⟨-, -, hf⟩
      · cases hreach with
        | goto _ t' hrun hholds hpc => exact ⟨t', ⟨hmem, hpc, hholds⟩, .inl hrun⟩
      · cases hf
    | ret => cases hnext
  ends s t hs o hend := by
    obtain ⟨bs, cs, hlayout, hb⟩ := List.eq_append_cons_of_mem hs.mem
    obtain ⟨st', f, -, hblock, hreach⟩ := h.block hsize hs hlayout hb
    rw [blockMachine, hblock] at hend
    cases f with
    | next =>
      rw [leave, nextBlock_eq hlayout hb] at hend
      cases cs with
      | cons c cs => cases o <;> cases hend
      | nil =>
        cases o with
        | some r => cases hend
        | none =>
          obtain ⟨t', hrun, hstuck⟩ :=
            h.off_end hsize hs hlayout hb (hreach.imp_right fun he => ⟨he.1, he.2.1⟩)
          exact ⟨t', none, hrun, hstuck, .none⟩
    | goto c => cases o <;> cases hend
    | ret =>
      rcases hreach with hreach | ⟨-, -, hf⟩
      · cases hreach with
        | ret t' u hrun hlast hholds hpc =>
          cases o with
          | none => cases hend
          | some r =>
            cases hend
            exact ⟨t', some u, hrun, hlast, .some ⟨hholds, hpc⟩⟩
      · cases hf

end Simulation

/-! ### Offsets of short functions -/

section Offsets
variable {F : AllocatedFunction} {address : MCSymbol → BitVec 64} {base : BitVec 64}

theorem pcAt_sub_toInt (base : BitVec 64) {j k n : ℕ} (hj : 4 * j < n) (hk : 4 * k < n)
    (hn : n ≤ 2 ^ 63) : (pcAt base j - pcAt base k).toInt = 4 * (j : ℤ) - 4 * k := by
  have hsub : pcAt base j - pcAt base k = BitVec.ofNat 64 (4 * j) - BitVec.ofNat 64 (4 * k) :=
    add_sub_add_left_eq_sub _ _ _
  have hsmall : ∀ i : ℕ, 4 * i < n → (BitVec.ofNat 64 (4 * i)).toInt = 4 * (i : ℤ) := by
    intro i hi
    rw [BitVec.toInt_ofNat', Int.bmod_eq_of_le (by omega) (by omega)]
    push_cast
    rfl
  rw [hsub, BitVec.toInt_sub, hsmall j hj, hsmall k hk, Int.bmod_eq_of_le (by omega) (by omega)]

theorem pcRelative_isSome {n : ℕ} {b : MBB} {j k : ℕ} (haddr : address (.block b) = pcAt base j)
    (hn : 13 ≤ n) (hj : 4 * j < 4096) (hk : 4 * k < 4096) :
    ∃ offset, pcRelative n address (pcAt base k) (.expr (.symbolRef (.block b))) = some offset := by
  have hdiff := pcAt_sub_toInt base hj hk (by decide)
  have hfits : isInt n (pcAt base j - pcAt base k).toInt := by
    apply isInt_mono hn
    rw [hdiff]
    exact ⟨by norm_num; omega, by norm_num; omega⟩
  refine ⟨(pcAt base j - pcAt base k).toInt, ?_⟩
  simp only [pcRelative, MCExpr.resolve, Option.bind_some, haddr]
  exact if_pos hfits

/-- In a function of less than 4 KiB every branch reaches its label. -/
theorem AllocatedFunction.Emittable.assembled (hF : F.Emittable)
    (hlabels : LabelsPlaced base (F.layout.map fun c => (c, blockCode F c)) address)
    (hsize : 4 * (F.layout.flatMap (blockCode F)).length < 4096) :
    ∃ code, assembleFunction address base (F.layout.map fun c => (c, blockCode F c)) =
      some code := by
  have hlabel : ∀ b ∈ F.layout, ∃ j, address (.block b) = pcAt base j ∧ 4 * j < 4096 := by
    intro b hb
    obtain ⟨bs, cs, hlayout, hb'⟩ := List.eq_append_cons_of_mem hb
    refine ⟨(bs.flatMap (blockCode F)).length, ?_, ?_⟩
    · apply hlabels
      rw [hlayout]
      exact labelIndex_split (blockCode F) hb'
    · rw [hlayout, List.flatMap_append, List.length_append] at hsize
      omega
  apply exists_mapM
  rintro ⟨m, k⟩ hmk
  rw [code_map] at hmk
  obtain ⟨-, hk, hm⟩ := List.mem_zipIdx hmk
  have hmem : m ∈ F.layout.flatMap (blockCode F) := hm ▸ List.getElem_mem _
  obtain ⟨b, hb, hmb⟩ := List.mem_flatMap.mp hmem
  obtain ⟨i, hi⟩ := List.mem_iff_getElem?.mp hmb
  rw [getElem?_mapM (hF.emitBlock hb)] at hi
  obtain ⟨I, hI, hemit⟩ := Option.bind_eq_some_iff.mp hi
  have hI' := List.mem_filter.mp (List.mem_of_getElem? hI)
  have hk' : 4 * k < 4096 := by omega
  have htargets := hF.targets b hb I hI'.1
  cases hF.insts b hb I hI'.1 with
  | ordinary I h =>
    rw [emitMachineInstr_ordinary] at hemit
    cases hemit
    exact ⟨I, assemble_ordinary h _⟩
  | symbol I =>
    have hI := I.assembled address (pcAt base k)
    rw [hemit, Option.bind_some] at hI
    exact ⟨_, hI⟩
  | branch op rs1 rs2 target =>
    cases hemit
    obtain ⟨j, haddr, hj⟩ := hlabel target (htargets target (List.mem_singleton.mpr rfl))
    obtain ⟨offset, hoffset⟩ := pcRelative_isSome haddr (Nat.le_refl 13) hj hk'
    exact ⟨.branch op rs1 rs2 offset, congrArg (Option.map _) hoffset⟩
  | pseudoBR target =>
    cases hemit
    obtain ⟨j, haddr, hj⟩ := hlabel target (htargets target (List.mem_singleton.mpr rfl))
    obtain ⟨offset, hoffset⟩ := pcRelative_isSome (n := 21) haddr (by decide) hj hk'
    exact ⟨.jal regZERO offset, congrArg (Option.map _) hoffset⟩
  | pseudoRET uses =>
    cases hemit
    exact ⟨.jalr regZERO regRA 0, rfl⟩
  | debug isDebugValue regs => cases hI'.2

end Offsets

/-! ### The address of a global -/

section GlobalAddress
variable (N : GlobalAddressSDNode) (address : MCSymbol → BitVec 64)

def AddrOpcode.toOpcode : AddrOpcode → Option Opcode
  | .lui => some .lui
  | .addi => some (.ri .addi)
  | .pseudoLLA | .pseudoLA => none

/-- The address of a global in the static small code model, in `n` and `n + 1`. -/
def smallAddress (n : Register) : List SymbolInst :=
  [.lui n N.global 0#64, .ri .addi (n + 1) n N.global 0#64]

theorem smallAddress_resolve (n : Register) :
    (smallAddress N n).map (SymbolInst.resolve address) =
      [.lui n (hi20 (address (.global N.global))).toInt,
        .ri .addi (n + 1) n (lo12Sext (address (.global N.global))).toInt] := by
  simp only [smallAddress, List.map_cons, List.map_nil, SymbolInst.resolve, SymbolInst.withImm,
    SymbolInst.part, SymbolInst.global, SymbolInst.offset, BitVec.add_zero]

/-- The printer takes the nodes of `getAddr` as they are, and they are assembled as they are
linked. -/
theorem getAddr_smallAddress (IsLocal : Bool) (n : Register) :
    ∃ Addr, getAddr false .small N IsLocal = some Addr ∧
      (Addr.emit n).1.mapM (fun MI => MI.opcode.toOpcode.map fun op => ⟨op, MI.operands⟩) =
        some ((smallAddress N n).map SymbolInst.toMInst) ∧
      linkCode address (Addr.emit n).1 =
        some ((smallAddress N n).map (SymbolInst.resolve address)) := by
  refine ⟨_, rfl, rfl, ?_⟩
  rw [small_code, smallAddress_resolve]

variable {N address} in
/-- Where the nodes are exact, an emitted function has the address in the register. -/
theorem execBody_smallAddress {x : XLen} {IsLocal : Bool} {n : Register}
    (hexact : ExactAddress x address N IsLocal n) (hoff : N.offset = 0#64)
    {t : ArchState Register x.bits} {st : Store x.bits (Mem x.bits)} (h : Holds t st) :
    ∃ st', execBody isaSem
        ((smallAddress N n).map fun I => (AllocatedInstr.symbol I).resolve address) st =
          some (st', .next) ∧
      st'.regs (n + 1) = (address (.global N.global)).setWidth x.bits := by
  have hordinary : ∀ I ∈ (smallAddress N n).map (SymbolInst.resolve address),
      I.isOrdinary = true := by
    intro J hJ
    obtain ⟨I, -, rfl⟩ := List.mem_map.mp hJ
    exact I.withImm_isOrdinary _
  obtain ⟨st', hexec, hholds⟩ := execBody_ordinary hordinary h
  rw [List.map_map] at hexec
  refine ⟨st', hexec, ?_⟩
  obtain ⟨A, hA, -, hall⟩ := hexact
  rw [lowerGlobalAddress_small, if_neg (not_not.mpr hoff), Option.some.injEq] at hA
  subst hA
  have hvalue := hall _ _ (.plain (small_code address n N)) t
  rw [hoff, BitVec.add_zero] at hvalue
  rw [← hholds.regs, smallAddress_resolve]
  exact hvalue

end GlobalAddress

/-! ### The whole function -/

/-- The printer takes every emittable function, a short one assembles wherever the globals lie,
and once it does the code started at its first address runs as the function with the addresses
in it: through the same blocks with the same registers and memory, and to the same end. -/
theorem emitFunction_runs (x : XLen) (F : AllocatedFunction) (hF : F.Emittable) :
    ∃ P, emitFunction F = some P ∧ P.map Prod.fst = F.layout ∧
      ∀ base address, LabelsPlaced base P address →
        (4 * P.code.length < 4096 → ∃ code, assembleFunction address base P = some code) ∧
        ∀ code, assembleFunction address base P = some code → 4 * code.length < 2 ^ x.bits →
          ∀ st : Store x.bits (Mem x.bits), st.regs regZERO = 0#x.bits →
            SameRuns (blockMachine isaSem (F.resolve address))
              (machineStep code (base.setWidth x.bits)) (AtBlock F address) Returned
              ((F.resolve address).start st) ⟨st.regs, st.mem, base.setWidth x.bits⟩ := by
  refine ⟨_, hF.emitFunction, ?_, fun base address hlabels => ⟨fun hsize => ?_, ?_⟩⟩
  · rw [List.map_map]
    exact List.map_id _
  · rw [code_map] at hsize
    exact hF.assembled hlabels hsize
  · intro code hcode hsize st hzero
    have hlinked : Linked F address base code := ⟨hF, hlabels, hcode⟩
    obtain ⟨b, bs, hlayout⟩ := List.exists_cons_of_ne_nil hF.layout_ne
    have hentry : (F.resolve address).entry = b := by
      rw [MachineFunction.entry, resolve_layout, hlayout, List.headD_cons]
    have hfirst : F.layout = [] ++ b :: bs := hlayout
    have hstart : address (.block b) = pcAt base 0 := hlinked.address_eq hfirst List.not_mem_nil
    refine (hlinked.starSim hsize).sameRuns ⟨?_, ?_, holds_start hzero _⟩
    · show (F.resolve address).entry ∈ F.layout
      rw [hentry, hlayout]
      exact List.mem_cons_self ..
    · show base.setWidth x.bits = (address (.block (F.resolve address).entry)).setWidth x.bits
      rw [hentry, hstart, pcAt, Nat.mul_zero, BitVec.add_zero]

theorem emitFunction_runs_sumGlobal :
    ∃ P, emitFunction sumGlobal = some P ∧ P.map Prod.fst = sumGlobal.layout ∧
      ∀ base address, LabelsPlaced base P address →
        (4 * P.code.length < 4096 → ∃ code, assembleFunction address base P = some code) ∧
        ∀ code, assembleFunction address base P = some code → 4 * code.length < 2 ^ XLen.rv64.bits →
          ∀ st : Store XLen.rv64.bits (Mem XLen.rv64.bits), st.regs regZERO = 0#(XLen.rv64.bits) →
            SameRuns (blockMachine isaSem (sumGlobal.resolve address))
              (machineStep code (base.setWidth XLen.rv64.bits)) (AtBlock sumGlobal address) Returned
              ((sumGlobal.resolve address).start st)
              ⟨st.regs, st.mem, base.setWidth XLen.rv64.bits⟩ :=
  emitFunction_runs .rv64 sumGlobal sumGlobal_emittable

end ToyRiscv
