import ToyRiscv.SelectBlock
import ToyRiscv.SelectDelay
import Mathlib.Data.List.TakeWhile

/-!
# Select expansion preserves the meaning of a function

A simulation between a function and its expansion. One traversal of `BB` is
matched by HeadMBB, possibly IfFalseMBB, and TailMBB, of which only the last
shows; every other block matches itself.
-/

namespace ToyRiscv
open Lib.TraceSimulation Relation

variable {w : ℕ} {μ : Type} {sem : InstrSem w μ} {F : MachineFunction}
  {BB tailMBB ifFalseMBB : MBB} {head tail : List MachineInstr}

/-! ### Leaving a block -/

theorem execBlock_edge (hF : F.SSA) {s : BlockState w μ} (hb : s.block ∈ F.layout)
    {e : BlockExit w μ} (h : execBlock sem F s = some e) :
    e.block = s.block ∧ ∀ d, e.dest = some d → F.edge s.block d := by
  unfold execBlock at h
  rcases hp : execPhis s.pred s.store.regs (F.insts s.block) with - | R
  · simp [hp] at h
  rcases hx : execBody sem ((F.insts s.block).dropWhile MachineInstr.isPhi) ⟨R, s.store.mem⟩ with
    - | ⟨st, f⟩
  · simp [hp, hx] at h
  simp only [hp, hx, Option.bind_some] at h
  cases f with
  | next =>
    simp only [leave, Option.map_eq_some_iff] at h
    obtain ⟨n, hn, rfl⟩ := h
    refine ⟨rfl, fun d hd => ⟨hb, ?_⟩⟩
    cases hd
    refine hF.falls_through s.block hb (fun I hI => ?_) n hn
    -- a barrier is no PHI, so it would stand in the body
    rw [← List.takeWhile_append_dropWhile (p := MachineInstr.isPhi) (l := F.insts s.block)] at hI
    rcases List.mem_append.mp hI with hI | hI
    · obtain ⟨d, inc, rfl⟩ := I.eq_phi (List.mem_takeWhile_imp hI)
      rfl
    · exact execBody_next hx I hI
  | goto t =>
    simp only [leave, Option.some.injEq] at h
    subst h
    refine ⟨rfl, fun d hd => ⟨hb, ?_⟩⟩
    cases hd
    obtain ⟨I, hI, ht⟩ := execBody_goto hx
    exact hF.targets_in s.block hb I ((List.dropWhile_sublist _).mem hI) t ht
  | ret =>
    simp only [leave, Option.some.injEq] at h
    subst h
    exact ⟨rfl, fun d hd => by cases hd⟩

theorem leave_congr {F F' : MachineFunction} {b c : MBB} (h : F'.nextBlock c = F.nextBlock b)
    (st : Store w μ) (f : Flow) :
    leave F' c st f = (leave F b st f).map fun e => { e with block := c } := by
  cases f with
  | next =>
    simp only [leave, h, Option.map_map]
    rfl
  | goto t => rfl
  | ret => rfl

theorem leave_map_block (F : MachineFunction) (b : MBB) (st : Store w μ) (f : Flow)
    (g : MBB → MBB) : ((leave F b st f).map fun e => { e with block := g e.block }) =
      (leave F b st f).map fun e => { e with block := g b } := by
  cases f with
  | next =>
    simp only [leave, Option.map_map]
    rfl
  | goto t => rfl
  | ret => rfl

/-! ### Renaming predecessors -/

theorem incomingRegister_exitBlock (BB : MBB) {p : MBB} (hp : p ≠ tailMBB)
    (inc : List (Register × MBB)) (hinc : ∀ q ∈ inc.map Prod.snd, q ≠ tailMBB) :
    incomingRegister (some (exitBlock BB tailMBB p))
        (inc.map fun rp => (rp.1, exitBlock BB tailMBB rp.2)) =
      incomingRegister (some p) inc := by
  induction inc with
  | nil => rfl
  | cons rp inc ih =>
    simp only [List.map_cons, List.forall_mem_cons] at hinc
    have ih' := ih hinc.2
    simp only [incomingRegister, Option.bind_some, List.map_cons, List.find?_cons] at ih' ⊢
    have hiff := exitBlock_inj BB hinc.1 hp
    by_cases h : rp.2 = p
    · simp [h]
    · have h' : exitBlock BB tailMBB rp.2 ≠ exitBlock BB tailMBB p := fun he => h (hiff.mp he)
      rw [beq_false_of_ne h, beq_false_of_ne h']
      exact ih'

def OldSources (tailMBB : MBB) (l : List MachineInstr) : Prop :=
  ∀ d inc, .phi d inc ∈ l → ∀ q ∈ inc.map Prod.snd, q ≠ tailMBB

theorem OldSources.of_ssa (hF : F.SSA) (hf : Fresh F BB tailMBB ifFalseMBB) {b : MBB}
    (hb : b ∈ F.layout) : OldSources tailMBB (F.insts b) :=
  fun d inc hphi _ hq => hf.ne_tail (((hF.phi_incoming b hb d inc hphi).2 _).mp hq).1

theorem execPhis_map_replacePhi {p : MBB} (hp : p ≠ tailMBB) (R : Regs w) (l : List MachineInstr)
    (hl : OldSources tailMBB l) :
    execPhis (some (exitBlock BB tailMBB p)) R (l.map (replacePhiUsesWith BB tailMBB)) =
      execPhis (some p) R l := by
  induction l with
  | nil => rfl
  | cons I l ih =>
    have ih' := ih fun d inc h => hl d inc (List.mem_cons_of_mem _ h)
    cases I with
    | phi d inc =>
      have hinc := incomingRegister_exitBlock BB hp inc (hl d inc (List.mem_cons_self ..))
      simp only [List.map_cons, replacePhiUsesWith, execPhis, ih']
      rw [← hinc]
      rfl
    | _ => rfl

/-- PHIs read the same registers after the renaming, whether or not it touched
their block. -/
theorem execPhis_updatePhis {b : MBB} {pred : Option MBB} (hf : Fresh F BB tailMBB ifFalseMBB)
    (hpred : ∀ p, pred = some p → F.edge p b) (R : Regs w) (l : List MachineInstr)
    (hl : OldSources tailMBB l) :
    execPhis (pred.map (exitBlock BB tailMBB)) R (updatePhis F BB tailMBB b l) =
      execPhis pred R l := by
  cases pred with
  | none =>
    have hnone : ∀ l,
        execPhis none R (l.map (replacePhiUsesWith BB tailMBB)) = execPhis none R l := by
      intro l
      cases l with
      | nil => rfl
      | cons I l => cases I <;> rfl
    unfold updatePhis
    split
    · exact hnone l
    · rfl
  | some p =>
    have hedge := hpred p rfl
    unfold updatePhis
    split
    · exact execPhis_map_replacePhi (hf.ne_tail hedge.1) R l hl
    · rename_i hsucc
      have hne : p ≠ BB := fun h => hsucc (h ▸ hedge.2)
      rw [Option.map_some, exitBlock, if_neg hne]

theorem dropWhile_updatePhis (b : MBB) {l : List MachineInstr}
    (hl : ∀ I ∈ l.dropWhile MachineInstr.isPhi, I.isPhi = false) :
    (updatePhis F BB tailMBB b l).dropWhile MachineInstr.isPhi =
      l.dropWhile MachineInstr.isPhi := by
  unfold updatePhis
  split
  · have hcomp : MachineInstr.isPhi ∘ replacePhiUsesWith BB tailMBB = MachineInstr.isPhi :=
      funext fun I => replacePhi_isPhi BB tailMBB I
    rw [List.dropWhile_map, hcomp, map_replacePhi_of_no_phi hl]
  · rfl

/-! ### The simulation -/

/-- Control stands at the entry of the same block of `F`, with the same store. -/
structure SplitSim (F : MachineFunction) (BB tailMBB : MBB) (s t : BlockState w μ) : Prop where
  block_mem : s.block ∈ F.layout
  pred_edge : ∀ p, s.pred = some p → F.edge p s.block
  block : t.block = s.block
  pred : t.pred = s.pred.map (exitBlock BB tailMBB)
  store : t.store = s.store

/-- What an exit of the expansion shows of the function: BB is left at the end of TailMBB. -/
def viewExit (BB tailMBB ifFalseMBB : MBB) (e : BlockExit w μ) : Option (BlockExit w μ) :=
  if e.block = BB ∨ e.block = ifFalseMBB then none
  else if e.block = tailMBB then some { e with block := BB }
  else some e

theorem viewExit_exitBlock (hf : Fresh F BB tailMBB ifFalseMBB) {e : BlockExit w μ}
    (he : e.block ∈ F.layout) :
    viewExit BB tailMBB ifFalseMBB { e with block := exitBlock BB tailMBB e.block } = some e := by
  obtain ⟨b, st, d⟩ := e
  unfold viewExit exitBlock
  by_cases hb : b = BB
  · subst hb
    simp [Ne.symm (hf.ne_tail hf.mem), hf.tail_ne]
  · simp [hb, hf.ne_ifFalse he, hf.ne_tail he]

theorem SplitSim.next {e : BlockExit w μ} (hF : F.SSA) (hb : e.block ∈ F.layout)
    (hdest : ∀ d, e.dest = some d → F.edge e.block d) :
    Option.Rel (SplitSim F BB tailMBB) e.next
      (BlockExit.next { e with block := exitBlock BB tailMBB e.block }) := by
  obtain ⟨b, st, dest⟩ := e
  cases dest with
  | none => exact .none
  | some d =>
    have hedge := hdest d rfl
    refine .some ⟨hF.edge_mem hedge, ?_, rfl, rfl, rfl⟩
    rintro p ⟨⟩
    exact hedge

/-- Once the expansion stands at the exit of the block whose exit is computed by
`o`, the step of `F` is matched. -/
theorem matched_of_execBlock (hF : F.SSA) (hf : Fresh F BB tailMBB ifFalseMBB)
    {F' : MachineFunction} {s t t' : BlockState w μ} (hb : s.block ∈ F.layout)
    (hsil : ReflTransGen (Silent (blockStep sem F') (viewExit BB tailMBB ifFalseMBB)) t t')
    (h : execBlock sem F' t' = (execBlock sem F s).map fun e =>
      { e with block := exitBlock BB tailMBB e.block }) :
    Matched (blockStep sem F) (blockStep sem F') (viewExit BB tailMBB ifFalseMBB)
      (SplitSim F BB tailMBB) s t := by
  refine ⟨t', hsil, ?_⟩
  unfold blockStep
  rcases he : execBlock sem F s with - | e
  · rw [h, he]
    rfl
  · obtain ⟨heb, hdest⟩ := execBlock_edge hF hb he
    have hbe : e.block ∈ F.layout := heb ▸ hb
    rw [h, he]
    exact ⟨_, _, rfl, viewExit_exitBlock hf hbe, SplitSim.next hF hbe (heb ▸ hdest)⟩

theorem execBlock_other (hF : F.SSA) (hf : Fresh F BB tailMBB ifFalseMBB) {s t : BlockState w μ}
    (hs : SplitSim F BB tailMBB s t) (hne : s.block ≠ BB) :
    execBlock sem (splitBlock F BB tailMBB ifFalseMBB head tail) t =
      (execBlock sem F s).map fun e => { e with block := exitBlock BB tailMBB e.block } := by
  have hb := hs.block_mem
  unfold execBlock
  rw [hs.block, hs.pred, hs.store, hf.insts_other hb hne,
    execPhis_updatePhis hf hs.pred_edge _ _ (.of_ssa hF hf hb),
    dropWhile_updatePhis _ (hF.no_phi_dropWhile hb)]
  rcases execPhis s.pred s.store.regs (F.insts s.block) with - | R
  · rfl
  simp only [Option.bind_some]
  rcases execBody sem ((F.insts s.block).dropWhile MachineInstr.isPhi) ⟨R, s.store.mem⟩ with
    - | ⟨st, f⟩
  · rfl
  simp only [Option.bind_some]
  rw [leave_congr (hf.next_other hb hne), leave_map_block F _ st f (exitBlock BB tailMBB),
    exitBlock, if_neg hne]

/-! ### The expanded block -/

section
variable {MI : ℕ} {s : SelectPseudo} {brCond : BranchOp}
  {pre seq rest debugValues others after : List MachineInstr}

/-- The block up to and including the sequence, run with and without the
selects from the state behind `pre`. -/
theorem Expansion.delayed (e : Expansion F BB MI s brCond pre seq rest debugValues others after)
    (sem : InstrSem w μ) (hF : F.SSA) (hb : BB ∈ F.layout) (st : Store w μ) :
    ∃ st1 st1', execBody sem (.select s :: seq) st = some (st1, .next) ∧
      execBody sem others st = some (st1', .next) ∧
      Delayed (s :: seq.filterMap MachineInstr.asSelect) st1 st1' := by
  have hinsts : F.insts BB = pre ++ (.select s :: seq ++ rest) := e.insts
  have huse := (usesDefined_append _ _).mp (hF.usesDefined_suffix hb hinsts)
  have hfresh : ∀ r, availableAt F BB pre r → r ∉ defsOf (.select s :: seq) := fun r hr h =>
    hF.available_not_defined hb hinsts hr (by rw [defsOf_append]; exact List.mem_append_left _ h)
  have hnd : (defsOf (.select s :: seq)).Nodup := by
    have := hF.block_defs_nodup hb
    rw [hinsts, defsOf_append, defsOf_append] at this
    exact (List.nodup_append.mp (List.nodup_append.mp this).2.1).1
  have hplain : ∀ I ∈ .select s :: seq, I.isPlain := fun I hI =>
    ⟨e.no_phi hF hb I (List.mem_append_left rest hI),
      e.no_terminator hF hb I (List.mem_append_right _ hI)⟩
  have hops := hF.select_operands hb e.insts
  have hcc := hF.select_cc BB hb s (by rw [e.insts]; simp)
  obtain ⟨st1, st1', h1, h1', hd⟩ := delayed_execBody sem e.mergeable_all hcc
    (availableAt F BB pre) [] st st huse.1 hnd hfresh hplain (by simp)
    ⟨⟨(hops _ (by simp)).1, by simp⟩, ⟨(hops _ (by simp)).1, by simp⟩, by simp, by simp⟩ (.refl st)
  refine ⟨st1, st1', h1, ?_, hd⟩
  rw [← h1']
  exact execBody_of_nonDebug_eq e.others_nonDebug st

theorem Expansion.select_values
    (e : Expansion F BB MI s brCond pre seq rest debugValues others after) {st st' : Store w μ}
    (hd : Delayed (s :: seq.filterMap MachineInstr.asSelect) st st') :
    ∀ t ∈ s :: seq.filterMap MachineInstr.asSelect,
      (if brCond.taken (st'.regs s.lhs) (st'.regs s.rhs) then st'.regs t.trueV
        else st'.regs t.falseV) = st.regs t.dst := by
  intro t ht
  have hcond : t.lhs = s.lhs ∧ t.rhs = s.rhs ∧ t.cc = s.cc := by
    rcases List.mem_cons.mp ht with rfl | ht
    · exact ⟨rfl, rfl, rfl⟩
    · exact e.mergeable.selects t ht
  have hv := hd.value t ht
  rw [SelectPseudo.value, hcond.1, hcond.2.1, hcond.2.2, getBrCond_taken s.cc brCond e.cond] at hv
  exact Option.some.inj hv

theorem Expansion.execBlock_tail
    (e : Expansion F BB MI s brCond pre seq rest debugValues others after)
    (hF : F.SSA) (hb : BB ∈ F.layout) (hf : Fresh F BB tailMBB ifFalseMBB) {st st' : Store w μ}
    (hd : Delayed (s :: seq.filterMap MachineInstr.asSelect) st st') :
    execBlock sem (splitBlock F BB tailMBB ifFalseMBB head
        (tailInsts BB ifFalseMBB (s :: seq.filterMap MachineInstr.asSelect) debugValues after))
      ⟨some (arrival BB ifFalseMBB (brCond.taken (st'.regs s.lhs) (st'.regs s.rhs))),
        tailMBB, st'⟩ =
      ((execBody sem rest st).bind fun o => leave F BB o.1 o.2).map
        fun x => { x with block := tailMBB } := by
  obtain ⟨R', hphi, hR'⟩ := execPhis_selectPhi (hf.ne_ifFalse hf.mem)
    (brCond.taken (st'.regs s.lhs) (st'.regs s.rhs)) st'.regs st.regs _ (e.select_values hd)
  have hregs : R' = st.regs := funext fun r => by
    rw [hR' r]
    split
    · rfl
    · rename_i hr
      exact (hd.regs r hr).symm
  have hno := e.after_no_phi hF hb
  have hall : ∀ I ∈ (s :: seq.filterMap MachineInstr.asSelect).map (selectPhi BB ifFalseMBB),
      I.isPhi = true := by
    intro I hI
    obtain ⟨t, -, rfl⟩ := List.mem_map.mp hI
    rfl
  have hbody : execBody sem (debugValues ++ after) st = execBody sem rest st := by
    refine execBody_of_nonDebug_eq ?_ st
    rw [nonDebug_append, nonDebug_eq_nil e.debugValues_debug, e.after_nonDebug, List.nil_append]
  unfold execBlock
  dsimp only
  rw [split_insts_tail, tailInsts, List.append_assoc, execPhis_append hno, hphi, Option.bind_some,
    dropWhile_phi_append hno, List.dropWhile_eq_nil_iff.mpr hall, List.nil_append, hregs, ← hd.mem,
    hbody, Option.map_bind]
  exact Option.bind_congr fun o _ => leave_congr hf.next_tail o.1 o.2

/-- The PHIs before the select may name `BB` itself as a predecessor. -/
theorem Expansion.execPrefix_head
    (e : Expansion F BB MI s brCond pre seq rest debugValues others after)
    (hF : F.SSA) (hb : BB ∈ F.layout) (hf : Fresh F BB tailMBB ifFalseMBB) {pred : Option MBB}
    (hpred : ∀ p, pred = some p → F.edge p BB) (st : Store w μ) :
    execPrefix sem (pred.map (exitBlock BB tailMBB)) (updatePhis F BB tailMBB BB pre) st =
      execPrefix sem pred pre st := by
  have hsrc : OldSources tailMBB pre := fun d inc hmem =>
    OldSources.of_ssa hF hf hb d inc (by rw [e.insts]; exact List.mem_append_left _ hmem)
  have hdrop : ∀ I ∈ pre.dropWhile MachineInstr.isPhi, I.isPhi = false := by
    have := hF.no_phi_dropWhile hb
    rw [e.insts, dropWhile_phi_append (e.no_phi hF hb)] at this
    exact fun I hI => this I (List.mem_append_left _ hI)
  rw [execPrefix, execPrefix, execPhis_updatePhis hf hpred _ _ hsrc, dropWhile_updatePhis _ hdrop]

theorem execBody_head_branch (brCond : BranchOp) (a b : Register) {st : Store w μ}
    (hf : Fresh F BB tailMBB ifFalseMBB) :
    ((execBody sem [.branch brCond a b tailMBB] st).bind fun o =>
      leave (splitBlock F BB tailMBB ifFalseMBB head tail) BB o.1 o.2) =
    some ⟨BB, st, some (if brCond.taken (st.regs a) (st.regs b) then tailMBB else ifFalseMBB)⟩ := by
  simp only [execBody, execInstr]
  cases brCond.taken (st.regs a) (st.regs b) with
  | true => rfl
  | false =>
    show (leave _ BB st .next) = _
    rw [leave, hf.next_head]
    rfl

/-- From HeadMBB control reaches TailMBB, past IfFalseMBB or through it. -/
theorem silent_to_tail (hf : Fresh F BB tailMBB ifFalseMBB) {F' : MachineFunction}
    (hF' : F' = splitBlock F BB tailMBB ifFalseMBB head tail) {t : BlockState w μ}
    (taken : Bool) {st : Store w μ} (h : execBlock sem F' t =
      some ⟨BB, st, some (if taken then tailMBB else ifFalseMBB)⟩) :
    ReflTransGen (Silent (blockStep sem F') (viewExit BB tailMBB ifFalseMBB)) t
      ⟨some (arrival BB ifFalseMBB taken), tailMBB, st⟩ := by
  have hfirst : Silent (blockStep sem F') (viewExit BB tailMBB ifFalseMBB) t
      ⟨some BB, if taken then tailMBB else ifFalseMBB, st⟩ := by
    refine ⟨_, by rw [blockStep, h]; rfl, ?_⟩
    simp [viewExit]
  cases taken with
  | true => exact .single hfirst
  | false =>
    refine .tail (.single hfirst) ⟨⟨ifFalseMBB, st, some tailMBB⟩, ?_, ?_⟩
    · subst hF'
      simp [blockStep, execBlock, hf.insts_ifFalse, execPhis, execBody, leave, hf.next_ifFalse,
        BlockExit.next, arrival]
    · simp [viewExit]

theorem Expansion.matched_head
    (e : Expansion F BB MI s brCond pre seq rest debugValues others after)
    (hF : F.SSA) (hf : Fresh F BB tailMBB ifFalseMBB) {x y : BlockState w μ}
    (hs : SplitSim F BB tailMBB x y) (hx : x.block = BB) {F' : MachineFunction}
    (hF' : F' = splitBlock F BB tailMBB ifFalseMBB (headInsts pre others brCond s tailMBB)
      (tailInsts BB ifFalseMBB (s :: seq.filterMap MachineInstr.asSelect) debugValues after)) :
    Matched (blockStep sem F) (blockStep sem F') (viewExit BB tailMBB ifFalseMBB)
      (SplitSim F BB tailMBB) x y := by
  obtain ⟨pred, b₀, st₀⟩ := x
  obtain ⟨pred', b, st⟩ := y
  obtain ⟨hb, hpred, hblock, hpred', hstore⟩ := hs
  simp only at hx hb hpred hblock hpred' hstore
  subst hx hblock hpred' hstore
  have hnoterm : ∀ I ∈ pre, I.isTerminator = false :=
    fun I hI => e.no_terminator hF hb I (List.mem_append_left _ hI)
  have hsource := execBlock_append sem e.insts hnoterm (e.no_phi hF hb) pred st
  -- HeadMBB, cut at the same place
  have hno := e.others_branch_no_phi hF hb tailMBB
  have hinsts : F'.insts b =
      updatePhis F b tailMBB b pre ++ (others ++ [.branch brCond s.lhs s.rhs tailMBB]) := by
    rw [hF', hf.insts_head, headInsts, List.append_assoc, updatePhis_append b pre hno]
  have hhead := execBlock_append sem hinsts
    ((forall_updatePhis (fun I => by simp) b pre).mpr hnoterm) hno
    (pred.map (exitBlock b tailMBB)) st
  rw [e.execPrefix_head hF hb hf hpred] at hhead
  rcases hpre : execPrefix sem pred pre st with - | st0
  · apply matched_of_execBlock hF hf hb .refl
    rw [hhead, hsource, hpre]
    rfl
  · obtain ⟨st1, st1', hseq, hothers, hd⟩ := e.delayed sem hF hb st0
    rw [hpre, Option.bind_some, ← List.cons_append, execBody_append_next hseq] at hsource
    rw [hpre, Option.bind_some, execBody_append_next hothers, hF', execBody_head_branch _ _ _ hf,
      ← hF'] at hhead
    apply matched_of_execBlock hF hf hb (silent_to_tail hf hF' _ hhead)
    rw [hsource, hF', e.execBlock_tail hF hb hf hd]
    rcases execBody sem rest st1 with - | ⟨st2, f⟩
    · rfl
    · rw [Option.bind_some, leave_map_block F b st2 f (exitBlock b tailMBB), exitBlock, if_pos rfl]

variable (sem) in
theorem Expansion.matched
    (e : Expansion F BB MI s brCond pre seq rest debugValues others after)
    (hF : F.SSA) (hf : Fresh F BB tailMBB ifFalseMBB) {F' : MachineFunction}
    (hF' : F' = splitBlock F BB tailMBB ifFalseMBB (headInsts pre others brCond s tailMBB)
      (tailInsts BB ifFalseMBB (s :: seq.filterMap MachineInstr.asSelect) debugValues after))
    (x y : BlockState w μ) (hs : SplitSim F BB tailMBB x y) :
    Matched (blockStep sem F) (blockStep sem F') (viewExit BB tailMBB ifFalseMBB)
      (SplitSim F BB tailMBB) x y := by
  by_cases hx : x.block = BB
  · exact e.matched_head hF hf hs hx hF'
  · subst hF'
    exact matched_of_execBlock hF hf hs.block_mem .refl (execBlock_other hF hf hs hx)

end

theorem SplitSim.start (hF : F.SSA) (hf : Fresh F BB tailMBB ifFalseMBB) (st : Store w μ) :
    SplitSim F BB tailMBB (F.start st)
      ((splitBlock F BB tailMBB ifFalseMBB head tail).start st) where
  block_mem := hF.entry_mem
  pred_edge _ hp := by cases hp
  block := hf.entry
  pred := rfl
  store := rfl

/-- Every run of the function is the view of a run of its expansion, and every
run of the expansion views as a run of the function. -/
theorem emitSelectPseudo_refines (F : MachineFunction) (hF : F.SSA) (BB : MBB)
    (hb : BB ∈ F.layout) (MI : ℕ) (s : SelectPseudo)
    (hMI : (F.insts BB)[MI]? = some (.select s)) :
    ∃ F' tailMBB ifFalseMBB, emitSelectPseudo F BB MI = some (F', tailMBB) ∧
      F'.layout = insertAfter BB [ifFalseMBB, tailMBB] F.layout ∧
      tailMBB ∉ F.layout ∧ ifFalseMBB ∉ F.layout ∧ tailMBB ≠ ifFalseMBB ∧
      ∀ (w : ℕ) (μ : Type) (sem : InstrSem w μ) (st : Store w μ),
        (∀ n, ∃ m, (blockTrace sem F' m (F'.start st)).filterMap
          (viewExit BB tailMBB ifFalseMBB) = blockTrace sem F n (F.start st)) ∧
        (∀ m, ∃ n, (blockTrace sem F' m (F'.start st)).filterMap
          (viewExit BB tailMBB ifFalseMBB) = blockTrace sem F n (F.start st)) := by
  obtain ⟨brCond, pre, seq, rest, debugValues, others, after, e⟩ := expansion_of_ssa hF hb hMI
  have hf := hF.fresh hb
  refine ⟨_, _, F.freshBlock + 1, e.emitted, rfl, hf.tail_new, hf.ifFalse_new, hf.tail_ne,
    fun w μ sem st => ?_⟩
  have hsim := e.matched sem hF hf rfl
  exact ⟨fun n => trace_forward hsim n _ _ (.start hF hf st),
    fun m => trace_backward hsim m _ _ (.start hF hf st)⟩

theorem emitSelectPseudo_refines_selectLoop :
    ∃ F' tailMBB ifFalseMBB, emitSelectPseudo selectLoop 1 1 = some (F', tailMBB) ∧
      F'.layout = insertAfter 1 [ifFalseMBB, tailMBB] selectLoop.layout ∧
      tailMBB ∉ selectLoop.layout ∧ ifFalseMBB ∉ selectLoop.layout ∧ tailMBB ≠ ifFalseMBB ∧
      ∀ (w : ℕ) (μ : Type) (sem : InstrSem w μ) (st : Store w μ),
        (∀ n, ∃ m, (blockTrace sem F' m (F'.start st)).filterMap
          (viewExit 1 tailMBB ifFalseMBB) = blockTrace sem selectLoop n (selectLoop.start st)) ∧
        (∀ m, ∃ n, (blockTrace sem F' m (F'.start st)).filterMap
          (viewExit 1 tailMBB ifFalseMBB) = blockTrace sem selectLoop n (selectLoop.start st)) :=
  emitSelectPseudo_refines selectLoop selectLoop_ssa 1 (by decide) 1 ⟨4, 3, 2, .condLt, 1, 2⟩ rfl

end ToyRiscv
