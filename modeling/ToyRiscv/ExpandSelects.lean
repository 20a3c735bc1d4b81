import ToyRiscv.SelectSSA

/-!
# Expanding all selects of a function

What one call of `EmitInstrWithCustomInserter` (TOYRISCVISelLowering.cpp:378-387)
does to a function in SSA form, and the loop that calls it on the first
remaining select until there is none.
-/

namespace ToyRiscv

variable {F F' : MachineFunction} {BB tailMBB ifFalseMBB : MBB}

def nonSelects (l : List MachineInstr) : List MachineInstr := l.filter fun I => !I.isSelectPseudo

/-- The outcome of one expansion: `kept` and `moved` are what HeadMBB keeps and
TailMBB takes over of `BB`, `merged` are the selects that became PHIs. -/
structure SelectExpanded (F : MachineFunction) (BB : MBB) (s : SelectPseudo) (F' : MachineFunction)
    (tailMBB ifFalseMBB : MBB) (brCond : BranchOp) (merged : List SelectPseudo)
    (kept moved : List MachineInstr) : Prop where
  ssa : F'.SSA
  defs : F'.defs.Perm F.defs
  first : merged.head? = some s
  head_insts : F'.insts BB =
    updatePhis F BB tailMBB BB kept ++ [.branch brCond s.lhs s.rhs tailMBB]
  ifFalse_insts : F'.insts ifFalseMBB = []
  tail_insts : F'.insts tailMBB = merged.map (selectPhi BB ifFalseMBB) ++ moved
  other_insts : ∀ b ∈ F.layout, b ≠ BB → F'.insts b = updatePhis F BB tailMBB b (F.insts b)
  moved_no_phi : ∀ I ∈ moved, I.isPhi = false
  tail_preds : ∀ p, F'.edge p tailMBB ↔ p = BB ∨ p = ifFalseMBB
  preds_ne : BB ≠ ifFalseMBB
  phi_values : ∀ t ∈ merged, ∀ u ∈ merged, t.trueV ≠ u.dst ∧ t.falseV ≠ u.dst
  nonSelects_perm : (nonSelects (kept ++ moved)).Perm (nonSelects (F.insts BB))
  nonSelects_order : nonDebug (nonSelects (kept ++ moved)) = nonDebug (nonSelects (F.insts BB))
  selects : (F'.selects ++ merged).Perm F.selects
  phis : F'.phiResults.Perm (F.phiResults ++ merged.map SelectPseudo.dst)

theorem SelectExpanded.fewer {s : SelectPseudo} {brCond : BranchOp} {merged : List SelectPseudo}
    {kept moved : List MachineInstr}
    (h : SelectExpanded F BB s F' tailMBB ifFalseMBB brCond merged kept moved) :
    F'.selects.length < F.selects.length := by
  have hlen := h.selects.length_eq
  have hpos : 0 < merged.length := List.length_pos_of_mem (List.mem_of_head? h.first)
  rw [List.length_append] at hlen
  omega

/-! ### What the pieces contain -/

@[simp] theorem nonSelects_append (l m : List MachineInstr) :
    nonSelects (l ++ m) = nonSelects l ++ nonSelects m := List.filter_append l m

@[simp] theorem nonSelects_select (s : SelectPseudo) (l : List MachineInstr) :
    nonSelects (.select s :: l) = nonSelects l := filter_select_cons s l

theorem nonDebug_nonSelects (l : List MachineInstr) :
    nonDebug (nonSelects l) = nonSelects (nonDebug l) := by
  simp only [nonDebug, nonSelects, List.filter_filter, Bool.and_comm]

@[simp] theorem nonSelects_idem (l : List MachineInstr) :
    nonSelects (nonSelects l) = nonSelects l := by
  simp only [nonSelects, List.filter_filter, Bool.and_self]

theorem filterMap_updatePhis {α : Type*} {g : MachineInstr → Option α}
    (hg : ∀ I, g (replacePhiUsesWith BB tailMBB I) = g I) (b : MBB) (l : List MachineInstr) :
    (updatePhis F BB tailMBB b l).filterMap g = l.filterMap g := by
  unfold updatePhis
  split
  · rw [List.filterMap_map]
    exact List.filterMap_congr fun I _ => hg I
  · rfl

theorem filterMap_nonDebug {α : Type*} {g : MachineInstr → Option α}
    (hg : ∀ I, I.isDebugInstr = true → g I = none) (l : List MachineInstr) :
    (nonDebug l).filterMap g = l.filterMap g := by
  induction l with
  | nil => rfl
  | cons I l ih =>
    by_cases h : I.isDebugInstr = true
    · rw [nonDebug_cons_debug h, ih, List.filterMap_cons_none (hg I h)]
    · rw [nonDebug_cons (by simpa using h), List.filterMap_cons, List.filterMap_cons, ih]

theorem filterMap_phiResult_nil {l : List MachineInstr} (h : ∀ I ∈ l, I.isPhi = false) :
    l.filterMap MachineInstr.phiResult = [] := by
  apply List.filterMap_eq_nil_iff.mpr
  intro I hI
  have hphi := h I hI
  cases I with
  | phi d inc => cases hphi
  | _ => rfl

section
variable {MI : ℕ} {s : SelectPseudo} {brCond : BranchOp}
  {pre seq rest debugValues others after : List MachineInstr}
  (e : Expansion F BB MI s brCond pre seq rest debugValues others after)
include e

theorem Expansion.nonSelects_perm :
    (nonSelects ((pre ++ others) ++ (debugValues ++ after))).Perm (nonSelects (F.insts BB)) := by
  have hperm : (others ++ (debugValues ++ after)).Perm (nonSelects seq ++ rest) := by
    refine List.Perm.trans ?_ e.perm
    rw [List.append_assoc]
    exact List.perm_append_comm_assoc _ _ _
  have hinsts : nonSelects (F.insts BB) = nonSelects (pre ++ (nonSelects seq ++ rest)) := by
    simp only [e.insts, nonSelects_append, nonSelects_select, nonSelects_idem]
  rw [hinsts, List.append_assoc]
  exact (hperm.append_left pre).filter _

theorem Expansion.nonSelects_order :
    nonDebug (nonSelects ((pre ++ others) ++ (debugValues ++ after))) =
      nonDebug (nonSelects (F.insts BB)) := by
  have hothers : nonDebug others = nonDebug (nonSelects seq) := e.others_nonDebug
  simp only [nonDebug_nonSelects, nonDebug_append, e.insts, nonSelects_append,
    nonDebug_eq_nil e.debugValues_debug, e.after_nonDebug, hothers, nonSelects_idem,
    List.append_assoc]
  have hnil : nonSelects [] = [] := rfl
  rw [hnil, List.nil_append, ← nonDebug_nonSelects (.select s :: _), nonSelects_select,
    nonDebug_nonSelects, nonDebug_append, nonSelects_append]

variable (hF : F.SSA) (hf : Fresh F BB tailMBB ifFalseMBB)
  (hF' : F' = splitBlock F BB tailMBB ifFalseMBB (headInsts pre others brCond s tailMBB)
    (tailInsts BB ifFalseMBB (s :: seq.filterMap MachineInstr.asSelect) debugValues after))
include hf hF'

theorem Expansion.selects_perm :
    (F'.selects ++ (s :: seq.filterMap MachineInstr.asSelect)).Perm F.selects := by
  have hothers : others.filterMap MachineInstr.asSelect = [] := by
    apply List.filterMap_eq_nil_iff.mpr
    intro I hI
    simpa [MachineInstr.isSelectPseudo] using (e.others_subset I hI).2
  have hafter : after.filterMap MachineInstr.asSelect = rest.filterMap MachineInstr.asSelect := by
    rw [← filterMap_nonDebug (fun I => I.debug_asSelect), e.after_nonDebug,
      filterMap_nonDebug (fun I => I.debug_asSelect)]
  have hphis : ((s :: seq.filterMap MachineInstr.asSelect).map (selectPhi BB ifFalseMBB) ++
      debugValues).filterMap MachineInstr.asSelect = [] :=
    List.filterMap_eq_nil_iff.mpr (e.phis_debugValues_asSelect)
  have h : (F'.layout.flatMap (fun b => (F'.insts b).filterMap MachineInstr.asSelect) ++
      (s :: seq.filterMap MachineInstr.asSelect)).Perm
      (F.layout.flatMap (fun b => (F.insts b).filterMap MachineInstr.asSelect) ++ []) := by
    subst hF'
    refine hf.flatMap_perm (fun b hb hne => ?_) ?_
    · rw [hf.insts_other hb hne, filterMap_updatePhis (by simp)]
    · rw [hf.insts_head, filterMap_updatePhis (by simp), hf.insts_ifFalse, split_insts_tail,
        headInsts, tailInsts, List.filterMap_append, List.filterMap_append, List.filterMap_append,
        hothers, hphis, hafter, e.insts, List.filterMap_append,
        MachineInstr.filterMap_asSelect_cons,
        List.filterMap_append]
      simp only [List.filterMap_cons, MachineInstr.asSelect, List.filterMap_nil, List.append_nil,
        List.nil_append, List.append_assoc]
      exact List.perm_append_comm.append_left _
  rw [List.append_nil] at h
  simpa only [MachineFunction.selects, List.filterMap_flatMap] using h

include hF in
theorem Expansion.phiResults_perm : F'.phiResults.Perm
    (F.phiResults ++ (s :: seq.filterMap MachineInstr.asSelect).map SelectPseudo.dst) := by
  have hmap : ∀ T : List SelectPseudo, (T.map (selectPhi BB ifFalseMBB)).filterMap
      MachineInstr.phiResult = T.map SelectPseudo.dst := by
    intro T
    rw [List.filterMap_map]
    exact congrFun (List.filterMap_eq_map : List.filterMap (some ∘ SelectPseudo.dst) = _) T
  have h : (F'.layout.flatMap (fun b => (F'.insts b).filterMap MachineInstr.phiResult) ++ []).Perm
      (F.layout.flatMap (fun b => (F.insts b).filterMap MachineInstr.phiResult) ++
        (s :: seq.filterMap MachineInstr.asSelect).map SelectPseudo.dst) := by
    subst hF'
    refine hf.flatMap_perm (fun b hb hne => ?_) ?_
    · rw [hf.insts_other hb hne]
      exact filterMap_updatePhis (fun I => by cases I <;> rfl) b _
    · rw [hf.insts_head, filterMap_updatePhis (fun I => by cases I <;> rfl), hf.insts_ifFalse,
        split_insts_tail, headInsts, tailInsts, List.append_assoc pre, List.filterMap_append,
        filterMap_phiResult_nil (e.others_branch_no_phi hF hf.mem tailMBB),
        List.append_assoc (List.map _ _), List.filterMap_append, hmap,
        filterMap_phiResult_nil (e.after_no_phi hF hf.mem), e.insts, List.filterMap_append,
        filterMap_phiResult_nil (e.no_phi hF hf.mem)]
      simp only [List.filterMap_nil, List.append_nil, List.nil_append]
      exact .refl _
  rw [List.append_nil] at h
  simpa only [MachineFunction.phiResults, List.filterMap_flatMap] using h

end

theorem Expansion.phi_values {MI : ℕ} {s : SelectPseudo} {brCond : BranchOp}
    {pre seq rest debugValues others after : List MachineInstr}
    (e : Expansion F BB MI s brCond pre seq rest debugValues others after) (hF : F.SSA)
    (hb : BB ∈ F.layout) : ∀ t ∈ s :: seq.filterMap MachineInstr.asSelect,
      ∀ u ∈ s :: seq.filterMap MachineInstr.asSelect, t.trueV ≠ u.dst ∧ t.falseV ≠ u.dst := by
  intro t ht u hu
  have hdst : ∀ r, F.availableIn BB r ∨ r ∈ defsOf (headInsts pre others brCond s 0) →
      r ≠ u.dst := by
    intro r hr he
    subst he
    have hmem : u.dst ∈ defsOf (tailInsts BB 0 (s :: seq.filterMap MachineInstr.asSelect)
        debugValues after) := by
      rw [e.defsOf_tailInsts]
      exact List.mem_append_left _ (List.mem_map_of_mem hu)
    rcases hr with hr | hr
    · have hall : F.insts BB = [] ++ F.insts BB := rfl
      apply hF.available_not_defined hb hall (Or.inl hr)
      exact (e.defs_perm 0 0).mem_iff.mp (List.mem_append_right _ hmem)
    · have hnd := (e.defs_perm 0 0).nodup_iff.mpr (hF.block_defs_nodup hb)
      exact (List.nodup_append.mp hnd).2.2 _ hr _ hmem rfl
  have hops := e.operands 0 hF hb t ht
  exact ⟨hdst _ (hops _ (by simp)), hdst _ (hops _ (by simp))⟩

theorem emitSelectPseudo_expanded (hF : F.SSA) (hb : BB ∈ F.layout) {MI : ℕ} {s : SelectPseudo}
    (hMI : (F.insts BB)[MI]? = some (.select s)) :
    ∃ F' tailMBB ifFalseMBB brCond merged kept moved,
      emitInstrWithCustomInserter F BB MI = some (F', tailMBB) ∧
      getBrCond s.cc = some brCond ∧
      SelectExpanded F BB s F' tailMBB ifFalseMBB brCond merged kept moved := by
  obtain ⟨brCond, pre, seq, rest, debugValues, others, after, e⟩ := expansion_of_ssa hF hb hMI
  have hf := hF.fresh hb
  refine ⟨splitBlock F BB F.freshBlock (F.freshBlock + 1)
    (headInsts pre others brCond s F.freshBlock) (tailInsts BB (F.freshBlock + 1)
      (s :: seq.filterMap MachineInstr.asSelect) debugValues after), F.freshBlock,
    F.freshBlock + 1, brCond, s :: seq.filterMap MachineInstr.asSelect, pre ++ others,
    debugValues ++ after, ?_, e.cond, ?_⟩
  · rw [emitInstrWithCustomInserter, hMI]
    exact e.emitted
  · exact {
      ssa := e.ssa hF hf rfl
      defs := e.defs_expanded hf rfl
      first := rfl
      head_insts := by
        rw [hf.insts_head]
        exact updatePhis_append BB _ (by simp [MachineInstr.isPhi])
      ifFalse_insts := hf.insts_ifFalse
      tail_insts := by rw [split_insts_tail, tailInsts, List.append_assoc]
      other_insts := fun b hb' hne => hf.insts_other hb' hne
      moved_no_phi := e.after_no_phi hF hb
      tail_preds := hf.edge_tail_iff hF
      preds_ne := hf.ne_ifFalse hb
      phi_values := e.phi_values hF hb
      nonSelects_perm := e.nonSelects_perm
      nonSelects_order := e.nonSelects_order
      selects := e.selects_perm hf rfl
      phis := e.phiResults_perm hF hf rfl }

/-! ### The loop -/

def firstSelect (F : MachineFunction) : Option (MBB × ℕ) :=
  (F.layout.find? fun b => (F.insts b).any MachineInstr.isSelectPseudo).map fun b =>
    (b, (F.insts b).findIdx MachineInstr.isSelectPseudo)

/-- `EmitInstrWithCustomInserter` on the first remaining select, at most `n` times. -/
def expandSelects (n : ℕ) (F : MachineFunction) : Option MachineFunction :=
  match firstSelect F, n with
  | none, _ => some F
  | some _, 0 => none
  | some (BB, MI), n + 1 => (emitInstrWithCustomInserter F BB MI).bind fun r => expandSelects n r.1

theorem firstSelect_none (h : firstSelect F = none) : F.selects = [] := by
  rw [firstSelect, Option.map_eq_none_iff, List.find?_eq_none] at h
  apply List.filterMap_eq_nil_iff.mpr
  intro I hI
  obtain ⟨b, hb, hIb⟩ := List.mem_flatMap.mp hI
  have := h b hb
  rw [List.any_eq_true, not_exists] at this
  simpa [MachineInstr.isSelectPseudo] using fun hs => this I ⟨hIb, hs⟩

theorem firstSelect_some {MI : ℕ} (h : firstSelect F = some (BB, MI)) :
    BB ∈ F.layout ∧ ∃ s, (F.insts BB)[MI]? = some (.select s) := by
  rw [firstSelect, Option.map_eq_some_iff] at h
  obtain ⟨b, hfind, heq⟩ := h
  obtain ⟨rfl, rfl⟩ := Prod.mk.inj heq
  have hany := List.find?_some hfind
  obtain ⟨I, hI, hsel⟩ := List.any_eq_true.mp hany
  have hlt : (F.insts b).findIdx MachineInstr.isSelectPseudo < (F.insts b).length :=
    List.findIdx_lt_length_of_exists ⟨I, hI, hsel⟩
  obtain ⟨s, hs⟩ := Option.isSome_iff_exists.mp (List.findIdx_getElem (w := hlt))
  refine ⟨List.mem_of_find?_eq_some hfind, s, ?_⟩
  rw [List.getElem?_eq_getElem hlt, MachineInstr.asSelect_eq_some.mp hs]

/-- The loop ends within as many rounds as there are selects. -/
theorem expandSelects_spec (n : ℕ) : ∀ F : MachineFunction, F.SSA → F.selects.length ≤ n →
    ∃ F', expandSelects n F = some F' ∧ F'.SSA ∧ F'.selects = [] ∧ F'.defs.Perm F.defs ∧
      F'.phiResults.Perm (F.phiResults ++ F.selects.map SelectPseudo.dst) := by
  induction n with
  | zero =>
    intro F hF hlen
    have hnil : F.selects = [] := List.length_eq_zero_iff.mp (Nat.le_zero.mp hlen)
    refine ⟨F, ?_, hF, hnil, .refl _, by simp [hnil]⟩
    unfold expandSelects
    cases hfirst : firstSelect F with
    | none => rfl
    | some p =>
      obtain ⟨BB, MI⟩ := p
      obtain ⟨hb, s, hs⟩ := firstSelect_some hfirst
      obtain ⟨F', _, _, _, _, _, _, -, -, he⟩ := emitSelectPseudo_expanded hF hb hs
      have := he.fewer
      omega
  | succ n ih =>
    intro F hF hlen
    unfold expandSelects
    cases hfirst : firstSelect F with
    | none =>
      have hnil := firstSelect_none hfirst
      exact ⟨F, rfl, hF, hnil, .refl _, by simp [hnil]⟩
    | some p =>
      obtain ⟨BB, MI⟩ := p
      obtain ⟨hb, s, hs⟩ := firstSelect_some hfirst
      obtain ⟨F1, tailMBB, _, _, merged, _, _, hemit, -, he⟩ := emitSelectPseudo_expanded hF hb hs
      have hfewer := he.fewer
      obtain ⟨F', hrun, hssa, hnil, hdefs, hphis⟩ := ih F1 he.ssa (by omega)
      refine ⟨F', ?_, hssa, hnil, hdefs.trans he.defs, hphis.trans ?_⟩
      · simp only [hemit, Option.bind_some, hrun]
      · have hdst := he.selects.map SelectPseudo.dst
        rw [List.map_append] at hdst
        apply (he.phis.append_right _).trans
        rw [List.append_assoc]
        exact (List.perm_append_comm.trans hdst).append_left _

/-- Each expansion leaves a well-formed function with fewer selects, and the
loop ends in one with none, where a PHI stands for each of the original selects. -/
theorem expandSelects_wellFormed (F : MachineFunction) (hF : F.SSA) :
    (∀ BB ∈ F.layout, ∀ MI s, (F.insts BB)[MI]? = some (.select s) →
      ∃ F' tailMBB ifFalseMBB brCond merged kept moved,
        emitInstrWithCustomInserter F BB MI = some (F', tailMBB) ∧
        getBrCond s.cc = some brCond ∧
        SelectExpanded F BB s F' tailMBB ifFalseMBB brCond merged kept moved ∧
        F'.selects.length < F.selects.length) ∧
    ∃ F', expandSelects F.selects.length F = some F' ∧ F'.SSA ∧ F'.selects = [] ∧
      F'.defs.Perm F.defs ∧
      F'.phiResults.Perm (F.phiResults ++ F.selects.map SelectPseudo.dst) := by
  refine ⟨fun BB hb MI s hMI => ?_, expandSelects_spec _ F hF (Nat.le_refl _)⟩
  obtain ⟨F', tailMBB, ifFalseMBB, brCond, merged, kept, moved, hemit, hcond, he⟩ :=
    emitSelectPseudo_expanded hF hb hMI
  exact ⟨F', tailMBB, ifFalseMBB, brCond, merged, kept, moved, hemit, hcond, he, he.fewer⟩

theorem expandSelects_wellFormed_selectLoop :
    (∀ BB ∈ selectLoop.layout, ∀ MI s, (selectLoop.insts BB)[MI]? = some (.select s) →
      ∃ F' tailMBB ifFalseMBB brCond merged kept moved,
        emitInstrWithCustomInserter selectLoop BB MI = some (F', tailMBB) ∧
        getBrCond s.cc = some brCond ∧
        SelectExpanded selectLoop BB s F' tailMBB ifFalseMBB brCond merged kept moved ∧
        F'.selects.length < selectLoop.selects.length) ∧
    ∃ F', expandSelects selectLoop.selects.length selectLoop = some F' ∧ F'.SSA ∧
      F'.selects = [] ∧ F'.defs.Perm selectLoop.defs ∧
      F'.phiResults.Perm (selectLoop.phiResults ++ selectLoop.selects.map SelectPseudo.dst) :=
  expandSelects_wellFormed selectLoop selectLoop_ssa

end ToyRiscv
