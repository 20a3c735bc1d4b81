import ToyRiscv.SelectDominance

/-!
# Select expansion keeps SSA form

Each clause of `MachineFunction.SSA` for the function that `emitSelectPseudo`
leaves, from the same clauses for the function it starts from.
-/

namespace ToyRiscv

variable {LHS RHS : Register} {CC : CondCode}

/-! ### The merged sequence -/

theorem filter_select_cons (s : SelectPseudo) (l : List MachineInstr) :
    (.select s :: l).filter (fun I => !I.isSelectPseudo) =
      l.filter fun I => !I.isSelectPseudo := by
  rw [List.filter_cons_of_neg (by simp [MachineInstr.isSelectPseudo, MachineInstr.asSelect])]

theorem filter_other_cons {I : MachineInstr} (h : I.asSelect = none) (l : List MachineInstr) :
    (I :: l).filter (fun I => !I.isSelectPseudo) = I :: l.filter fun I => !I.isSelectPseudo := by
  rw [List.filter_cons_of_pos (by simp [MachineInstr.isSelectPseudo, h])]

theorem Mergeable.usesDefined {S : List Register} {l : List MachineInstr}
    (hm : Mergeable LHS RHS CC S l) : ∀ {A A' : Register → Prop}, UsesDefined A l →
      (∀ r, A r → A' r ∨ r ∈ S) → UsesDefined A' (l.filter fun I => !I.isSelectPseudo) := by
  induction hm with
  | nil => exact fun _ _ => trivial
  | @debug S I l hdbg _ ih =>
    intro A A' huse hA
    rw [filter_other_cons (I.debug_asSelect hdbg)]
    refine ⟨by simp [I.debug_orderedUses hdbg], ih huse.2 fun r hr => ?_⟩
    rcases hr with hr | hr
    · exact (hA r hr).imp_left Or.inl
    · rw [I.debug_defs hdbg] at hr
      cases hr
  | select s _ _ _ _ _ _ ih =>
    intro A A' huse hA
    rw [filter_select_cons]
    apply ih huse.2
    intro r hr
    rcases hr with hr | hr
    · exact (hA r hr).imp_right (List.mem_cons_of_mem _)
    · exact Or.inr (List.mem_singleton.mp hr ▸ List.mem_cons_self ..)
  | @other S I l _ hsel _ _ huses _ ih =>
    intro A A' huse hA
    rw [filter_other_cons hsel]
    refine ⟨fun r hr => (hA r (huse.1 r hr)).resolve_right (huses r ?_), ih huse.2 fun r hr => ?_⟩
    · cases I <;> first | exact hr | simp [MachineInstr.orderedUses] at hr
    · rcases hr with hr | hr
      · exact (hA r hr).imp_left Or.inl
      · exact Or.inl (Or.inr hr)

theorem Mergeable.operands {S : List Register} {l : List MachineInstr}
    (hm : Mergeable LHS RHS CC S l) : ∀ {A A' : Register → Prop}, UsesDefined A l →
      (∀ r, A r → A' r ∨ r ∈ S) → ∀ t ∈ l.filterMap MachineInstr.asSelect,
      ∀ r ∈ [t.trueV, t.falseV], A' r ∨ r ∈ defsOf (l.filter fun I => !I.isSelectPseudo) := by
  induction hm with
  | nil => simp
  | @debug S I l hdbg _ ih =>
    intro A A' huse hA t ht r hr
    have hdefs := I.debug_defs hdbg
    rw [List.filterMap_cons_none (I.debug_asSelect hdbg)] at ht
    rw [filter_other_cons (I.debug_asSelect hdbg), defsOf_cons, hdefs]
    exact ih (usesDefined_mono (by simp [hdefs]) l huse.2) hA t ht r hr
  | @select S l s _ _ _ htrue hfalse _ ih =>
    intro A A' huse hA t ht r hr
    rw [filter_select_cons]
    rw [MachineInstr.filterMap_asSelect_cons] at ht
    rcases List.mem_cons.mp ht with rfl | ht
    · have hmem : r ∈ [t.lhs, t.rhs, t.trueV, t.falseV] :=
        List.mem_cons_of_mem _ (List.mem_cons_of_mem _ hr)
      refine Or.inl ((hA r (huse.1 r hmem)).resolve_right ?_)
      rcases List.mem_cons.mp hr with rfl | hr
      · exact htrue
      · exact List.mem_singleton.mp hr ▸ hfalse
    · refine ih huse.2 (fun x hx => ?_) t ht r hr
      rcases hx with hx | hx
      · exact (hA x hx).imp_right (List.mem_cons_of_mem _)
      · exact Or.inr (List.mem_singleton.mp hx ▸ List.mem_cons_self ..)
  | @other S I l _ hsel _ _ _ _ ih =>
    intro A A' huse hA t ht r hr
    rw [List.filterMap_cons_none hsel] at ht
    rw [filter_other_cons hsel, defsOf_cons, List.mem_append]
    have hA2 : ∀ x, A x ∨ x ∈ I.defs → (A' x ∨ x ∈ I.defs) ∨ x ∈ S := by
      rintro x (hx | hx)
      · exact (hA x hx).imp_left Or.inl
      · exact Or.inl (Or.inr hx)
    exact or_assoc.mp (ih huse.2 hA2 t ht r hr)

theorem defsOf_selects_perm (l : List MachineInstr) :
    (defsOf l).Perm ((l.filterMap MachineInstr.asSelect).map SelectPseudo.dst ++
      defsOf (l.filter fun I => !I.isSelectPseudo)) := by
  induction l with
  | nil => exact .refl _
  | cons I l ih =>
    cases hsel : I.asSelect with
    | none =>
      rw [filter_other_cons hsel, List.filterMap_cons_none hsel, defsOf_cons, defsOf_cons]
      exact (ih.append_left _).trans (List.perm_append_comm_assoc _ _ _)
    | some s =>
      obtain rfl := MachineInstr.asSelect_eq_some.mp hsel
      rw [filter_select_cons, List.filterMap_cons_some hsel]
      exact ih.cons _

/-! ### Definitions of the pieces -/

theorem defsOf_selectPhis (BB ifFalseMBB : MBB) (T : List SelectPseudo) :
    defsOf (T.map (selectPhi BB ifFalseMBB)) = T.map SelectPseudo.dst := by
  induction T with
  | nil => rfl
  | cons t T ih => rw [List.map_cons, defsOf_cons, ih]; rfl

variable {F F' : MachineFunction} {BB tailMBB ifFalseMBB : MBB} {MI : ℕ} {s : SelectPseudo}
  {brCond : BranchOp} {pre seq rest debugValues others after : List MachineInstr}

theorem defsOf_headInsts : defsOf (headInsts pre others brCond s tailMBB) =
    defsOf pre ++ defsOf others := by
  rw [headInsts, defsOf_append, defsOf_append]
  exact List.append_nil _

theorem Expansion.defsOf_tailInsts
    (e : Expansion F BB MI s brCond pre seq rest debugValues others after) :
    defsOf (tailInsts BB ifFalseMBB (s :: seq.filterMap MachineInstr.asSelect) debugValues after) =
      (s :: seq.filterMap MachineInstr.asSelect).map SelectPseudo.dst ++ defsOf rest := by
  have hdbg : defsOf debugValues = [] := by
    rw [← defsOf_nonDebug, nonDebug_eq_nil e.debugValues_debug]
    rfl
  rw [tailInsts, defsOf_append, defsOf_append, defsOf_selectPhis, hdbg, List.append_nil,
    defsOf_of_nonDebug_eq e.after_nonDebug]

theorem Expansion.defs_perm
    (e : Expansion F BB MI s brCond pre seq rest debugValues others after)
    (tailMBB ifFalseMBB : MBB) :
    (defsOf (headInsts pre others brCond s tailMBB) ++ defsOf (tailInsts BB ifFalseMBB
      (s :: seq.filterMap MachineInstr.asSelect) debugValues after)).Perm
      (defsOf (F.insts BB)) := by
  have hseq := defsOf_selects_perm (.select s :: seq)
  rw [filter_select_cons, ← defsOf_of_nonDebug_eq e.others_nonDebug,
    MachineInstr.filterMap_asSelect_cons] at hseq
  rw [defsOf_headInsts, e.defsOf_tailInsts, e.insts, ← List.cons_append, defsOf_append,
    defsOf_append, List.append_assoc, ← List.append_assoc (defsOf others)]
  exact ((List.perm_append_comm.trans hseq.symm).append_right _).append_left _

theorem Expansion.defs_mem (e : Expansion F BB MI s brCond pre seq rest debugValues others after)
    (r : Register) (hr : r ∈ defsOf (F.insts BB)) :
    r ∈ defsOf (headInsts pre others brCond s tailMBB) ∨ r ∈ defsOf (tailInsts BB ifFalseMBB
      (s :: seq.filterMap MachineInstr.asSelect) debugValues after) :=
  List.mem_append.mp ((e.defs_perm tailMBB ifFalseMBB).symm.mem_iff.mp hr)

theorem Expansion.operands (e : Expansion F BB MI s brCond pre seq rest debugValues others after)
    (tailMBB : MBB) (hF : F.SSA) (hb : BB ∈ F.layout) :
    ∀ t ∈ s :: seq.filterMap MachineInstr.asSelect, ∀ r ∈ [t.trueV, t.falseV],
      F.availableIn BB r ∨ r ∈ defsOf (headInsts pre others brCond s tailMBB) := by
  have hinsts : F.insts BB = pre ++ (.select s :: seq ++ rest) := e.insts
  have huse := (usesDefined_append _ _).mp (hF.usesDefined_suffix hb hinsts)
  intro t ht r hr
  have h := e.mergeable_all.operands huse.1 (fun r hr => Or.inl hr) t ht r hr
  rw [filter_select_cons, ← defsOf_of_nonDebug_eq e.others_nonDebug] at h
  rw [defsOf_headInsts, List.mem_append]
  exact or_assoc.mp h

/-! ### Definitions and uses -/

section
variable (e : Expansion F BB MI s brCond pre seq rest debugValues others after)
  (hF : F.SSA) (hf : Fresh F BB tailMBB ifFalseMBB)
  (hF' : F' = splitBlock F BB tailMBB ifFalseMBB (headInsts pre others brCond s tailMBB)
    (tailInsts BB ifFalseMBB (s :: seq.filterMap MachineInstr.asSelect) debugValues after))
include e hF hf hF'

omit hF in
theorem Expansion.defs_expanded : F'.defs.Perm F.defs := by
  have h : (F'.layout.flatMap (fun b => defsOf (F'.insts b)) ++ []).Perm
      (F.layout.flatMap (fun b => defsOf (F.insts b)) ++ []) := by
    subst hF'
    refine hf.flatMap_perm (fun b hb hne => hf.defs_old hb hne) ?_
    rw [hf.defs_head, hf.insts_ifFalse, split_insts_tail, List.append_nil, List.append_nil]
    exact e.defs_perm tailMBB ifFalseMBB
  rwa [List.append_nil, List.append_nil] at h

theorem Expansion.uses_head : UsesDefined (F'.availableIn BB) (F'.insts BB) := by
  have huse := hF.uses_dominated BB hf.mem
  have hinsts : F.insts BB = pre ++ (.select s :: seq ++ rest) := e.insts
  have hpart : ∀ r, F.availableIn BB r → F'.availableIn BB r := fun r hr => by
    subst hF'
    exact hf.availableIn_part hF (hf.sourceBlock_old hf.mem) hr
  rw [hinsts, usesDefined_append, usesDefined_append] at huse
  have hins : F'.insts BB =
      updatePhis F BB tailMBB BB (headInsts pre others brCond s tailMBB) := by
    subst hF'
    exact hf.insts_head
  rw [hins, usesDefined_updatePhis, headInsts, usesDefined_append, usesDefined_append]
  have hmono : ∀ r, availableAt F BB pre r → F'.availableIn BB r ∨ r ∈ defsOf pre :=
    fun r => Or.imp_left (hpart r)
  refine ⟨⟨usesDefined_mono hpart pre huse.1, ?_⟩, fun r hr => ?_, trivial⟩
  · rw [usesDefined_of_nonDebug_eq e.others_nonDebug, ← filter_select_cons s seq]
    exact e.mergeable_all.usesDefined huse.2.1 fun r hr => Or.inl (hmono r hr)
  · have hops := hF.select_operands hf.mem e.insts
    have hr' : r ∈ [s.lhs, s.rhs, s.trueV, s.falseV] := by
      have : r = s.lhs ∨ r = s.rhs := by
        simpa [MachineInstr.orderedUses, MachineInstr.uses] using hr
      rcases this with rfl | rfl <;> simp
    rcases hmono r (hops r hr').1 with h | h
    · exact Or.inl h
    · exact Or.inr (by rw [defsOf_append]; exact List.mem_append_left _ h)

theorem Expansion.uses_tail : UsesDefined (F'.availableIn tailMBB) (F'.insts tailMBB) := by
  have hinsts : F.insts BB = (pre ++ .select s :: seq) ++ rest := by rw [e.insts]; simp
  have huse := hF.usesDefined_suffix hf.mem hinsts
  have hins : F'.insts tailMBB = tailInsts BB ifFalseMBB
      (s :: seq.filterMap MachineInstr.asSelect) debugValues after := by
    subst hF'
    exact split_insts_tail
  have hphis : ∀ (A : Register → Prop) (T : List SelectPseudo),
      UsesDefined A (T.map (selectPhi BB ifFalseMBB)) := by
    intro A T
    induction T generalizing A with
    | nil => trivial
    | cons t T ih => exact ⟨by simp [selectPhi, MachineInstr.orderedUses], ih _⟩
  have hdbg : nonDebug (debugValues ++ after) = nonDebug rest := by
    rw [nonDebug_append, nonDebug_eq_nil e.debugValues_debug, e.after_nonDebug, List.nil_append]
  rw [hins, tailInsts, List.append_assoc, usesDefined_append, defsOf_selectPhis,
    usesDefined_of_nonDebug_eq hdbg]
  refine ⟨hphis _ _, usesDefined_mono (fun r hr => ?_) rest huse⟩
  rcases hr with hr | hr
  · left
    subst hF'
    exact hf.availableIn_part hF (by simp [sourceBlock]) hr
  · rw [defsOf_append, List.mem_append, (defsOf_selects_perm (.select s :: seq)).mem_iff,
      filter_select_cons, ← defsOf_of_nonDebug_eq e.others_nonDebug, List.mem_append] at hr
    have hhead : r ∈ defsOf (headInsts pre others brCond s tailMBB) →
        F'.availableIn tailMBB r := fun h => by
      subst hF'
      exact hf.head_availableIn_tail hF h
    rw [defsOf_headInsts, List.mem_append] at hhead
    rcases hr with hr | hr | hr
    · exact Or.inl (hhead (Or.inl hr))
    · exact Or.inr hr
    · exact Or.inl (hhead (Or.inr hr))

theorem Expansion.uses_dominated (b : MBB) (hb : b ∈ F'.layout) :
    UsesDefined (F'.availableIn b) (F'.insts b) := by
  rcases hf.layout_cases hF' hb with hold | rfl | rfl
  · by_cases hne : b = BB
    · subst hne
      exact e.uses_head hF hf hF'
    · subst hF'
      rw [hf.insts_other hold hne, usesDefined_updatePhis]
      exact usesDefined_mono (fun r => hf.availableIn_other hF e.defs_mem hold hne) _
        (hF.uses_dominated b hold)
  · subst hF'
    rw [hf.insts_ifFalse]
    trivial
  · exact e.uses_tail hF hf hF'

/-! ### PHIs -/

/-- A PHI of an old block is one of `F` with its sources renamed. -/
theorem Expansion.phi_old {b : MBB} (hb : b ∈ F.layout) {d : Register}
    {inc : List (Register × MBB)} (hphi : .phi d inc ∈ F'.insts b) :
    ∃ inc', .phi d inc' ∈ F.insts b ∧
      inc = inc'.map fun rp => (rp.1, exitBlock BB tailMBB rp.2) := by
  have hup : .phi d inc ∈ updatePhis F BB tailMBB b (F.insts b) := by
    subst hF'
    by_cases hne : b = BB
    · subst hne
      have hno := e.others_branch_no_phi hF hb tailMBB
      rw [hf.insts_head, headInsts, List.append_assoc, updatePhis_append b pre hno,
        List.mem_append] at hphi
      rw [e.insts, updatePhis_append b pre (e.no_phi hF hb)]
      refine List.mem_append_left _ (hphi.resolve_right fun h => ?_)
      have := hno _ h
      simp [MachineInstr.isPhi] at this
    · rwa [hf.insts_other hb hne] at hphi
  unfold updatePhis at hup
  split at hup
  · obtain ⟨I, hI, hIe⟩ := List.mem_map.mp hup
    cases I with
    | phi d' inc' =>
      simp only [replacePhiUsesWith, MachineInstr.phi.injEq] at hIe
      obtain ⟨rfl, rfl⟩ := hIe
      exact ⟨inc', hI, rfl⟩
    | _ => simp [replacePhiUsesWith] at hIe
  · rename_i hsucc
    refine ⟨inc, hup, ?_⟩
    -- `BB` is no predecessor, so none of the sources is `BB`
    have hsame : ∀ rp ∈ inc, (rp.1, exitBlock BB tailMBB rp.2) = rp := fun rp hrp => by
      have hedge := ((hF.phi_incoming b hb d inc hup).2 rp.2).mp (List.mem_map_of_mem hrp)
      have hne : rp.2 ≠ BB := fun h => hsucc (h ▸ hedge.2)
      rw [exitBlock, if_neg hne]
    calc inc = inc.map id := (List.map_id inc).symm
      _ = inc.map fun rp => (rp.1, exitBlock BB tailMBB rp.2) :=
        List.map_congr_left fun rp hrp => (hsame rp hrp).symm

theorem Expansion.phi_tail {d : Register} {inc : List (Register × MBB)}
    (hphi : .phi d inc ∈ F'.insts tailMBB) :
    ∃ t ∈ s :: seq.filterMap MachineInstr.asSelect,
      inc = [(t.trueV, BB), (t.falseV, ifFalseMBB)] := by
  subst hF'
  rw [split_insts_tail, tailInsts, List.append_assoc] at hphi
  rcases List.mem_append.mp hphi with h | h
  · obtain ⟨t, ht, hte⟩ := List.mem_map.mp h
    simp only [selectPhi, MachineInstr.phi.injEq] at hte
    exact ⟨t, ht, hte.2.symm⟩
  · have := e.after_no_phi hF hf.mem _ h
    simp [MachineInstr.isPhi] at this

theorem Expansion.phi_dominated (b : MBB) (hb : b ∈ F'.layout) (d : Register)
    (inc : List (Register × MBB)) (hphi : .phi d inc ∈ F'.insts b) :
    ∀ rp ∈ inc, F'.availableOut rp.2 rp.1 := by
  rcases hf.layout_cases hF' hb with hold | rfl | rfl
  · obtain ⟨inc', hphi', rfl⟩ := e.phi_old hF hf hF' hold hphi
    intro rp hrp
    obtain ⟨rp', hrp', rfl⟩ := List.mem_map.mp hrp
    have hedge := ((hF.phi_incoming b hold d inc' hphi').2 rp'.2).mp (List.mem_map_of_mem hrp')
    subst hF'
    exact hf.availableOut_exit hF e.defs_mem hedge.1 (hF.phi_dominated b hold d inc' hphi' rp' hrp')
  · subst hF'
    rw [hf.insts_ifFalse] at hphi
    cases hphi
  · obtain ⟨t, ht, rfl⟩ := e.phi_tail hF hf hF' hphi
    have hops : ∀ r ∈ [t.trueV, t.falseV], F.availableIn BB r ∨
        r ∈ defsOf (headInsts pre others brCond s b) := e.operands b hF hf.mem t ht
    -- both values are there at the end of HeadMBB and so of IfFalseMBB
    have hpart : ∀ r u, u = BB ∨ u = ifFalseMBB → F.availableIn BB r ∨
        r ∈ defsOf (headInsts pre others brCond s b) → F'.availableOut u r := by
      rintro r u hu (h | h)
      · obtain ⟨d, hd, hne, hr, hdom⟩ := h
        subst hF'
        refine ⟨d, (hf.mem_layout d).mpr (Or.inl hd), by rwa [hf.defs_old hd hne],
          hf.dominates_old hF hne ?_⟩
        rcases hu with rfl | rfl
        · rwa [hf.sourceBlock_old hf.mem]
        · simpa [sourceBlock] using hdom
      · subst hF'
        refine ⟨BB, (hf.mem_layout BB).mpr (Or.inl hf.mem), by rwa [hf.defs_head], ?_⟩
        rcases hu with rfl | rfl
        · exact Lib.Dominance.dominates_self _ _ _
        · exact hf.head_dominates_ifFalse hF
    simp only [List.forall_mem_cons, List.not_mem_nil, false_implies, implies_true, and_true]
    exact ⟨hpart _ BB (Or.inl rfl) (hops _ (by simp)),
      hpart _ ifFalseMBB (Or.inr rfl) (hops _ (by simp))⟩

theorem Expansion.phi_incoming (b : MBB) (hb : b ∈ F'.layout) (d : Register)
    (inc : List (Register × MBB)) (hphi : .phi d inc ∈ F'.insts b) :
    (inc.map Prod.snd).Nodup ∧ ∀ p, p ∈ inc.map Prod.snd ↔ F'.edge p b := by
  rcases hf.layout_cases hF' hb with hold | rfl | rfl
  · obtain ⟨inc', hphi', rfl⟩ := e.phi_old hF hf hF' hold hphi
    obtain ⟨hnd, hsrc⟩ := hF.phi_incoming b hold d inc' hphi'
    have hmap : (inc'.map fun rp => (rp.1, exitBlock BB tailMBB rp.2)).map Prod.snd =
        (inc'.map Prod.snd).map (exitBlock BB tailMBB) := by
      rw [List.map_map, List.map_map]
      rfl
    rw [hmap]
    refine ⟨hnd.map_on fun p hp q hq he => ?_, fun p => ?_⟩
    · exact (exitBlock_inj BB (hf.ne_tail ((hsrc p).mp hp).1) (hf.ne_tail ((hsrc q).mp hq).1)).mp he
    · subst hF'
      rw [hf.edge_old_iff hold, List.mem_map]
      constructor
      · rintro ⟨q, hq, rfl⟩
        exact ⟨q, (hsrc q).mp hq, rfl⟩
      · rintro ⟨q, hq, rfl⟩
        exact ⟨q, (hsrc q).mpr hq, rfl⟩
  · subst hF'
    rw [hf.insts_ifFalse] at hphi
    cases hphi
  · obtain ⟨t, -, rfl⟩ := e.phi_tail hF hf hF' hphi
    subst hF'
    refine ⟨?_, fun p => ?_⟩
    · simpa using hf.ne_ifFalse hf.mem
    · rw [hf.edge_tail_iff hF]
      simp

/-! ### Block structure -/

theorem Expansion.phis_first : ∀ b ∈ F'.layout,
    (F'.insts b).Pairwise fun I J => J.isPhi = true → I.isPhi = true := by
  -- behind the PHIs of a list anything without PHIs may follow
  have happ : ∀ l m : List MachineInstr,
      (l.Pairwise fun I J => J.isPhi = true → I.isPhi = true) → (∀ I ∈ m, I.isPhi = false) →
      (l ++ m).Pairwise fun I J => J.isPhi = true → I.isPhi = true := by
    intro l m hl hm
    have hno : ∀ J ∈ m, ∀ I : MachineInstr, J.isPhi = true → I.isPhi = true := by
      intro J hJ I hphi
      rw [hm J hJ] at hphi
      cases hphi
    exact List.pairwise_append.mpr ⟨hl, List.pairwise_of_forall_mem_list fun I _ J hJ => hno J hJ I,
      fun I _ J hJ => hno J hJ I⟩
  subst hF'
  refine hf.forall_insts (fun b hb hne => ?_) ?_ .nil ?_
  · rw [pairwise_updatePhis (by simp)]
    exact hF.phis_first b hb
  · rw [pairwise_updatePhis (by simp), headInsts, List.append_assoc]
    refine happ _ _ ?_ (e.others_branch_no_phi hF hf.mem tailMBB)
    have := hF.phis_first BB hf.mem
    rw [e.insts] at this
    exact (List.pairwise_append.mp this).1
  · rw [tailInsts, List.append_assoc]
    refine happ _ _ ?_ (e.after_no_phi hF hf.mem)
    rw [List.pairwise_map]
    exact List.pairwise_of_forall fun _ _ _ => rfl

theorem Expansion.terminators_last : ∀ b ∈ F'.layout,
    (F'.insts b).Pairwise fun I J => I.isTerminator = true → J.isTerminator = true := by
  -- in front of the terminators of a list anything else may stand
  have happ : ∀ l m : List MachineInstr, (∀ I ∈ l, I.isTerminator = false) →
      (m.Pairwise fun I J => I.isTerminator = true → J.isTerminator = true) →
      (l ++ m).Pairwise fun I J => I.isTerminator = true → J.isTerminator = true := by
    intro l m hl hm
    have hno : ∀ I ∈ l, ∀ J : MachineInstr, I.isTerminator = true → J.isTerminator = true := by
      intro I hI J hterm
      rw [hl I hI] at hterm
      cases hterm
    exact List.pairwise_append.mpr ⟨List.pairwise_of_forall_mem_list fun I hI J _ => hno I hI J, hm,
      fun I hI J _ => hno I hI J⟩
  subst hF'
  refine hf.forall_insts (fun b hb hne => ?_) ?_ .nil ?_
  · rw [pairwise_updatePhis (by simp)]
    exact hF.terminators_last b hb
  · rw [pairwise_updatePhis (by simp), headInsts]
    exact happ _ _ (e.head_no_terminator hF hf.mem) (List.pairwise_singleton _ _)
  · rw [tailInsts]
    apply happ _ _ e.phis_debugValues_no_terminator
    have := hF.terminators_last BB hf.mem
    rw [e.insts, ← List.cons_append, List.pairwise_append, List.pairwise_append] at this
    exact this.2.1.2.1.sublist e.after_sublist

omit e in
theorem Expansion.succs_in : ∀ b ∈ F'.layout, ∀ c ∈ F'.succs b, c ∈ F'.layout := by
  intro b hb c hc
  have hedge : F'.edge b c := ⟨hb, hc⟩
  subst hF'
  rw [hf.mem_layout]
  rcases (hf.edge_iff b c).mp hedge with ⟨-, h⟩ | ⟨-, h⟩ | ⟨-, h⟩ | ⟨-, h⟩
  · exact Or.inl (hF.edge_mem h)
  · exact Or.inr h
  · exact Or.inr (Or.inr h)
  · exact Or.inl (hF.edge_mem h)

theorem Expansion.targets_in : ∀ b ∈ F'.layout, ∀ I ∈ F'.insts b, ∀ t ∈ I.targets,
    t ∈ F'.succs b := by
  subst hF'
  refine hf.forall_insts (P := fun b l => ∀ I ∈ l, ∀ t ∈ I.targets, t ∈ (splitBlock F BB tailMBB
    ifFalseMBB _ _).succs b) (fun b hb hne => ?_) ?_ (by simp) fun I hI => ?_
  · rw [forall_updatePhis (by simp), hf.succs_other hb hne]
    exact hF.targets_in b hb
  · rw [forall_updatePhis (by simp), hf.succs_head]
    intro I hI t ht
    rcases List.mem_append.mp hI with hI | hI
    · rw [I.targets_eq_nil (e.head_no_terminator hF hf.mem I hI)] at ht
      cases ht
    · rw [List.mem_singleton.mp hI] at ht
      simp [List.mem_singleton.mp ht]
  · rw [split_succs_tail]
    rcases List.mem_append.mp hI with hI | hI
    · rw [I.targets_eq_nil (e.phis_debugValues_no_terminator I hI)]
      simp
    · exact hF.targets_in BB hf.mem I (e.after_mem hI)

theorem Expansion.falls_through : ∀ b ∈ F'.layout, (∀ I ∈ F'.insts b, I.isBarrier = false) →
    ∀ n, F'.nextBlock b = some n → n ∈ F'.succs b := by
  subst hF'
  refine hf.forall_insts (P := fun b l => (∀ I ∈ l, I.isBarrier = false) → ∀ n, (splitBlock F BB
    tailMBB ifFalseMBB _ _).nextBlock b = some n → n ∈ (splitBlock F BB tailMBB ifFalseMBB _
    _).succs b) (fun b hb hne hbar n hn => ?_) (fun _ n hn => ?_) (fun _ n hn => ?_)
    fun hbar n hn => ?_
  · rw [hf.next_other hb hne] at hn
    rw [hf.succs_other hb hne]
    exact hF.falls_through b hb ((forall_updatePhis (by simp) b _).mp hbar) n hn
  · rw [hf.next_head, Option.some.injEq] at hn
    rw [hf.succs_head, ← hn]
    exact List.mem_cons_self ..
  · rw [hf.next_ifFalse, Option.some.injEq] at hn
    rw [hf.succs_ifFalse, hn]
    exact List.mem_singleton_self _
  · rw [hf.next_tail] at hn
    rw [split_succs_tail]
    refine hF.falls_through BB hf.mem (fun I hI => ?_) n hn
    rw [e.insts, ← List.cons_append, ← List.append_assoc] at hI
    rcases List.mem_append.mp hI with hI | hI
    · exact I.not_barrier (e.no_terminator hF hf.mem I hI)
    · -- a barrier is no debug instruction, so it was not taken out of `rest`
      by_cases hdbg : I.isDebugInstr = true
      · obtain ⟨v, rs, rfl⟩ := I.eq_debug hdbg
        rfl
      · have hI' : I ∈ nonDebug after := by
          rw [e.after_nonDebug]
          exact List.mem_filter.mpr ⟨hI, by simpa using hdbg⟩
        exact hbar I (List.mem_append_right _ (List.mem_filter.mp hI').1)

theorem Expansion.select_cc : ∀ b ∈ F'.layout, ∀ t, .select t ∈ F'.insts b →
    t.cc ≠ .condInvalid := by
  have hall : ∀ b ∈ F'.layout, ∀ I ∈ F'.insts b, ∀ t, I.asSelect = some t →
      t.cc ≠ .condInvalid := by
    have hsrc : ∀ b ∈ F.layout, ∀ I ∈ F.insts b, ∀ t, I.asSelect = some t →
        t.cc ≠ .condInvalid := fun b hb I hI t ht =>
      hF.select_cc b hb t (MachineInstr.asSelect_eq_some.mp ht ▸ hI)
    subst hF'
    refine hf.forall_insts (P := fun _ l => ∀ I ∈ l, ∀ t, I.asSelect = some t →
      t.cc ≠ .condInvalid) (fun b hb hne => ?_) ?_ (by simp) fun I hI => ?_
    · rw [forall_updatePhis (by simp)]
      exact hsrc b hb
    · rw [forall_updatePhis (by simp)]
      intro I hI
      rcases List.mem_append.mp hI with hI | hI
      · exact hsrc BB hf.mem I (e.head_mem hI)
      · rw [List.mem_singleton.mp hI]
        simp [MachineInstr.asSelect]
    · rcases List.mem_append.mp hI with hI | hI
      · rw [e.phis_debugValues_asSelect I hI]
        simp
      · exact hsrc BB hf.mem I (e.after_mem hI)
  exact fun b hb t ht => hall b hb _ ht t rfl

theorem Expansion.ssa : F'.SSA where
  layout_ne := by
    subst hF'
    exact List.ne_nil_of_mem ((hf.mem_layout BB).mpr (Or.inl hf.mem))
  layout_nodup := by
    subst hF'
    exact hf.layout_nodup
  defs_nodup := (e.defs_expanded hf hF').nodup_iff.mpr hF.defs_nodup
  uses_dominated := e.uses_dominated hF hf hF'
  phi_dominated := e.phi_dominated hF hf hF'
  phi_incoming := e.phi_incoming hF hf hF'
  phis_first := e.phis_first hF hf hF'
  terminators_last := e.terminators_last hF hf hF'
  succs_in := Expansion.succs_in hF hf hF'
  targets_in := e.targets_in hF hf hF'
  falls_through := e.falls_through hF hf hF'
  select_cc := e.select_cc hF hf hF'

end

end ToyRiscv
