import ToyRiscv.SelectSplit

/-!
# A block in SSA form around a select

What SSA form says of the pieces into which `Expansion` takes a block apart.
-/

namespace ToyRiscv

variable {F : MachineFunction} {BB : MBB}

/-! ### Blocks and definitions -/

theorem MachineFunction.SSA.entry_mem (hF : F.SSA) : F.entry ∈ F.layout := by
  obtain ⟨a, l, hl⟩ := List.exists_cons_of_ne_nil hF.layout_ne
  simp [MachineFunction.entry, hl]

theorem MachineFunction.SSA.edge_mem (hF : F.SSA) {a b : MBB} (h : F.edge a b) : b ∈ F.layout :=
  hF.succs_in a h.1 b h.2

theorem MachineFunction.SSA.block_defs_nodup (hF : F.SSA) {b : MBB} (hb : b ∈ F.layout) :
    (defsOf (F.insts b)).Nodup :=
  (List.nodup_flatMap.mp hF.defs_nodup).1 b hb

theorem MachineFunction.SSA.def_block (hF : F.SSA) {b c : MBB} (hb : b ∈ F.layout)
    (hc : c ∈ F.layout) {r : Register} (hrb : r ∈ defsOf (F.insts b))
    (hrc : r ∈ defsOf (F.insts c)) : b = c := by
  by_contra hne
  have hpw := (List.nodup_flatMap.mp hF.defs_nodup).2.imp_of_mem (S := fun a c =>
    List.Disjoint (defsOf (F.insts a)) (defsOf (F.insts c))) fun _ _ h => h
  have : Std.Symm fun a c => List.Disjoint (defsOf (F.insts a)) (defsOf (F.insts c)) :=
    ⟨fun _ _ h => h.symm⟩
  exact hpw.forall hb hc hne hrb hrc

/-- Registers available behind the instructions `pre` of a block. -/
def availableAt (F : MachineFunction) (b : MBB) (pre : List MachineInstr) (r : Register) : Prop :=
  F.availableIn b r ∨ r ∈ defsOf pre

theorem MachineFunction.SSA.usesDefined_suffix (hF : F.SSA) {b : MBB} (hb : b ∈ F.layout)
    {pre post : List MachineInstr} (h : F.insts b = pre ++ post) :
    UsesDefined (availableAt F b pre) post := by
  have huse := hF.uses_dominated b hb
  rw [h, usesDefined_append] at huse
  exact huse.2

theorem MachineFunction.SSA.available_not_defined (hF : F.SSA) {b : MBB} (hb : b ∈ F.layout)
    {pre post : List MachineInstr} (h : F.insts b = pre ++ post) {r : Register}
    (hr : availableAt F b pre r) : r ∉ defsOf post := by
  intro hpost
  have hnd := hF.block_defs_nodup hb
  rw [h, defsOf_append, List.nodup_append] at hnd
  rcases hr with ⟨d, hd, hne, hdef, -⟩ | hpre
  · refine hne (hF.def_block hd hb hdef ?_)
    rw [h, defsOf_append]
    exact List.mem_append_right _ hpost
  · exact hnd.2.2 r hpre r hpost rfl

theorem MachineFunction.SSA.select_operands (hF : F.SSA) {b : MBB} (hb : b ∈ F.layout)
    {pre post : List MachineInstr} {s : SelectPseudo} (h : F.insts b = pre ++ .select s :: post) :
    ∀ r ∈ [s.lhs, s.rhs, s.trueV, s.falseV], availableAt F b pre r ∧ r ≠ s.dst := by
  intro r hr
  have hav := (hF.usesDefined_suffix hb h).1 r hr
  refine ⟨hav, fun he => hF.available_not_defined hb h hav ?_⟩
  rw [he, defsOf_cons]
  exact List.mem_append_left _ (List.mem_singleton_self _)

/-! ### Block structure -/

theorem MachineFunction.SSA.no_phi_behind (hF : F.SSA) {b : MBB} (hb : b ∈ F.layout)
    {pre post : List MachineInstr} {I : MachineInstr} (h : F.insts b = pre ++ I :: post)
    (hI : I.isPhi = false) : ∀ J ∈ post, J.isPhi = false := by
  intro J hJ
  have hpw := hF.phis_first b hb
  rw [h, List.pairwise_append] at hpw
  by_contra hphi
  have := (List.pairwise_cons.mp hpw.2.1).1 J hJ (by simpa using hphi)
  rw [hI] at this
  cases this

theorem MachineFunction.SSA.no_terminator_before (hF : F.SSA) {b : MBB} (hb : b ∈ F.layout)
    {pre post : List MachineInstr} {I : MachineInstr} (h : F.insts b = pre ++ I :: post)
    (hI : I.isTerminator = false) : ∀ J ∈ pre, J.isTerminator = false := by
  intro J hJ
  have hpw := hF.terminators_last b hb
  rw [h, List.pairwise_append] at hpw
  by_contra hterm
  have := hpw.2.2 J hJ I (List.mem_cons_self ..) (by simpa using hterm)
  rw [hI] at this
  cases this

theorem MachineFunction.SSA.no_phi_dropWhile (hF : F.SSA) {b : MBB} (hb : b ∈ F.layout) :
    ∀ I ∈ (F.insts b).dropWhile MachineInstr.isPhi, I.isPhi = false := by
  have hsplit := List.takeWhile_append_dropWhile (p := MachineInstr.isPhi) (l := F.insts b)
  cases hd : (F.insts b).dropWhile MachineInstr.isPhi with
  | nil => simp
  | cons I l =>
    have hI : I.isPhi = false := by
      have := List.head?_dropWhile_not MachineInstr.isPhi (F.insts b)
      simpa [hd] using this
    rw [hd] at hsplit
    intro J hJ
    rcases List.mem_cons.mp hJ with rfl | hJ
    · exact hI
    · exact hF.no_phi_behind hb hsplit.symm hI J hJ

/-! ### The pieces of an expansion -/

section
variable {MI : ℕ} {s : SelectPseudo} {brCond : BranchOp}
  {pre seq rest debugValues others after : List MachineInstr}

theorem MachineFunction.SSA.fresh (hF : F.SSA) (hb : BB ∈ F.layout) :
    Fresh F BB F.freshBlock (F.freshBlock + 1) :=
  fresh_freshBlock F BB hb hF.layout_nodup

theorem expansion_of_ssa (hF : F.SSA) (hb : BB ∈ F.layout)
    (hMI : (F.insts BB)[MI]? = some (.select s)) :
    ∃ brCond pre seq rest debugValues others after,
      Expansion F BB MI s brCond pre seq rest debugValues others after := by
  obtain ⟨l, hsplit, -⟩ := Lib.Positions.exists_split hMI
  have hops := hF.select_operands hb hsplit
  exact expansion_exists F BB MI s hMI (hF.select_cc BB hb s (List.mem_of_getElem? hMI))
    (hops _ (by simp)).2 (hops _ (by simp)).2

def headInsts (pre others : List MachineInstr) (brCond : BranchOp) (s : SelectPseudo)
    (tailMBB : MBB) : List MachineInstr :=
  pre ++ others ++ [.branch brCond s.lhs s.rhs tailMBB]

def tailInsts (BB ifFalseMBB : MBB) (selects : List SelectPseudo)
    (debugValues after : List MachineInstr) : List MachineInstr :=
  selects.map (selectPhi BB ifFalseMBB) ++ debugValues ++ after

theorem Expansion.no_phi (e : Expansion F BB MI s brCond pre seq rest debugValues others after)
    (hF : F.SSA) (hb : BB ∈ F.layout) : ∀ I ∈ .select s :: (seq ++ rest), I.isPhi = false := by
  intro I hI
  rcases List.mem_cons.mp hI with rfl | hI
  · rfl
  · exact hF.no_phi_behind hb e.insts rfl I hI

/-- No terminator stands before the end of the sequence, which is a select. -/
theorem Expansion.no_terminator
    (e : Expansion F BB MI s brCond pre seq rest debugValues others after)
    (hF : F.SSA) (hb : BB ∈ F.layout) :
    ∀ I ∈ pre ++ .select s :: seq, I.isTerminator = false := by
  rcases e.last with rfl | ⟨init, t, rfl⟩
  · intro I hI
    rcases List.mem_append.mp hI with hI | hI
    · exact hF.no_terminator_before hb e.insts rfl I hI
    · rw [List.mem_singleton.mp hI]
      rfl
  · have hinsts : F.insts BB = (pre ++ .select s :: init) ++ .select t :: rest := by
      simpa using e.insts
    intro I hI
    rw [← List.cons_append, ← List.append_assoc] at hI
    rcases List.mem_append.mp hI with hI | hI
    · exact hF.no_terminator_before hb hinsts rfl I hI
    · rw [List.mem_singleton.mp hI]
      rfl

theorem Expansion.after_no_phi
    (e : Expansion F BB MI s brCond pre seq rest debugValues others after)
    (hF : F.SSA) (hb : BB ∈ F.layout) : ∀ I ∈ debugValues ++ after, I.isPhi = false := by
  intro I hI
  rcases List.mem_append.mp hI with hI | hI
  · obtain ⟨v, rs, rfl⟩ := I.eq_debug (e.debugValues_debug I hI)
    rfl
  · refine e.no_phi hF hb I (List.mem_cons_of_mem _ (List.mem_append_right _ ?_))
    exact e.after_sublist.mem hI

theorem Expansion.others_subset
    (e : Expansion F BB MI s brCond pre seq rest debugValues others after) :
    ∀ I ∈ others, I ∈ seq ∧ I.isSelectPseudo = false := by
  intro I hI
  have := List.mem_filter.mp (e.others_sublist.mem hI)
  exact ⟨this.1, by simpa using this.2⟩

theorem Expansion.others_branch_no_phi
    (e : Expansion F BB MI s brCond pre seq rest debugValues others after)
    (hF : F.SSA) (hb : BB ∈ F.layout) (tailMBB : MBB) :
    ∀ I ∈ others ++ [.branch brCond s.lhs s.rhs tailMBB], I.isPhi = false := by
  intro I hI
  rcases List.mem_append.mp hI with hI | hI
  · exact e.no_phi hF hb I
      (List.mem_cons_of_mem _ (List.mem_append_left _ (e.others_subset I hI).1))
  · rw [List.mem_singleton.mp hI]
    rfl

theorem Expansion.head_mem
    (e : Expansion F BB MI s brCond pre seq rest debugValues others after) {I : MachineInstr}
    (hI : I ∈ pre ++ others) : I ∈ F.insts BB := by
  rw [e.insts]
  rcases List.mem_append.mp hI with hI | hI
  · exact List.mem_append_left _ hI
  · exact List.mem_append_right _
      (List.mem_cons_of_mem _ (List.mem_append_left _ (e.others_subset I hI).1))

theorem Expansion.after_mem
    (e : Expansion F BB MI s brCond pre seq rest debugValues others after) {I : MachineInstr}
    (hI : I ∈ after) : I ∈ F.insts BB := by
  rw [e.insts]
  exact List.mem_append_right _
    (List.mem_cons_of_mem _ (List.mem_append_right _ (e.after_sublist.mem hI)))

theorem Expansion.head_no_terminator
    (e : Expansion F BB MI s brCond pre seq rest debugValues others after)
    (hF : F.SSA) (hb : BB ∈ F.layout) : ∀ I ∈ pre ++ others, I.isTerminator = false := by
  intro I hI
  apply e.no_terminator hF hb I
  rcases List.mem_append.mp hI with hI | hI
  · exact List.mem_append_left _ hI
  · exact List.mem_append_right _ (List.mem_cons_of_mem _ (e.others_subset I hI).1)

theorem Expansion.phis_debugValues
    (e : Expansion F BB MI s brCond pre seq rest debugValues others after) {ifFalseMBB : MBB}
    {T : List SelectPseudo} : ∀ I ∈ T.map (selectPhi BB ifFalseMBB) ++ debugValues,
      (∃ d inc, I = .phi d inc) ∨ ∃ v rs, I = .debug v rs := by
  intro I hI
  rcases List.mem_append.mp hI with hI | hI
  · obtain ⟨t, -, rfl⟩ := List.mem_map.mp hI
    exact Or.inl ⟨_, _, rfl⟩
  · exact Or.inr (I.eq_debug (e.debugValues_debug I hI))

theorem Expansion.phis_debugValues_no_terminator
    (e : Expansion F BB MI s brCond pre seq rest debugValues others after) {ifFalseMBB : MBB}
    {T : List SelectPseudo} : ∀ I ∈ T.map (selectPhi BB ifFalseMBB) ++ debugValues,
      I.isTerminator = false := by
  intro I hI
  rcases e.phis_debugValues I hI with ⟨d, inc, rfl⟩ | ⟨v, rs, rfl⟩
  · rfl
  · rfl

theorem Expansion.phis_debugValues_asSelect
    (e : Expansion F BB MI s brCond pre seq rest debugValues others after) {ifFalseMBB : MBB}
    {T : List SelectPseudo} : ∀ I ∈ T.map (selectPhi BB ifFalseMBB) ++ debugValues,
      I.asSelect = none := by
  intro I hI
  rcases e.phis_debugValues I hI with ⟨d, inc, rfl⟩ | ⟨v, rs, rfl⟩
  · rfl
  · rfl

theorem Expansion.mergeable_all
    (e : Expansion F BB MI s brCond pre seq rest debugValues others after) :
    Mergeable s.lhs s.rhs s.cc [] (.select s :: seq) :=
  .select s rfl rfl rfl List.not_mem_nil List.not_mem_nil e.mergeable

end

/-! ### A loop with two selects -/

/-- Block 1 is a loop on itself; its PHI reads the second of two selects on one
condition, which have an ordinary instruction between them. -/
def selectLoop : MachineFunction where
  layout := [0, 1]
  insts
    | 0 => [.ordinary ⟨0, [1, 2], [], [7, 9], false, false, false⟩]
    | 1 => [.phi 3 [(1, 0), (5, 1)],
        .select ⟨4, 3, 2, .condLt, 1, 2⟩,
        .debug true [4],
        .ordinary ⟨1, [6], [3], [1], false, false, false⟩,
        .select ⟨5, 3, 2, .condLt, 2, 3⟩,
        .branch .beq 5 6 1,
        .pseudoRET [4]]
    | _ => []
  succs
    | 0 => [1]
    | 1 => [1]
    | _ => []

theorem dominates_entry (F : MachineFunction) (u : MBB) : F.dominates F.entry u :=
  Lib.Dominance.dominates_iff.mpr fun h => h.1 rfl

theorem selectLoop_available {r : Register} (h : r ∈ [1, 2]) : selectLoop.availableIn 1 r :=
  ⟨0, by decide, by decide, h, dominates_entry selectLoop 1⟩

theorem selectLoop_edge (p b : MBB) : selectLoop.edge p b ↔ b = 1 ∧ (p = 0 ∨ p = 1) := by
  constructor
  · rintro ⟨hp, hb⟩
    have hp' : p = 0 ∨ p = 1 := by simpa [selectLoop] using hp
    rcases hp' with rfl | rfl
    · exact ⟨by simpa [selectLoop] using hb, Or.inl rfl⟩
    · exact ⟨by simpa [selectLoop] using hb, Or.inr rfl⟩
  · rintro ⟨rfl, rfl | rfl⟩
    · exact ⟨by decide, by decide⟩
    · exact ⟨by decide, by decide⟩

theorem selectLoop_ssa : selectLoop.SSA where
  layout_ne := by decide
  layout_nodup := by decide
  defs_nodup := by decide
  uses_dominated := by
    have h1 : selectLoop.availableIn 1 1 := selectLoop_available (by decide)
    have h2 : selectLoop.availableIn 1 2 := selectLoop_available (by decide)
    have hb : selectLoop.layout = [0, 1] := rfl
    simp only [hb, List.forall_mem_cons, List.not_mem_nil, false_implies, implies_true, and_true]
    constructor
    · simp [selectLoop, UsesDefined, MachineInstr.orderedUses, MachineInstr.uses]
    · simp only [selectLoop, UsesDefined, MachineInstr.orderedUses, MachineInstr.uses,
        MachineInstr.defs] at h1 h2 ⊢
      simp [h1, h2]
  phi_dominated := by
    intro b hb d inc hphi
    have hb' : b = 0 ∨ b = 1 := by simpa [selectLoop] using hb
    rcases hb' with rfl | rfl
    · simp [selectLoop] at hphi
    · obtain ⟨rfl, rfl⟩ : d = 3 ∧ inc = [(1, 0), (5, 1)] := by simpa [selectLoop] using hphi
      simp only [List.forall_mem_cons, List.not_mem_nil, false_implies, implies_true, and_true]
      exact ⟨⟨0, by decide, by decide, Lib.Dominance.dominates_self _ _ _⟩,
        ⟨1, by decide, by decide, Lib.Dominance.dominates_self _ _ _⟩⟩
  phi_incoming := by
    intro b hb d inc hphi
    have hb' : b = 0 ∨ b = 1 := by simpa [selectLoop] using hb
    rcases hb' with rfl | rfl
    · simp [selectLoop] at hphi
    · obtain ⟨rfl, rfl⟩ : d = 3 ∧ inc = [(1, 0), (5, 1)] := by simpa [selectLoop] using hphi
      exact ⟨by decide, fun p => by simp [selectLoop_edge]⟩
  phis_first := by decide
  terminators_last := by decide
  succs_in := by decide
  targets_in := by decide
  falls_through := by
    intro b hb hbar n hn
    have hb' : b = 0 ∨ b = 1 := by simpa [selectLoop] using hb
    rcases hb' with rfl | rfl
    · have : n = 1 := by simpa [MachineFunction.nextBlock, selectLoop, nextIn] using hn.symm
      subst this
      decide
    · exact absurd (hbar (.pseudoRET [4]) (by decide)) (by decide)
  select_cc := by
    intro b hb s hs
    have hb' : b = 0 ∨ b = 1 := by simpa [selectLoop] using hb
    rcases hb' with rfl | rfl
    · simp [selectLoop] at hs
    · have : s = ⟨4, 3, 2, .condLt, 1, 2⟩ ∨ s = ⟨5, 3, 2, .condLt, 2, 3⟩ := by
        simpa [selectLoop] using hs
      rcases this with rfl | rfl <;> decide

end ToyRiscv
