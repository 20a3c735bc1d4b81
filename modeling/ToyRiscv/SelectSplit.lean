import ToyRiscv.SelectScan

/-!
# The split control-flow graph

Layout, edges and PHIs of `splitBlock`, independently of the instructions that
go into HeadMBB and TailMBB.
-/

namespace ToyRiscv

/-! ### Layout -/

theorem nextIn_append {b : MBB} {l m : List MBB} (h : b ∉ l) :
    nextIn b (l ++ b :: m) = m.head? := by
  induction l with
  | nil => cases m <;> simp [nextIn]
  | cons a l ih =>
    simp only [List.mem_cons, not_or] at h
    cases l with
    | nil =>
      have := ih h.2
      simp only [List.nil_append] at this
      simp [nextIn, Ne.symm h.1, this]
    | cons c l =>
      have := ih h.2
      simp only [List.cons_append] at this ⊢
      simp [nextIn, Ne.symm h.1, this]

theorem insertAfter_append {b : MBB} (new : List MBB) {l : List MBB} (h : b ∉ l) (m : List MBB) :
    insertAfter b new (l ++ b :: m) = l ++ b :: (new ++ m) := by
  induction l with
  | nil => simp [insertAfter]
  | cons a l ih =>
    simp only [List.mem_cons, not_or] at h
    simp [insertAfter, Ne.symm h.1, ih h.2]

theorem le_foldr_max (l : List MBB) : ∀ b ∈ l, b ≤ l.foldr max 0 := by
  induction l with
  | nil => simp
  | cons a l ih =>
    intro b hb
    rcases List.mem_cons.mp hb with rfl | hb
    · exact le_max_left _ _
    · exact (ih b hb).trans (le_max_right _ _)

theorem MachineFunction.lt_freshBlock (F : MachineFunction) {b : MBB} (h : b ∈ F.layout) :
    b < F.freshBlock :=
  Nat.lt_succ_of_le (le_foldr_max F.layout b h)

/-- The blocks a split adds, and where: `BB` is in the layout, the two new
blocks are not. -/
structure Fresh (F : MachineFunction) (BB tailMBB ifFalseMBB : MBB) : Prop where
  mem : BB ∈ F.layout
  nodup : F.layout.Nodup
  tail_new : tailMBB ∉ F.layout
  ifFalse_new : ifFalseMBB ∉ F.layout
  tail_ne : tailMBB ≠ ifFalseMBB

theorem fresh_freshBlock (F : MachineFunction) (BB : MBB) (hmem : BB ∈ F.layout)
    (hnd : F.layout.Nodup) : Fresh F BB F.freshBlock (F.freshBlock + 1) where
  mem := hmem
  nodup := hnd
  tail_new h := Nat.lt_irrefl _ (F.lt_freshBlock h)
  ifFalse_new h := Nat.lt_irrefl _ ((F.lt_freshBlock h).trans (Nat.lt_succ_self _))
  tail_ne := Nat.ne_of_lt (Nat.lt_succ_self _)

variable {F : MachineFunction} {BB tailMBB ifFalseMBB : MBB} {head tail : List MachineInstr}

theorem Fresh.ne_tail (h : Fresh F BB tailMBB ifFalseMBB) {b : MBB} (hb : b ∈ F.layout) :
    b ≠ tailMBB := fun he => h.tail_new (he ▸ hb)

theorem Fresh.ne_ifFalse (h : Fresh F BB tailMBB ifFalseMBB) {b : MBB} (hb : b ∈ F.layout) :
    b ≠ ifFalseMBB := fun he => h.ifFalse_new (he ▸ hb)

theorem Fresh.layout (h : Fresh F BB tailMBB ifFalseMBB) (head tail : List MachineInstr) :
    ∃ l m, F.layout = l ++ BB :: m ∧ BB ∉ l ∧
      (splitBlock F BB tailMBB ifFalseMBB head tail).layout =
        l ++ BB :: ifFalseMBB :: tailMBB :: m := by
  obtain ⟨l, m, heq, hl⟩ := List.eq_append_cons_of_mem h.mem
  refine ⟨l, m, heq, hl, ?_⟩
  show insertAfter BB [ifFalseMBB, tailMBB] F.layout = _
  rw [heq, insertAfter_append _ hl]
  rfl

theorem Fresh.mem_layout (h : Fresh F BB tailMBB ifFalseMBB) (b : MBB) :
    b ∈ (splitBlock F BB tailMBB ifFalseMBB head tail).layout ↔
      b ∈ F.layout ∨ b = ifFalseMBB ∨ b = tailMBB := by
  obtain ⟨l, m, heq, -, hsplit⟩ := h.layout head tail
  rw [hsplit, heq]
  simp only [List.mem_append, List.mem_cons]
  tauto

theorem Fresh.layout_cases (h : Fresh F BB tailMBB ifFalseMBB) {F' : MachineFunction}
    (hF' : F' = splitBlock F BB tailMBB ifFalseMBB head tail) {b : MBB} (hb : b ∈ F'.layout) :
    b ∈ F.layout ∨ b = ifFalseMBB ∨ b = tailMBB := by
  subst hF'
  exact (h.mem_layout b).mp hb

theorem Fresh.layout_nodup (h : Fresh F BB tailMBB ifFalseMBB) :
    (splitBlock F BB tailMBB ifFalseMBB head tail).layout.Nodup := by
  obtain ⟨l, m, heq, -, hsplit⟩ := h.layout head tail
  have hperm : (l ++ BB :: ifFalseMBB :: tailMBB :: m).Perm
      (ifFalseMBB :: tailMBB :: (l ++ BB :: m)) := by
    have h1 : l ++ BB :: ifFalseMBB :: tailMBB :: m =
        (l ++ [BB]) ++ ([ifFalseMBB, tailMBB] ++ m) := by simp
    have h2 : ifFalseMBB :: tailMBB :: (l ++ BB :: m) =
        [ifFalseMBB, tailMBB] ++ ((l ++ [BB]) ++ m) := by simp
    rw [h1, h2]
    exact List.perm_append_comm_assoc _ _ _
  rw [hsplit, hperm.nodup_iff, ← heq]
  refine List.nodup_cons.mpr ⟨?_, List.nodup_cons.mpr ⟨h.tail_new, h.nodup⟩⟩
  rw [List.mem_cons, not_or]
  exact ⟨h.tail_ne.symm, h.ifFalse_new⟩

theorem Fresh.entry (h : Fresh F BB tailMBB ifFalseMBB) :
    (splitBlock F BB tailMBB ifFalseMBB head tail).entry = F.entry := by
  obtain ⟨l, m, heq, -, hsplit⟩ := h.layout head tail
  rw [MachineFunction.entry, MachineFunction.entry, hsplit, heq]
  cases l <;> rfl

theorem Fresh.next_head (h : Fresh F BB tailMBB ifFalseMBB) :
    (splitBlock F BB tailMBB ifFalseMBB head tail).nextBlock BB = some ifFalseMBB := by
  obtain ⟨l, m, -, hl, hsplit⟩ := h.layout head tail
  rw [MachineFunction.nextBlock, hsplit, nextIn_append hl]
  rfl

theorem Fresh.next_ifFalse (h : Fresh F BB tailMBB ifFalseMBB) :
    (splitBlock F BB tailMBB ifFalseMBB head tail).nextBlock ifFalseMBB = some tailMBB := by
  obtain ⟨l, m, heq, -, hsplit⟩ := h.layout head tail
  have hnot : ifFalseMBB ∉ l ++ [BB] := fun hmem => h.ifFalse_new (by
    rw [heq]
    simp only [List.mem_append, List.mem_cons, List.not_mem_nil, or_false] at hmem ⊢
    tauto)
  have hl : l ++ BB :: ifFalseMBB :: tailMBB :: m =
      (l ++ [BB]) ++ ifFalseMBB :: tailMBB :: m := by simp
  rw [MachineFunction.nextBlock, hsplit, hl, nextIn_append hnot]
  rfl

theorem Fresh.next_tail (h : Fresh F BB tailMBB ifFalseMBB) :
    (splitBlock F BB tailMBB ifFalseMBB head tail).nextBlock tailMBB = F.nextBlock BB := by
  obtain ⟨l, m, heq, hl, hsplit⟩ := h.layout head tail
  have hnot : tailMBB ∉ l ++ [BB, ifFalseMBB] := by
    have htail := h.tail_new
    rw [heq] at htail
    simp only [List.mem_append, List.mem_cons, List.not_mem_nil, or_false, not_or] at htail ⊢
    exact ⟨htail.1, htail.2.1, h.tail_ne⟩
  have hl' : l ++ BB :: ifFalseMBB :: tailMBB :: m =
      (l ++ [BB, ifFalseMBB]) ++ tailMBB :: m := by simp
  rw [MachineFunction.nextBlock, MachineFunction.nextBlock, hsplit, hl', nextIn_append hnot, heq,
    nextIn_append hl]

theorem Fresh.next_other (h : Fresh F BB tailMBB ifFalseMBB) {b : MBB} (hb : b ∈ F.layout)
    (hne : b ≠ BB) :
    (splitBlock F BB tailMBB ifFalseMBB head tail).nextBlock b = F.nextBlock b := by
  obtain ⟨l, m, heq, -, hsplit⟩ := h.layout head tail
  have hnd := h.nodup
  have h1 := h.ne_ifFalse hb
  have h2 := h.ne_tail hb
  rw [heq] at hb hnd
  rw [MachineFunction.nextBlock, MachineFunction.nextBlock, hsplit, heq]
  rcases List.mem_append.mp hb with hbl | hbm
  · obtain ⟨l1, l2, rfl, hb1⟩ := List.eq_append_cons_of_mem hbl
    rw [List.append_assoc, List.append_assoc, List.cons_append, List.cons_append,
      nextIn_append hb1, nextIn_append hb1]
    cases l2 <;> rfl
  · have hbm' : b ∈ m := (List.mem_cons.mp hbm).resolve_left hne
    obtain ⟨m1, m2, rfl, hb1⟩ := List.eq_append_cons_of_mem hbm'
    have hbl : b ∉ l := fun hmem =>
      (List.nodup_append.mp hnd).2.2 b hmem b hbm rfl
    have hnot : b ∉ l ++ BB :: ifFalseMBB :: tailMBB :: m1 := by
      simp only [List.mem_append, List.mem_cons, not_or]
      exact ⟨hbl, hne, h1, h2, hb1⟩
    have hnot' : b ∉ l ++ BB :: m1 := by
      simp only [List.mem_append, List.mem_cons, not_or]
      exact ⟨hbl, hne, hb1⟩
    have e1 : l ++ BB :: ifFalseMBB :: tailMBB :: (m1 ++ b :: m2) =
        (l ++ BB :: ifFalseMBB :: tailMBB :: m1) ++ b :: m2 := by simp
    have e2 : l ++ BB :: (m1 ++ b :: m2) = (l ++ BB :: m1) ++ b :: m2 := by simp
    rw [e1, e2, nextIn_append hnot, nextIn_append hnot']

theorem Fresh.flatMap_perm {α : Type*} (h : Fresh F BB tailMBB ifFalseMBB) {f f' : MBB → List α}
    (hother : ∀ b ∈ F.layout, b ≠ BB → f' b = f b) {x y : List α}
    (hBB : (f' BB ++ (f' ifFalseMBB ++ f' tailMBB) ++ x).Perm (f BB ++ y)) :
    ((splitBlock F BB tailMBB ifFalseMBB head tail).layout.flatMap f' ++ x).Perm
      (F.layout.flatMap f ++ y) := by
  obtain ⟨l, m, heq, hl, hsplit⟩ := h.layout head tail
  have hnd := h.nodup
  rw [heq, List.nodup_append] at hnd
  have hm : BB ∉ m := (List.nodup_cons.mp hnd.2.1).1
  have hfl : l.flatMap f' = l.flatMap f := List.flatMap_congr fun b hb =>
    hother b (by rw [heq]; exact List.mem_append_left _ hb) (fun he => hl (he ▸ hb))
  have hfm : m.flatMap f' = m.flatMap f := List.flatMap_congr fun b hb =>
    hother b (by rw [heq]; exact List.mem_append_right _ (List.mem_cons_of_mem _ hb))
      (fun he => hm (he ▸ hb))
  have hmove : ∀ u v : List α, (l.flatMap f ++ (u ++ m.flatMap f) ++ v).Perm
      (l.flatMap f ++ (m.flatMap f ++ (u ++ v))) := fun u v => by
    rw [List.append_assoc, List.append_assoc]
    exact (List.perm_append_comm_assoc _ _ _).append_left _
  rw [hsplit, heq]
  simp only [List.flatMap_append, List.flatMap_cons, hfl, hfm]
  have hassoc : f' BB ++ (f' ifFalseMBB ++ (f' tailMBB ++ m.flatMap f)) =
      (f' BB ++ (f' ifFalseMBB ++ f' tailMBB)) ++ m.flatMap f := by
    simp only [List.append_assoc]
  rw [hassoc]
  exact (hmove _ x).trans (((hBB.append_left _).append_left _).trans (hmove _ y).symm)

/-! ### Instructions and successors, block by block -/

theorem split_insts_tail : (splitBlock F BB tailMBB ifFalseMBB head tail).insts tailMBB = tail := by
  simp [splitBlock]

theorem Fresh.insts_ifFalse (h : Fresh F BB tailMBB ifFalseMBB) :
    (splitBlock F BB tailMBB ifFalseMBB head tail).insts ifFalseMBB = [] := by
  simp [splitBlock, h.tail_ne.symm]

/-- PHI operands of a block that has lost its predecessor `BB` to TailMBB. -/
def updatePhis (F : MachineFunction) (BB tailMBB b : MBB) (l : List MachineInstr) :
    List MachineInstr :=
  if b ∈ F.succs BB then l.map (replacePhiUsesWith BB tailMBB) else l

theorem Fresh.insts_head (h : Fresh F BB tailMBB ifFalseMBB) :
    (splitBlock F BB tailMBB ifFalseMBB head tail).insts BB = updatePhis F BB tailMBB BB head := by
  simp [splitBlock, updatePhis, h.ne_tail h.mem, h.ne_ifFalse h.mem]

theorem Fresh.insts_other (h : Fresh F BB tailMBB ifFalseMBB) {b : MBB} (hb : b ∈ F.layout)
    (hne : b ≠ BB) : (splitBlock F BB tailMBB ifFalseMBB head tail).insts b =
      updatePhis F BB tailMBB b (F.insts b) := by
  simp [splitBlock, updatePhis, h.ne_tail hb, h.ne_ifFalse hb, hne]

theorem Fresh.forall_insts (h : Fresh F BB tailMBB ifFalseMBB)
    {P : MBB → List MachineInstr → Prop}
    (hold : ∀ b ∈ F.layout, b ≠ BB → P b (updatePhis F BB tailMBB b (F.insts b)))
    (hhead : P BB (updatePhis F BB tailMBB BB head)) (hifFalse : P ifFalseMBB [])
    (htail : P tailMBB tail) : ∀ b ∈ (splitBlock F BB tailMBB ifFalseMBB head tail).layout,
      P b ((splitBlock F BB tailMBB ifFalseMBB head tail).insts b) := by
  intro b hb
  rcases (h.mem_layout b).mp hb with hb | rfl | rfl
  · by_cases hne : b = BB
    · subst hne
      rwa [h.insts_head]
    · rw [h.insts_other hb hne]
      exact hold b hb hne
  · rwa [h.insts_ifFalse]
  · rwa [split_insts_tail]

theorem split_succs_tail : (splitBlock F BB tailMBB ifFalseMBB head tail).succs tailMBB =
    F.succs BB := by
  simp [splitBlock]

theorem Fresh.succs_ifFalse (h : Fresh F BB tailMBB ifFalseMBB) :
    (splitBlock F BB tailMBB ifFalseMBB head tail).succs ifFalseMBB = [tailMBB] := by
  simp [splitBlock, h.tail_ne.symm]

theorem Fresh.succs_head (h : Fresh F BB tailMBB ifFalseMBB) :
    (splitBlock F BB tailMBB ifFalseMBB head tail).succs BB = [ifFalseMBB, tailMBB] := by
  simp [splitBlock, h.ne_tail h.mem, h.ne_ifFalse h.mem]

theorem Fresh.succs_other (h : Fresh F BB tailMBB ifFalseMBB) {b : MBB} (hb : b ∈ F.layout)
    (hne : b ≠ BB) :
    (splitBlock F BB tailMBB ifFalseMBB head tail).succs b = F.succs b := by
  simp [splitBlock, h.ne_tail hb, h.ne_ifFalse hb, hne]

/-! ### PHI renaming -/

theorem replacePhi_of_not_phi {old new : MBB} {I : MachineInstr} (h : I.isPhi = false) :
    replacePhiUsesWith old new I = I := by
  cases I with
  | phi d inc => cases h
  | _ => rfl

@[simp] theorem replacePhi_isPhi (old new : MBB) (I : MachineInstr) :
    (replacePhiUsesWith old new I).isPhi = I.isPhi := by
  cases I <;> rfl

@[simp] theorem replacePhi_defs (old new : MBB) (I : MachineInstr) :
    (replacePhiUsesWith old new I).defs = I.defs := by
  cases I <;> rfl

@[simp] theorem replacePhi_orderedUses (old new : MBB) (I : MachineInstr) :
    (replacePhiUsesWith old new I).orderedUses = I.orderedUses := by
  cases I <;> rfl

@[simp] theorem replacePhi_asSelect (old new : MBB) (I : MachineInstr) :
    (replacePhiUsesWith old new I).asSelect = I.asSelect := by
  cases I <;> rfl

@[simp] theorem replacePhi_isTerminator (old new : MBB) (I : MachineInstr) :
    (replacePhiUsesWith old new I).isTerminator = I.isTerminator := by
  cases I <;> rfl

@[simp] theorem replacePhi_isBarrier (old new : MBB) (I : MachineInstr) :
    (replacePhiUsesWith old new I).isBarrier = I.isBarrier := by
  cases I <;> rfl

@[simp] theorem replacePhi_targets (old new : MBB) (I : MachineInstr) :
    (replacePhiUsesWith old new I).targets = I.targets := by
  cases I <;> rfl

theorem map_replacePhi_of_no_phi {old new : MBB} {l : List MachineInstr}
    (h : ∀ I ∈ l, I.isPhi = false) : l.map (replacePhiUsesWith old new) = l := by
  calc l.map (replacePhiUsesWith old new) = l.map id :=
        List.map_congr_left fun I hI => replacePhi_of_not_phi (h I hI)
    _ = l := List.map_id l

theorem updatePhis_append (b : MBB) (l : List MachineInstr) {m : List MachineInstr}
    (hm : ∀ I ∈ m, I.isPhi = false) :
    updatePhis F BB tailMBB b (l ++ m) = updatePhis F BB tailMBB b l ++ m := by
  unfold updatePhis
  split
  · rw [List.map_append, map_replacePhi_of_no_phi hm]
  · rfl

theorem defsOf_updatePhis (b : MBB) (l : List MachineInstr) :
    defsOf (updatePhis F BB tailMBB b l) = defsOf l := by
  unfold updatePhis
  split
  · simp only [defsOf, List.flatMap_map, replacePhi_defs]
  · rfl

theorem usesDefined_map_replacePhi {A : Register → Prop} (old new : MBB) (l : List MachineInstr) :
    UsesDefined A (l.map (replacePhiUsesWith old new)) ↔ UsesDefined A l := by
  induction l generalizing A with
  | nil => exact Iff.rfl
  | cons I l ih =>
    simp only [List.map_cons, UsesDefined, replacePhi_orderedUses, replacePhi_defs, ih]

theorem usesDefined_updatePhis {A : Register → Prop} (b : MBB) (l : List MachineInstr) :
    UsesDefined A (updatePhis F BB tailMBB b l) ↔ UsesDefined A l := by
  unfold updatePhis
  split
  · exact usesDefined_map_replacePhi BB tailMBB l
  · exact Iff.rfl

theorem forall_updatePhis {P : MachineInstr → Prop}
    (hP : ∀ I, P (replacePhiUsesWith BB tailMBB I) ↔ P I) (b : MBB) (l : List MachineInstr) :
    (∀ I ∈ updatePhis F BB tailMBB b l, P I) ↔ ∀ I ∈ l, P I := by
  unfold updatePhis
  split
  · simp only [List.mem_map, forall_exists_index, and_imp, forall_apply_eq_imp_iff₂, hP]
  · exact Iff.rfl

theorem pairwise_updatePhis {R : MachineInstr → MachineInstr → Prop}
    (hR : ∀ I J, R (replacePhiUsesWith BB tailMBB I) (replacePhiUsesWith BB tailMBB J) ↔ R I J)
    (b : MBB) (l : List MachineInstr) :
    (updatePhis F BB tailMBB b l).Pairwise R ↔ l.Pairwise R := by
  unfold updatePhis
  split
  · simp only [List.pairwise_map, hR]
  · exact Iff.rfl

/-- The block at whose end control leaves the part that was block `p`. -/
def exitBlock (BB tailMBB p : MBB) : MBB := if p = BB then tailMBB else p

theorem exitBlock_inj (BB : MBB) {p q : MBB} (hp : p ≠ tailMBB) (hq : q ≠ tailMBB) :
    exitBlock BB tailMBB p = exitBlock BB tailMBB q ↔ p = q := by
  unfold exitBlock
  split_ifs with h1 h2 h2
  · exact ⟨fun _ => h1.trans h2.symm, fun _ => rfl⟩
  · exact ⟨fun h => absurd h.symm hq, fun h => absurd (h ▸ h1) h2⟩
  · exact ⟨fun h => absurd h hp, fun h => absurd (h ▸ h2) h1⟩
  · exact Iff.rfl

end ToyRiscv
