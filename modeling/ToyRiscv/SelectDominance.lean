import ToyRiscv.SelectBlock

/-!
# Dominance in the split control-flow graph

Each path of the new graph projects onto one of the old (IfFalseMBB and TailMBB
stand for `BB`), so a block other than `BB` dominates what it dominated.
What `BB` dominated is dominated by HeadMBB and by TailMBB.
-/

namespace ToyRiscv
open Lib.Dominance

variable {F : MachineFunction} {BB tailMBB ifFalseMBB : MBB} {head tail : List MachineInstr}

theorem MachineFunction.SSA.reach_mem (hF : F.SSA) {d u : MBB}
    (h : ReachAvoiding F.edge F.entry d u) : u ∈ F.layout :=
  h.invariant (P := fun x => x ∈ F.layout) (fun _ => hF.entry_mem)
    fun _ _ _ hE _ => hF.edge_mem hE

theorem Fresh.edge_iff (hf : Fresh F BB tailMBB ifFalseMBB) (a c : MBB) :
    (splitBlock F BB tailMBB ifFalseMBB head tail).edge a c ↔
      (a ≠ BB ∧ F.edge a c) ∨ (a = BB ∧ (c = ifFalseMBB ∨ c = tailMBB)) ∨
      (a = ifFalseMBB ∧ c = tailMBB) ∨ (a = tailMBB ∧ F.edge BB c) := by
  constructor
  · rintro ⟨ha, hc⟩
    rcases (hf.mem_layout a).mp ha with ha | rfl | rfl
    · by_cases hne : a = BB
      · subst hne
        rw [hf.succs_head] at hc
        exact Or.inr (Or.inl ⟨rfl, by simpa using hc⟩)
      · rw [hf.succs_other ha hne] at hc
        exact Or.inl ⟨hne, ha, hc⟩
    · rw [hf.succs_ifFalse] at hc
      exact Or.inr (Or.inr (Or.inl ⟨rfl, by simpa using hc⟩))
    · rw [split_succs_tail] at hc
      exact Or.inr (Or.inr (Or.inr ⟨rfl, hf.mem, hc⟩))
  · rintro (⟨hne, ha, hc⟩ | ⟨rfl, hc⟩ | ⟨rfl, rfl⟩ | ⟨rfl, -, hc⟩)
    · exact ⟨(hf.mem_layout a).mpr (Or.inl ha), by rwa [hf.succs_other ha hne]⟩
    · exact ⟨(hf.mem_layout a).mpr (Or.inl hf.mem), by rw [hf.succs_head]; simpa using hc⟩
    · exact ⟨(hf.mem_layout a).mpr (Or.inr (Or.inl rfl)), by rw [hf.succs_ifFalse]; simp⟩
    · exact ⟨(hf.mem_layout a).mpr (Or.inr (Or.inr rfl)), by rwa [split_succs_tail]⟩

theorem Fresh.edge_old_iff (hf : Fresh F BB tailMBB ifFalseMBB) {a c : MBB} (hc : c ∈ F.layout) :
    (splitBlock F BB tailMBB ifFalseMBB head tail).edge a c ↔
      ∃ p, F.edge p c ∧ a = exitBlock BB tailMBB p := by
  rw [hf.edge_iff]
  constructor
  · rintro (⟨hne, h⟩ | ⟨-, rfl | rfl⟩ | ⟨-, rfl⟩ | ⟨rfl, h⟩)
    · exact ⟨a, h, by rw [exitBlock, if_neg hne]⟩
    · exact absurd hc hf.ifFalse_new
    · exact absurd hc hf.tail_new
    · exact absurd hc hf.tail_new
    · exact ⟨BB, h, by rw [exitBlock, if_pos rfl]⟩
  · rintro ⟨p, h, rfl⟩
    by_cases hp : p = BB
    · subst hp
      exact Or.inr (Or.inr (Or.inr ⟨by rw [exitBlock, if_pos rfl], h⟩))
    · rw [exitBlock, if_neg hp]
      exact Or.inl ⟨hp, h⟩

theorem Fresh.edge_tail_iff (hF : F.SSA) (hf : Fresh F BB tailMBB ifFalseMBB) (a : MBB) :
    (splitBlock F BB tailMBB ifFalseMBB head tail).edge a tailMBB ↔ a = BB ∨ a = ifFalseMBB := by
  rw [hf.edge_iff]
  constructor
  · rintro (⟨-, h⟩ | ⟨ha, -⟩ | ⟨ha, -⟩ | ⟨-, h⟩)
    · exact absurd (hF.edge_mem h) hf.tail_new
    · exact Or.inl ha
    · exact Or.inr ha
    · exact absurd (hF.edge_mem h) hf.tail_new
  · rintro (rfl | rfl)
    · exact Or.inr (Or.inl ⟨rfl, Or.inr rfl⟩)
    · exact Or.inr (Or.inr (Or.inl ⟨rfl, rfl⟩))

/-- The block of `F` that a block of the expansion is part of. -/
def sourceBlock (BB tailMBB ifFalseMBB b : MBB) : MBB :=
  if b = ifFalseMBB ∨ b = tailMBB then BB else b

theorem Fresh.sourceBlock_old (hf : Fresh F BB tailMBB ifFalseMBB) {b : MBB} (hb : b ∈ F.layout) :
    sourceBlock BB tailMBB ifFalseMBB b = b := by
  rw [sourceBlock, if_neg]
  rintro (h | h)
  · exact hf.ne_ifFalse hb h
  · exact hf.ne_tail hb h

theorem Fresh.sourceBlock_exitBlock (hf : Fresh F BB tailMBB ifFalseMBB) {p : MBB}
    (hp : p ∈ F.layout) : sourceBlock BB tailMBB ifFalseMBB (exitBlock BB tailMBB p) = p := by
  unfold exitBlock
  split
  · rename_i h
    simp [sourceBlock, h]
  · exact hf.sourceBlock_old hp

theorem Fresh.reach_project (hF : F.SSA) (hf : Fresh F BB tailMBB ifFalseMBB) {d u : MBB}
    (h : ReachAvoiding (splitBlock F BB tailMBB ifFalseMBB head tail).edge F.entry d u)
    (hd : d ≠ BB) :
    ReachAvoiding F.edge F.entry d (sourceBlock BB tailMBB ifFalseMBB u) := by
  refine h.invariant
    (P := fun x => ReachAvoiding F.edge F.entry d (sourceBlock BB tailMBB ifFalseMBB x))
    (fun he => ?_) (fun a b ha hab hb => ?_)
  · rw [hf.sourceBlock_old hF.entry_mem]
    exact .root he
  · rcases (hf.edge_iff a b).mp hab with ⟨-, hE⟩ | ⟨rfl, hb'⟩ | ⟨rfl, rfl⟩ | ⟨rfl, hE⟩
    · rw [hf.sourceBlock_old hE.1] at ha
      rw [hf.sourceBlock_old (hF.edge_mem hE)]
      exact ha.step hE hb
    · rw [hf.sourceBlock_old hf.mem] at ha
      rwa [sourceBlock, if_pos hb']
    · rw [sourceBlock, if_pos (Or.inl rfl)] at ha
      rwa [sourceBlock, if_pos (Or.inr rfl)]
    · rw [sourceBlock, if_pos (Or.inr rfl)] at ha
      rw [hf.sourceBlock_old (hF.edge_mem hE)]
      exact ha.step hE hb

theorem Fresh.dominates_iff_not_reach (hf : Fresh F BB tailMBB ifFalseMBB) (d u : MBB) :
    (splitBlock F BB tailMBB ifFalseMBB head tail).dominates d u ↔
      ¬ ReachAvoiding (splitBlock F BB tailMBB ifFalseMBB head tail).edge F.entry d u := by
  rw [MachineFunction.dominates, hf.entry, dominates_iff]

theorem Fresh.dominates_old (hF : F.SSA) (hf : Fresh F BB tailMBB ifFalseMBB) {d u : MBB}
    (hd : d ≠ BB) (h : F.dominates d (sourceBlock BB tailMBB ifFalseMBB u)) :
    (splitBlock F BB tailMBB ifFalseMBB head tail).dominates d u :=
  (hf.dominates_iff_not_reach d u).mpr fun hr =>
    dominates_iff.mp h (hf.reach_project hF hr hd)

theorem Fresh.reach_avoiding_head (hF : F.SSA) (hf : Fresh F BB tailMBB ifFalseMBB) {u : MBB}
    (h : ReachAvoiding (splitBlock F BB tailMBB ifFalseMBB head tail).edge F.entry BB u) :
    ReachAvoiding F.edge F.entry BB u := by
  refine h.invariant .root (fun a b ha hab hb => ?_)
  rcases (hf.edge_iff a b).mp hab with ⟨-, hE⟩ | ⟨rfl, -⟩ | ⟨rfl, -⟩ | ⟨rfl, -⟩
  · exact ha.step hE hb
  · exact absurd rfl ha.ne
  · exact absurd (hF.reach_mem ha) hf.ifFalse_new
  · exact absurd (hF.reach_mem ha) hf.tail_new

theorem Fresh.head_dominates_ifFalse (hF : F.SSA) (hf : Fresh F BB tailMBB ifFalseMBB) :
    (splitBlock F BB tailMBB ifFalseMBB head tail).dominates BB ifFalseMBB :=
  (hf.dominates_iff_not_reach BB _).mpr fun h =>
    hf.ifFalse_new (hF.reach_mem (hf.reach_avoiding_head hF h))

theorem Fresh.head_dominates_tail (hF : F.SSA) (hf : Fresh F BB tailMBB ifFalseMBB) :
    (splitBlock F BB tailMBB ifFalseMBB head tail).dominates BB tailMBB :=
  (hf.dominates_iff_not_reach BB _).mpr fun h =>
    hf.tail_new (hF.reach_mem (hf.reach_avoiding_head hF h))

theorem Fresh.head_dominates (hF : F.SSA) (hf : Fresh F BB tailMBB ifFalseMBB) {u : MBB}
    (h : F.dominates BB u) : (splitBlock F BB tailMBB ifFalseMBB head tail).dominates BB u :=
  (hf.dominates_iff_not_reach BB u).mpr fun hr =>
    dominates_iff.mp h (hf.reach_avoiding_head hF hr)

/-- Without passing TailMBB control gets no further than HeadMBB and IfFalseMBB. -/
theorem Fresh.tail_dominates (hF : F.SSA) (hf : Fresh F BB tailMBB ifFalseMBB) {u : MBB}
    (h : F.dominates BB u) (hu : u ∈ F.layout) (hne : u ≠ BB) :
    (splitBlock F BB tailMBB ifFalseMBB head tail).dominates tailMBB u := by
  apply (hf.dominates_iff_not_reach tailMBB u).mpr
  intro hr
  have hinv : u = BB ∨ u = ifFalseMBB ∨ ReachAvoiding F.edge F.entry BB u := by
    refine hr.invariant
      (P := fun x => x = BB ∨ x = ifFalseMBB ∨ ReachAvoiding F.edge F.entry BB x)
      (fun _ => ?_) (fun a b ha hab hb => ?_)
    · by_cases he : F.entry = BB
      · exact Or.inl he
      · exact Or.inr (Or.inr (.root he))
    · rcases (hf.edge_iff a b).mp hab with ⟨hneA, hE⟩ | ⟨-, rfl | rfl⟩ | ⟨-, rfl⟩ | ⟨rfl, hE⟩
      · rcases ha with rfl | rfl | ha
        · exact absurd rfl hneA
        · exact absurd hE.1 hf.ifFalse_new
        · by_cases hbB : b = BB
          · exact Or.inl hbB
          · exact Or.inr (Or.inr (ha.step hE hbB))
      · exact Or.inr (Or.inl rfl)
      · exact absurd rfl hb
      · exact absurd rfl hb
      · rcases ha with rfl | hta | ha
        · exact absurd hf.mem hf.tail_new
        · exact absurd hta hf.tail_ne
        · exact absurd (hF.reach_mem ha) hf.tail_new
  rcases hinv with h' | rfl | h'
  · exact hne h'
  · exact hf.ifFalse_new hu
  · exact dominates_iff.mp h h'

/-! ### Available registers -/

theorem Fresh.defs_old (hf : Fresh F BB tailMBB ifFalseMBB) {b : MBB} (hb : b ∈ F.layout)
    (hne : b ≠ BB) : defsOf ((splitBlock F BB tailMBB ifFalseMBB head tail).insts b) =
      defsOf (F.insts b) := by
  rw [hf.insts_other hb hne, defsOf_updatePhis]

theorem Fresh.defs_head (hf : Fresh F BB tailMBB ifFalseMBB) :
    defsOf ((splitBlock F BB tailMBB ifFalseMBB head tail).insts BB) = defsOf head := by
  rw [hf.insts_head, defsOf_updatePhis]

theorem Fresh.availableIn_part (hF : F.SSA) (hf : Fresh F BB tailMBB ifFalseMBB) {u : MBB}
    (hu : sourceBlock BB tailMBB ifFalseMBB u = BB) {r : Register} (h : F.availableIn BB r) :
    (splitBlock F BB tailMBB ifFalseMBB head tail).availableIn u r := by
  obtain ⟨d, hd, hne, hr, hdom⟩ := h
  refine ⟨d, (hf.mem_layout d).mpr (Or.inl hd), ?_, by rwa [hf.defs_old hd hne],
    hf.dominates_old hF hne (by rwa [hu])⟩
  rintro rfl
  exact hne ((hf.sourceBlock_old hd).symm.trans hu)

theorem Fresh.head_availableIn_tail (hF : F.SSA) (hf : Fresh F BB tailMBB ifFalseMBB)
    {r : Register} (h : r ∈ defsOf head) :
    (splitBlock F BB tailMBB ifFalseMBB head tail).availableIn tailMBB r :=
  ⟨BB, (hf.mem_layout BB).mpr (Or.inl hf.mem), hf.ne_tail hf.mem, by rwa [hf.defs_head],
    hf.head_dominates_tail hF⟩

/-- Where a definition of `F` now is, and that it still dominates the end of
what its block dominated. -/
theorem Fresh.availableOut_exit (hF : F.SSA) (hf : Fresh F BB tailMBB ifFalseMBB)
    (hdefs : ∀ r ∈ defsOf (F.insts BB), r ∈ defsOf head ∨ r ∈ defsOf tail) {p : MBB}
    (hp : p ∈ F.layout) {r : Register} (h : F.availableOut p r) :
    (splitBlock F BB tailMBB ifFalseMBB head tail).availableOut (exitBlock BB tailMBB p) r := by
  obtain ⟨d, hd, hr, hdom⟩ := h
  have htail : tailMBB ∈ (splitBlock F BB tailMBB ifFalseMBB head tail).layout :=
    (hf.mem_layout tailMBB).mpr (Or.inr (Or.inr rfl))
  by_cases hne : d = BB
  · subst hne
    have hd' : d ∈ (splitBlock F d tailMBB ifFalseMBB head tail).layout :=
      (hf.mem_layout d).mpr (Or.inl hd)
    rcases hdefs r hr with hh | ht
    · refine ⟨d, hd', by rwa [hf.defs_head], ?_⟩
      unfold exitBlock
      split
      · exact hf.head_dominates_tail hF
      · exact hf.head_dominates hF hdom
    · refine ⟨tailMBB, htail, by rwa [split_insts_tail], ?_⟩
      unfold exitBlock
      split
      · exact dominates_self _ _ _
      · rename_i hpne
        exact hf.tail_dominates hF hdom hp hpne
  · refine ⟨d, (hf.mem_layout d).mpr (Or.inl hd), by rwa [hf.defs_old hd hne], ?_⟩
    exact hf.dominates_old hF hne (by rwa [hf.sourceBlock_exitBlock hp])

theorem Fresh.availableIn_other (hF : F.SSA) (hf : Fresh F BB tailMBB ifFalseMBB)
    (hdefs : ∀ r ∈ defsOf (F.insts BB), r ∈ defsOf head ∨ r ∈ defsOf tail) {b : MBB}
    (hb : b ∈ F.layout) (hne : b ≠ BB) {r : Register} (h : F.availableIn b r) :
    (splitBlock F BB tailMBB ifFalseMBB head tail).availableIn b r := by
  obtain ⟨d, hd, hdb, hr, hdom⟩ := h
  by_cases hdBB : d = BB
  · subst hdBB
    rcases hdefs r hr with hh | ht
    · exact ⟨d, (hf.mem_layout d).mpr (Or.inl hd), hdb, by rwa [hf.defs_head],
        hf.head_dominates hF hdom⟩
    · exact ⟨tailMBB, (hf.mem_layout tailMBB).mpr (Or.inr (Or.inr rfl)), (hf.ne_tail hb).symm,
        by rwa [split_insts_tail], hf.tail_dominates hF hdom hb hne⟩
  · exact ⟨d, (hf.mem_layout d).mpr (Or.inl hd), hdb, by rwa [hf.defs_old hd hdBB],
      hf.dominates_old hF hdBB (by rwa [hf.sourceBlock_old hb])⟩

end ToyRiscv
