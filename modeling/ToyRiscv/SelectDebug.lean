import ToyRiscv.SelectBlock
import ToyRiscv.SelectCollect

/-!
# Debug instructions of merged selects

Which debug instructions `emitSelectPseudo` takes over to TailMBB: those the loop
collects behind the selects it merges, and all that follow the last of them
(TOYRISCVISelLowering.cpp:331-337).
-/

namespace ToyRiscv
open Lib.Positions

/-- The selects from `MI` to the one the loop stops behind (TOYRISCVISelLowering.cpp:293-316). -/
def mergedSelects (F : MachineFunction) (BB : MBB) (MI : ℕ) : List SelectPseudo :=
  match (F.insts BB)[MI]?.bind MachineInstr.asSelect with
  | none => []
  | some s =>
    let q := scanSequence s.lhs s.rhs s.cc MI ((F.insts BB).drop MI) ⟨[s.dst], MI, []⟩
    (((F.insts BB).take (q.lastSelectPseudo + 1)).drop MI).filterMap MachineInstr.asSelect

def namesResult (merged : List SelectPseudo) (I : MachineInstr) : Bool :=
  I.isDebugInstr && merged.any fun s => decide (s.dst ∈ I.uses)

/-- Every debug instruction of the block that names the result of a merged select is in
TailMBB behind the PHIs, once, and nowhere else. -/
def DebugFollowsPhis (F : MachineFunction) (BB : MBB) (MI : ℕ) : Prop :=
  ∃ F' tailMBB ifFalseMBB moved, emitSelectPseudo F BB MI = some (F', tailMBB) ∧
    F'.insts tailMBB = (mergedSelects F BB MI).map (selectPhi BB ifFalseMBB) ++ moved ∧
    (moved.filter (namesResult (mergedSelects F BB MI))).Perm
      ((F.insts BB).filter (namesResult (mergedSelects F BB MI))) ∧
    ∀ I ∈ F'.insts BB ++ F'.insts ifFalseMBB, namesResult (mergedSelects F BB MI) I = false

/-- No debug instruction names a register that is defined behind it. -/
def DebugAfterDefs (l : List MachineInstr) : Prop :=
  l.Pairwise fun D I => D.isDebugInstr = true → ∀ r ∈ D.uses, r ∉ I.defs

/-- In every mergeable sequence from `MI` that ends in a select, a debug instruction that
names the result of a select before it stands in the run of DBG_VALUEs directly behind a
select whose result it names. -/
def DebugInRuns (F : MachineFunction) (BB : MBB) (MI : ℕ) : Prop :=
  ∀ pre s init t rest, F.insts BB = pre ++ .select s :: (init ++ [.select t] ++ rest) →
    pre.length = MI → Mergeable s.lhs s.rhs s.cc [s.dst] (init ++ [.select t]) →
    ∀ a D b, init = a ++ D :: b →
      namesResult ((MachineInstr.select s :: a).filterMap MachineInstr.asSelect) D = true →
      Collectible (.select s :: a) D

theorem namesResult_iff {merged : List SelectPseudo} {I : MachineInstr} :
    namesResult merged I = true ↔
      I.isDebugInstr = true ∧ ∃ u ∈ merged, u.dst ∈ I.uses := by
  simp [namesResult]

section
variable {F : MachineFunction} {BB : MBB} {s : SelectPseudo} {k : ℕ} {l : List MachineInstr}
  {m : ℕ} {ps : List ℕ} {pre : List MachineInstr}

theorem Scanned.mergedSelects_eq (h : Scanned s k l m ps) (htrue : s.trueV ≠ s.dst)
    (hfalse : s.falseV ≠ s.dst) (hinsts : F.insts BB = pre ++ .select s :: l)
    (hpre : pre.length = k) :
    mergedSelects F BB k = (MachineInstr.select s :: l.take m).filterMap MachineInstr.asSelect := by
  simp only [mergedSelects, getElem?_split hinsts hpre, Option.bind_some, MachineInstr.asSelect,
    drop_split hinsts hpre, scanSequence_self s k l htrue hfalse, h.lastSelectPseudo,
    take_drop_split hinsts hpre]

theorem Scanned.stays_iff (h : Scanned s k l m ps) {D : MachineInstr}
    (hdbg : D.isDebugInstr = true) :
    (D ∈ (dropAt ps (k + 1) (l.take m)).filter fun I => !I.isSelectPseudo) ↔
      ∃ a b, l.take m = a ++ D :: b ∧ ¬ Collectible (.select s :: a) D := by
  have hselect : D.isSelectPseudo = false := by
    rw [MachineInstr.isSelectPseudo, D.debug_asSelect hdbg]
    rfl
  have hkeep : (!D.isSelectPseudo) = true := by rw [hselect]; rfl
  rw [List.mem_filter, and_iff_left hkeep, mem_dropAt]
  apply exists_congr
  intro a
  apply exists_congr
  intro b
  apply and_congr_right
  intro hsplit
  rw [h.mem_iff_collectible hsplit]

end

section
variable {F : MachineFunction} {BB : MBB} {MI : ℕ} {s : SelectPseudo} {brCond : BranchOp}
  {pre seq rest debugValues others after : List MachineInstr}

theorem select_mem_of_merged {u : SelectPseudo} {l : List MachineInstr}
    (h : u ∈ l.filterMap MachineInstr.asSelect) : MachineInstr.select u ∈ l := by
  obtain ⟨I, hI, hu⟩ := List.mem_filterMap.mp h
  rw [← MachineInstr.asSelect_eq_some.mp hu]
  exact hI

theorem not_namesResult_before {l m : List MachineInstr} (h : DebugAfterDefs (l ++ m))
    {D : MachineInstr} (hD : D ∈ l) :
    namesResult (m.filterMap MachineInstr.asSelect) D = false := by
  rw [Bool.eq_false_iff, ne_eq, namesResult_iff]
  intro hname
  obtain ⟨hdbg, u, hu, hdst⟩ := hname
  exact (List.pairwise_append.mp h).2.2 D hD _ (select_mem_of_merged hu) hdbg u.dst hdst
    (List.mem_singleton_self _)

theorem debug_mem_updatePhis {tailMBB b : MBB} {l : List MachineInstr} {D : MachineInstr}
    (hdbg : D.isDebugInstr = true) : D ∈ updatePhis F BB tailMBB b l ↔ D ∈ l := by
  obtain ⟨v, regs, rfl⟩ := D.eq_debug hdbg
  unfold updatePhis
  split
  · rw [List.mem_map]
    constructor
    · intro hD
      obtain ⟨J, hJ, hrepl⟩ := hD
      cases J with
      | phi d inc => cases hrepl
      | _ => exact hrepl ▸ hJ
    · intro hD
      exact ⟨_, hD, rfl⟩
  · exact Iff.rfl

theorem filter_eq_nil_of_false {α : Type*} {p : α → Bool} {l : List α}
    (h : ∀ a ∈ l, p a = false) : l.filter p = [] :=
  List.filter_eq_nil_iff.mpr fun a ha => Bool.eq_false_iff.mp (h a ha)

theorem filter_namesResult_nonSelects (merged : List SelectPseudo) (l : List MachineInstr) :
    (l.filter fun I => !I.isSelectPseudo).filter (namesResult merged) =
      l.filter (namesResult merged) := by
  rw [List.filter_filter]
  apply List.filter_congr
  intro I _
  cases I with
  | select s => rfl
  | _ => exact Bool.and_true _

theorem Expansion.followsPhis_iff_others
    (e : Expansion F BB MI s brCond pre seq rest debugValues others after) (hF : F.SSA)
    (hb : BB ∈ F.layout) (hafter : DebugAfterDefs (F.insts BB))
    (hmerged : mergedSelects F BB MI = s :: seq.filterMap MachineInstr.asSelect) :
    DebugFollowsPhis F BB MI ↔ ∀ I ∈ others, namesResult (mergedSelects F BB MI) I = false := by
  have hf := hF.fresh hb
  constructor
  · intro hfollows I hI
    obtain ⟨F', tailMBB, ifFalseMBB, moved, hemit, -, -, hnone⟩ := hfollows
    rw [e.emitted] at hemit
    cases hemit
    cases hname : namesResult (mergedSelects F BB MI) I with
    | false => rfl
    | true =>
      have hdbg := (namesResult_iff.mp hname).1
      have hhead : I ∈ pre ++ others ++ [.branch brCond s.lhs s.rhs F.freshBlock] :=
        List.mem_append_left _ (List.mem_append_right _ hI)
      rw [← hname]
      apply hnone I
      rw [hf.insts_head]
      exact List.mem_append_left _ ((debug_mem_updatePhis hdbg).mpr hhead)
  · intro hothers
    have hpre : ∀ I ∈ pre, namesResult (mergedSelects F BB MI) I = false := by
      intro I hI
      rw [e.insts, ← List.cons_append, ← List.append_assoc] at hafter
      have hle : (pre ++ MachineInstr.select s :: seq).Sublist
          (pre ++ MachineInstr.select s :: seq ++ rest) := List.sublist_append_left ..
      rw [hmerged, ← MachineInstr.filterMap_asSelect_cons]
      exact not_namesResult_before (List.Pairwise.sublist hle hafter) hI
    refine ⟨_, F.freshBlock, F.freshBlock + 1, debugValues ++ after, e.emitted, ?_, ?_, ?_⟩
    · rw [split_insts_tail, hmerged, List.append_assoc]
    · have hperm := e.perm.filter (namesResult (mergedSelects F BB MI))
      have hselect : ¬ namesResult (mergedSelects F BB MI) (.select s) = true := Bool.false_ne_true
      have hblock : (F.insts BB).filter (namesResult (mergedSelects F BB MI)) =
          seq.filter (namesResult (mergedSelects F BB MI)) ++
            rest.filter (namesResult (mergedSelects F BB MI)) := by
        rw [e.insts, List.filter_append pre, filter_eq_nil_of_false hpre, List.nil_append,
          List.filter_cons_of_neg hselect, List.filter_append]
      rw [hblock, List.filter_append]
      simpa only [List.filter_append, filter_eq_nil_of_false hothers, List.append_nil,
        filter_namesResult_nonSelects] using hperm
    · intro I hI
      rw [hf.insts_head, hf.insts_ifFalse, List.append_nil] at hI
      cases hdbg : I.isDebugInstr with
      | false => rw [namesResult, hdbg, Bool.false_and]
      | true =>
        rcases List.mem_append.mp ((debug_mem_updatePhis hdbg).mp hI) with hkept | hbranch
        · rcases List.mem_append.mp hkept with h | h
          · exact hpre I h
          · exact hothers I h
        · rw [List.mem_singleton.mp hbranch] at hdbg
          cases hdbg

end

/-! ### The sequences of the condition -/

/-- A mergeable sequence that ends in a select lies within what the loop merges. -/
theorem Scanned.covers {s t : SelectPseudo} {k m : ℕ} {ps : List ℕ}
    {init rest : List MachineInstr} (h : Scanned s k (init ++ [MachineInstr.select t] ++ rest) m ps)
    (hmer : Mergeable s.lhs s.rhs s.cc [s.dst] (init ++ [.select t])) :
    ∃ b, (init ++ [MachineInstr.select t] ++ rest).take m = init ++ b := by
  have hmer' : Mergeable s.lhs s.rhs s.cc [s.dst, s.dst] (init ++ [.select t]) :=
    hmer.anti (by simp)
  have hle := scanSequence_maximal rest (k + 1)
    ⟨[s.dst, s.dst], k, collectDebugValues s.dst (k + 1) (init ++ [.select t] ++ rest)⟩ hmer'
  have hlast := h.lastSelectPseudo
  rw [List.append_assoc, List.singleton_append] at hlast hle ⊢
  rw [hlast] at hle
  refine ⟨(MachineInstr.select t :: rest).take (m - init.length), ?_⟩
  rw [List.take_append, List.take_of_length_le (by omega)]

theorem namesResult_mono {merged merged' : List SelectPseudo} {D : MachineInstr}
    (hsub : ∀ u ∈ merged, u ∈ merged') (h : namesResult merged D = true) :
    namesResult merged' D = true := by
  obtain ⟨hdbg, u, hu, hdst⟩ := namesResult_iff.mp h
  exact namesResult_iff.mpr ⟨hdbg, u, hsub u hu, hdst⟩

theorem namesResult_before {a b m : List MachineInstr} {D : MachineInstr} (pre : List MachineInstr)
    (hafter : DebugAfterDefs (pre ++ (a ++ D :: b) ++ m))
    (h : namesResult ((a ++ D :: b).filterMap MachineInstr.asSelect) D = true) :
    namesResult (a.filterMap MachineInstr.asSelect) D = true := by
  have hsplit : pre ++ (a ++ D :: b) ++ m = (pre ++ a ++ [D]) ++ (b ++ m) := by simp
  have hbehind : namesResult ((b ++ m).filterMap MachineInstr.asSelect) D = false := by
    apply not_namesResult_before (hsplit ▸ hafter)
    exact List.mem_append_right _ (List.mem_singleton_self D)
  obtain ⟨hdbg, u, hu, hdst⟩ := namesResult_iff.mp h
  rw [List.filterMap_append, List.mem_append,
    List.filterMap_cons_none (D.debug_asSelect hdbg)] at hu
  rcases hu with hu | hu
  · exact namesResult_iff.mpr ⟨hdbg, u, hu, hdst⟩
  · have hnames : namesResult ((b ++ m).filterMap MachineInstr.asSelect) D = true := by
      refine namesResult_iff.mpr ⟨hdbg, u, ?_, hdst⟩
      rw [List.filterMap_append]
      exact List.mem_append_left _ hu
    rw [hbehind] at hnames
    cases hnames

theorem Scanned.debug_before_last {s : SelectPseudo} {k : ℕ} {l : List MachineInstr} {m : ℕ}
    {ps : List ℕ} (h : Scanned s k l m ps) {a b : List MachineInstr} {D : MachineInstr}
    (hdbg : D.isDebugInstr = true) (hsplit : l.take m = a ++ D :: b) :
    ∃ init t b', l.take m = init ++ [.select t] ∧ init = a ++ D :: b' := by
  rcases h.last with hnil | ⟨init, t, hlast⟩
  · rw [hsplit] at hnil
    exact absurd hnil (List.append_ne_nil_of_right_ne_nil a (List.cons_ne_nil D b))
  · have happend := hsplit.symm.trans hlast
    rcases List.eq_nil_or_concat' b with rfl | ⟨b', I, rfl⟩
    · obtain ⟨-, hD⟩ := List.append_inj' happend rfl
      cases hD
      cases hdbg
    · rw [← List.cons_append, ← List.append_assoc] at happend
      obtain ⟨hinit, -⟩ := List.append_inj' happend rfl
      exact ⟨init, t, b', hlast, hinit.symm⟩

section
variable {F : MachineFunction} {BB : MBB} {s : SelectPseudo} {k : ℕ} {l : List MachineInstr}
  {m : ℕ} {ps : List ℕ} {pre : List MachineInstr}

/-- What no debug instruction left in HeadMBB says of any mergeable sequence: it is a
front part of the one the loop merged. -/
theorem Scanned.inRuns_of_others (h : Scanned s k l m ps)
    (hinsts : F.insts BB = pre ++ .select s :: l) (hpre : pre.length = k)
    (hothers : ∀ I ∈ (dropAt ps (k + 1) (l.take m)).filter fun I => !I.isSelectPseudo,
      namesResult ((MachineInstr.select s :: l.take m).filterMap MachineInstr.asSelect) I = false) :
    DebugInRuns F BB k := by
  intro pre' s' init t rest hinsts' hpre' hmer a D b hinit hname
  obtain ⟨rfl, hl⟩ := List.append_inj (hinsts.symm.trans hinsts') (hpre.trans hpre'.symm)
  cases hl
  obtain ⟨c, hc⟩ := h.covers hmer
  have hsplit : (init ++ [MachineInstr.select t] ++ rest).take m = a ++ D :: (b ++ c) := by
    rw [hc, hinit, List.append_assoc, List.cons_append]
  by_contra hnot
  have hstays := hothers D ((h.stays_iff (namesResult_iff.mp hname).1).mpr ⟨a, _, hsplit, hnot⟩)
  have hmore : namesResult ((MachineInstr.select s ::
      (init ++ [MachineInstr.select t] ++ rest).take m).filterMap MachineInstr.asSelect) D =
      true := by
    apply namesResult_mono _ hname
    intro u hu
    rw [hsplit, ← List.cons_append, List.filterMap_append]
    exact List.mem_append_left _ hu
  rw [hstays] at hmore
  cases hmore

/-- The merged sequence is itself one of the sequences of the condition. -/
theorem Scanned.others_of_inRuns (h : Scanned s k l m ps)
    (hinsts : F.insts BB = pre ++ .select s :: l) (hpre : pre.length = k)
    (hafter : DebugAfterDefs (F.insts BB)) (hruns : DebugInRuns F BB k) :
    ∀ I ∈ (dropAt ps (k + 1) (l.take m)).filter fun I => !I.isSelectPseudo,
      namesResult ((MachineInstr.select s :: l.take m).filterMap MachineInstr.asSelect) I =
        false := by
  intro D hD
  cases hname : namesResult ((MachineInstr.select s :: l.take m).filterMap
    MachineInstr.asSelect) D with
  | false => rfl
  | true =>
    have hdbg := (namesResult_iff.mp hname).1
    obtain ⟨a, b, hsplit, hnot⟩ := (h.stays_iff hdbg).mp hD
    obtain ⟨init, t, b', hlast, hinit⟩ := h.debug_before_last hdbg hsplit
    have hblock : F.insts BB = pre ++ .select s :: (l.take m ++ l.drop m) := by
      rw [List.take_append_drop]
      exact hinsts
    have hafter' : DebugAfterDefs (pre ++ (.select s :: a ++ D :: b) ++ l.drop m) := by
      rw [hsplit, ← List.cons_append, ← List.cons_append, ← List.append_assoc] at hblock
      exact hblock ▸ hafter
    have hmer : Mergeable s.lhs s.rhs s.cc [s.dst] (init ++ [.select t]) := hlast ▸ h.mergeable
    rw [hsplit, ← List.cons_append] at hname
    rw [hlast] at hblock
    have hcollected := hruns pre s init t _ hblock hpre hmer a D b' hinit
      (namesResult_before pre hafter' hname)
    exact absurd hcollected hnot

end

theorem debugFollowsPhis_iff {F : MachineFunction} (hF : F.SSA) {BB : MBB} (hb : BB ∈ F.layout)
    {MI : ℕ} {s : SelectPseudo} (hMI : (F.insts BB)[MI]? = some (.select s))
    (hafter : DebugAfterDefs (F.insts BB)) :
    DebugFollowsPhis F BB MI ↔ DebugInRuns F BB MI := by
  obtain ⟨l, hinsts, hpre⟩ := exists_split hMI
  obtain ⟨brCond, hbr⟩ := getBrCond_isSome s.cc
    (hF.select_cc BB hb s (List.mem_of_getElem? hMI))
  have hops := hF.select_operands hb hinsts
  have htrue : s.trueV ≠ s.dst := (hops _ (by simp)).2
  have hfalse : s.falseV ≠ s.dst := (hops _ (by simp)).2
  obtain ⟨m, ps, h⟩ := scanSequence_spec s MI l
  have hmerged := h.mergedSelects_eq htrue hfalse hinsts hpre
  have e := h.expansion hbr htrue hfalse hinsts hpre
  rw [e.followsPhis_iff_others hF hb hafter hmerged, hmerged]
  exact ⟨h.inRuns_of_others hinsts hpre, h.others_of_inRuns hinsts hpre hafter⟩

instance (l : List MachineInstr) : Decidable (DebugAfterDefs l) :=
  inferInstanceAs (Decidable (List.Pairwise _ l))

theorem debugFollowsPhis_iff_selectLoop :
    DebugFollowsPhis selectLoop 1 1 ↔ DebugInRuns selectLoop 1 1 :=
  debugFollowsPhis_iff selectLoop_ssa (by decide) (s := ⟨4, 3, 2, .condLt, 1, 2⟩) (by decide)
    (by decide)

/-- Two selects on one condition; an ordinary instruction stands between the first and
its debug value. -/
def separatedDebug : MachineFunction where
  layout := [0]
  insts _ := [.ordinary ⟨0, [1, 2], [], [7, 9], false, false, false⟩,
    .select ⟨4, 1, 2, .condLt, 1, 2⟩,
    .ordinary ⟨1, [6], [1], [1], false, false, false⟩,
    .debug true [4],
    .select ⟨5, 1, 2, .condLt, 2, 1⟩,
    .pseudoRET [4, 5]]
  succs _ := []

theorem separatedDebug_ssa : separatedDebug.SSA where
  layout_ne := by decide
  layout_nodup := by decide
  defs_nodup := by decide
  uses_dominated := by
    intro b _
    simp [separatedDebug, UsesDefined, MachineInstr.orderedUses, MachineInstr.uses,
      MachineInstr.defs]
  phi_dominated := by
    intro b _ d inc hphi
    simp [separatedDebug] at hphi
  phi_incoming := by
    intro b _ d inc hphi
    simp [separatedDebug] at hphi
  phis_first := by decide
  terminators_last := by decide
  succs_in := by decide
  targets_in := by decide
  falls_through := by
    intro b _ hbar
    exact absurd (hbar (.pseudoRET [4, 5]) (by simp [separatedDebug])) (by decide)
  select_cc := by
    intro b _ s hs
    have : s = ⟨4, 1, 2, .condLt, 1, 2⟩ ∨ s = ⟨5, 1, 2, .condLt, 2, 1⟩ := by
      simpa [separatedDebug] using hs
    rcases this with rfl | rfl <;> decide

/-- The debug value stays in HeadMBB, ahead of the PHI that defines its register. -/
theorem separatedDebug_stays : separatedDebug.SSA ∧ DebugAfterDefs (separatedDebug.insts 0) ∧
    ¬ DebugFollowsPhis separatedDebug 0 1 := by
  refine ⟨separatedDebug_ssa, by decide, ?_⟩
  intro hfollows
  obtain ⟨F', tailMBB, ifFalseMBB, moved, hemit, -, -, hnone⟩ := hfollows
  have hhead : (emitSelectPseudo separatedDebug 0 1).map (fun r => r.1.insts 0) =
      some [.ordinary ⟨0, [1, 2], [], [7, 9], false, false, false⟩,
        .ordinary ⟨1, [6], [1], [1], false, false, false⟩, .debug true [4], .branch .blt 1 2 1] :=
    rfl
  rw [hemit, Option.map_some, Option.some_inj] at hhead
  have hnames := hnone (.debug true [4])
    (List.mem_append_left _ (by rw [hhead]; decide))
  exact absurd hnames (by decide)

end ToyRiscv
