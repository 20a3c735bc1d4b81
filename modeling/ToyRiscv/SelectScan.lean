import ToyRiscv.EmitSelect

/-!
# What the scan accepts

Everything later proofs use of the loop in `emitSelectPseudo`: the instructions
between the select and the last accepted one are `Mergeable`, and the positions
it collects are those of debug instructions, each once.
-/

namespace ToyRiscv
open Lib.Positions

/-- Instructions the loop steps over with `S` as `SelectDests`. -/
inductive Mergeable (LHS RHS : Register) (CC : CondCode) : List Register → List MachineInstr → Prop
  | nil (S) : Mergeable LHS RHS CC S []
  | debug {S I l} (hdbg : I.isDebugInstr = true) (hl : Mergeable LHS RHS CC S l) :
      Mergeable LHS RHS CC S (I :: l)
  | select {S l} (s : SelectPseudo) (hlhs : s.lhs = LHS) (hrhs : s.rhs = RHS) (hcc : s.cc = CC)
      (htrue : s.trueV ∉ S) (hfalse : s.falseV ∉ S)
      (hl : Mergeable LHS RHS CC (s.dst :: S) l) : Mergeable LHS RHS CC S (.select s :: l)
  | other {S I l} (hdbg : I.isDebugInstr = false) (hsel : I.asSelect = none)
      (heff : I.hasUnmodeledSideEffects = false) (hmem : I.mayLoadOrStore = false)
      (huses : ∀ r ∈ I.uses, r ∉ S) (hl : Mergeable LHS RHS CC S l) :
      Mergeable LHS RHS CC S (I :: l)

variable {LHS RHS : Register} {CC : CondCode}

theorem Mergeable.anti {S T : List Register} {l : List MachineInstr}
    (h : Mergeable LHS RHS CC S l) (hsub : ∀ r ∈ T, r ∈ S) : Mergeable LHS RHS CC T l := by
  induction h generalizing T with
  | nil => exact .nil T
  | debug hdbg _ ih => exact .debug hdbg (ih hsub)
  | select s hlhs hrhs hcc htrue hfalse _ ih =>
    refine .select s hlhs hrhs hcc (fun h => htrue (hsub _ h)) (fun h => hfalse (hsub _ h)) (ih ?_)
    intro r hr
    rcases List.mem_cons.mp hr with he | hr
    · exact List.mem_cons.mpr (Or.inl he)
    · exact List.mem_cons.mpr (Or.inr (hsub r hr))
  | other hdbg hsel heff hmem huses _ ih =>
    exact .other hdbg hsel heff hmem (fun r hr h => huses r hr (hsub r h)) (ih hsub)

/-! ### One iteration of the loop -/

/-- The loop stops at `I`, skips a debug instruction, accepts a select or steps over
another instruction. -/
theorem scanSequence_cases (LHS RHS : Register) (CC : CondCode) (k : ℕ) (I : MachineInstr)
    (l : List MachineInstr) (q : SelectSequence) :
    scanSequence LHS RHS CC k (I :: l) q = q ∨
    (I.isDebugInstr = true ∧
      scanSequence LHS RHS CC k (I :: l) q = scanSequence LHS RHS CC (k + 1) l q) ∨
    (∃ s, I = .select s ∧ s.lhs = LHS ∧ s.rhs = RHS ∧ s.cc = CC ∧
      s.trueV ∉ q.selectDests ∧ s.falseV ∉ q.selectDests ∧
      scanSequence LHS RHS CC k (I :: l) q = scanSequence LHS RHS CC (k + 1) l
        ⟨s.dst :: q.selectDests, k,
          q.selectDebugValues ++ collectDebugValues s.dst (k + 1) l⟩) ∨
    (I.isDebugInstr = false ∧ I.asSelect = none ∧ I.hasUnmodeledSideEffects = false ∧
      I.mayLoadOrStore = false ∧ (∀ r ∈ I.uses, r ∉ q.selectDests) ∧
      scanSequence LHS RHS CC k (I :: l) q = scanSequence LHS RHS CC (k + 1) l q) := by
  rw [scanSequence]
  by_cases hdbg : I.isDebugInstr = true
  · exact Or.inr (Or.inl ⟨hdbg, if_pos hdbg⟩)
  rw [if_neg hdbg]
  cases hsel : I.asSelect with
  | some s =>
    simp only []
    split
    · exact Or.inl rfl
    · rename_i hc
      simp only [not_or, not_not, ne_eq] at hc
      obtain ⟨hlhs, hrhs, hcc, htrue, hfalse⟩ := hc
      exact Or.inr (Or.inr (Or.inl ⟨s, MachineInstr.asSelect_eq_some.mp hsel, hlhs, hrhs, hcc,
        htrue, hfalse, rfl⟩))
  | none =>
    simp only []
    split
    · exact Or.inl rfl
    · rename_i hflags
      simp only [Bool.or_eq_true, not_or, Bool.not_eq_true] at hflags
      split
      · exact Or.inl rfl
      · rename_i huses
        simp only [List.any_eq_true, decide_eq_true_eq, not_exists, not_and] at huses
        have hdebug : I.isDebugInstr = false := by simpa using hdbg
        exact Or.inr (Or.inr (Or.inr ⟨hdebug, trivial, hflags.1, hflags.2, huses, rfl⟩))

/-- The loop stops where it started or behind an accepted select. -/
theorem scanSequence_last (LHS RHS : Register) (CC : CondCode) (l : List MachineInstr) :
    ∀ (k : ℕ) (q : SelectSequence),
    (scanSequence LHS RHS CC k l q).lastSelectPseudo = q.lastSelectPseudo ∨
    ∃ n, (scanSequence LHS RHS CC k l q).lastSelectPseudo = k + n ∧
      Mergeable LHS RHS CC q.selectDests (l.take (n + 1)) ∧ ∃ s, l[n]? = some (.select s) := by
  induction l with
  | nil => exact fun k q => Or.inl rfl
  | cons I l ih =>
    intro k q
    rcases scanSequence_cases LHS RHS CC k I l q with h | ⟨hdbg, h⟩ |
      ⟨s, rfl, hlhs, hrhs, hcc, htrue, hfalse, h⟩ | ⟨hdbg, hsel, heff, hmem, huses, h⟩
    · exact Or.inl (congrArg _ h)
    · rw [h]
      rcases ih (k + 1) q with h | ⟨n, hn, hm, hs⟩
      · exact Or.inl h
      · exact Or.inr ⟨n + 1, by omega, .debug hdbg hm, hs⟩
    · rw [h]
      rcases ih (k + 1) ⟨s.dst :: q.selectDests, k,
        q.selectDebugValues ++ collectDebugValues s.dst (k + 1) l⟩ with h | ⟨n, hn, hm, hs⟩
      · exact Or.inr ⟨0, h, .select s hlhs hrhs hcc htrue hfalse (.nil _), s, rfl⟩
      · exact Or.inr ⟨n + 1, by omega, .select s hlhs hrhs hcc htrue hfalse hm, hs⟩
    · rw [h]
      rcases ih (k + 1) q with h | ⟨n, hn, hm, hs⟩
      · exact Or.inl h
      · exact Or.inr ⟨n + 1, by omega, .other hdbg hsel heff hmem huses hm, hs⟩

/-! ### Collected debug values -/

def InDebugRun (k : ℕ) (l : List MachineInstr) (p : ℕ) : Prop :=
  ∀ j, k ≤ j → j ≤ p → ∃ I, elemAt k l j = some I ∧ I.isDebugInstr = true

theorem InDebugRun.cons {I : MachineInstr} (hdbg : I.isDebugInstr = true) {k p : ℕ}
    {l : List MachineInstr} (h : InDebugRun (k + 1) l p) : InDebugRun k (I :: l) p := by
  intro j hkj hjp
  by_cases hj : j = k
  · subst hj
    exact ⟨I, elemAt_self j I l, hdbg⟩
  · rw [elemAt_cons_ne k I l hj]
    exact h j (by omega) hjp

theorem InDebugRun.tail {I : MachineInstr} {k p : ℕ} {l : List MachineInstr}
    (h : InDebugRun k (I :: l) p) : InDebugRun (k + 1) l p := by
  intro j hkj hjp
  obtain ⟨J, hJ, hdbg⟩ := h j (by omega) hjp
  rw [elemAt_cons_ne k I l (by omega)] at hJ
  exact ⟨J, hJ, hdbg⟩

theorem collectDebugValues_stop (dst : Register) {I : MachineInstr}
    (h : ∀ regs, I ≠ .debug true regs) (k : ℕ) (l : List MachineInstr) :
    collectDebugValues dst k (I :: l) = [] := by
  unfold collectDebugValues
  split
  · rename_i heq
    exact absurd (List.cons.inj heq).1 (h _)
  · rfl

theorem collectDebugValues_spec (dst : Register) (l : List MachineInstr) : ∀ k : ℕ,
    (collectDebugValues dst k l).Nodup ∧
      ∀ p ∈ collectDebugValues dst k l, k ≤ p ∧ InDebugRun k l p := by
  induction l with
  | nil => exact fun k => ⟨List.nodup_nil, by simp [collectDebugValues]⟩
  | cons I l ih =>
    intro k
    obtain ⟨hnd, hrun⟩ := ih (k + 1)
    by_cases hI : ∃ regs, I = .debug true regs
    · obtain ⟨regs, rfl⟩ := hI
      have hdbg : (MachineInstr.debug true regs).isDebugInstr = true := rfl
      have hlater : ∀ p ∈ collectDebugValues dst (k + 1) l,
          k ≤ p ∧ InDebugRun k (.debug true regs :: l) p :=
        fun p hp => ⟨by have := (hrun p hp).1; omega, (hrun p hp).2.cons hdbg⟩
      simp only [collectDebugValues]
      split
      · refine ⟨List.nodup_cons.mpr ⟨fun h => ?_, hnd⟩, fun p hp => ?_⟩
        · have := (hrun k h).1
          omega
        · rcases List.mem_cons.mp hp with rfl | hp
          · refine ⟨Nat.le_refl _, fun j hkj hjp => ?_⟩
            have hj : j = p := by omega
            subst hj
            exact ⟨_, elemAt_self _ _ _, hdbg⟩
          · exact hlater p hp
      · exact ⟨hnd, hlater⟩
    · rw [collectDebugValues_stop dst (fun regs h => hI ⟨regs, h⟩)]
      exact ⟨List.nodup_nil, by simp⟩

/-- Collected positions lie before the loop position or in the debug run there. -/
def CollectedInv (k : ℕ) (l : List MachineInstr) (ps : List ℕ) : Prop :=
  ps.Nodup ∧ ∀ p ∈ ps, p < k ∨ InDebugRun k l p

theorem CollectedInv.step {I : MachineInstr} {k : ℕ} {l : List MachineInstr} {ps : List ℕ}
    (h : CollectedInv k (I :: l) ps) : CollectedInv (k + 1) l ps :=
  ⟨h.1, fun p hp => (h.2 p hp).imp (by omega) InDebugRun.tail⟩

/-- At an instruction that is no debug instruction no collected run is open. -/
theorem CollectedInv.lt {I : MachineInstr} (hdbg : I.isDebugInstr = false) {k : ℕ}
    {l : List MachineInstr} {ps : List ℕ} (h : CollectedInv k (I :: l) ps) : ∀ p ∈ ps, p < k := by
  intro p hp
  rcases h.2 p hp with hlt | hrun
  · exact hlt
  · by_contra hge
    obtain ⟨J, hJ, hJd⟩ := hrun k (Nat.le_refl k) (by omega)
    rw [elemAt_self, Option.some.injEq] at hJ
    subst hJ
    rw [hdbg] at hJd
    cases hJd

theorem CollectedInv.select {s : SelectPseudo} {k : ℕ} {l : List MachineInstr} {ps : List ℕ}
    (h : CollectedInv k (.select s :: l) ps) :
    CollectedInv (k + 1) l (ps ++ collectDebugValues s.dst (k + 1) l) := by
  obtain ⟨hnd, hrun⟩ := collectDebugValues_spec s.dst l (k + 1)
  have hlt := h.lt rfl
  refine ⟨List.nodup_append.mpr ⟨h.1, hnd, fun a ha b hb hab => ?_⟩, fun p hp => ?_⟩
  · have h1 := hlt a ha
    have h2 := (hrun b hb).1
    omega
  · rcases List.mem_append.mp hp with hp | hp
    · exact Or.inl (Nat.lt_succ_of_lt (hlt p hp))
    · exact Or.inr (hrun p hp).2

theorem scanSequence_nodup (l : List MachineInstr) : ∀ (k : ℕ) (q : SelectSequence),
    CollectedInv k l q.selectDebugValues →
    (scanSequence LHS RHS CC k l q).selectDebugValues.Nodup := by
  induction l with
  | nil => exact fun k q hq => hq.1
  | cons I l ih =>
    intro k q hq
    rcases scanSequence_cases LHS RHS CC k I l q with h | ⟨-, h⟩ |
      ⟨s, rfl, -, -, -, -, -, h⟩ | ⟨-, -, -, -, -, h⟩
    · rw [h]
      exact hq.1
    · rw [h]
      exact ih (k + 1) q hq.step
    · rw [h]
      exact ih (k + 1) _ hq.select
    · rw [h]
      exact ih (k + 1) q hq.step

theorem scanSequence_debug (l : List MachineInstr) : ∀ (k : ℕ) (q : SelectSequence),
    ∀ p ∈ (scanSequence LHS RHS CC k l q).selectDebugValues, p ∈ q.selectDebugValues ∨
      k ≤ p ∧ ∃ I, elemAt k l p = some I ∧ I.isDebugInstr = true := by
  induction l with
  | nil => exact fun k q p hp => Or.inl hp
  | cons I l ih =>
    -- a collected position of the tail is one of the whole list
    have hshift : ∀ k p, (k + 1 ≤ p ∧ ∃ J, elemAt (k + 1) l p = some J ∧ J.isDebugInstr = true) →
        k ≤ p ∧ ∃ J, elemAt k (I :: l) p = some J ∧ J.isDebugInstr = true := by
      rintro k p ⟨hp, J, hJ, hdbg⟩
      exact ⟨by omega, J, by rw [elemAt_cons_ne k I l (by omega), hJ], hdbg⟩
    intro k q p hp
    rcases scanSequence_cases LHS RHS CC k I l q with h | ⟨-, h⟩ |
      ⟨s, rfl, -, -, -, -, -, h⟩ | ⟨-, -, -, -, -, h⟩
    · rw [h] at hp
      exact Or.inl hp
    · rw [h] at hp
      exact (ih (k + 1) q p hp).imp_right (hshift k p)
    · rw [h] at hp
      rcases ih (k + 1) _ p hp with h | h
      · rcases List.mem_append.mp h with h | h
        · exact Or.inl h
        · obtain ⟨hkp, hrun⟩ := (collectDebugValues_spec s.dst l (k + 1)).2 p h
          exact Or.inr (hshift k p ⟨hkp, hrun p hkp (Nat.le_refl p)⟩)
      · exact Or.inr (hshift k p h)
    · rw [h] at hp
      exact (ih (k + 1) q p hp).imp_right (hshift k p)

/-! ### The expansion as a rewriting of one block -/

/-- How `emitSelectPseudo` takes the block apart: `pre` stands before the select
`s`, `seq` are the merged instructions and `rest` follows them; `others` and
`after` are what stays of the latter two once the debug values are taken out. -/
structure Expansion (F : MachineFunction) (BB : MBB) (MI : ℕ) (s : SelectPseudo)
    (brCond : BranchOp) (pre seq rest debugValues others after : List MachineInstr) : Prop where
  cond : getBrCond s.cc = some brCond
  insts : F.insts BB = pre ++ (.select s :: (seq ++ rest))
  position : pre.length = MI
  mergeable : Mergeable s.lhs s.rhs s.cc [s.dst] seq
  last : seq = [] ∨ ∃ init t, seq = init ++ [.select t]
  debugValues_debug : ∀ I ∈ debugValues, I.isDebugInstr = true
  others_nonDebug : nonDebug others = nonDebug (seq.filter fun I => !I.isSelectPseudo)
  others_sublist : others.Sublist (seq.filter fun I => !I.isSelectPseudo)
  after_nonDebug : nonDebug after = nonDebug rest
  after_sublist : after.Sublist rest
  perm : (debugValues ++ others ++ after).Perm ((seq.filter fun I => !I.isSelectPseudo) ++ rest)
  emitted : emitSelectPseudo F BB MI = some
    (splitBlock F BB F.freshBlock (F.freshBlock + 1)
      (pre ++ others ++ [.branch brCond s.lhs s.rhs F.freshBlock])
      ((s :: seq.filterMap MachineInstr.asSelect).map (selectPhi BB (F.freshBlock + 1)) ++
        debugValues ++ after), F.freshBlock)

theorem scanSequence_self (s : SelectPseudo) (k : ℕ) (l : List MachineInstr)
    (htrue : s.trueV ≠ s.dst) (hfalse : s.falseV ≠ s.dst) :
    scanSequence s.lhs s.rhs s.cc k (.select s :: l) ⟨[s.dst], k, []⟩ =
      scanSequence s.lhs s.rhs s.cc (k + 1) l
        ⟨[s.dst, s.dst], k, collectDebugValues s.dst (k + 1) l⟩ := by
  rw [scanSequence]
  simp [MachineInstr.isDebugInstr, MachineInstr.asSelect, htrue, hfalse]

theorem perm_of_filter_perm {α : Type*} (p : α → Bool) (d ds l after rest : List α)
    (hsame : ds.filter p = l.filter p) (h : (d ++ (ds ++ after)).Perm (l ++ rest)) :
    (d ++ ds.filter (fun a => !p a) ++ after).Perm (l.filter (fun a => !p a) ++ rest) := by
  have hds := List.filter_append_perm p ds
  have hl := List.filter_append_perm p l
  apply (List.perm_append_left_iff (l.filter p)).mp
  calc (l.filter p ++ (d ++ ds.filter (fun a => !p a) ++ after)).Perm
        (d ++ ((ds.filter p ++ ds.filter fun a => !p a) ++ after)) := by
        rw [hsame]
        simp only [List.append_assoc]
        exact List.perm_append_comm_assoc _ _ _
    List.Perm _ (d ++ (ds ++ after)) := (hds.append_right after).append_left d
    List.Perm _ (l ++ rest) := h
    List.Perm _ ((l.filter p ++ l.filter fun a => !p a) ++ rest) := hl.symm.append_right rest
    _ = l.filter p ++ ((l.filter fun a => !p a) ++ rest) := List.append_assoc ..

/-- What the loop leaves behind from the select at position `k` with `l` behind it: it
has merged the first `m` instructions, up to a select, and collected the positions
`ps` of debug instructions. -/
structure Scanned (s : SelectPseudo) (k : ℕ) (l : List MachineInstr) (m : ℕ)
    (ps : List ℕ) : Prop where
  le : m ≤ l.length
  lastSelectPseudo : (scanSequence s.lhs s.rhs s.cc (k + 1) l
    ⟨[s.dst, s.dst], k, collectDebugValues s.dst (k + 1) l⟩).lastSelectPseudo = k + m
  selectDebugValues : (scanSequence s.lhs s.rhs s.cc (k + 1) l
    ⟨[s.dst, s.dst], k, collectDebugValues s.dst (k + 1) l⟩).selectDebugValues = ps
  mergeable : Mergeable s.lhs s.rhs s.cc [s.dst] (l.take m)
  last : l.take m = [] ∨ ∃ init t, l.take m = init ++ [.select t]
  nodup : ps.Nodup
  behind : ∀ p ∈ ps, k + 1 ≤ p
  debug : ∀ p ∈ ps, ∀ I, elemAt (k + 1) l p = some I → I.isDebugInstr = true

theorem scanSequence_spec (s : SelectPseudo) (k : ℕ) (l : List MachineInstr) :
    ∃ m ps, Scanned s k l m ps := by
  obtain ⟨hnd, hrun⟩ := collectDebugValues_spec s.dst l (k + 1)
  have hpos : ∀ p ∈ (scanSequence s.lhs s.rhs s.cc (k + 1) l
      ⟨[s.dst, s.dst], k, collectDebugValues s.dst (k + 1) l⟩).selectDebugValues,
      k + 1 ≤ p ∧ ∃ I, elemAt (k + 1) l p = some I ∧ I.isDebugInstr = true := by
    intro p hp
    rcases scanSequence_debug l _ _ p hp with h | h
    · exact ⟨(hrun p h).1, (hrun p h).2 p (hrun p h).1 (Nat.le_refl p)⟩
    · exact h
  have hlast : ∃ m, m ≤ l.length ∧
      (scanSequence s.lhs s.rhs s.cc (k + 1) l
        ⟨[s.dst, s.dst], k, collectDebugValues s.dst (k + 1) l⟩).lastSelectPseudo = k + m ∧
      Mergeable s.lhs s.rhs s.cc [s.dst] (l.take m) ∧
      (l.take m = [] ∨ ∃ init t, l.take m = init ++ [.select t]) := by
    rcases scanSequence_last s.lhs s.rhs s.cc l (k + 1)
      ⟨[s.dst, s.dst], k, collectDebugValues s.dst (k + 1) l⟩ with h | ⟨n, hn, hmer, t, ht⟩
    · exact ⟨0, Nat.zero_le _, h, .nil _, Or.inl rfl⟩
    · refine ⟨n + 1, (List.getElem?_eq_some_iff.mp ht).1, by omega, hmer.anti (by simp),
        Or.inr ⟨l.take n, t, ?_⟩⟩
      rw [List.take_add_one, ht]
      rfl
  obtain ⟨m, hm, hq, hmer, hend⟩ := hlast
  refine ⟨m, _, hm, hq, rfl, hmer, hend, ?_, fun p hp => (hpos p hp).1, fun p hp I hI => ?_⟩
  · exact scanSequence_nodup l _ _ ⟨hnd, fun p hp => Or.inr (hrun p hp).2⟩
  · obtain ⟨-, J, hJ, hdbg⟩ := hpos p hp
    rw [hI, Option.some.injEq] at hJ
    exact hJ ▸ hdbg

section
variable {s : SelectPseudo} {k : ℕ} {l : List MachineInstr} {m : ℕ} {ps : List ℕ}

theorem Scanned.length_seq (h : Scanned s k l m ps) : (l.take m).length = m := by
  rw [List.length_take, Nat.min_eq_left h.le]

theorem Scanned.debug_seq (h : Scanned s k l m ps) : ∀ p ∈ ps, ∀ I,
    elemAt (k + 1) (l.take m) p = some I → I.isDebugInstr = true := by
  intro p hp I hI
  apply h.debug p hp I
  rw [← List.take_append_drop m l]
  exact elemAt_append_left hI

theorem Scanned.debug_rest (h : Scanned s k l m ps) : ∀ p ∈ ps, ∀ I,
    elemAt (k + 1 + m) (l.drop m) p = some I → I.isDebugInstr = true := by
  intro p hp I hI
  have hle : k + 1 + m ≤ p := by
    by_contra hlt
    rw [elemAt, if_pos (by omega)] at hI
    cases hI
  apply h.debug p hp I
  rw [← List.take_append_drop m l, elemAt_append_right _ _ _ (by rw [h.length_seq]; exact hle),
    h.length_seq, hI]

/-- The segments the source cuts out of the block, and what it makes of them. -/
theorem Scanned.emitted {F : MachineFunction} {BB : MBB} {brCond : BranchOp}
    {pre : List MachineInstr} (h : Scanned s k l m ps) (hbr : getBrCond s.cc = some brCond)
    (htrue : s.trueV ≠ s.dst) (hfalse : s.falseV ≠ s.dst)
    (hinsts : F.insts BB = pre ++ .select s :: l) (hpre : pre.length = k) :
    emitSelectPseudo F BB k = some
      (splitBlock F BB F.freshBlock (F.freshBlock + 1)
        (pre ++ (dropAt ps (k + 1) (l.take m)).filter (fun I => !I.isSelectPseudo) ++
          [.branch brCond s.lhs s.rhs F.freshBlock])
        ((s :: (l.take m).filterMap MachineInstr.asSelect).map (selectPhi BB (F.freshBlock + 1)) ++
          pickAt ps (k + 1) l ++ dropAt ps (k + 1 + m) (l.drop m)), F.freshBlock) := by
  have hnot : k ∉ ps := fun hk => Nat.lt_irrefl k (h.behind k hk)
  have hMI : (F.insts BB)[k]? = some (.select s) := getElem?_split hinsts hpre
  have htakePre : (F.insts BB).take k = pre := by
    rw [hinsts, ← hpre, List.take_left]
  have hdrop : (F.insts BB).drop k = .select s :: l := drop_split hinsts hpre
  have htake := take_drop_split hinsts hpre m
  have hrest : (F.insts BB).drop (k + m + 1) = l.drop m := by
    rw [Nat.add_assoc, ← List.drop_drop, hdrop, List.drop_succ_cons]
  have hpick : pickAt ps 0 (F.insts BB) = pickAt ps (k + 1) l := by
    have hlen : 0 + (pre ++ [MachineInstr.select s]).length = k + 1 := by
      rw [List.length_append, hpre, Nat.zero_add]
      rfl
    have happ := pickAt_append_right ps 0 (pre ++ [MachineInstr.select s]) l
      fun p hp => hlen ▸ h.behind p hp
    rwa [List.append_assoc, List.singleton_append, ← hinsts, hlen] at happ
  have hsels : (dropAt ps k (.select s :: l.take m)).filterMap MachineInstr.asSelect =
      s :: (l.take m).filterMap MachineInstr.asSelect := by
    rw [dropAt, if_neg hnot, MachineInstr.filterMap_asSelect_cons,
      filterMap_dropAt _ _ _ _ fun p hp I hI => I.debug_asSelect (h.debug_seq p hp I hI)]
  have hothers : (dropAt ps k (.select s :: l.take m)).filter (fun I => !I.isSelectPseudo) =
      (dropAt ps (k + 1) (l.take m)).filter fun I => !I.isSelectPseudo := by
    rw [dropAt, if_neg hnot, List.filter_cons]
    rfl
  have hend : k + m + 1 = k + 1 + m := by omega
  simp only [emitSelectPseudo, hMI, Option.bind_some, MachineInstr.asSelect, hdrop,
    scanSequence_self s k l htrue hfalse, h.lastSelectPseudo, h.selectDebugValues, htakePre, htake,
    hrest, hpick, hsels, hothers, hbr, Option.map_some]
  rw [hend]

theorem Scanned.expansion {F : MachineFunction} {BB : MBB} {brCond : BranchOp}
    {pre : List MachineInstr} (h : Scanned s k l m ps) (hbr : getBrCond s.cc = some brCond)
    (htrue : s.trueV ≠ s.dst) (hfalse : s.falseV ≠ s.dst)
    (hinsts : F.insts BB = pre ++ .select s :: l) (hpre : pre.length = k) :
    Expansion F BB k s brCond pre (l.take m) (l.drop m) (pickAt ps (k + 1) l)
      ((dropAt ps (k + 1) (l.take m)).filter fun I => !I.isSelectPseudo)
      (dropAt ps (k + 1 + m) (l.drop m)) where
  cond := hbr
  insts := by rw [List.take_append_drop, ← hinsts]
  position := hpre
  mergeable := h.mergeable
  last := h.last
  debugValues_debug := by
    intro I hI
    obtain ⟨p, hp, hpI⟩ := List.mem_filterMap.mp hI
    exact h.debug p hp I hpI
  others_nonDebug := by
    rw [nonDebug, nonDebug, List.filter_filter, List.filter_filter]
    exact filter_dropAt _ _ _ _ fun p hp I hI => by simp [h.debug_seq p hp I hI]
  others_sublist := (dropAt_sublist _ _ _).filter _
  after_nonDebug := filter_dropAt _ _ _ _ fun p hp I hI => by simp [h.debug_rest p hp I hI]
  after_sublist := dropAt_sublist _ _ _
  perm := by
    refine perm_of_filter_perm MachineInstr.isSelectPseudo _ _ _ _ _ ?_ ?_
    · exact filter_dropAt _ _ _ _ fun p hp I hI => by
        simp [MachineInstr.isSelectPseudo, I.debug_asSelect (h.debug_seq p hp I hI)]
    · have hperm := pickAt_dropAt_perm ps h.nodup (k + 1) l
      rw [← List.take_append_drop m l, dropAt_append, h.length_seq] at hperm
      simpa only [List.take_append_drop] using hperm
  emitted := h.emitted hbr htrue hfalse hinsts hpre

end

theorem expansion_exists (F : MachineFunction) (BB : MBB) (MI : ℕ) (s : SelectPseudo)
    (hMI : (F.insts BB)[MI]? = some (.select s)) (hcc : s.cc ≠ .condInvalid)
    (htrue : s.trueV ≠ s.dst) (hfalse : s.falseV ≠ s.dst) :
    ∃ brCond pre seq rest debugValues others after,
      Expansion F BB MI s brCond pre seq rest debugValues others after := by
  obtain ⟨brCond, hbr⟩ := getBrCond_isSome s.cc hcc
  obtain ⟨l, hinsts, hpre⟩ := exists_split hMI
  obtain ⟨m, ps, h⟩ := scanSequence_spec s MI l
  exact ⟨brCond, _, _, _, _, _, _, h.expansion hbr htrue hfalse hinsts hpre⟩

end ToyRiscv
