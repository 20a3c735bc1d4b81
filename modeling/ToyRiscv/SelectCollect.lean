import ToyRiscv.SelectScan

/-!
# What the scan collects

Exactly which debug instructions the loop in `emitSelectPseudo` collects, and how far it
goes (TOYRISCVISelLowering.cpp:293-316).
-/

namespace ToyRiscv
open Lib.Positions

def MachineInstr.isDebugValue : MachineInstr → Bool
  | .debug isDebugValue _ => isDebugValue
  | _ => false

/-! ### Collected positions -/

/-- At position `p` stands a DBG_VALUE for `dst`, with nothing but DBG_VALUEs before it. -/
def InRunBehind (dst : Register) (k : ℕ) (l : List MachineInstr) (p : ℕ) : Prop :=
  ∃ D run t, l = run ++ D :: t ∧ p = k + run.length ∧
    (∀ I ∈ run, I.isDebugValue = true) ∧ D.isDebugValue = true ∧ dst ∈ D.uses

theorem inRunBehind_cons {dst : Register} {k : ℕ} {I : MachineInstr} {l : List MachineInstr}
    {p : ℕ} : InRunBehind dst k (I :: l) p ↔
      I.isDebugValue = true ∧ ((p = k ∧ dst ∈ I.uses) ∨ InRunBehind dst (k + 1) l p) := by
  simp only [InRunBehind, exists_occurrence_cons, add_length_cons, exists_or,
    List.forall_mem_cons, List.length_nil, Nat.add_zero]
  constructor
  · intro h
    rcases h with ⟨D, rfl, hp, -, hD, hdst⟩ | ⟨D, run, t, hl, hp, ⟨hI, hrun⟩, hD, hdst⟩
    · exact ⟨hD, Or.inl ⟨hp, hdst⟩⟩
    · exact ⟨hI, Or.inr ⟨D, run, t, hl, hp, hrun, hD, hdst⟩⟩
  · intro h
    obtain ⟨hI, ⟨hp, hdst⟩ | ⟨D, run, t, hl, hp, hrun, hD, hdst⟩⟩ := h
    · exact Or.inl ⟨I, rfl, hp, List.forall_mem_nil _, hI, hdst⟩
    · exact Or.inr ⟨D, run, t, hl, hp, ⟨hI, hrun⟩, hD, hdst⟩

theorem mem_collectDebugValues {dst : Register} {k : ℕ} {l : List MachineInstr} {p : ℕ} :
    p ∈ collectDebugValues dst k l ↔ InRunBehind dst k l p := by
  induction l generalizing k with
  | nil =>
    apply iff_of_false List.not_mem_nil
    intro h
    obtain ⟨D, hD⟩ := h
    exact not_exists_occurrence_nil hD
  | cons I l ih =>
    rw [inRunBehind_cons, ← ih]
    by_cases hI : ∃ regs, I = .debug true regs
    · obtain ⟨regs, rfl⟩ := hI
      have htrue : (MachineInstr.debug true regs).isDebugValue = true := rfl
      rw [and_iff_right htrue, collectDebugValues]
      split
      · rename_i hdst
        rw [List.mem_cons]
        exact or_congr_left (and_iff_left hdst).symm
      · rename_i hdst
        exact (or_iff_right fun h => hdst h.2).symm
    · have hfalse : ¬ I.isDebugValue = true := by
        intro h
        apply hI
        cases I with
        | debug v regs =>
          cases h
          exact ⟨regs, rfl⟩
        | _ => cases h
      rw [collectDebugValues_stop dst (fun regs h => hI ⟨regs, h⟩)]
      exact iff_of_false List.not_mem_nil fun h => hfalse h.1

/-- Position `p` is collected behind one of the selects of the list, no later than `last`. -/
def CollectedBehind (k : ℕ) (l : List MachineInstr) (last p : ℕ) : Prop :=
  ∃ u init t, l = init ++ MachineInstr.select u :: t ∧ k + init.length ≤ last ∧
    InRunBehind u.dst (k + init.length + 1) t p

theorem collectedBehind_cons {k : ℕ} {I : MachineInstr} {l : List MachineInstr} {last p : ℕ} :
    CollectedBehind k (I :: l) last p ↔
      (∃ u, I = .select u ∧ k ≤ last ∧ InRunBehind u.dst (k + 1) l p) ∨
        CollectedBehind (k + 1) l last p := by
  simp only [CollectedBehind, exists_occurrence_cons, add_length_cons, exists_or, List.length_nil,
    Nat.add_zero]

variable {LHS RHS : Register} {CC : CondCode}

theorem CollectedBehind.not_nil {k last p : ℕ} : ¬ CollectedBehind k [] last p := by
  intro h
  obtain ⟨u, hu⟩ := h
  exact not_exists_occurrence_nil hu

theorem CollectedBehind.le {k : ℕ} {l : List MachineInstr} {last p : ℕ}
    (h : CollectedBehind k l last p) : k ≤ last := by
  obtain ⟨u, init, t, -, hle, -⟩ := h
  omega

theorem collectedBehind_cons_of_asSelect {k : ℕ} {I : MachineInstr} (hI : I.asSelect = none)
    {l : List MachineInstr} {last p : ℕ} :
    CollectedBehind k (I :: l) last p ↔ CollectedBehind (k + 1) l last p := by
  rw [collectedBehind_cons, or_iff_right]
  intro h
  obtain ⟨u, rfl, -⟩ := h
  cases hI

theorem collectedBehind_cons_select {k : ℕ} {s : SelectPseudo} {l : List MachineInstr}
    {last p : ℕ} (hle : k ≤ last) : CollectedBehind k (.select s :: l) last p ↔
      p ∈ collectDebugValues s.dst (k + 1) l ∨ CollectedBehind (k + 1) l last p := by
  rw [collectedBehind_cons, mem_collectDebugValues]
  apply or_congr_left
  constructor
  · intro h
    obtain ⟨u, hu, -, hrun⟩ := h
    cases hu
    exact hrun
  · intro hrun
    exact ⟨s, rfl, hle, hrun⟩

theorem le_scanSequence_last (k : ℕ) (l : List MachineInstr) (dests : List Register)
    (ps : List ℕ) :
    k ≤ (scanSequence LHS RHS CC (k + 1) l ⟨dests, k, ps⟩).lastSelectPseudo := by
  rcases scanSequence_last LHS RHS CC l (k + 1) ⟨dests, k, ps⟩ with h | ⟨n, h, -⟩
  · exact h.ge
  · omega

theorem mem_scanSequence {l : List MachineInstr} {k : ℕ} {q : SelectSequence}
    (hlast : q.lastSelectPseudo < k) (p : ℕ) :
    p ∈ (scanSequence LHS RHS CC k l q).selectDebugValues ↔ p ∈ q.selectDebugValues ∨
      CollectedBehind k l (scanSequence LHS RHS CC k l q).lastSelectPseudo p := by
  induction l generalizing k q with
  | nil => exact (or_iff_left CollectedBehind.not_nil).symm
  | cons I l ih =>
    rcases scanSequence_cases LHS RHS CC k I l q with h | ⟨hdbg, h⟩ |
      ⟨s, rfl, -, -, -, -, -, h⟩ | ⟨-, hsel, -, -, -, h⟩
    · rw [h, or_iff_left]
      intro hbehind
      have := hbehind.le
      omega
    · rw [h, ih (by omega), collectedBehind_cons_of_asSelect (I.debug_asSelect hdbg)]
    · rw [h, ih (Nat.lt_succ_self k),
        collectedBehind_cons_select (le_scanSequence_last ..), List.mem_append, or_assoc]
    · rw [h, ih (by omega), collectedBehind_cons_of_asSelect hsel]

/-! ### How far the loop goes -/

theorem scanSequence_debug_cons {I : MachineInstr} (hdbg : I.isDebugInstr = true) (k : ℕ)
    (l : List MachineInstr) (q : SelectSequence) :
    scanSequence LHS RHS CC k (I :: l) q = scanSequence LHS RHS CC (k + 1) l q := by
  rw [scanSequence, if_pos hdbg]

theorem scanSequence_select_cons {s : SelectPseudo} (hlhs : s.lhs = LHS) (hrhs : s.rhs = RHS)
    (hcc : s.cc = CC) (k : ℕ) (l : List MachineInstr) (q : SelectSequence)
    (htrue : s.trueV ∉ q.selectDests) (hfalse : s.falseV ∉ q.selectDests) :
    scanSequence LHS RHS CC k (.select s :: l) q = scanSequence LHS RHS CC (k + 1) l
      ⟨s.dst :: q.selectDests, k, q.selectDebugValues ++ collectDebugValues s.dst (k + 1) l⟩ := by
  rw [scanSequence]
  simp [MachineInstr.isDebugInstr, MachineInstr.asSelect, hlhs, hrhs, hcc, htrue, hfalse]

theorem scanSequence_other_cons {I : MachineInstr} (hdbg : I.isDebugInstr = false)
    (hsel : I.asSelect = none) (heff : I.hasUnmodeledSideEffects = false)
    (hmem : I.mayLoadOrStore = false) (k : ℕ) (l : List MachineInstr) (q : SelectSequence)
    (huses : ∀ r ∈ I.uses, r ∉ q.selectDests) :
    scanSequence LHS RHS CC k (I :: l) q = scanSequence LHS RHS CC (k + 1) l q := by
  have hany : ¬ (I.uses.any fun r => decide (r ∈ q.selectDests)) = true := by
    simpa using huses
  rw [scanSequence, hsel, heff, hmem, if_neg (Bool.not_eq_true _ ▸ hdbg)]
  exact if_neg hany

/-- The loop does not stop inside instructions it can step over. -/
theorem scanSequence_maximal {t : SelectPseudo} {init : List MachineInstr}
    (rest : List MachineInstr) (k : ℕ) (q : SelectSequence)
    (h : Mergeable LHS RHS CC q.selectDests (init ++ [.select t])) :
    k + init.length ≤
      (scanSequence LHS RHS CC k (init ++ .select t :: rest) q).lastSelectPseudo := by
  induction init generalizing k q with
  | nil =>
    cases h with
    | debug hdbg hl => cases hdbg
    | other hdbg hsel heff hmem huses hl => cases hsel
    | select s hlhs hrhs hcc htrue hfalse hl =>
      rw [List.nil_append, scanSequence_select_cons hlhs hrhs hcc k rest q htrue hfalse]
      exact le_scanSequence_last ..
  | cons I init ih =>
    rw [add_length_cons, List.cons_append]
    cases h with
    | debug hdbg hl =>
      rw [scanSequence_debug_cons hdbg]
      exact ih (k + 1) q hl
    | select s hlhs hrhs hcc htrue hfalse hl =>
      rw [scanSequence_select_cons hlhs hrhs hcc k _ q htrue hfalse]
      exact ih (k + 1) _ hl
    | other hdbg hsel heff hmem huses hl =>
      rw [scanSequence_other_cons hdbg hsel heff hmem k _ q huses]
      exact ih (k + 1) q hl

/-! ### The merged sequence -/

/-- Directly behind a select of `before`, with only DBG_VALUEs between, a DBG_VALUE that
names its result. -/
def Collectible (before : List MachineInstr) (D : MachineInstr) : Prop :=
  D.isDebugValue = true ∧ ∃ init u run, before = init ++ MachineInstr.select u :: run ∧
    (∀ I ∈ run, I.isDebugValue = true) ∧ u.dst ∈ D.uses

theorem collectedBehind_iff_collectible {before t : List MachineInstr} {D : MachineInstr}
    {k last : ℕ} (hlast : k + before.length ≤ last) :
    CollectedBehind k (before ++ D :: t) last (k + before.length) ↔ Collectible before D := by
  constructor
  · intro h
    obtain ⟨u, init, t', hl, -, D', run, t'', rfl, hp, hrun, hD, hdst⟩ := h
    have hlen : before.length = (init ++ MachineInstr.select u :: run).length := by
      rw [List.length_append, List.length_cons]
      omega
    have hl' : before ++ D :: t = (init ++ MachineInstr.select u :: run) ++ D' :: t'' := by
      rw [hl, List.append_assoc, List.cons_append]
    obtain ⟨hbefore, hDt⟩ := List.append_inj hl' hlen
    cases hDt
    exact ⟨hD, init, u, run, hbefore, hrun, hdst⟩
  · intro h
    obtain ⟨hD, init, u, run, rfl, hrun, hdst⟩ := h
    rw [List.length_append, List.length_cons] at hlast ⊢
    refine ⟨u, init, run ++ D :: t, ?_, by omega, D, run, t, rfl, by omega, hrun, hD, hdst⟩
    rw [List.append_assoc, List.cons_append]

section
variable {s : SelectPseudo} {k : ℕ} {l : List MachineInstr} {m : ℕ} {ps : List ℕ}

theorem Scanned.mem_iff_collectible (h : Scanned s k l m ps) {init t : List MachineInstr}
    {D : MachineInstr} (hl : l.take m = init ++ D :: t) :
    k + 1 + init.length ∈ ps ↔ Collectible (.select s :: init) D := by
  have hm : init.length < m := by
    rw [← h.length_seq, hl, List.length_append, List.length_cons]
    omega
  have hall : l = init ++ D :: (t ++ l.drop m) := by
    conv_lhs => rw [← List.take_append_drop m l, hl]
    rw [List.append_assoc, List.cons_append]
  have hpos : k + 1 + init.length = k + (MachineInstr.select s :: init).length :=
    (add_length_cons k _ init).symm
  have hmem := @mem_scanSequence s.lhs s.rhs s.cc l (k + 1)
    ⟨[s.dst, s.dst], k, collectDebugValues s.dst (k + 1) l⟩ (Nat.lt_succ_self k)
    (k + 1 + init.length)
  have hbehind : CollectedBehind k (.select s :: init ++ D :: (t ++ l.drop m)) (k + m)
      (k + (MachineInstr.select s :: init).length) ↔ Collectible (.select s :: init) D :=
    collectedBehind_iff_collectible (by omega)
  rw [h.selectDebugValues, h.lastSelectPseudo, ← collectedBehind_cons_select (by omega)] at hmem
  rw [List.cons_append, ← hall, ← hpos] at hbehind
  exact hmem.trans hbehind

end

end ToyRiscv
