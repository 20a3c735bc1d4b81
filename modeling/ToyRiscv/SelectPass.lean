import ToyRiscv.ExpandSelects
import ToyRiscv.SelectRefinement

/-!
# The whole select pass preserves the meaning of a function

Instruction selection calls `EmitInstrWithCustomInserter` once for every select
that is still in the function (TOYRISCVISelLowering.cpp:378-387). Each call shows
the function it is given; the views compose, whatever the order of the calls.
-/

namespace ToyRiscv
open Lib.TraceSimulation Relation

variable {w : ℕ} {μ : Type} {F F' F'' : MachineFunction} {BB tailMBB ifFalseMBB : MBB}

/-- What an exit shows when each block stands for the block `src` gives it, if any. -/
def viewThrough (src : MBB → Option MBB) (e : BlockExit w μ) : Option (BlockExit w μ) :=
  (src e.block).map fun b => { e with block := b }

theorem viewThrough_bind (src src' : MBB → Option MBB) (e : BlockExit w μ) :
    (viewThrough src' e).bind (viewThrough src) = viewThrough (fun b => (src' b).bind src) e := by
  unfold viewThrough
  cases h : src' e.block with
  | none => simp [h]
  | some b => simp [h]

/-- The original blocks stand in the layout of `F'` in their order, each once, and the traces
of `F'` show those of `F`. -/
structure ShowsThrough (F F' : MachineFunction) (src : MBB → Option MBB) : Prop where
  layout : F'.layout.filterMap src = F.layout
  traces : ∀ (w : ℕ) (μ : Type) (sem : InstrSem w μ) (st : Store w μ),
    SameTraces (blockStep sem F) (blockStep sem F') (viewThrough src) (F.start st) (F'.start st)

theorem ShowsThrough.refl (F : MachineFunction) : ShowsThrough F F some where
  layout := List.filterMap_some
  traces _ _ _ _ := .refl _ _

theorem ShowsThrough.trans {src src' : MBB → Option MBB} (h : ShowsThrough F F' src)
    (h' : ShowsThrough F' F'' src') : ShowsThrough F F'' fun b => (src' b).bind src where
  layout := by rw [← List.filterMap_filterMap, h'.layout, h.layout]
  traces w μ sem st := by
    have htrans := (h.traces w μ sem st).trans (h'.traces w μ sem st)
    rwa [funext (viewThrough_bind src src')] at htrans

/-! ### One call -/

def splitSource (BB tailMBB ifFalseMBB : MBB) (b : MBB) : Option MBB :=
  if b = BB ∨ b = ifFalseMBB then none else if b = tailMBB then some BB else some b

theorem viewExit_eq_viewThrough : (viewExit BB tailMBB ifFalseMBB :
    BlockExit w μ → Option (BlockExit w μ)) = viewThrough (splitSource BB tailMBB ifFalseMBB) := by
  funext e
  unfold viewExit viewThrough splitSource
  split
  · rfl
  · split
    · rfl
    · rfl

theorem Fresh.filterMap_splitSource (hf : Fresh F BB tailMBB ifFalseMBB)
    (head tail : List MachineInstr) :
    (splitBlock F BB tailMBB ifFalseMBB head tail).layout.filterMap
      (splitSource BB tailMBB ifFalseMBB) = F.layout := by
  obtain ⟨l, m, heq, hl, hsplit⟩ := hf.layout head tail
  have hkeep : ∀ k : List MBB, (∀ b ∈ k, b ∈ F.layout ∧ b ≠ BB) →
      k.filterMap (splitSource BB tailMBB ifFalseMBB) = k := by
    intro k hk
    rw [List.filterMap_congr (g := some), List.filterMap_some]
    intro b hb
    obtain ⟨hmem, hne⟩ := hk b hb
    simp [splitSource, hne, hf.ne_ifFalse hmem, hf.ne_tail hmem]
  have hnd := hf.nodup
  rw [heq] at hnd
  have hm : BB ∉ m := (List.nodup_cons.mp (List.nodup_append.mp hnd).2.1).1
  have hhead : splitSource BB tailMBB ifFalseMBB BB = none := by simp [splitSource]
  have hifFalse : splitSource BB tailMBB ifFalseMBB ifFalseMBB = none := by simp [splitSource]
  have htail : splitSource BB tailMBB ifFalseMBB tailMBB = some BB := by
    simp [splitSource, (hf.ne_tail hf.mem).symm, hf.tail_ne]
  rw [hsplit, heq, List.filterMap_append, List.filterMap_cons_none hhead,
    List.filterMap_cons_none hifFalse, List.filterMap_cons_some htail, hkeep l, hkeep m]
  · intro b hb
    refine ⟨by rw [heq]; exact List.mem_append_right _ (List.mem_cons_of_mem _ hb), ?_⟩
    rintro rfl
    exact hm hb
  · intro b hb
    refine ⟨by rw [heq]; exact List.mem_append_left _ hb, ?_⟩
    rintro rfl
    exact hl hb

/-- Some call of `EmitInstrWithCustomInserter` takes the function to `F'`. -/
def ExpansionStep (F F' : MachineFunction) : Prop :=
  ∃ BB ∈ F.layout, ∃ MI tailMBB, emitInstrWithCustomInserter F BB MI = some (F', tailMBB)

/-- The step lemma: what one call preserves. -/
theorem ExpansionStep.preserves (hF : F.SSA) (h : ExpansionStep F F') :
    F'.SSA ∧ F'.selects.length < F.selects.length ∧ ∃ src, ShowsThrough F F' src := by
  obtain ⟨BB, hb, MI, tailMBB, hemit⟩ := h
  rcases hMI : (F.insts BB)[MI]? with - | I
  · simp [emitInstrWithCustomInserter, hMI] at hemit
  · cases I with
    | select s =>
      obtain ⟨F1, t1, _, _, _, _, _, hemit1, -, he⟩ := emitSelectPseudo_expanded hF hb hMI
      obtain ⟨rfl, rfl⟩ := Prod.mk.inj (Option.some.inj (hemit1.symm.trans hemit))
      refine ⟨he.ssa, he.fewer, ?_⟩
      obtain ⟨brCond, pre, seq, rest, debugValues, others, after, e⟩ := expansion_of_ssa hF hb hMI
      have hf := hF.fresh hb
      have heq : F1 = splitBlock F BB F.freshBlock (F.freshBlock + 1)
          (headInsts pre others brCond s F.freshBlock) (tailInsts BB (F.freshBlock + 1)
            (s :: seq.filterMap MachineInstr.asSelect) debugValues after) := by
        rw [emitInstrWithCustomInserter, hMI] at hemit1
        exact (Prod.mk.inj (Option.some.inj (hemit1.symm.trans e.emitted))).1
      refine ⟨splitSource BB F.freshBlock (F.freshBlock + 1), ?_, fun w μ sem st => ?_⟩
      · rw [heq]
        exact hf.filterMap_splitSource _ _
      · rw [← viewExit_eq_viewThrough]
        refine .of_matched (e.matched sem hF hf heq) ?_
        rw [heq]
        exact .start hF hf st
    | _ => simp [emitInstrWithCustomInserter, hMI] at hemit

/-! ### All calls -/

/-- The run lemma: any number of calls, in any order. -/
theorem ExpansionStep.steps_preserve (hF : F.SSA) (h : ReflTransGen ExpansionStep F F') :
    F'.SSA ∧ ∃ src, ShowsThrough F F' src := by
  induction h with
  | refl => exact ⟨hF, some, .refl F⟩
  | tail _ hstep ih =>
    obtain ⟨hssa, src, hsrc⟩ := ih
    obtain ⟨hssa', -, src', hsrc'⟩ := hstep.preserves hssa
    exact ⟨hssa', _, hsrc.trans hsrc'⟩

theorem exists_expansionStep (hF : F.SSA) (h : F.selects ≠ []) : ∃ F', ExpansionStep F F' := by
  obtain ⟨s, hs⟩ := List.exists_mem_of_ne_nil _ h
  obtain ⟨I, hI, hIs⟩ := List.mem_filterMap.mp hs
  obtain ⟨b, hb, hIb⟩ := List.mem_flatMap.mp hI
  obtain ⟨MI, hMI⟩ := List.mem_iff_getElem?.mp hIb
  rw [MachineInstr.asSelect_eq_some.mp hIs] at hMI
  obtain ⟨F', tailMBB, _, _, _, _, _, hemit, -⟩ := emitSelectPseudo_expanded hF hb hMI
  exact ⟨F', b, hb, MI, tailMBB, hemit⟩

theorem expandSelects_steps (n : ℕ) : ∀ {F F' : MachineFunction},
    expandSelects n F = some F' → ReflTransGen ExpansionStep F F' := by
  induction n with
  | zero =>
    intro F F' h
    unfold expandSelects at h
    cases hfirst : firstSelect F with
    | none =>
      rw [hfirst] at h
      cases h
      exact .refl
    | some p =>
      rw [hfirst] at h
      cases h
  | succ n ih =>
    intro F F' h
    unfold expandSelects at h
    cases hfirst : firstSelect F with
    | none =>
      rw [hfirst] at h
      cases h
      exact .refl
    | some p =>
      obtain ⟨BB, MI⟩ := p
      rw [hfirst] at h
      obtain ⟨r, hemit, hrun⟩ := Option.bind_eq_some_iff.mp h
      exact .head ⟨BB, (firstSelect_some hfirst).1, MI, r.2, hemit⟩ (ih hrun)

/-- The calls end, in whatever order they are made, and every function on the way
and the one they end in show the original. -/
theorem expandSelects_refines (F : MachineFunction) (hF : F.SSA) :
    (∀ F', ReflTransGen ExpansionStep F F' → F'.SSA ∧ (∃ src, ShowsThrough F F' src) ∧
      (F'.selects ≠ [] → ∃ F'', ExpansionStep F' F'') ∧
      ∀ F'', ExpansionStep F' F'' → F''.selects.length < F'.selects.length) ∧
    ∃ F', expandSelects F.selects.length F = some F' ∧ ReflTransGen ExpansionStep F F' ∧
      F'.selects = [] := by
  constructor
  · intro F' h
    obtain ⟨hssa, hsrc⟩ := ExpansionStep.steps_preserve hF h
    exact ⟨hssa, hsrc, exists_expansionStep hssa, fun F'' hstep => (hstep.preserves hssa).2.1⟩
  · obtain ⟨F', hrun, -, hnil, -⟩ := expandSelects_spec _ F hF (Nat.le_refl _)
    exact ⟨F', hrun, expandSelects_steps _ hrun, hnil⟩

theorem expandSelects_refines_selectLoop :
    (∀ F', ReflTransGen ExpansionStep selectLoop F' → F'.SSA ∧
      (∃ src, ShowsThrough selectLoop F' src) ∧
      (F'.selects ≠ [] → ∃ F'', ExpansionStep F' F'') ∧
      ∀ F'', ExpansionStep F' F'' → F''.selects.length < F'.selects.length) ∧
    ∃ F', expandSelects selectLoop.selects.length selectLoop = some F' ∧
      ReflTransGen ExpansionStep selectLoop F' ∧ F'.selects = [] :=
  expandSelects_refines selectLoop selectLoop_ssa

end ToyRiscv
