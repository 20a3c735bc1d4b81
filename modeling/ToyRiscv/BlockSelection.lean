import ToyRiscv.LowerOperation
import ToyRiscv.TargetInstr
import ToyRiscv.WordSelection

/-!
# Selecting a block

A chain with its SELECT_CC nodes and the nodes that end it, and every way to cover
them: the pseudo `Select_GPR_Using_CC_GPR` with the code `IntCCtoRISCVCC` gives it,
the branches of `PatBrcc`, `PseudoBR` and `PseudoRET` (TOYRISCVInstrInfo.td:187-203,
251-290). The machine block runs by the instruction set.
-/

namespace ToyRiscv
open Lib.ByteMemory

variable {w : ℕ}

/-! ### Blocks of the DAG -/

/-- A node of the chain, or a SELECT_CC that later nodes use under the name `x`. -/
inductive BlockNode (w : ℕ) where
  | chain (node : ChainNode w)
  | selectCC (x : ℕ) (lhs rhs : DagExpr w) (cc : IsdCondCode) (trueV falseV : DagExpr w)
  deriving DecidableEq, Repr

/-- `TOYRISCVISD::BR_CC`. -/
structure DagBranch (w : ℕ) where
  lhs : DagExpr w
  rhs : DagExpr w
  cc : IsdCondCode
  dest : MBB
  deriving DecidableEq, Repr

inductive BlockEnd where
  | fallThrough
  | br (dest : MBB)
  | retFlag (regs : List Register)
  deriving DecidableEq, Repr

structure DagBlock (w : ℕ) where
  nodes : List (BlockNode w)
  branch : Option (DagBranch w)
  last : BlockEnd
  deriving DecidableEq, Repr

/-- A meaning of expressions and chain nodes. -/
structure DagSem (w : ℕ) where
  expr : DagExpr w → ChainState w → BitVec w → Prop
  node : ChainNode w → ChainState w → ChainState w → Prop

def DagSem.dag : DagSem w where
  expr e s v := e.Means s.env s.mem v
  node a s t := a.Means s t

def DagSem.word : DagSem w where
  expr e s v := e.WordMeans s.env s.mem v
  node a s t := a.WordMeans s t

section Meaning
variable (D : DagSem w)

def BlockNode.Means (s : ChainState w) : BlockNode w → ChainState w → Prop
  | .chain node, t => D.node node s t
  | .selectCC x lhs rhs cc trueV falseV, t => ∃ vl vr vt vf, D.expr lhs s vl ∧ D.expr rhs s vr ∧
      D.expr trueV s vt ∧ D.expr falseV s vf ∧
      t = ⟨Function.update s.env x (if cc.holds vl vr then vt else vf), s.mem⟩

def NodesMean : List (BlockNode w) → ChainState w → ChainState w → Prop
  | [], s, t => t = s
  | node :: nodes, s, t => ∃ u, node.Means D s u ∧ NodesMean nodes u t

def DagBranch.Means (b : DagBranch w) (s : ChainState w) (taken : Bool) : Prop :=
  ∃ vl vr, D.expr b.lhs s vl ∧ D.expr b.rhs s vr ∧ b.cc.holds vl vr = taken

def BlockEnd.flow : BlockEnd → Flow
  | .fallThrough => .next
  | .br dest => .goto dest
  | .retFlag _ => .ret

def BranchMeans (s : ChainState w) : Option (DagBranch w) → BlockEnd → Flow → Prop
  | none, last, f => f = last.flow
  | some b, last, f => ∃ taken, b.Means D s taken ∧ f = if taken then .goto b.dest else last.flow

/-- From `s` the block can leave `t` and go where `f` says. -/
def DagBlock.Means (B : DagBlock w) (s t : ChainState w) (f : Flow) : Prop :=
  NodesMean D B.nodes s t ∧ BranchMeans D t B.branch B.last f

end Meaning

/-! ### Where words are the DAG itself -/

def BlockNode.Exact : BlockNode w → Prop
  | .chain node => node.Exact
  | .selectCC _ lhs rhs _ trueV falseV => lhs.Exact ∧ rhs.Exact ∧ trueV.Exact ∧ falseV.Exact

def DagBlock.Exact (B : DagBlock w) : Prop :=
  (∀ node ∈ B.nodes, node.Exact) ∧ ∀ b ∈ B.branch, b.lhs.Exact ∧ b.rhs.Exact

theorem DagBlock.exact32 (B : DagBlock 32) : B.Exact := by
  refine ⟨fun node _ => ?_, fun b _ => ⟨b.lhs.exact32, b.rhs.exact32⟩⟩
  cases node with
  | chain node => exact node.exact32
  | selectCC x lhs rhs cc trueV falseV =>
    exact ⟨lhs.exact32, rhs.exact32, trueV.exact32, falseV.exact32⟩

theorem expr_exact {e : DagExpr w} (h : e.Exact) (s : ChainState w) (v : BitVec w) :
    DagSem.word.expr e s v ↔ DagSem.dag.expr e s v := DagExpr.wordMeans_iff h s.env s.mem v

theorem BlockNode.means_exact {node : BlockNode w} (h : node.Exact) (s t : ChainState w) :
    node.Means .word s t ↔ node.Means .dag s t := by
  cases node with
  | chain node => exact ChainNode.wordMeans_iff h s t
  | selectCC x lhs rhs cc trueV falseV =>
    obtain ⟨hl, hr, ht, hf⟩ := h
    simp only [BlockNode.Means, expr_exact hl, expr_exact hr, expr_exact ht, expr_exact hf]

theorem nodesMean_exact {nodes : List (BlockNode w)} (h : ∀ node ∈ nodes, node.Exact)
    (s t : ChainState w) : NodesMean .word nodes s t ↔ NodesMean .dag nodes s t := by
  induction nodes generalizing s with
  | nil => rfl
  | cons node nodes ih =>
    obtain ⟨hnode, hnodes⟩ := List.forall_mem_cons.mp h
    simp only [NodesMean, BlockNode.means_exact hnode, ih hnodes]

theorem DagBlock.means_exact {B : DagBlock w} (h : B.Exact) (s t : ChainState w) (f : Flow) :
    B.Means .word s t f ↔ B.Means .dag s t f := by
  obtain ⟨hnodes, hbranch⟩ := h
  rw [DagBlock.Means, DagBlock.Means, nodesMean_exact hnodes]
  cases hb : B.branch with
  | none => rfl
  | some b =>
    obtain ⟨hl, hr⟩ := hbranch b hb
    simp only [BranchMeans, DagBranch.Means, expr_exact hl, expr_exact hr]

/-! ### Covers -/

/-- Expressions selected one after the other, their values in `rs`. -/
inductive SelectsList (vregs : ℕ → ℕ) :
    ℕ → List (DagExpr w) → List (Inst Register) → List Register → ℕ → Prop
  | nil (n : ℕ) : SelectsList vregs n [] [] [] n
  | cons {n n₁ n' : ℕ} {e : DagExpr w} {es : List (DagExpr w)} {c d : List (Inst Register)}
      {r : Register} {rs : List Register} (he : Selects vregs n e c r n₁)
      (hes : SelectsList vregs n₁ es d rs n') : SelectsList vregs n (e :: es) (c ++ d) (r :: rs) n'

inductive SelectsNodes : (ℕ → ℕ) → ℕ → List (BlockNode w) → List MachineInstr → (ℕ → ℕ) → ℕ → Prop
  | nil (vregs : ℕ → ℕ) (n : ℕ) : SelectsNodes vregs n [] [] vregs n
  | chain {vregs vregs₁ vregs' : ℕ → ℕ} {n n₁ n' : ℕ} {node : ChainNode w}
      {nodes : List (BlockNode w)} {c : List (Inst Register)} {d : List MachineInstr}
      (hnode : SelectsChain vregs n [node] c vregs₁ n₁)
      (h : SelectsNodes vregs₁ n₁ nodes d vregs' n') :
      SelectsNodes vregs n (.chain node :: nodes) (c.map Inst.machineInstr ++ d) vregs' n'
  | selectCC {vregs vregs' : ℕ → ℕ} {n n₁ n' x : ℕ} {lhs rhs trueV falseV : DagExpr w}
      {cc : IsdCondCode} {rcc : CondCode} {nodes : List (BlockNode w)} {c : List (Inst Register)}
      {d : List MachineInstr} {rl rr rt rf : Register} (hcc : getRISCVCCForIntCC cc = some rcc)
      (he : SelectsList vregs n [lhs, rhs, trueV, falseV] c [rl, rr, rt, rf] n₁)
      (h : SelectsNodes (Function.update vregs x n₁) (n₁ + 1) nodes d vregs' n') :
      SelectsNodes vregs n (.selectCC x lhs rhs cc trueV falseV :: nodes)
        (c.map Inst.machineInstr ++ .select ⟨n₁, rl, rr, rcc, rt, rf⟩ :: d) vregs' n'

inductive SelectsBranch (vregs : ℕ → ℕ) (n : ℕ) :
    Option (DagBranch w) → List (Inst Register) → List MachineInstr → ℕ → Prop
  | none : SelectsBranch vregs n none [] [] n
  | brcc {n' : ℕ} {b : DagBranch w} {op : BranchOp} {c : List (Inst Register)} {rl rr : Register}
      (hpat : (b.cc, op) ∈ patBrcc) (he : SelectsList vregs n [b.lhs, b.rhs] c [rl, rr] n') :
      SelectsBranch vregs n (some b) c [.branch op rl rr b.dest] n'

def BlockEnd.insts : BlockEnd → List MachineInstr
  | .fallThrough => []
  | .br dest => [.pseudoBR dest]
  | .retFlag regs => [.pseudoRET regs]

inductive SelectsBlock (vregs : ℕ → ℕ) (n : ℕ) (B : DagBlock w) :
    List MachineInstr → (ℕ → ℕ) → ℕ → Prop
  | intro {vregs' : ℕ → ℕ} {n₁ n' : ℕ} {c : List MachineInstr} {d : List (Inst Register)}
      {branch : List MachineInstr} (hnodes : SelectsNodes vregs n B.nodes c vregs' n₁)
      (hbranch : SelectsBranch vregs' n₁ B.branch d branch n') :
      SelectsBlock vregs n B (c ++ d.map Inst.machineInstr ++ branch ++ B.last.insts) vregs' n'

/-! ### Straight-line code in a machine block -/

theorem Selects.ordinary {vregs : ℕ → ℕ} {n n' : ℕ} {e : DagExpr w} {code : List (Inst Register)}
    {r : Register} (h : Selects vregs n e code r n') : ∀ I ∈ code, I.isOrdinary = true := by
  induction h with
  | arg n x => exact List.forall_mem_nil _
  | simm12 n c hc => exact List.forall_mem_singleton.mpr rfl
  | simm32 n c hc => exact List.forall_mem_cons.mpr ⟨rfl, List.forall_mem_singleton.mpr rfl⟩
  | gprGpr hpat ha hb iha ihb =>
    exact List.forall_mem_append.mpr
      ⟨List.forall_mem_append.mpr ⟨iha, ihb⟩, List.forall_mem_singleton.mpr rfl⟩
  | gprSimm12 hpat himm h ih =>
    exact List.forall_mem_append.mpr ⟨ih, List.forall_mem_singleton.mpr rfl⟩
  | load hpat haddr h ih =>
    exact List.forall_mem_append.mpr ⟨ih, List.forall_mem_singleton.mpr rfl⟩

theorem SelectsChain.ordinary {vregs vregs' : ℕ → ℕ} {n n' : ℕ} {chain : List (ChainNode w)}
    {code : List (Inst Register)} (h : SelectsChain vregs n chain code vregs' n') :
    ∀ I ∈ code, I.isOrdinary = true := by
  induction h with
  | nil => exact List.forall_mem_nil _
  | bind he h ih => exact List.forall_mem_append.mpr ⟨he.ordinary, ih⟩
  | store hpat haddr hv ha h ih =>
    exact List.forall_mem_append.mpr
      ⟨List.forall_mem_append.mpr ⟨hv.ordinary, ha.ordinary⟩, List.forall_mem_cons.mpr ⟨rfl, ih⟩⟩

theorem SelectsList.ordinary {vregs : ℕ → ℕ} {n n' : ℕ} {es : List (DagExpr w)}
    {code : List (Inst Register)} {rs : List Register} (h : SelectsList vregs n es code rs n') :
    ∀ I ∈ code, I.isOrdinary = true := by
  induction h with
  | nil n => exact List.forall_mem_nil _
  | cons he hes ih => exact List.forall_mem_append.mpr ⟨he.ordinary, ih⟩

/-! ### Operands -/

theorem SelectsList.keeps {vregs : ℕ → ℕ} {n n' : ℕ} {es : List (DagExpr w)}
    {code : List (Inst Register)} {rs : List Register} (h : SelectsList vregs n es code rs n')
    (hf : FreshFrom vregs n) (s : ArchState Register w) : n ≤ n' ∧ Keeps n s (run code s) := by
  induction h generalizing s with
  | nil n => exact ⟨Nat.le_refl n, .refl n s⟩
  | @cons n n₁ n' e es c d r rs he hes ih =>
    have hn := (he.bounds hf).1
    obtain ⟨hn', hkeeps⟩ := ih (hf.mono hn) (run c s)
    rw [run_append]
    exact ⟨Nat.le_trans hn hn', (he.keeps hf s).trans hkeeps hn⟩

/-- Each register still holds its value when the code of the others has run. -/
theorem SelectsList.wordValues (hw : 32 ≤ w) (hw64 : w ≤ 64) {vregs : ℕ → ℕ} {n n' : ℕ}
    {es : List (DagExpr w)} {code : List (Inst Register)} {rs : List Register}
    (h : SelectsList vregs n es code rs n') (hf : FreshFrom vregs n) (s : ArchState Register w) :
    List.Forall₂ (fun e r => DagSem.word.expr e (chainState vregs s) ((run code s).get r))
      es rs := by
  induction h generalizing s with
  | nil n => exact .nil
  | @cons n n₁ n' e es c d r rs he hes ih =>
    have hn := he.bounds hf
    have hf₁ := hf.mono hn.1
    have hc := he.keeps hf s
    have hd := (hes.keeps hf₁ (run c s)).2
    have hstate : chainState vregs (run c s) = chainState vregs s := by
      rw [chainState, chainState, hc.args hf, hc.mem]
    have hvalue := he.wordValue hw hw64 hf s
    have htail := ih hf₁ (run c s)
    rw [← hd.below r hn.2] at hvalue
    rw [hstate] at htail
    rw [run_append]
    exact .cons hvalue htail

/-! ### Running the block -/

theorem holds_update {t : ArchState Register w} {st : Store w (Mem w)} (h : Holds t st)
    {r : Register} (hr : r ≠ 0) (v : BitVec w) :
    Holds (t.set r v) ⟨Function.update st.regs r v, st.mem⟩ where
  regs q := by
    dsimp only
    by_cases hq : q = r
    · rw [hq, get_set_self t hr, Function.update_self]
    · rw [get_set_of_ne t hq, h.regs q, Function.update_of_ne hq]
  mem := h.mem

/-- The pseudo that `Select_GPR_Using_CC_GPR` leaves for the custom inserter. -/
theorem execInstr_select {cc : IsdCondCode} {rcc : CondCode}
    (hcc : getRISCVCCForIntCC cc = some rcc) (dst rl rr rt rf : Register) (st : Store w (Mem w)) :
    execInstr isaSem st (.select ⟨dst, rl, rr, rcc, rt, rf⟩) =
      some (⟨Function.update st.regs dst
        (if cc.holds (st.regs rl) (st.regs rr) then st.regs rt else st.regs rf), st.mem⟩,
        .next) := by
  obtain ⟨op, hop⟩ := getBrCond_isSome rcc (getRISCVCCForIntCC_valid cc rcc hcc)
  have htaken := getBrCond_taken rcc op hop (st.regs rl) (st.regs rr)
  rw [branch_of_intCC cc rcc op hcc hop] at htaken
  simp only [execInstr, SelectPseudo.value, htaken, Option.map_some]

theorem SelectsNodes.runs (hw : 32 ≤ w) (hw64 : w ≤ 64) {vregs vregs' : ℕ → ℕ} {n n' : ℕ}
    {nodes : List (BlockNode w)} {code : List MachineInstr}
    (h : SelectsNodes vregs n nodes code vregs' n') (hf : FreshFrom vregs n)
    {t : ArchState Register w} {st : Store w (Mem w)} (hst : Holds t st) :
    n ≤ n' ∧ FreshFrom vregs' n' ∧ ∃ t' st', execBody isaSem code st = some (st', .next) ∧
      Holds t' st' ∧ (∀ q < n, t'.get q = t.get q) ∧
      NodesMean .word nodes (chainState vregs t) (chainState vregs' t') := by
  induction h generalizing t st with
  | nil vregs n => exact ⟨Nat.le_refl n, hf, t, st, rfl, hst, fun q hq => rfl, rfl⟩
  | @chain vregs vregs₁ vregs' n n₁ n' node nodes c d hnode h ih =>
    obtain ⟨hn, hf₁, hbelow⟩ := hnode.frame hf
    obtain ⟨st₁, hbody, hst₁⟩ := execBody_ordinary hnode.ordinary hst
    obtain ⟨hn', hf', t', st', hrest, hst', hbelow', hnodes⟩ := ih hf₁ hst₁
    refine ⟨Nat.le_trans hn hn', hf', t', st', ?_, hst', fun q hq => ?_, ?_⟩
    · rw [execBody_append_next hbody, hrest]
    · rw [hbelow' q (Nat.lt_of_lt_of_le hq hn), hbelow t q hq]
    · obtain ⟨u, hmeans, hu⟩ := hnode.wordMeans hw hw64 hf t
      exact ⟨u, hmeans, hu ▸ hnodes⟩
  | @selectCC vregs vregs' n n₁ n' x lhs rhs trueV falseV cc rcc nodes c d rl rr rt rf hcc he h
      ih =>
    obtain ⟨hn, hkeeps⟩ := he.keeps hf t
    have hne : n₁ ≠ 0 := Nat.ne_of_gt (Nat.lt_of_lt_of_le hf.pos hn)
    obtain ⟨st₁, hbody, hst₁⟩ := execBody_ordinary he.ordinary hst
    obtain ⟨v, hv⟩ : ∃ v, v = if cc.holds ((run c t).get rl) ((run c t).get rr)
      then (run c t).get rt else (run c t).get rf := ⟨_, rfl⟩
    have hstep := execInstr_select hcc n₁ rl rr rt rf st₁
    rw [← hst₁.regs rl, ← hst₁.regs rr, ← hst₁.regs rt, ← hst₁.regs rf, ← hv] at hstep
    obtain ⟨hn', hf', t', st', hrest, hst', hbelow', hnodes⟩ :=
      ih (hf.update (Nat.le_succ_of_le hn) (Nat.lt_succ_self n₁) x) (holds_update hst₁ hne v)
    -- the pseudo sets a register that is not in use
    have hkeeps' : Keeps n t ((run c t).set n₁ v) :=
      ⟨fun q hq => by
        rw [get_set_of_ne _ (Nat.ne_of_lt (Nat.lt_of_lt_of_le hq hn)), hkeeps.below q hq],
        hkeeps.mem⟩
    refine ⟨Nat.le_trans (Nat.le_succ_of_le hn) hn', hf', t', st', ?_, hst', fun q hq => ?_, ?_⟩
    · rw [execBody_append_next hbody, execBody, hstep]
      exact hrest
    · rw [hbelow' q (Nat.lt_of_lt_of_le hq (Nat.le_succ_of_le hn)), hkeeps'.below q hq]
    · have hvalues := he.wordValues hw hw64 hf t
      simp only [List.forall₂_cons, List.forall₂_nil_left_iff] at hvalues
      obtain ⟨hl, hr, htrue, hfalse, -⟩ := hvalues
      refine ⟨_, ⟨_, _, _, _, hl, hr, htrue, hfalse, rfl⟩, ?_⟩
      rw [chainState_bind hkeeps' hf x, get_set_self _ hne, hv] at hnodes
      exact hnodes

theorem BlockEnd.runs (last : BlockEnd) (st : Store w (Mem w)) :
    execBody isaSem last.insts st = some (st, last.flow) := by
  cases last <;> rfl

/-- The rows of `PatBrcc` are those of the two tables of the custom inserter. -/
theorem patBrcc_code {cc : IsdCondCode} {op : BranchOp} (hpat : (cc, op) ∈ patBrcc) :
    ∃ rcc, getRISCVCCForIntCC cc = some rcc ∧ getBrCond rcc = some op := by
  have hall : ∀ p ∈ patBrcc, (getRISCVCCForIntCC p.1).bind getBrCond = some p.2 := by decide
  exact Option.bind_eq_some_iff.mp (hall _ hpat)

theorem patBrcc_taken {cc : IsdCondCode} {op : BranchOp} (hpat : (cc, op) ∈ patBrcc)
    (a b : BitVec w) : op.taken a b = cc.holds a b := by
  obtain ⟨rcc, hrcc, hop⟩ := patBrcc_code hpat
  exact branch_of_intCC cc rcc op hrcc hop a b

theorem SelectsBranch.runs (hw : 32 ≤ w) (hw64 : w ≤ 64) {vregs : ℕ → ℕ} {n n' : ℕ}
    {b : Option (DagBranch w)} {code : List (Inst Register)} {branch : List MachineInstr}
    (h : SelectsBranch vregs n b code branch n') (hf : FreshFrom vregs n) (last : BlockEnd)
    {t : ArchState Register w} {st : Store w (Mem w)} (hst : Holds t st) :
    ∃ t' st' f, execBody isaSem (code.map Inst.machineInstr ++ branch ++ last.insts) st =
        some (st', f) ∧ Holds t' st' ∧ Keeps n t t' ∧
      BranchMeans .word (chainState vregs t) b last f := by
  cases h with
  | none => exact ⟨t, st, last.flow, last.runs st, hst, .refl n t, rfl⟩
  | @brcc _ b op _ rl rr hpat he =>
    obtain ⟨st₁, hbody, hst₁⟩ := execBody_ordinary he.ordinary hst
    have hvalues := he.wordValues hw hw64 hf t
    simp only [List.forall₂_cons, List.forall₂_nil_left_iff] at hvalues
    obtain ⟨hl, hr, -⟩ := hvalues
    rw [hst₁.regs rl] at hl
    rw [hst₁.regs rr] at hr
    have htaken := patBrcc_taken hpat (st₁.regs rl) (st₁.regs rr)
    refine ⟨run code t, st₁,
      if b.cc.holds (st₁.regs rl) (st₁.regs rr) then .goto b.dest else last.flow, ?_, hst₁,
      (he.keeps hf t).2, _, ⟨_, _, hl, hr, rfl⟩, rfl⟩
    rw [List.append_assoc, execBody_append_next hbody, List.cons_append, List.nil_append, execBody,
      execInstr, htaken]
    cases b.cc.holds (st₁.regs rl) (st₁.regs rr) with
    | true => rfl
    | false => exact last.runs st₁

/-- Registers in use before the block keep their values. -/
theorem SelectsBlock.runs (hw : 32 ≤ w) (hw64 : w ≤ 64) {vregs vregs' : ℕ → ℕ} {n n' : ℕ}
    {B : DagBlock w} {code : List MachineInstr} (h : SelectsBlock vregs n B code vregs' n')
    (hf : FreshFrom vregs n) {t : ArchState Register w} {st : Store w (Mem w)} (hst : Holds t st) :
    ∃ t' st' f, execBody isaSem code st = some (st', f) ∧ Holds t' st' ∧
      (∀ q < n, t'.get q = t.get q) ∧
        B.Means .word (chainState vregs t) (chainState vregs' t') f := by
  cases h with
  | @intro _ n₁ _ c d branch hnodes hbranch =>
    obtain ⟨hn, hf₁, t₁, st₁, hbody, hst₁, hbelow, hmeans⟩ := hnodes.runs hw hw64 hf hst
    obtain ⟨t', st', f, hrest, hst', hkeeps, hbranch⟩ :=
      hbranch.runs hw hw64 hf₁ B.last hst₁
    have hstate : chainState vregs' t' = chainState vregs' t₁ := by
      rw [chainState, chainState, hkeeps.args hf₁, hkeeps.mem]
    refine ⟨t', st', f, ?_, hst', fun q hq => ?_, ?_, hstate ▸ hbranch⟩
    · rw [List.append_assoc, List.append_assoc, execBody_append_next hbody, ← List.append_assoc,
        hrest]
    · rw [hkeeps.below q (Nat.lt_of_lt_of_le hq hn), hbelow q hq]
    · exact hstate ▸ hmeans

/-! ### Which blocks have a cover -/

def BlockNode.constants : BlockNode w → List (BitVec w)
  | .chain node => node.constants
  | .selectCC _ lhs rhs _ trueV falseV =>
    lhs.constants ++ rhs.constants ++ trueV.constants ++ falseV.constants

def BlockNode.codes : BlockNode w → List IsdCondCode
  | .chain _ => []
  | .selectCC _ _ _ cc _ _ => [cc]

def DagBranch.constants (b : DagBranch w) : List (BitVec w) := b.lhs.constants ++ b.rhs.constants

def DagBlock.constants (B : DagBlock w) : List (BitVec w) :=
  B.nodes.flatMap BlockNode.constants ++ B.branch.toList.flatMap DagBranch.constants

def DagBlock.codes (B : DagBlock w) : List IsdCondCode :=
  B.nodes.flatMap BlockNode.codes ++ B.branch.toList.map DagBranch.cc

theorem hasBranch_of_patBrcc {cc : IsdCondCode} {op : BranchOp} (hpat : (cc, op) ∈ patBrcc) :
    cc.HasBranch := by
  obtain ⟨rcc, hrcc, hop⟩ := patBrcc_code hpat
  exact ⟨rcc, op, hrcc, hop⟩

theorem exists_patBrcc {cc : IsdCondCode} (h : cc.HasBranch) : ∃ op, (cc, op) ∈ patBrcc := by
  obtain ⟨rcc, op, hrcc, hop⟩ := h
  have hpat := patBrcc_eq cc
  rw [hrcc, Option.bind_some, hop, Option.map_eq_some_iff] at hpat
  obtain ⟨⟨cc', op'⟩, hfind, -⟩ := hpat
  have hcc := List.find?_some hfind
  rw [decide_eq_true_eq] at hcc
  exact ⟨op', hcc ▸ List.mem_of_find?_eq_some hfind⟩

theorem SelectsList.constants {vregs : ℕ → ℕ} {n n' : ℕ} {es : List (DagExpr w)}
    {code : List (Inst Register)} {rs : List Register} (h : SelectsList vregs n es code rs n') :
    ∀ e ∈ es, ∀ c ∈ e.constants, isInt 32 c.toInt := by
  induction h with
  | nil n => exact List.forall_mem_nil _
  | cons he hes ih => exact List.forall_mem_cons.mpr ⟨he.constants, ih⟩

theorem SelectsNodes.selectable {vregs vregs' : ℕ → ℕ} {n n' : ℕ} {nodes : List (BlockNode w)}
    {code : List MachineInstr} (h : SelectsNodes vregs n nodes code vregs' n') :
    (∀ c ∈ nodes.flatMap BlockNode.constants, isInt 32 c.toInt) ∧
      ∀ cc ∈ nodes.flatMap BlockNode.codes, cc.HasBranch := by
  induction h with
  | nil vregs n => exact ⟨List.forall_mem_nil _, List.forall_mem_nil _⟩
  | chain hnode h ih =>
    refine ⟨?_, ih.2⟩
    rw [List.flatMap_cons]
    exact List.forall_mem_append.mpr ⟨hnode.constants _ (List.mem_singleton_self _), ih.1⟩
  | @selectCC _ _ _ _ _ _ lhs rhs trueV falseV cc rcc _ _ _ _ _ _ _ hcc he h ih =>
    have hconst := he.constants
    simp only [List.forall_mem_cons] at hconst
    obtain ⟨hl, hr, ht, hf, -⟩ := hconst
    rw [List.flatMap_cons, List.flatMap_cons]
    refine ⟨List.forall_mem_append.mpr ⟨?_, ih.1⟩, List.forall_mem_cons.mpr ⟨?_, ih.2⟩⟩
    · simp only [BlockNode.constants, List.forall_mem_append]
      exact ⟨⟨⟨hl, hr⟩, ht⟩, hf⟩
    · obtain ⟨op, hop⟩ := getBrCond_isSome rcc (getRISCVCCForIntCC_valid cc rcc hcc)
      exact ⟨rcc, op, hcc, hop⟩

theorem selectsNodes_of_selectable (vregs : ℕ → ℕ) {nodes : List (BlockNode w)}
    (hconst : ∀ c ∈ nodes.flatMap BlockNode.constants, isInt 32 c.toInt)
    (hcode : ∀ cc ∈ nodes.flatMap BlockNode.codes, cc.HasBranch) (n : ℕ) :
    ∃ code vregs' n', SelectsNodes vregs n nodes code vregs' n' := by
  induction nodes generalizing vregs n with
  | nil => exact ⟨_, _, _, .nil vregs n⟩
  | cons node nodes ih =>
    rw [List.flatMap_cons, List.forall_mem_append] at hconst hcode
    obtain ⟨hnode, hrest⟩ := hconst
    cases node with
    | chain node =>
      obtain ⟨c, vregs₁, n₁, hc⟩ :=
        selectsChain_of_constants vregs (List.forall_mem_singleton.mpr hnode) n
      obtain ⟨d, vregs', n', h⟩ := ih vregs₁ hrest hcode.2 n₁
      exact ⟨_, _, _, .chain hc h⟩
    | selectCC x lhs rhs cc trueV falseV =>
      simp only [BlockNode.constants, List.forall_mem_append] at hnode
      obtain ⟨⟨⟨hl, hr⟩, ht⟩, hf⟩ := hnode
      obtain ⟨rcc, op, hrcc, -⟩ := List.forall_mem_singleton.mp hcode.1
      obtain ⟨cl, rl, n₁, hl⟩ := selects_of_constants vregs hl n
      obtain ⟨cr, rr, n₂, hr⟩ := selects_of_constants vregs hr n₁
      obtain ⟨ct, rt, n₃, ht⟩ := selects_of_constants vregs ht n₂
      obtain ⟨cf, rf, n₄, hf⟩ := selects_of_constants vregs hf n₃
      obtain ⟨d, vregs', n', h⟩ := ih (Function.update vregs x n₄) hrest hcode.2 (n₄ + 1)
      exact ⟨_, _, _, .selectCC hrcc (.cons hl (.cons hr (.cons ht (.cons hf (.nil n₄))))) h⟩

theorem SelectsBranch.selectable {vregs : ℕ → ℕ} {n n' : ℕ} {b : Option (DagBranch w)}
    {code : List (Inst Register)} {branch : List MachineInstr}
    (h : SelectsBranch vregs n b code branch n') :
    (∀ c ∈ b.toList.flatMap DagBranch.constants, isInt 32 c.toInt) ∧
      ∀ cc ∈ b.toList.map DagBranch.cc, cc.HasBranch := by
  cases h with
  | none => exact ⟨List.forall_mem_nil _, List.forall_mem_nil _⟩
  | @brcc _ b _ _ _ _ hpat he =>
    have hconst := he.constants
    simp only [List.forall_mem_cons] at hconst
    obtain ⟨hl, hr, -⟩ := hconst
    refine ⟨?_, List.forall_mem_singleton.mpr (hasBranch_of_patBrcc hpat)⟩
    rw [Option.toList_some, List.flatMap_singleton]
    exact List.forall_mem_append.mpr ⟨hl, hr⟩

theorem selectsBranch_of_selectable (vregs : ℕ → ℕ) {b : Option (DagBranch w)}
    (hconst : ∀ c ∈ b.toList.flatMap DagBranch.constants, isInt 32 c.toInt)
    (hcode : ∀ cc ∈ b.toList.map DagBranch.cc, cc.HasBranch) (n : ℕ) :
    ∃ code branch n', SelectsBranch vregs n b code branch n' := by
  cases b with
  | none => exact ⟨_, _, _, .none⟩
  | some b =>
    rw [Option.toList_some, List.flatMap_singleton, DagBranch.constants,
      List.forall_mem_append] at hconst
    obtain ⟨op, hpat⟩ := exists_patBrcc (List.forall_mem_singleton.mp hcode)
    obtain ⟨cl, rl, n₁, hl⟩ := selects_of_constants vregs hconst.1 n
    obtain ⟨cr, rr, n₂, hr⟩ := selects_of_constants vregs hconst.2 n₁
    exact ⟨_, _, _, .brcc hpat (.cons hl (.cons hr (.nil n₂)))⟩

theorem selectsBlock_iff (vregs : ℕ → ℕ) (n : ℕ) (B : DagBlock w) :
    (∃ code vregs' n', SelectsBlock vregs n B code vregs' n') ↔
      (∀ c ∈ B.constants, isInt 32 c.toInt) ∧ ∀ cc ∈ B.codes, cc.HasBranch := by
  rw [DagBlock.constants, DagBlock.codes, List.forall_mem_append, List.forall_mem_append]
  constructor
  · intro ⟨code, vregs', n', h⟩
    cases h with
    | intro hnodes hbranch =>
      obtain ⟨hconst, hcode⟩ := hnodes.selectable
      obtain ⟨hbconst, hbcode⟩ := hbranch.selectable
      exact ⟨⟨hconst, hbconst⟩, hcode, hbcode⟩
  · intro ⟨⟨hconst, hbconst⟩, hcode, hbcode⟩
    obtain ⟨c, vregs', n₁, hnodes⟩ := selectsNodes_of_selectable vregs hconst hcode n
    obtain ⟨d, branch, n', hbranch⟩ := selectsBranch_of_selectable vregs' hbconst hbcode n₁
    exact ⟨_, _, _, .intro hnodes hbranch⟩

def storeState (vregs : ℕ → ℕ) (st : Store w (Mem w)) : ChainState w :=
  ⟨fun x => st.regs (vregs x), st.mem⟩

theorem Holds.chainState_eq {t : ArchState Register w} {st : Store w (Mem w)} (h : Holds t st)
    (vregs : ℕ → ℕ) : chainState vregs t = storeState vregs st := by
  rw [chainState, storeState, h.mem]
  exact congrArg (fun env => ChainState.mk env st.mem) (funext fun y => h.regs (vregs y))

theorem SelectsBlock.computes {x : XLen} {vregs vregs' : ℕ → ℕ} {n n' : ℕ} {B : DagBlock x.bits}
    {code : List MachineInstr} (h : SelectsBlock vregs n B code vregs' n') (hf : FreshFrom vregs n)
    {st : Store x.bits (Mem x.bits)} (hzero : st.regs 0 = 0#x.bits) :
    ∃ st' f, execBody isaSem code st = some (st', f) ∧ (∀ q < n, st'.regs q = st.regs q) ∧
      B.Means .word (storeState vregs st) (storeState vregs' st') f := by
  have hst : Holds (⟨st.regs, st.mem, 0#x.bits⟩ : ArchState Register x.bits) st :=
    holds_start hzero 0#x.bits
  obtain ⟨t', st', f, hbody, hst', hbelow, hmeans⟩ := h.runs x.le_bits x.bits_le hf hst
  rw [hst.chainState_eq, hst'.chainState_eq] at hmeans
  refine ⟨st', f, hbody, fun q hq => ?_, hmeans⟩
  rw [← hst'.regs q, hbelow q hq, hst.regs q]

/-- A block has a cover exactly if its constants fit a word and its codes have branches. Whatever
the cover, the machine block computes the DAG block and leaves as it does; registers in use
before keep their values. -/
theorem selectsBlock_runs (x : XLen) {vregs : ℕ → ℕ} {n : ℕ} (hf : FreshFrom vregs n)
    (B : DagBlock x.bits) :
    ((∃ code vregs' n', SelectsBlock vregs n B code vregs' n') ↔
      (∀ c ∈ B.constants, isInt 32 c.toInt) ∧ ∀ cc ∈ B.codes, cc.HasBranch) ∧
    ∀ (code : List MachineInstr) (vregs' : ℕ → ℕ) (n' : ℕ), SelectsBlock vregs n B code vregs' n' →
      ∀ st : Store x.bits (Mem x.bits), st.regs 0 = 0#x.bits →
        ∃ st' f, execBody isaSem code st = some (st', f) ∧ (∀ q < n, st'.regs q = st.regs q) ∧
          B.Means .word (storeState vregs st) (storeState vregs' st') f ∧
          (B.Exact → B.Means .dag (storeState vregs st) (storeState vregs' st') f) := by
  refine ⟨selectsBlock_iff vregs n B, fun code vregs' n' h st hzero => ?_⟩
  obtain ⟨st', f, hbody, hbelow, hmeans⟩ := h.computes hf hzero
  exact ⟨st', f, hbody, hbelow, hmeans, fun hexact => (B.means_exact hexact _ _ _).mp hmeans⟩

/-- Whether `a0` is below 5 is stored at `a1`, and if so, control goes to block 3. -/
def belowFiveBlock : DagBlock 32 where
  nodes := [.selectCC 8 (.arg 0) (.const 5#32) .setult (.const 1#32) (.const 0#32),
    .chain (.store .truncstorei8 (.arg 8) (.arg 1))]
  branch := some ⟨.arg 8, .const 0#32, .setne, 3⟩
  last := .br 4

theorem belowFiveBlock_selects :
    ∃ code vregs' n', SelectsBlock argRegs 32 belowFiveBlock code vregs' n' := by
  have hcode : ∀ cc ∈ belowFiveBlock.codes, cc.HasBranch :=
    List.forall_mem_cons.mpr ⟨⟨_, _, rfl, rfl⟩, List.forall_mem_singleton.mpr ⟨_, _, rfl, rfl⟩⟩
  exact (selectsBlock_iff argRegs 32 belowFiveBlock).mpr
    ⟨fun c _ => ⟨BitVec.le_toInt c, BitVec.toInt_lt⟩, hcode⟩

theorem selectsBlock_runs_belowFive :
    ∃ code vregs' n', SelectsBlock argRegs 32 belowFiveBlock code vregs' n' ∧
      ∀ st : Store 32 (Mem 32), st.regs 0 = 0#32 →
        ∃ st' f, execBody isaSem code st = some (st', f) ∧ (∀ q < 32, st'.regs q = st.regs q) ∧
          belowFiveBlock.Means .word (storeState argRegs st) (storeState vregs' st') f ∧
          (belowFiveBlock.Exact →
            belowFiveBlock.Means .dag (storeState argRegs st) (storeState vregs' st') f) := by
  obtain ⟨code, vregs', n', h⟩ := belowFiveBlock_selects
  exact ⟨code, vregs', n', h,
    (selectsBlock_runs .rv32 argRegs_fresh belowFiveBlock).2 code vregs' n' h⟩

end ToyRiscv
