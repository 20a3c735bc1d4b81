import ToyRiscv.BlockSelection

/-!
# The form of a selected block

What SSA form asks of one block, for the code of any cover: each register is defined
once and taken from the fresh ones, operands are defined before they are used, the
terminators stand at the end and every pseudo carries a code with a branch.
-/

namespace ToyRiscv

variable {w : ℕ} {A : Register → Prop}

/-- Code that reads `A` and what it has defined, and defines some of `n .. n' - 1`, each once. -/
structure Form (A : Register → Prop) (n n' : ℕ) (code : List MachineInstr) : Prop where
  le : n ≤ n'
  defs : ∀ d ∈ defsOf code, n ≤ d ∧ d < n'
  nodup : (defsOf code).Nodup
  uses : UsesDefined A code

theorem Form.nil (A : Register → Prop) (n : ℕ) : Form A n n [] :=
  ⟨Nat.le_refl n, List.forall_mem_nil _, List.nodup_nil, trivial⟩

theorem Form.append {n n₁ n' : ℕ} {c d : List MachineInstr} (hc : Form A n n₁ c)
    (hd : Form (fun r => A r ∨ r ∈ defsOf c) n₁ n' d) : Form A n n' (c ++ d) where
  le := Nat.le_trans hc.le hd.le
  defs r hr := by
    rw [defsOf_append, List.mem_append] at hr
    rcases hr with hr | hr
    · have hr := hc.defs r hr
      exact ⟨hr.1, Nat.lt_of_lt_of_le hr.2 hd.le⟩
    · have hr := hd.defs r hr
      exact ⟨Nat.le_trans hc.le hr.1, hr.2⟩
  nodup := by
    rw [defsOf_append]
    refine List.Nodup.append hc.nodup hd.nodup fun r hrc hrd => ?_
    exact absurd (hc.defs r hrc).2 (Nat.not_lt.mpr (hd.defs r hrd).1)
  uses := (usesDefined_append c d).mpr ⟨hc.uses, hd.uses⟩

theorem Form.single {n : ℕ} {I : MachineInstr} (hdefs : I.defs = [n])
    (huses : ∀ r ∈ I.orderedUses, A r) : Form A n (n + 1) [I] where
  le := Nat.le_succ n
  defs d hd := by
    rw [defsOf_cons, hdefs, defsOf_nil, List.append_nil, List.mem_singleton] at hd
    subst hd
    exact ⟨Nat.le_refl d, Nat.lt_succ_self d⟩
  nodup := by
    rw [defsOf_cons, hdefs]
    exact List.nodup_singleton n
  uses := ⟨huses, trivial⟩

/-- An instruction without a result. -/
theorem Form.effect {I : MachineInstr} (hdefs : I.defs = []) (huses : ∀ r ∈ I.orderedUses, A r)
    (n : ℕ) : Form A n n [I] where
  le := Nat.le_refl n
  defs d hd := by
    rw [defsOf_cons, hdefs] at hd
    cases hd
  nodup := by
    rw [defsOf_cons, hdefs]
    exact List.nodup_nil
  uses := ⟨huses, trivial⟩

/-! ### Straight-line code -/

/-- The code has the form, and its result may be used behind it. -/
def FormOf (A : Register → Prop) (n : ℕ) (code : List (Inst Register)) (r : Register)
    (n' : ℕ) : Prop :=
  Form A n n' (code.map Inst.machineInstr) ∧ (A r ∨ r ∈ defsOf (code.map Inst.machineInstr))

/-- One more instruction, in the next register. -/
theorem Form.snoc {n n₁ : ℕ} {code : List (Inst Register)} {I : Inst Register}
    (h : Form A n n₁ (code.map Inst.machineInstr)) (hdefs : I.defs = [n₁])
    (huses : ∀ r ∈ I.uses, A r ∨ r ∈ defsOf (code.map Inst.machineInstr)) :
    FormOf A n (code ++ [I]) n₁ (n₁ + 1) := by
  have hI : I.machineInstr.defs = [n₁] := hdefs
  have hmem : n₁ ∈ defsOf (code.map Inst.machineInstr ++ [I.machineInstr]) := by
    rw [defsOf_append, defsOf_cons, hI]
    exact List.mem_append_right _ (List.mem_append_left _ (List.mem_singleton_self n₁))
  rw [FormOf, List.map_append]
  exact ⟨h.append (.single hI huses), .inr hmem⟩

/-- The first of two results is still there behind the code of the second. -/
theorem Form.append_of {n n₁ n' : ℕ} {c d : List (Inst Register)} {r r' : Register}
    (hc : FormOf A n c r n₁)
    (hd : FormOf (fun q => A q ∨ q ∈ defsOf (c.map Inst.machineInstr)) n₁ d r' n') :
    FormOf A n (c ++ d) r n' ∧ FormOf A n (c ++ d) r' n' := by
  have hform := hc.1.append hd.1
  rw [FormOf, FormOf, List.map_append, defsOf_append, List.mem_append, List.mem_append]
  exact ⟨⟨hform, hc.2.imp_right .inl⟩, hform, (or_assoc.mp hd.2)⟩

theorem Selects.form {vregs : ℕ → ℕ} {n n' : ℕ} {e : DagExpr w} {code : List (Inst Register)}
    {r : Register} (h : Selects vregs n e code r n') (hzero : A 0) (hargs : ∀ x, A (vregs x)) :
    FormOf A n code r n' := by
  induction h generalizing A with
  | arg n x => exact ⟨.nil A n, .inl (hargs x)⟩
  | simm12 n c hc =>
    have hnil : Form A n n (([] : List (Inst Register)).map Inst.machineInstr) := .nil A n
    exact hnil.snoc rfl fun r hr => .inl (List.mem_singleton.mp hr ▸ hzero)
  | simm32 n c hc =>
    have hnil : Form A n n (([] : List (Inst Register)).map Inst.machineInstr) := .nil A n
    have hlui : FormOf A n [.lui n (targetConstant w (hi20 (c.setWidth 64)))] n (n + 1) :=
      hnil.snoc rfl fun r hr => by cases hr
    refine hlui.1.snoc rfl fun r hr => ?_
    cases List.mem_singleton.mp hr
    exact hlui.2
  | gprGpr hpat ha hb iha ihb =>
    obtain ⟨hra, hrb⟩ := Form.append_of (iha hzero hargs)
      (ihb (Or.inl hzero) fun x => Or.inl (hargs x))
    exact hra.1.snoc rfl fun q hq =>
      (List.mem_pair.mp hq).elim (fun hq => hq ▸ hra.2) fun hq => hq ▸ hrb.2
  | gprSimm12 hpat himm h ih =>
    obtain ⟨hc, hr⟩ := ih hzero hargs
    exact hc.snoc rfl fun q hq => List.mem_singleton.mp hq ▸ hr
  | load hpat haddr h ih =>
    obtain ⟨hc, hr⟩ := ih hzero hargs
    exact hc.snoc rfl fun q hq => List.mem_singleton.mp hq ▸ hr

/-! ### Blocks -/

/-- The code has the form, and the names in `vregs'` may be used behind it. -/
def FormNames (A : Register → Prop) (n : ℕ) (code : List MachineInstr) (vregs' : ℕ → ℕ)
    (n' : ℕ) : Prop :=
  Form A n n' code ∧ ∀ x, A (vregs' x) ∨ vregs' x ∈ defsOf code

theorem FormNames.cons {n n₁ n' : ℕ} {c d : List MachineInstr} {vregs' : ℕ → ℕ}
    (hc : Form A n n₁ c) (hd : FormNames (fun r => A r ∨ r ∈ defsOf c) n₁ d vregs' n') :
    FormNames A n (c ++ d) vregs' n' := by
  refine ⟨hc.append hd.1, fun x => ?_⟩
  rw [defsOf_append, List.mem_append]
  exact or_assoc.mp (hd.2 x)

theorem names_update {vregs : ℕ → ℕ} (hargs : ∀ x, A (vregs x)) {r : Register} (hr : A r)
    (x y : ℕ) : A (Function.update vregs x r y) := by
  by_cases hy : y = x
  · rw [hy, Function.update_self]
    exact hr
  · rw [Function.update_of_ne hy]
    exact hargs y

theorem SelectsChain.form {vregs vregs' : ℕ → ℕ} {n n' : ℕ} {chain : List (ChainNode w)}
    {code : List (Inst Register)} (h : SelectsChain vregs n chain code vregs' n') (hzero : A 0)
    (hargs : ∀ x, A (vregs x)) : FormNames A n (code.map Inst.machineInstr) vregs' n' := by
  induction h generalizing A with
  | nil vregs n => exact ⟨.nil A n, fun x => .inl (hargs x)⟩
  | @bind vregs vregs' n n₁ n' x e c d r chain he h ih =>
    obtain ⟨hc, hr⟩ := he.form hzero hargs
    have hnames := names_update (A := fun q => A q ∨ q ∈ defsOf (c.map Inst.machineInstr))
      (fun y => .inl (hargs y)) hr x
    rw [List.map_append]
    exact FormNames.cons hc (ih (Or.inl hzero) hnames)
  | @store vregs vregs' n n₁ n₂ n' frag inst value addr rs1 imm12 cv ca d rv ra chain hpat haddr hv
      ha h ih =>
    obtain ⟨hrv, hra⟩ := Form.append_of (hv.form hzero hargs)
      (ha.form (Or.inl hzero) fun y => Or.inl (hargs y))
    have hstore : Form (fun q => A q ∨ q ∈ defsOf ((cv ++ ca).map Inst.machineInstr)) n₂ n₂
        [(Inst.store inst rv ra imm12).machineInstr] := by
      refine .effect rfl (fun q hq => ?_) n₂
      rcases List.mem_pair.mp hq with rfl | rfl
      · exact hrv.2
      · exact hra.2
    rw [List.map_append, List.map_cons]
    exact FormNames.cons hrv.1
      (FormNames.cons hstore (ih (Or.inl (Or.inl hzero)) fun y => Or.inl (Or.inl (hargs y))))

theorem SelectsList.form {vregs : ℕ → ℕ} {n n' : ℕ} {es : List (DagExpr w)}
    {code : List (Inst Register)} {rs : List Register} (h : SelectsList vregs n es code rs n')
    (hzero : A 0) (hargs : ∀ x, A (vregs x)) : Form A n n' (code.map Inst.machineInstr) ∧
      ∀ r ∈ rs, A r ∨ r ∈ defsOf (code.map Inst.machineInstr) := by
  induction h generalizing A with
  | nil n => exact ⟨.nil A n, List.forall_mem_nil _⟩
  | @cons n n₁ n' e es c d r rs he hes ih =>
    obtain ⟨hc, hr⟩ := he.form hzero hargs
    obtain ⟨hd, hrs⟩ := ih (A := fun q => A q ∨ q ∈ defsOf (c.map Inst.machineInstr)) (.inl hzero)
      fun x => .inl (hargs x)
    rw [List.map_append]
    refine ⟨hc.append hd, ?_⟩
    rw [defsOf_append]
    simp only [List.mem_append, ← or_assoc]
    exact List.forall_mem_cons.mpr ⟨.inl hr, hrs⟩

theorem SelectsNodes.form {vregs vregs' : ℕ → ℕ} {n n' : ℕ} {nodes : List (BlockNode w)}
    {code : List MachineInstr} (h : SelectsNodes vregs n nodes code vregs' n') (hzero : A 0)
    (hargs : ∀ x, A (vregs x)) : FormNames A n code vregs' n' := by
  induction h generalizing A with
  | nil vregs n => exact ⟨.nil A n, fun x => .inl (hargs x)⟩
  | chain hnode h ih =>
    obtain ⟨hc, hnames⟩ := hnode.form hzero hargs
    exact FormNames.cons hc (ih (Or.inl hzero) hnames)
  | @selectCC vregs vregs' n n₁ n' x lhs rhs trueV falseV cc rcc nodes c d rl rr rt rf hcc he h
      ih =>
    obtain ⟨hc, hrs⟩ := he.form hzero hargs
    have hselect : Form (fun q => A q ∨ q ∈ defsOf (c.map Inst.machineInstr)) n₁ (n₁ + 1)
        [.select ⟨n₁, rl, rr, rcc, rt, rf⟩] := by
      exact .single rfl fun q hq => hrs q hq
    have hnames := names_update (A := fun q =>
      (A q ∨ q ∈ defsOf (c.map Inst.machineInstr)) ∨ q ∈ [n₁]) (fun y => .inl (.inl (hargs y)))
      (.inr (List.mem_singleton_self n₁)) x
    exact FormNames.cons hc (FormNames.cons hselect (ih (Or.inl (Or.inl hzero)) hnames))

/-! ### The end of the block -/

def BlockEnd.uses : BlockEnd → List Register
  | .fallThrough | .br _ => []
  | .retFlag regs => regs

def BlockEnd.targets : BlockEnd → List MBB
  | .br dest => [dest]
  | .fallThrough | .retFlag _ => []

def DagBlock.targets (B : DagBlock w) : List MBB :=
  B.branch.toList.map DagBranch.dest ++ B.last.targets

/-- An instruction of the body of a block. -/
structure MachineInstr.Plain (I : MachineInstr) : Prop where
  not_terminator : I.isTerminator = false
  not_phi : I.isPhi = false
  select_cc : ∀ s, I = .select s → s.cc ≠ .condInvalid

theorem plain_machineInstr (code : List (Inst Register)) :
    ∀ I ∈ code.map Inst.machineInstr, I.Plain := by
  intro I hI
  obtain ⟨J, -, rfl⟩ := List.mem_map.mp hI
  exact ⟨rfl, rfl, fun s h => by cases h⟩

theorem SelectsNodes.plain {vregs vregs' : ℕ → ℕ} {n n' : ℕ} {nodes : List (BlockNode w)}
    {code : List MachineInstr} (h : SelectsNodes vregs n nodes code vregs' n') :
    ∀ I ∈ code, I.Plain := by
  induction h with
  | nil => exact List.forall_mem_nil _
  | chain hnode h ih => exact List.forall_mem_append.mpr ⟨plain_machineInstr _, ih⟩
  | @selectCC _ _ _ _ _ _ _ _ _ _ cc rcc _ _ _ _ _ _ _ hcc he h ih =>
    refine List.forall_mem_append.mpr ⟨plain_machineInstr _, List.forall_mem_cons.mpr ⟨?_, ih⟩⟩
    refine ⟨rfl, rfl, fun s hs => ?_⟩
    cases hs
    exact getRISCVCCForIntCC_valid cc rcc hcc

theorem SelectsBranch.terminators {vregs : ℕ → ℕ} {n n' : ℕ} {b : Option (DagBranch w)}
    {code : List (Inst Register)} {branch : List MachineInstr}
    (h : SelectsBranch vregs n b code branch n') : ∀ I ∈ branch,
      I.isTerminator = true ∧ I.isBarrier = false ∧
        ∀ t ∈ I.targets, t ∈ b.toList.map DagBranch.dest := by
  cases h with
  | none => exact List.forall_mem_nil _
  | brcc hpat he => exact List.forall_mem_singleton.mpr ⟨rfl, rfl, fun t ht => ht⟩

theorem SelectsBranch.form {vregs : ℕ → ℕ} {n n' : ℕ} {b : Option (DagBranch w)}
    {code : List (Inst Register)} {branch : List MachineInstr}
    (h : SelectsBranch vregs n b code branch n') (hzero : A 0) (hargs : ∀ x, A (vregs x)) :
    Form A n n' (code.map Inst.machineInstr ++ branch) := by
  cases h with
  | none => exact .nil A n
  | brcc hpat he =>
    obtain ⟨hc, hrs⟩ := he.form hzero hargs
    exact hc.append (.effect (I := .branch ..) rfl hrs n')

theorem BlockEnd.form (last : BlockEnd) (huses : ∀ r ∈ last.uses, A r) (n : ℕ) :
    Form A n n last.insts := by
  cases last with
  | fallThrough => exact .nil A n
  | br dest => exact .effect rfl (List.forall_mem_nil _) n
  | retFlag regs => exact .effect (I := .pseudoRET regs) rfl huses n

theorem BlockEnd.terminators (last : BlockEnd) :
    ∀ I ∈ last.insts, I.isTerminator = true ∧ ∀ t ∈ I.targets, t ∈ last.targets := by
  cases last with
  | fallThrough => exact List.forall_mem_nil _
  | br dest => exact List.forall_mem_singleton.mpr ⟨rfl, fun t ht => ht⟩
  | retFlag regs => exact List.forall_mem_singleton.mpr ⟨rfl, fun t ht => ht⟩

theorem BlockEnd.falls_through (last : BlockEnd) :
    (∀ I ∈ last.insts, I.isBarrier = false) ↔ last = .fallThrough := by
  cases last with
  | fallThrough => exact iff_of_true (List.forall_mem_nil _) rfl
  | br dest => exact iff_of_false (fun h => by cases h _ (List.mem_singleton_self _)) (by simp)
  | retFlag regs => exact iff_of_false (fun h => by cases h _ (List.mem_singleton_self _)) (by simp)

theorem not_phi_of_terminator {I : MachineInstr} (h : I.isTerminator = true) : I.isPhi = false := by
  cases I with
  | phi => cases h
  | _ => rfl

theorem SelectsBlock.no_phi {vregs vregs' : ℕ → ℕ} {n n' : ℕ} {B : DagBlock w}
    {code : List MachineInstr} (h : SelectsBlock vregs n B code vregs' n') :
    ∀ I ∈ code, I.isPhi = false := by
  cases h with
  | @intro _ _ _ c d branch hnodes hbranch =>
    refine List.forall_mem_append.mpr ⟨List.forall_mem_append.mpr
      ⟨List.forall_mem_append.mpr ⟨fun I hI => ?_, fun I hI => ?_⟩, fun I hI => ?_⟩, fun I hI => ?_⟩
    · exact (hnodes.plain I hI).not_phi
    · exact (plain_machineInstr d I hI).not_phi
    · exact not_phi_of_terminator (hbranch.terminators I hI).1
    · exact not_phi_of_terminator (B.last.terminators I hI).1

theorem terminators_last {body ends : List MachineInstr} (hbody : ∀ I ∈ body, I.Plain)
    (hends : ∀ I ∈ ends, I.isTerminator = true) :
    (body ++ ends).Pairwise fun I J => I.isTerminator = true → J.isTerminator = true := by
  refine List.pairwise_append.mpr ⟨?_, ?_, fun I hI J hJ _ => hends J hJ⟩
  · refine List.pairwise_of_forall_mem_list fun I hI J _ h => ?_
    rw [(hbody I hI).not_terminator] at h
    cases h
  · exact List.pairwise_of_forall_mem_list fun I _ J hJ _ => hends J hJ

/-- The part of SSA form that concerns one block: what it reads must be in `A`. -/
structure BlockSSA (A : Register → Prop) (n : ℕ) (B : DagBlock w) (code : List MachineInstr)
    (vregs' : ℕ → ℕ) (n' : ℕ) : Prop where
  form : FormNames A n code vregs' n'
  no_phi : ∀ I ∈ code, I.isPhi = false
  terminators_last : code.Pairwise fun I J => I.isTerminator = true → J.isTerminator = true
  select_cc : ∀ s, .select s ∈ code → s.cc ≠ .condInvalid
  targets : ∀ I ∈ code, ∀ t ∈ I.targets, t ∈ B.targets
  falls_through : (∀ I ∈ code, I.isBarrier = false) ↔ B.last = .fallThrough

/-- Whatever the cover: what the block may read are ZERO, the names and what it returns. -/
theorem selectsBlock_ssa {vregs vregs' : ℕ → ℕ} {n n' : ℕ} {B : DagBlock w}
    {code : List MachineInstr} (h : SelectsBlock vregs n B code vregs' n') (hzero : A 0)
    (hargs : ∀ x, A (vregs x)) (huses : ∀ r ∈ B.last.uses, A r) :
    BlockSSA A n B code vregs' n' := by
  have hphi := h.no_phi
  cases h with
  | @intro _ n₁ _ c d branch hnodes hbranch =>
    have hc := hnodes.form hzero hargs
    have hd := hbranch.form (A := fun r => A r ∨ r ∈ defsOf c) (.inl hzero) hc.2
    have hlast := B.last.form (A := fun r => (A r ∨ r ∈ defsOf c) ∨
      r ∈ defsOf (d.map Inst.machineInstr ++ branch)) (fun r hr => .inl (.inl (huses r hr))) n'
    have hplain : ∀ I ∈ c ++ d.map Inst.machineInstr, I.Plain :=
      List.forall_mem_append.mpr ⟨hnodes.plain, plain_machineInstr d⟩
    have hbr := hbranch.terminators
    have hend := B.last.terminators
    have hends : ∀ I ∈ branch ++ B.last.insts, I.isTerminator = true :=
      List.forall_mem_append.mpr ⟨fun I hI => (hbr I hI).1, fun I hI => (hend I hI).1⟩
    rw [List.append_assoc] at hphi ⊢
    exact {
      form := by
        rw [List.append_assoc c, ← List.append_assoc (d.map _)]
        exact FormNames.cons hc.1 ⟨hd.append hlast, fun x => .inl (hc.2 x)⟩
      no_phi := hphi
      terminators_last := terminators_last hplain hends
      select_cc := by
        intro s hs
        rcases List.mem_append.mp hs with hs | hs
        · exact (hplain _ hs).select_cc s rfl
        · cases hends _ hs
      targets := by
        refine List.forall_mem_append.mpr ⟨fun I hI t ht => ?_, List.forall_mem_append.mpr ⟨?_, ?_⟩⟩
        · rw [I.targets_eq_nil (hplain I hI).not_terminator] at ht
          cases ht
        · exact fun I hI t ht => List.mem_append_left _ ((hbr I hI).2.2 t ht)
        · exact fun I hI t ht => List.mem_append_right _ ((hend I hI).2 t ht)
      falls_through := by
        rw [← B.last.falls_through]
        constructor
        · exact fun hall I hI =>
            hall I (List.mem_append_right _ (List.mem_append_right _ hI))
        · exact fun hlast => List.forall_mem_append.mpr
            ⟨fun I hI => I.not_barrier (hplain I hI).not_terminator,
              List.forall_mem_append.mpr ⟨fun I hI => (hbr I hI).2.1, hlast⟩⟩ }

theorem selectsBlock_ssa_belowFive :
    ∃ code vregs' n', BlockSSA (fun r => r < 32) 32 belowFiveBlock code vregs' n' := by
  obtain ⟨code, vregs', n', h⟩ := belowFiveBlock_selects
  exact ⟨code, vregs', n', selectsBlock_ssa (A := fun r => r < 32) h (by decide) argRegs_fresh.args
    (List.forall_mem_nil _)⟩

end ToyRiscv
