import ToyRiscv.BlockSelection

/-!
# From BRCOND to the branch instruction

`LowerOperation` leaves a tree of values; selection works on a chain. Each SELECT_CC
of the tree becomes a node of the chain under a name of its own, and the rest of the
tree the expressions of the patterns. A SETCC whose value is wanted has a pattern for
SETLT and SETULT only.
-/

namespace ToyRiscv
open Relation

variable {w : ℕ}

def setccOp : List (IsdCondCode × DagOp) := [(.setlt, .setlt), (.setult, .setult)]

/-- `Named top k a nodes e k'`: the SELECT_CCs in `a` are named `k .. k' - 1` by `nodes`, behind
which `e` has the value of `a`. The names of the values from outside are those below `top`. -/
inductive Named (top : ℕ) :
    ℕ → SDValue w → List (BlockNode w) → DagExpr w → ℕ → Prop
  | node (k : ℕ) {id : ℕ} (hid : id < top) : Named top k (.node id) [] (.arg id) k
  | constant (k : ℕ) (c : BitVec w) : Named top k (.constant c) [] (.const c) k
  | setcc {k k₁ k' : ℕ} {lhs rhs : SDValue w} {cc : IsdCondCode} {op : DagOp}
      {ls rs : List (BlockNode w)} {l r : DagExpr w} (hop : (cc, op) ∈ setccOp)
      (hl : Named top k lhs ls l k₁) (hr : Named top k₁ rhs rs r k') :
      Named top k (.setcc lhs rhs cc) (ls ++ rs) (.bin op l r) k'
  | add {k k₁ k' : ℕ} {a b : SDValue w} {ls rs : List (BlockNode w)} {l r : DagExpr w}
      (hl : Named top k a ls l k₁) (hr : Named top k₁ b rs r k') :
      Named top k (.add a b) (ls ++ rs) (.bin .add l r) k'
  | sub {k k₁ k' : ℕ} {a b : SDValue w} {ls rs : List (BlockNode w)} {l r : DagExpr w}
      (hl : Named top k a ls l k₁) (hr : Named top k₁ b rs r k') :
      Named top k (.sub a b) (ls ++ rs) (.bin .sub l r) k'
  | selectCC {k k₁ k₂ k₃ k₄ : ℕ} {lhs rhs t f : SDValue w} {cc : IsdCondCode}
      {ls rs ts fs : List (BlockNode w)} {l r t' f' : DagExpr w} (hl : Named top k lhs ls l k₁)
      (hr : Named top k₁ rhs rs r k₂) (ht : Named top k₂ t ts t' k₃)
      (hf : Named top k₃ f fs f' k₄) :
      Named top k (.selectCC lhs rhs cc t f)
        (ls ++ (rs ++ (ts ++ (fs ++ [.selectCC k₄ l r cc t' f'])))) (.arg k₄) (k₄ + 1)

/-! ### The values -/

theorem nodesMean_append (D : DagSem w) {a b : List (BlockNode w)} {s t : ChainState w} :
    NodesMean D (a ++ b) s t ↔ ∃ u, NodesMean D a s u ∧ NodesMean D b u t := by
  induction a generalizing s with
  | nil =>
    constructor
    · intro h
      exact ⟨s, rfl, h⟩
    · rintro ⟨u, rfl, h⟩
      exact h
  | cons node a ih =>
    simp only [List.cons_append, NodesMean, ih]
    constructor
    · rintro ⟨u, hnode, v, ha, hb⟩
      exact ⟨v, ⟨u, hnode, ha⟩, hb⟩
    · rintro ⟨v, ⟨u, hnode, ha⟩, hb⟩
      exact ⟨u, hnode, v, ha, hb⟩

/-- The names below `k` are as they were. -/
def SameBelow (k : ℕ) (s t : ChainState w) : Prop := ∀ y < k, t.env y = s.env y

theorem SameBelow.refl (k : ℕ) (s : ChainState w) : SameBelow k s s := fun _ _ => rfl

theorem SameBelow.trans {k k' : ℕ} {s t u : ChainState w} (h : SameBelow k s t)
    (h' : SameBelow k' t u) (hk : k ≤ k') : SameBelow k s u :=
  fun y hy => (h' y (Nat.lt_of_lt_of_le hy hk)).trans (h y hy)

/-- Behind the nodes `e` has the value of `a`, for as long as their names stand. -/
structure Values (k k' : ℕ) (env : DagEnv) (a : SDValue w) (e : DagExpr w)
    (s t : ChainState w) : Prop where
  le : k ≤ k'
  same : SameBelow k s t
  value : ∀ u, SameBelow k' t u → ∀ v, e.Means u.env u.mem v → v = a.eval env

/-- The names from outside stand for the values of the environment. -/
def Outside (top : ℕ) (env : DagEnv) (s : ChainState w) : Prop := ∀ id < top, s.env id = env w id

theorem Values.outside {top k k' : ℕ} {env : DagEnv} {a : SDValue w} {e : DagExpr w}
    {s t : ChainState w} (h : Values k k' env a e s t) (hk : top ≤ k) (hs : Outside top env s) :
    Outside top env t :=
  fun id hid => (h.same id (Nat.lt_of_lt_of_le hid hk)).trans (hs id hid)

theorem setccOp_value {cc : IsdCondCode} {op : DagOp} (hop : (cc, op) ∈ setccOp) {a b v : BitVec w}
    (h : op.Means a b v) : v = if cc.holds a b then 1#w else 0#w := by
  simp only [setccOp, List.mem_cons, Prod.mk.injEq, List.not_mem_nil, or_false] at hop
  rcases hop with ⟨rfl, rfl⟩ | ⟨rfl, rfl⟩ <;> exact h

/-- The left operand keeps its value while the nodes of the right one are computed. -/
theorem Values.bin {k k₁ k' : ℕ} {env : DagEnv} {a b c : SDValue w} {l r : DagExpr w}
    {s t u : ChainState w} {op : DagOp} (hl : Values k k₁ env a l s t)
    (hr : Values k₁ k' env b r t u)
    (hop : ∀ v, op.Means (a.eval env) (b.eval env) v → v = c.eval env) :
    Values k k' env c (.bin op l r) s u where
  le := Nat.le_trans hl.le hr.le
  same := hl.same.trans hr.same hl.le
  value x hx v hv := by
    obtain ⟨va, vb, ha, hb, hv⟩ := hv
    cases hl.value x (hr.same.trans hx hr.le) va ha
    cases hr.value x hx vb hb
    exact hop v hv

/-- The nodes of an operand come first; behind them the outside stands as before. -/
theorem Values.operand {top k k₁ : ℕ} {env : DagEnv} {a : SDValue w} {l : DagExpr w}
    {ls rest : List (BlockNode w)} {s t : ChainState w}
    (ih : top ≤ k → ∀ {s t}, Outside top env s → NodesMean .dag ls s t → Values k k₁ env a l s t)
    (hk : top ≤ k) (hs : Outside top env s) (ht : NodesMean .dag (ls ++ rest) s t) :
    ∃ u, Values k k₁ env a l s u ∧ top ≤ k₁ ∧ Outside top env u ∧ NodesMean .dag rest u t := by
  obtain ⟨u, hls, hrest⟩ := (nodesMean_append .dag).mp ht
  have hl := ih hk hs hls
  exact ⟨u, hl, Nat.le_trans hk hl.le, hl.outside hk hs, hrest⟩

theorem Named.values {top k k' : ℕ} {a : SDValue w} {nodes : List (BlockNode w)} {e : DagExpr w}
    (h : Named top k a nodes e k') (hk : top ≤ k) {env : DagEnv} {s t : ChainState w}
    (hs : Outside top env s) (ht : NodesMean .dag nodes s t) : Values k k' env a e s t := by
  induction h generalizing s t with
  | node k hid =>
    cases ht
    refine ⟨Nat.le_refl k, .refl k s, fun u hu v hv => ?_⟩
    calc v = u.env _ := hv
      _ = s.env _ := hu _ (Nat.lt_of_lt_of_le hid hk)
      _ = _ := hs _ hid
  | constant k c =>
    cases ht
    exact ⟨Nat.le_refl k, .refl k s, fun u hu v hv => hv⟩
  | setcc hop hl hr ihl ihr =>
    obtain ⟨u, hl, hk₁, hs₁, hrs⟩ := Values.operand ihl hk hs ht
    exact hl.bin (ihr hk₁ hs₁ hrs) fun v hv => setccOp_value hop hv
  | add hl hr ihl ihr | sub hl hr ihl ihr =>
    obtain ⟨u, hl, hk₁, hs₁, hrs⟩ := Values.operand ihl hk hs ht
    exact hl.bin (ihr hk₁ hs₁ hrs) fun v hv => hv
  | @selectCC k k₁ k₂ k₃ k₄ lhs rhs tv fv cc ls rs ts fs l r t' f' hl hr ht' hf ihl ihr iht ihf =>
    obtain ⟨s₁, hl, hk₁, hs₁, ht⟩ := Values.operand ihl hk hs ht
    obtain ⟨s₂, hr, hk₂, hs₂, ht⟩ := Values.operand ihr hk₁ hs₁ ht
    obtain ⟨s₃, ht', hk₃, hs₃, ht⟩ := Values.operand iht hk₂ hs₂ ht
    obtain ⟨s₄, hf, -, -, ht⟩ := Values.operand ihf hk₃ hs₃ ht
    -- all four operands still have their values where the SELECT_CC stands
    have h₃ : SameBelow k₃ s₃ s₄ := hf.same
    have h₂ : SameBelow k₂ s₂ s₄ := ht'.same.trans h₃ ht'.le
    have h₁ : SameBelow k₁ s₁ s₄ := hr.same.trans h₂ hr.le
    have h₀ : SameBelow k s s₄ := hl.same.trans h₁ hl.le
    obtain ⟨x, ⟨vl, vr, vt, vf, hvl, hvr, hvt, hvf, rfl⟩, rfl⟩ := ht
    cases hl.value s₄ h₁ vl hvl
    cases hr.value s₄ h₂ vr hvr
    cases ht'.value s₄ h₃ vt hvt
    cases hf.value s₄ (.refl k₄ s₄) vf hvf
    have hle : k ≤ k₄ := Nat.le_trans hl.le (Nat.le_trans hr.le (Nat.le_trans ht'.le hf.le))
    refine ⟨Nat.le_succ_of_le hle, fun y hy => ?_, fun u hu v hv => ?_⟩
    · have hne : y ≠ k₄ := Nat.ne_of_lt (Nat.lt_of_lt_of_le hy hle)
      calc Function.update s₄.env k₄ _ y = s₄.env y := Function.update_of_ne hne _ _
        _ = s.env y := h₀ y hy
    · calc v = u.env k₄ := hv
        _ = Function.update s₄.env k₄ _ k₄ := hu k₄ (Nat.lt_succ_self k₄)
        _ = _ := Function.update_self ..

/-! ### Which values can be named -/

variable {x : XLen}

/-- A node of the word type, from outside or with a pattern. -/
def WordNode (x : XLen) (top v : ℕ) : SDValue v → Prop
  | .node id => v = x.bits ∧ id < top
  | .setcc _ _ cc => v = x.bits ∧ (cc = .setlt ∨ cc = .setult)
  | _ => v = x.bits

theorem SDValue.Every.root {P : (w : ℕ) → SDValue w → Prop} {v : ℕ} {a : SDValue v}
    (h : a.Every P) : P v a := by
  cases a with
  | node | constant => exact h
  | setcc | add | sub | select | selectCC => exact h.1

theorem SDValue.Every.width {top v : ℕ} {a : SDValue v} (h : a.Every (WordNode x top)) :
    v = x.bits := by
  have hroot := h.root
  cases a with
  | node | setcc => exact hroot.1
  | constant | add | sub | select | selectCC => exact hroot

/-- The names of a second operand go on where those of the first end. -/
theorem exists_named_pair {top : ℕ} {a b : SDValue x.bits}
    (ha : ∀ k, ∃ a' : SDValue x.bits, HEq a' a ∧ ∃ nodes e k', Named top k a' nodes e k')
    (hb : ∀ k, ∃ b' : SDValue x.bits, HEq b' b ∧ ∃ nodes e k', Named top k b' nodes e k') (k : ℕ) :
    ∃ ls l k₁ rs r k', Named top k a ls l k₁ ∧ Named top k₁ b rs r k' := by
  obtain ⟨_, ha, ls, l, k₁, han⟩ := ha k
  obtain ⟨_, hb, rs, r, k', hbn⟩ := hb k₁
  cases ha
  cases hb
  exact ⟨ls, l, k₁, rs, r, k', han, hbn⟩

/-- A word-typed DAG without SELECT can be named. -/
theorem exists_named {top v : ℕ} {a : SDValue v} (h : a.Every (WordNode x top))
    (hzero : a.selects x = 0) (k : ℕ) :
    ∃ b : SDValue x.bits, HEq b a ∧ ∃ nodes e k', Named top k b nodes e k' := by
  induction a generalizing k with
  | node id =>
    obtain ⟨rfl, hid⟩ : _ = x.bits ∧ id < top := h.root
    exact ⟨_, .rfl, _, _, _, .node k hid⟩
  | constant c =>
    obtain rfl : _ = x.bits := h.root
    exact ⟨_, .rfl, _, _, _, .constant k c⟩
  | setcc lhs rhs cc ihl ihr =>
    obtain ⟨rfl, hcc⟩ : _ = x.bits ∧ (cc = .setlt ∨ cc = .setult) := h.root
    obtain ⟨-, hl, hr⟩ := h
    obtain rfl := hl.width
    obtain ⟨hl0, hr0⟩ := Nat.add_eq_zero_iff.mp hzero
    obtain ⟨_, _, _, _, _, _, hl, hr⟩ := exists_named_pair (ihl hl hl0) (ihr hr hr0) k
    rcases hcc with rfl | rfl
    · exact ⟨_, .rfl, _, _, _, .setcc (List.mem_cons_self ..) hl hr⟩
    · exact ⟨_, .rfl, _, _, _, .setcc (List.mem_cons_of_mem _ (List.mem_cons_self ..)) hl hr⟩
  | add a b iha ihb =>
    obtain rfl : _ = x.bits := h.root
    obtain ⟨-, ha, hb⟩ := h
    obtain ⟨ha0, hb0⟩ := Nat.add_eq_zero_iff.mp hzero
    obtain ⟨_, _, _, _, _, _, ha, hb⟩ := exists_named_pair (iha ha ha0) (ihb hb hb0) k
    exact ⟨_, .rfl, _, _, _, .add ha hb⟩
  | sub a b iha ihb =>
    obtain rfl : _ = x.bits := h.root
    obtain ⟨-, ha, hb⟩ := h
    obtain ⟨ha0, hb0⟩ := Nat.add_eq_zero_iff.mp hzero
    obtain ⟨_, _, _, _, _, _, ha, hb⟩ := exists_named_pair (iha ha ha0) (ihb hb hb0) k
    exact ⟨_, .rfl, _, _, _, .sub ha hb⟩
  | select c t f =>
    obtain rfl : _ = x.bits := h.root
    obtain ⟨-, hc, -⟩ := h
    obtain rfl := hc.width
    rw [SDValue.selects, if_pos ⟨rfl, rfl⟩] at hzero
    omega
  | selectCC lhs rhs cc t f ihl ihr iht ihf =>
    obtain rfl : _ = x.bits := h.root
    obtain ⟨-, hl, hr, ht, hf⟩ := h
    obtain rfl := hl.width
    simp only [SDValue.selects, Nat.add_eq_zero_iff] at hzero
    obtain ⟨⟨⟨hl0, hr0⟩, ht0⟩, hf0⟩ := hzero
    obtain ⟨_, _, _, _, _, k₂, hl, hr⟩ := exists_named_pair (ihl hl hl0) (ihr hr hr0) k
    obtain ⟨_, _, _, _, _, _, ht, hf⟩ := exists_named_pair (iht ht ht0) (ihf hf hf0) k₂
    exact ⟨_, .rfl, _, _, _, .selectCC hl hr ht hf⟩

theorem Named.codes {top k k' : ℕ} {a : SDValue w} {nodes : List (BlockNode w)} {e : DagExpr w}
    (h : Named top k a nodes e k') (ha : a.Every BranchCode) :
    ∀ cc ∈ nodes.flatMap BlockNode.codes, cc.HasBranch := by
  induction h with
  | node | constant => exact List.forall_mem_nil _
  | setcc _ _ _ ihl ihr | add _ _ ihl ihr | sub _ _ ihl ihr =>
    rw [List.flatMap_append]
    exact List.forall_mem_append.mpr ⟨ihl ha.2.1, ihr ha.2.2⟩
  | selectCC hl hr ht hf ihl ihr iht ihf =>
    obtain ⟨hcode, hal, har, hat, haf⟩ := ha
    simp only [List.flatMap_append, List.forall_mem_append]
    exact ⟨ihl hal, ihr har, iht hat, ihf haf, List.forall_mem_singleton.mpr hcode⟩

/-- No node writes the memory, whatever expressions mean. -/
theorem Named.mem {top k k' : ℕ} {a : SDValue w} {nodes : List (BlockNode w)} {e : DagExpr w}
    (h : Named top k a nodes e k') {D : DagSem w} {s t : ChainState w}
    (ht : NodesMean D nodes s t) : t.mem = s.mem := by
  induction h generalizing s t with
  | node | constant =>
    cases ht
    rfl
  | setcc _ _ _ ihl ihr | add _ _ ihl ihr | sub _ _ ihl ihr =>
    obtain ⟨u, hls, hrs⟩ := (nodesMean_append D).mp ht
    exact (ihr hrs).trans (ihl hls)
  | selectCC _ _ _ _ ihl ihr iht ihf =>
    obtain ⟨s₁, hls, ht⟩ := (nodesMean_append D).mp ht
    obtain ⟨s₂, hrs, ht⟩ := (nodesMean_append D).mp ht
    obtain ⟨s₃, hts, ht⟩ := (nodesMean_append D).mp ht
    obtain ⟨s₄, hfs, ht⟩ := (nodesMean_append D).mp ht
    obtain ⟨u, hnode, rfl⟩ := ht
    obtain ⟨-, -, -, -, -, -, -, -, rfl⟩ := hnode
    exact (ihf hfs).trans ((iht hts).trans ((ihr hrs).trans (ihl hls)))

/-! ### The branch -/

/-- The chain up to BR_CC and what follows it. -/
def branchBlock (ls rs : List (BlockNode w)) (l r : DagExpr w) (cc : IsdCondCode) (dest : MBB)
    (last : BlockEnd) : DagBlock w where
  nodes := ls ++ rs
  branch := some ⟨l, r, cc, dest⟩
  last := last

theorem branchBlock_means {top k₁ k₂ : ℕ} {lhs rhs : SDValue x.bits} {cc : IsdCondCode} {dest : MBB}
    {ls rs : List (BlockNode x.bits)} {l r : DagExpr x.bits} (hl : Named top top lhs ls l k₁)
    (hr : Named top k₁ rhs rs r k₂) {last : BlockEnd} {env : DagEnv} {s t : ChainState x.bits}
    {f : Flow} (hs : Outside top env s)
    (h : (branchBlock ls rs l r cc dest last).Means .dag s t f) :
    f = match (BranchNode.brcc ⟨x.bits, lhs, rhs, cc, dest⟩ : BranchNode x).target env with
        | some d => .goto d
        | none => last.flow := by
  obtain ⟨hnodes, taken, ⟨vl, vr, hvl, hvr, htaken⟩, hf⟩ := h
  obtain ⟨u, hls, hrs⟩ := (nodesMean_append .dag).mp hnodes
  have hl := hl.values (Nat.le_refl top) hs hls
  have hr := hr.values hl.le (hl.outside (Nat.le_refl top) hs) hrs
  cases hl.value t hr.same vl hvl
  cases hr.value t (.refl k₂ t) vr hvr
  rw [hf, ← htaken]
  simp only [BranchNode.target]
  cases cc.holds (lhs.eval env) (rhs.eval env) <;> rfl

/-- However BRCOND was lowered, once no SELECT is left its operands can be named. Any block made
of them has a cover if its constants fit a word. Whatever the cover, the machine block computes
the block with LUI's sign extension in the constants, and goes where BRCOND did if that changes
none of them. -/
theorem lowered_brcond_runs {condV lhs rhs : SDValue x.bits} {dest dest' : MBB} {cc : IsdCondCode}
    (h : ReflTransGen BranchStep (.brcond condV dest) (.brcc ⟨x.bits, lhs, rhs, cc, dest'⟩))
    (hcodes : condV.Every BranchCode) {top : ℕ} (hlword : lhs.Every (WordNode x top))
    (hrword : rhs.Every (WordNode x top)) (hlzero : lhs.selects x = 0) (hrzero : rhs.selects x = 0)
    {vregs : ℕ → ℕ} {m : ℕ} (hf : FreshFrom vregs m) :
    (∃ ls l k₁ rs r k₂, Named top top lhs ls l k₁ ∧ Named top k₁ rhs rs r k₂) ∧
    ∀ ls l k₁ rs r k₂ last, Named top top lhs ls l k₁ → Named top k₁ rhs rs r k₂ →
      ((∃ code vregs' m',
          SelectsBlock vregs m (branchBlock ls rs l r cc dest' last) code vregs' m') ↔
        ∀ c ∈ (branchBlock ls rs l r cc dest' last).constants, isInt 32 c.toInt) ∧
      ∀ code vregs' m', SelectsBlock vregs m (branchBlock ls rs l r cc dest' last) code vregs' m' →
        ∀ st : Store x.bits (Lib.ByteMemory.Mem x.bits), st.regs 0 = 0#x.bits →
          ∃ st' f, execBody isaSem code st = some (st', f) ∧ st'.mem = st.mem ∧
            (∀ q < m, st'.regs q = st.regs q) ∧
            (branchBlock ls rs l r cc dest' last).Means .word (storeState vregs st)
              (storeState vregs' st') f ∧
            ((branchBlock ls rs l r cc dest' last).Exact → ∀ env : DagEnv,
              Outside top env (storeState vregs st) → condV.isBoolean env →
              condV.Every (BooleanCondition env) →
              f = if condV.eval env = 1#x.bits then .goto dest else last.flow) := by
  obtain ⟨htarget, hcode⟩ := BranchStep.steps h
  obtain ⟨hcc, hcl, hcr⟩ := hcode hcodes
  constructor
  · exact exists_named_pair (exists_named hlword hlzero) (exists_named hrword hrzero) top
  · intro ls l k₁ rs r k₂ last hl hr
    constructor
    · rw [selectsBlock_iff]
      refine ⟨fun h => h.1, fun hconst => ⟨hconst, ?_⟩⟩
      refine List.forall_mem_append.mpr ⟨?_, List.forall_mem_singleton.mpr hcc⟩
      rw [branchBlock, List.flatMap_append]
      exact List.forall_mem_append.mpr ⟨hl.codes hcl, hr.codes hcr⟩
    · intro code vregs' m' hcover st hzero
      obtain ⟨st', f, hbody, hbelow, hmeans⟩ := hcover.computes hf hzero
      obtain ⟨u, hls, hrs⟩ := (nodesMean_append .word).mp hmeans.1
      refine ⟨st', f, hbody, (hr.mem hrs).trans (hl.mem hls), hbelow, hmeans,
        fun hexact env hs hbool hevery => ?_⟩
      rw [DagBlock.means_exact hexact] at hmeans
      rw [branchBlock_means hl hr hs hmeans, (htarget env ⟨hbool, hevery⟩).1, BranchNode.target]
      by_cases hone : condV.eval env = 1#x.bits
      · rw [if_pos hone, if_pos hone]
      · rw [if_neg hone, if_neg hone]

/-- BRCOND first, then the SELECT that was its condition. -/
theorem brcondAboveFive_steps : ReflTransGen (BranchStep (x := .rv32)) (.brcond isAboveFive 7)
    (.brcc ⟨32, isAboveFiveCC, .constant 0#32, .setne, 7⟩) :=
  .tail (.single (.lower (x := .rv32) isAboveFive 7))
    (.operands (lowerBRCOND .rv32 isAboveFive 7) isAboveFive_lower (.refl (.constant 0#32)))

theorem isAboveFiveCC_word : isAboveFiveCC.Every (WordNode .rv32 8) :=
  ⟨rfl, rfl, ⟨rfl, by decide⟩, rfl, rfl⟩

def aboveFiveBlock : DagBlock 32 :=
  branchBlock [.selectCC 8 (.const 5#32) (.arg 0) .setult (.const 1#32) (.const 0#32)] [] (.arg 8)
    (.const 0#32) .setne 7 .fallThrough

theorem isAboveFive_boolean (env : DagEnv) :
    isAboveFive.isBoolean env ∧ isAboveFive.Every (BooleanCondition env) := by
  refine ⟨?_, setcc_isBoolean .., ⟨trivial, trivial, trivial⟩, trivial, trivial⟩
  rw [SDValue.isBoolean, isAboveFive, select_eval]
  split
  · exact .inr rfl
  · exact .inl rfl

theorem lowered_brcond_runs_aboveFive :
    ∃ code vregs' m', SelectsBlock argRegs 32 aboveFiveBlock code vregs' m' ∧
      ∀ (env : DagEnv) (st : Store 32 (Lib.ByteMemory.Mem 32)), st.regs 0 = 0#32 →
        Outside 8 env (storeState argRegs st) →
        ∃ st', execBody isaSem code st =
            some (st', if isAboveFive.eval env = 1#32 then .goto 7 else .next) ∧
          st'.mem = st.mem ∧ ∀ q < 32, st'.regs q = st.regs q := by
  obtain ⟨-, hblock⟩ := lowered_brcond_runs (x := .rv32) brcondAboveFive_steps
    ⟨trivial, ⟨trivial, trivial, trivial⟩, trivial, trivial⟩ isAboveFiveCC_word rfl rfl rfl
    argRegs_fresh
  obtain ⟨hiff, hruns⟩ := hblock _ _ _ _ _ _ .fallThrough
    (.selectCC (.constant 8 5#32) (.node 8 (by decide)) (.constant 8 1#32) (.constant 8 0#32))
    (.constant 9 0#32)
  obtain ⟨code, vregs', m', h⟩ := hiff.mpr fun c _ => ⟨BitVec.le_toInt c, BitVec.toInt_lt⟩
  refine ⟨code, vregs', m', h, fun env st hzero hs => ?_⟩
  obtain ⟨st', f, hbody, hmem, hbelow, -, hflow⟩ := hruns code vregs' m' h st hzero
  obtain ⟨hbool, hevery⟩ := isAboveFive_boolean env
  rw [hflow aboveFiveBlock.exact32 env hs hbool hevery] at hbody
  exact ⟨st', hbody, hmem, hbelow⟩

end ToyRiscv
