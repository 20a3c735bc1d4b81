import ToyRiscv.BlockForm

/-!
# Selecting a function

Blocks of the DAG, run one after the other, and covers of all of them. A value used
outside its block has one register there for all blocks, a PHI of names is the PHI of
their registers, and what a block needs from outside it finds.
-/

namespace ToyRiscv
open Lib.ByteMemory

variable {w : ℕ}

/-! ### What a block reads -/

def DagExpr.names : DagExpr w → List ℕ
  | .arg x => [x]
  | .const _ => []
  | .bin _ a b => a.names ++ b.names
  | .load _ addr => addr.names

namespace BlockNode

def reads : BlockNode w → List ℕ
  | .chain (.bind _ e) => e.names
  | .chain (.store _ value addr) => value.names ++ addr.names
  | .selectCC _ lhs rhs _ trueV falseV => lhs.names ++ rhs.names ++ trueV.names ++ falseV.names

def binds : BlockNode w → List ℕ
  | .chain (.bind x _) => [x]
  | .chain (.store ..) => []
  | .selectCC x _ _ _ _ _ => [x]

end BlockNode

/-- The names in `L`, and those bound on the way, are all that is read. -/
def NodesRead (L : Set ℕ) : List (BlockNode w) → Prop
  | [] => True
  | node :: nodes => (∀ x ∈ node.reads, x ∈ L) ∧ NodesRead (L ∪ {x | x ∈ node.binds}) nodes

def DagBlock.binds (B : DagBlock w) : List ℕ := B.nodes.flatMap BlockNode.binds

def DagBlock.Reads (L : Set ℕ) (B : DagBlock w) : Prop :=
  NodesRead L B.nodes ∧
    ∀ b ∈ B.branch, ∀ x ∈ b.lhs.names ++ b.rhs.names, x ∈ L ∪ {x | x ∈ B.binds}

structure Agree (L : Set ℕ) (s t : ChainState w) : Prop where
  env : ∀ x ∈ L, s.env x = t.env x
  mem : s.mem = t.mem

theorem Agree.mono {L K : Set ℕ} {s t : ChainState w} (h : Agree L s t) (hK : K ⊆ L) :
    Agree K s t := ⟨fun x hx => h.env x (hK hx), h.mem⟩

theorem Agree.bind {L : Set ℕ} {s t : ChainState w} (h : Agree L s t) (x : ℕ) (v : BitVec w) :
    Agree (L ∪ {y | y ∈ [x]}) ⟨Function.update s.env x v, s.mem⟩
      ⟨Function.update t.env x v, t.mem⟩ where
  env y hy := by
    dsimp only
    by_cases hyx : y = x
    · rw [hyx, Function.update_self, Function.update_self]
    · rw [Function.update_of_ne hyx, Function.update_of_ne hyx]
      rcases hy with hy | hy
      · exact h.env y hy
      · exact absurd (List.mem_singleton.mp hy) hyx
  mem := h.mem

theorem Agree.expr {L : Set ℕ} {s t : ChainState w} (h : Agree L s t) {e : DagExpr w}
    (he : ∀ x ∈ e.names, x ∈ L) {v : BitVec w} (hv : DagSem.word.expr e t v) :
    DagSem.word.expr e s v := by
  induction e generalizing v with
  | arg x => exact Eq.trans hv (h.env x (he x (List.mem_singleton_self x))).symm
  | const c => exact hv
  | bin op a b iha ihb =>
    obtain ⟨ha, hb⟩ := List.forall_mem_append.mp he
    obtain ⟨va, vb, hva, hvb, hop⟩ := hv
    exact ⟨va, vb, iha ha hva, ihb hb hvb, hop⟩
  | load frag addr ih =>
    obtain ⟨a, ha, hfrag⟩ := hv
    exact ⟨a, ih he ha, h.mem ▸ hfrag⟩

/-- A node does the same where the names it reads have the same values. -/
theorem BlockNode.agree {L : Set ℕ} {s t t' : ChainState w} (h : Agree L s t) {node : BlockNode w}
    (hreads : ∀ x ∈ node.reads, x ∈ L) (hm : node.Means .word t t') :
    ∃ s', node.Means .word s s' ∧ Agree (L ∪ {x | x ∈ node.binds}) s' t' := by
  cases node with
  | chain node =>
    cases node with
    | bind x e =>
      obtain ⟨v, hv, rfl⟩ := hm
      exact ⟨_, ⟨v, h.expr hreads hv, rfl⟩, h.bind x v⟩
    | store frag value addr =>
      obtain ⟨hvalue, haddr⟩ := List.forall_mem_append.mp hreads
      obtain ⟨v, a, hv, ha, rfl⟩ := hm
      refine ⟨_, ⟨v, a, h.expr hvalue hv, h.expr haddr ha, rfl⟩, ⟨fun x hx => ?_, ?_⟩⟩
      · rcases hx with hx | hx
        · exact h.env x hx
        · cases hx
      · rw [h.mem]
  | selectCC x lhs rhs cc trueV falseV =>
    simp only [BlockNode.reads, List.forall_mem_append] at hreads
    obtain ⟨⟨⟨hl, hr⟩, ht⟩, hf⟩ := hreads
    obtain ⟨vl, vr, vt, vf, hvl, hvr, hvt, hvf, rfl⟩ := hm
    exact ⟨_, ⟨vl, vr, vt, vf, h.expr hl hvl, h.expr hr hvr, h.expr ht hvt, h.expr hf hvf, rfl⟩,
      h.bind x _⟩

theorem NodesMean.agree {nodes : List (BlockNode w)} {L : Set ℕ} {s t t' : ChainState w}
    (h : Agree L s t) (hreads : NodesRead L nodes) (hm : NodesMean .word nodes t t') :
    ∃ s', NodesMean .word nodes s s' ∧
      Agree (L ∪ {x | x ∈ nodes.flatMap BlockNode.binds}) s' t' := by
  induction nodes generalizing L s t with
  | nil =>
    cases hm
    refine ⟨s, rfl, h.mono fun x hx => ?_⟩
    exact hx.elim id fun hx => by cases hx
  | cons node nodes ih =>
    obtain ⟨u, hnode, hrest⟩ := hm
    obtain ⟨s₁, hs₁, hagree⟩ := BlockNode.agree h hreads.1 hnode
    obtain ⟨s', hs', hagree⟩ := ih hagree hreads.2 hrest
    refine ⟨s', ⟨s₁, hs₁, hs'⟩, hagree.mono fun x hx => ?_⟩
    rcases hx with hx | hx
    · exact .inl (.inl hx)
    · have hx : x ∈ (node :: nodes).flatMap BlockNode.binds := hx
      rw [List.flatMap_cons, List.mem_append] at hx
      exact hx.elim (fun hx => .inl (.inr hx)) .inr

theorem DagBlock.agree {B : DagBlock w} {L : Set ℕ} {s t t' : ChainState w} {f : Flow}
    (h : Agree L s t) (hreads : B.Reads L) (hm : B.Means .word t t' f) :
    ∃ s', B.Means .word s s' f ∧ Agree (L ∪ {x | x ∈ B.binds}) s' t' := by
  obtain ⟨s', hnodes, hagree⟩ := NodesMean.agree h hreads.1 hm.1
  refine ⟨s', ⟨hnodes, ?_⟩, hagree⟩
  have hbranch := hm.2
  cases hb : B.branch with
  | none =>
    rw [hb] at hbranch
    exact hbranch
  | some b =>
    rw [hb] at hbranch
    obtain ⟨hl, hr⟩ := List.forall_mem_append.mp (hreads.2 b hb)
    obtain ⟨taken, ⟨vl, vr, hvl, hvr, htaken⟩, hf⟩ := hbranch
    exact ⟨taken, ⟨vl, vr, hagree.expr hl hvl, hagree.expr hr hvr, htaken⟩, hf⟩

/-! ### Functions -/

/-- A PHI names its result, and the name that comes in from each predecessor. -/
structure DagFunction (w : ℕ) where
  layout : List MBB
  phis : MBB → List (ℕ × List (ℕ × MBB))
  block : MBB → DagBlock w

structure DagState (w : ℕ) where
  pred : Option MBB
  block : MBB
  state : ChainState w

def DagBlock.flows (B : DagBlock w) : List Flow :=
  B.branch.toList.map (fun b => .goto b.dest) ++ [B.last.flow]

theorem DagBlock.Means.mem_flows {D : DagSem w} {B : DagBlock w} {s t : ChainState w} {f : Flow}
    (h : B.Means D s t f) : f ∈ B.flows := by
  have hbranch := h.2
  rw [DagBlock.flows, List.mem_append, List.mem_singleton]
  cases hb : B.branch with
  | none =>
    rw [hb] at hbranch
    exact .inr hbranch
  | some b =>
    rw [hb] at hbranch
    obtain ⟨taken, -, rfl⟩ := hbranch
    cases taken with
    | true => exact .inl (List.mem_singleton_self _)
    | false => exact .inr rfl

theorem DagBlock.last_of_ret {B : DagBlock w} (h : .ret ∈ B.flows) :
    ∃ regs, B.last = .retFlag regs := by
  rcases List.mem_append.mp h with h | h
  · obtain ⟨b, -, hb⟩ := List.mem_map.mp h
    cases hb
  · cases hlast : B.last with
    | retFlag regs => exact ⟨regs, rfl⟩
    | _ =>
      rw [hlast] at h
      cases List.mem_singleton.mp h

namespace DagFunction
variable (P : DagFunction w)

def entry : MBB := P.layout.headD 0

def dest (b : MBB) : Flow → Option MBB
  | .next => nextIn b P.layout
  | .goto c => some c
  | .ret => none

def Edge (b c : MBB) : Prop := b ∈ P.layout ∧ ∃ f ∈ (P.block b).flows, P.dest b f = some c

/-- What the machine does next when block `b` is left with `st`. -/
def goes {μ : Type} (b : MBB) (f : Flow) (st : Store w μ) :
    Option (BlockState w μ ⊕ Store w μ) :=
  if f = .ret then some (.inr st) else (P.dest b f).map fun c => .inl ⟨some b, c, st⟩

/-- The PHIs read their names in parallel, then the block goes from there to `t`. -/
def Leaves (D : DagSem w) (d : DagState w) (t : ChainState w) (f : Flow) : Prop :=
  ∃ env, execPhis d.pred d.state.env ((P.phis d.block).map fun φ => .phi φ.1 φ.2) = some env ∧
    (P.block d.block).Means D ⟨env, d.state.mem⟩ t f

def Step (D : DagSem w) (d d' : DagState w) : Prop :=
  ∃ t f c, P.Leaves D d t f ∧ P.dest d.block f = some c ∧ d' = ⟨some d.block, c, t⟩

def AllowsWord (D : DagSem w) : Prop :=
  ∀ b ∈ P.layout, ∀ s t f, (P.block b).Means .word s t f → (P.block b).Means D s t f

end DagFunction

/-- The registers of the names where a block begins and where it ends, and the names that are
wanted in a block or behind it and come from its predecessors. -/
structure Assignment where
  vregs : MBB → ℕ → ℕ
  vregs' : MBB → ℕ → ℕ
  through : MBB → Set ℕ

section Selected
variable (P : DagFunction w) (V : Assignment)

def DagFunction.phiNames (b : MBB) : List ℕ := (P.phis b).map Prod.fst

def Assignment.phi (b : MBB) (φ : ℕ × List (ℕ × MBB)) : MachineInstr :=
  .phi (V.vregs b φ.1) (φ.2.map fun yp => (V.vregs' yp.2 yp.1, yp.2))

def DagFunction.live (b : MBB) : Set ℕ := V.through b ∪ {x | x ∈ P.phiNames b}

def DagFunction.known (b : MBB) : Set ℕ := P.live V b ∪ {x | x ∈ (P.block b).binds}

/-- Each block has a cover in virtual registers, and a name that crosses an edge has one
register on both sides. -/
structure SelectedFunction (code : MBB → List MachineInstr) : Prop where
  layout_ne : P.layout ≠ []
  covers : ∀ b ∈ P.layout, ∃ n n', 32 ≤ n ∧ FreshFrom (V.vregs b) n ∧
    SelectsBlock (V.vregs b) n (P.block b) (code b) (V.vregs' b) n'
  reads : ∀ b ∈ P.layout, (P.block b).Reads (P.live V b)
  entry_phis : P.phis P.entry = []
  entry_edge : ∀ b, ¬ P.Edge b P.entry
  edge_mem : ∀ b c, P.Edge b c → c ∈ P.layout
  edge_through : ∀ b c, P.Edge b c → ∀ x ∈ V.through c,
    x ∈ P.known V b ∧ V.vregs c x = V.vregs' b x
  edge_phis : ∀ b c, P.Edge b c → ∀ φ ∈ P.phis c,
    ∃ y ∈ P.known V b, incomingRegister (some b) φ.2 = some y
  phi_regs : ∀ b ∈ P.layout, ∀ x ∈ P.phiNames b, 32 ≤ V.vregs b x ∧
    ∀ y ∈ P.live V b, V.vregs b x = V.vregs b y → x = y

/-! ### PHIs -/

variable {P V} {code : MBB → List MachineInstr}

theorem incomingRegister_rename (V' : MBB → ℕ → ℕ) {p : MBB} {inc : List (ℕ × MBB)} {y : ℕ}
    (h : incomingRegister (some p) inc = some y) :
    incomingRegister (some p) (inc.map fun yp => (V' yp.2 yp.1, yp.2)) = some (V' p y) := by
  obtain ⟨⟨y', p'⟩, hfind, rfl⟩ := Option.map_eq_some_iff.mp h
  have hp : p' = p := by simpa using List.find?_some hfind
  subst hp
  have hmap : (inc.map fun yp => (V' yp.2 yp.1, yp.2)).find? (fun rp => rp.2 == p') =
      some (V' p' y', p') := by
    rw [List.find?_map, Function.comp_def, hfind]
    rfl
  rw [incomingRegister, Option.bind_some, hmap]
  rfl

/-- The PHIs of the names and the PHIs of their registers leave the same values. -/
theorem execPhis_rename {p b : MBB} {env : ℕ → BitVec w} {R : Regs w}
    {phis : List (ℕ × List (ℕ × MBB))}
    (hin : ∀ φ ∈ phis, ∃ y, incomingRegister (some p) φ.2 = some y ∧ env y = R (V.vregs' p y))
    (hinj : ∀ x ∈ phis.map Prod.fst, ∀ y ∈ phis.map Prod.fst,
      V.vregs b x = V.vregs b y → x = y) :
    ∃ env' R', execPhis (some p) env (phis.map fun φ => .phi φ.1 φ.2) = some env' ∧
      execPhis (some p) R (phis.map (V.phi b)) = some R' ∧
      (∀ x ∈ phis.map Prod.fst, env' x = R' (V.vregs b x)) ∧
      (∀ y, y ∉ phis.map Prod.fst → env' y = env y) ∧
      ∀ r, (∀ x ∈ phis.map Prod.fst, r ≠ V.vregs b x) → R' r = R r := by
  induction phis with
  | nil => exact ⟨env, R, rfl, rfl, List.forall_mem_nil _, fun _ _ => rfl, fun _ _ => rfl⟩
  | cons φ phis ih =>
    obtain ⟨hφ, hrest⟩ := List.forall_mem_cons.mp hin
    obtain ⟨y, hy, hval⟩ := hφ
    obtain ⟨env', R', henv, hR, hnames, hothers, hregs⟩ := ih hrest fun x hx z hz =>
      hinj x (List.mem_cons_of_mem _ hx) z (List.mem_cons_of_mem _ hz)
    refine ⟨Function.update env' φ.1 (env y), Function.update R' (V.vregs b φ.1) (R (V.vregs' p y)),
      ?_, ?_, ?_, ?_, ?_⟩
    · simp only [List.map_cons, execPhis, hy, henv]
    · simp only [List.map_cons, execPhis, Assignment.phi, incomingRegister_rename V.vregs' hy, hR]
    · intro x hx
      by_cases hxφ : x = φ.1
      · rw [hxφ, Function.update_self, Function.update_self, hval]
      · have hne : V.vregs b x ≠ V.vregs b φ.1 :=
          fun he => hxφ (hinj x hx φ.1 (List.mem_cons_self ..) he)
        rw [Function.update_of_ne hxφ, Function.update_of_ne hne]
        exact hnames x (List.mem_of_ne_of_mem hxφ hx)
    · intro z hz
      rw [List.map_cons, List.mem_cons, not_or] at hz
      rw [Function.update_of_ne hz.1, hothers z hz.2]
    · intro r hr
      rw [Function.update_of_ne (hr φ.1 (List.mem_cons_self ..)),
        hregs r fun x hx => hr x (List.mem_cons_of_mem _ hx)]

/-! ### Entering and running a block -/

variable (P V)

/-- Two functions stand before the same block, and what is known behind the last one has the
same values. -/
structure Related (d : DagState w) (s : BlockState w (Mem w)) : Prop where
  pred : d.pred = s.pred
  block : d.block = s.block
  mem : d.block ∈ P.layout
  after : ∃ p, s.pred = some p ∧ P.Edge p d.block ∧
    Agree (P.known V p) d.state (storeState (V.vregs' p) s.store)

variable {P V}

theorem SelectedFunction.enters (h : SelectedFunction P V code) {d : DagState w}
    {s : BlockState w (Mem w)} (hds : Related P V d s) :
    ∃ env R, execPhis d.pred d.state.env ((P.phis d.block).map fun φ => .phi φ.1 φ.2) = some env ∧
      execPhis s.pred s.store.regs ((P.phis d.block).map (V.phi d.block)) = some R ∧
      (∀ q < 32, R q = s.store.regs q) ∧
      Agree (P.live V d.block) ⟨env, d.state.mem⟩
        (storeState (V.vregs d.block) ⟨R, s.store.mem⟩) := by
  obtain ⟨p, hpred, hedge, hagree⟩ := hds.after
  have hregs := h.phi_regs d.block hds.mem
  have hin : ∀ φ ∈ P.phis d.block, ∃ y, incomingRegister (some p) φ.2 = some y ∧
      d.state.env y = s.store.regs (V.vregs' p y) := by
    intro φ hφ
    obtain ⟨y, hy, hinc⟩ := h.edge_phis p d.block hedge φ hφ
    exact ⟨y, hinc, hagree.env y hy⟩
  obtain ⟨env, R, henv, hR, hnames, hothers, hkept⟩ :=
    execPhis_rename hin fun x hx y hy => (hregs x hx).2 y (.inr hy)
  rw [hds.pred, hpred]
  refine ⟨env, R, henv, hR, fun q hq => ?_, ⟨fun x hx => ?_, hagree.mem⟩⟩
  · exact hkept q fun x hx => Nat.ne_of_lt (Nat.lt_of_lt_of_le hq (hregs x hx).1)
  · by_cases hphi : x ∈ P.phiNames d.block
    · exact hnames x hphi
    · -- a name from the predecessor, in a register no PHI writes
      have hthrough : x ∈ V.through d.block := hx.resolve_right hphi
      obtain ⟨hknown, hreg⟩ := h.edge_through p d.block hedge x hthrough
      calc env x = d.state.env x := hothers x hphi
        _ = s.store.regs (V.vregs' p x) := hagree.env x hknown
        _ = s.store.regs (V.vregs d.block x) := by rw [hreg]
        _ = R (V.vregs d.block x) :=
          (hkept _ fun y hy he => hphi ((hregs y hy).2 x hx he.symm ▸ hy)).symm

/-- The cover of a block does what the block may do with the same values. -/
theorem SelectedFunction.block_runs {x : XLen} {P : DagFunction x.bits}
    (h : SelectedFunction P V code) {b : MBB} (hb : b ∈ P.layout) {s : ChainState x.bits}
    {st : Store x.bits (Mem x.bits)} (hzero : st.regs 0 = 0#(x.bits))
    (hagree : Agree (P.live V b) s (storeState (V.vregs b) st)) :
    ∃ t f st', (P.block b).Means .word s t f ∧ execBody isaSem (code b) st = some (st', f) ∧
      (∀ q < 32, st'.regs q = st.regs q) ∧ Agree (P.known V b) t (storeState (V.vregs' b) st') := by
  obtain ⟨n, n', hn, hf, hcover⟩ := h.covers b hb
  obtain ⟨st', f, hbody, hbelow, hmeans⟩ := hcover.computes hf hzero
  obtain ⟨t, hmeans', hknown⟩ := DagBlock.agree hagree (h.reads b hb) hmeans
  exact ⟨t, f, st', hmeans', hbody, fun q hq => hbelow q (Nat.lt_of_lt_of_le hq hn), hknown⟩

end Selected

end ToyRiscv
