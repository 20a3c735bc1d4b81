import ToyRiscv.Lowering
import Mathlib.Logic.Relation

/-!
# Lowering a whole DAG

`LowerOperation` (TOYRISCVISelLowering.cpp:66-78) is called on one node after the
other, in an order the target does not choose, so the operands may be lowered
already or not. A shared node is lowered at all its uses at once: a step may lower
any number of nodes.
-/

namespace ToyRiscv
open Relation

/-- Some of the SELECT nodes of the word type are lowered. -/
inductive LowerSome (x : XLen) : {w : ℕ} → SDValue w → SDValue w → Prop
  | refl {w : ℕ} (a : SDValue w) : LowerSome x a a
  | setcc {w v : ℕ} {lhs lhs' rhs rhs' : SDValue v} (cc : IsdCondCode)
      (hl : LowerSome x lhs lhs') (hr : LowerSome x rhs rhs') :
      LowerSome x (.setcc lhs rhs cc : SDValue w) (.setcc lhs' rhs' cc)
  | add {w : ℕ} {a a' b b' : SDValue w} (ha : LowerSome x a a') (hb : LowerSome x b b') :
      LowerSome x (.add a b) (.add a' b')
  | sub {w : ℕ} {a a' b b' : SDValue w} (ha : LowerSome x a a') (hb : LowerSome x b b') :
      LowerSome x (.sub a b) (.sub a' b')
  | select {w v : ℕ} {c c' : SDValue v} {t t' f f' : SDValue w} (hc : LowerSome x c c')
      (ht : LowerSome x t t') (hf : LowerSome x f f') :
      LowerSome x (.select c t f) (.select c' t' f')
  | selectCC {w v : ℕ} {lhs lhs' rhs rhs' : SDValue v} (cc : IsdCondCode)
      {t t' f f' : SDValue w} (hl : LowerSome x lhs lhs') (hr : LowerSome x rhs rhs')
      (ht : LowerSome x t t') (hf : LowerSome x f f') :
      LowerSome x (.selectCC lhs rhs cc t f) (.selectCC lhs' rhs' cc t' f')
  | lower {c c' t t' f f' : SDValue x.bits} (hc : LowerSome x c c') (ht : LowerSome x t t')
      (hf : LowerSome x f f') : LowerSome x (.select c t f) (lowerSELECT x c' t' f')

/-! ### What holds at every node -/

def SDValue.Every (P : (w : ℕ) → SDValue w → Prop) : {w : ℕ} → SDValue w → Prop
  | w, .node id => P w (.node id)
  | w, .constant c => P w (.constant c)
  | w, .setcc lhs rhs cc => P w (.setcc lhs rhs cc) ∧ lhs.Every P ∧ rhs.Every P
  | w, .add a b => P w (.add a b) ∧ a.Every P ∧ b.Every P
  | w, .sub a b => P w (.sub a b) ∧ a.Every P ∧ b.Every P
  | w, .select c t f => P w (.select c t f) ∧ c.Every P ∧ t.Every P ∧ f.Every P
  | w, .selectCC lhs rhs cc t f =>
    P w (.selectCC lhs rhs cc t f) ∧ lhs.Every P ∧ rhs.Every P ∧ t.Every P ∧ f.Every P

/-- The condition of a SELECT is 0 or 1. -/
def BooleanCondition (env : DagEnv) (w : ℕ) : SDValue w → Prop
  | .select c _ _ => c.isBoolean env
  | _ => True

/-- A code for which there is a branch instruction. -/
def IsdCondCode.HasBranch (cc : IsdCondCode) : Prop :=
  ∃ rcc op, getRISCVCCForIntCC cc = some rcc ∧ getBrCond rcc = some op

def BranchCode (w : ℕ) : SDValue w → Prop
  | .selectCC _ _ cc _ _ => cc.HasBranch
  | _ => True

/-- The SELECT nodes that `LowerOperation` is called on. -/
def SDValue.selects (x : XLen) : {w : ℕ} → SDValue w → ℕ
  | _, .node _ => 0
  | _, .constant _ => 0
  | _, .setcc lhs rhs _ => lhs.selects x + rhs.selects x
  | _, .add a b => a.selects x + b.selects x
  | _, .sub a b => a.selects x + b.selects x
  | w, .select (v := v) c t f => (if w = x.bits ∧ v = x.bits then 1 else 0) +
      (c.selects x + t.selects x + f.selects x)
  | _, .selectCC lhs rhs _ t f => lhs.selects x + rhs.selects x + t.selects x + f.selects x

/-! ### One node -/

variable {x : XLen}

theorem translateSetCCForBranch_every {P : (w : ℕ) → SDValue w → Prop} {w : ℕ}
    (hzero : P w (.constant 0#w)) {LHS RHS : SDValue w} (CC : IsdCondCode) (hl : LHS.Every P)
    (hr : RHS.Every P) : (translateSetCCForBranch LHS RHS CC).1.Every P ∧
      (translateSetCCForBranch LHS RHS CC).2.1.Every P := by
  unfold translateSetCCForBranch
  split
  · exact ⟨hl, hzero⟩
  · split
    · exact ⟨hzero, hl⟩
    · cases CC <;> first | exact ⟨hl, hr⟩ | exact ⟨hr, hl⟩

theorem translateSetCCForBranch_selects {w : ℕ} (LHS RHS : SDValue w) (CC : IsdCondCode) :
    (translateSetCCForBranch LHS RHS CC).1.selects x +
      (translateSetCCForBranch LHS RHS CC).2.1.selects x ≤ LHS.selects x + RHS.selects x := by
  have hzero : (SDValue.constant 0#w).selects x = 0 := rfl
  unfold translateSetCCForBranch
  split
  · simp only [hzero]
    omega
  · split
    · simp only [hzero]
      omega
    · cases CC <;> simp only [] <;> omega

theorem selectOfConstants_cases {w : ℕ} {CC : IsdCondCode} {condV trueV falseV n : SDValue w}
    (h : selectOfConstants CC condV trueV falseV = some n) :
    n = .add condV falseV ∨ n = .sub falseV condV := by
  unfold selectOfConstants at h
  split at h
  · split at h
    · exact .inl (Option.some.inj h).symm
    · split at h
      · exact .inr (Option.some.inj h).symm
      · cases h
  · cases h

theorem lowerSELECT_every {P : (w : ℕ) → SDValue w → Prop}
    (hzero : P x.bits (.constant 0#x.bits)) (hadd : ∀ a b, P x.bits (.add a b))
    (hsub : ∀ a b, P x.bits (.sub a b))
    (hselect : ∀ (v : ℕ) (lhs rhs : SDValue v) (cc : IsdCondCode) (t f : SDValue x.bits),
      cc.HasBranch → P x.bits (.selectCC lhs rhs cc t f))
    {c t f : SDValue x.bits} (hc : c.Every P) (ht : t.Every P) (hf : f.Every P) :
    (lowerSELECT x c t f).Every P := by
  rcases lowerSELECT_cases x c t f with ⟨l, r, cc, hcond, hsel | hcc⟩ | hne
  · rcases selectOfConstants_cases hsel with h | h
    · rw [h]
      exact ⟨hadd _ _, hc, hf⟩
    · rw [h]
      exact ⟨hsub _ _, hf, hc⟩
  · rw [hcond] at hc
    obtain ⟨hl, hr⟩ := translateSetCCForBranch_every hzero cc hc.2.1 hc.2.2
    rw [hcc]
    exact ⟨hselect _ _ _ _ _ _ (translateSetCCForBranch_code l r cc), hl, hr, ht, hf⟩
  · rw [hne]
    exact ⟨hselect _ _ _ _ _ _ ⟨_, _, rfl, rfl⟩, hc, hzero, ht, hf⟩

theorem lowerSELECT_selects (c t f : SDValue x.bits) :
    (lowerSELECT x c t f).selects x ≤ c.selects x + t.selects x + f.selects x := by
  rcases lowerSELECT_cases x c t f with ⟨l, r, cc, hcond, hsel | hcc⟩ | hne
  · rcases selectOfConstants_cases hsel with h | h
    · rw [h, SDValue.selects]
      omega
    · rw [h, SDValue.selects]
      omega
  · have hle := translateSetCCForBranch_selects (x := x) l r cc
    rw [hcc, hcond, SDValue.selects, SDValue.selects]
    omega
  · rw [hne]
    simp only [SDValue.selects]
    omega

theorem lowerSELECT_eval {c t f : SDValue x.bits} {env : DagEnv} (hc : c.isBoolean env) :
    (lowerSELECT x c t f).eval env = (SDValue.select c t f).eval env := by
  have hw := x.one_lt_bits
  rcases lowerSELECT_cases x c t f with ⟨l, r, cc, hcond, hsel | hcc⟩ | hne
  · exact selectOfConstants_eval hw cc c t f _ hsel env hc
  · rw [hcc, hcond]
    exact selectCC_translate_eval hw hw l r cc t f env
  · rw [hne]
    exact selectCC_setne_eval hw c t f env hc

/-! ### One step -/

theorem LowerSome.eval {w : ℕ} {a a' : SDValue w} (h : LowerSome x a a') {env : DagEnv}
    (ha : a.Every (BooleanCondition env)) :
    a'.eval env = a.eval env ∧ a'.Every (BooleanCondition env) := by
  induction h with
  | refl a => exact ⟨rfl, ha⟩
  | setcc cc hl hr ihl ihr =>
    obtain ⟨-, hal, har⟩ := ha
    obtain ⟨hel, hbl⟩ := ihl hal
    obtain ⟨her, hbr⟩ := ihr har
    exact ⟨by rw [setcc_eval, setcc_eval, hel, her], trivial, hbl, hbr⟩
  | add _ _ iha ihb =>
    obtain ⟨-, haa, hab⟩ := ha
    obtain ⟨hea, hba⟩ := iha haa
    obtain ⟨heb, hbb⟩ := ihb hab
    exact ⟨by rw [add_eval, add_eval, hea, heb], trivial, hba, hbb⟩
  | sub _ _ iha ihb =>
    obtain ⟨-, haa, hab⟩ := ha
    obtain ⟨hea, hba⟩ := iha haa
    obtain ⟨heb, hbb⟩ := ihb hab
    exact ⟨by rw [sub_eval, sub_eval, hea, heb], trivial, hba, hbb⟩
  | select hc ht hf ihc iht ihf =>
    obtain ⟨hbool, hac, hat, haf⟩ := ha
    obtain ⟨hec, hbc⟩ := ihc hac
    obtain ⟨het, hbt⟩ := iht hat
    obtain ⟨hef, hbf⟩ := ihf haf
    refine ⟨by rw [select_eval, select_eval, hec, het, hef], ?_, hbc, hbt, hbf⟩
    rw [BooleanCondition, SDValue.isBoolean, hec]
    exact hbool
  | selectCC cc hl hr ht hf ihl ihr iht ihf =>
    obtain ⟨-, hal, har, hat, haf⟩ := ha
    obtain ⟨hel, hbl⟩ := ihl hal
    obtain ⟨her, hbr⟩ := ihr har
    obtain ⟨het, hbt⟩ := iht hat
    obtain ⟨hef, hbf⟩ := ihf haf
    exact ⟨by rw [selectCC_eval, selectCC_eval, hel, her, het, hef], trivial, hbl, hbr, hbt, hbf⟩
  | lower hc ht hf ihc iht ihf =>
    obtain ⟨hbool, hac, hat, haf⟩ := ha
    obtain ⟨hec, hbc⟩ := ihc hac
    obtain ⟨het, hbt⟩ := iht hat
    obtain ⟨hef, hbf⟩ := ihf haf
    rw [BooleanCondition, SDValue.isBoolean, ← hec] at hbool
    constructor
    · rw [lowerSELECT_eval hbool, select_eval, select_eval, hec, het, hef]
    · exact lowerSELECT_every trivial (fun _ _ => trivial) (fun _ _ => trivial)
        (fun _ _ _ _ _ _ _ => trivial) hbc hbt hbf

theorem LowerSome.branchCode {w : ℕ} {a a' : SDValue w} (h : LowerSome x a a')
    (ha : a.Every BranchCode) : a'.Every BranchCode := by
  induction h with
  | refl a => exact ha
  | setcc _ _ _ ihl ihr | add _ _ ihl ihr | sub _ _ ihl ihr =>
    exact ⟨trivial, ihl ha.2.1, ihr ha.2.2⟩
  | select hc ht hf ihc iht ihf => exact ⟨trivial, ihc ha.2.1, iht ha.2.2.1, ihf ha.2.2.2⟩
  | selectCC cc hl hr ht hf ihl ihr iht ihf =>
    exact ⟨ha.1, ihl ha.2.1, ihr ha.2.2.1, iht ha.2.2.2.1, ihf ha.2.2.2.2⟩
  | lower hc ht hf ihc iht ihf =>
    exact lowerSELECT_every trivial (fun _ _ => trivial) (fun _ _ => trivial)
      (fun _ _ _ _ _ _ h => h) (ihc ha.2.1) (iht ha.2.2.1) (ihf ha.2.2.2)

/-- A step that changes the DAG leaves fewer nodes to lower. -/
theorem LowerSome.selects {w : ℕ} {a a' : SDValue w} (h : LowerSome x a a') :
    a'.selects x ≤ a.selects x ∧ (a'.selects x = a.selects x → a' = a) := by
  induction h with
  | refl a => exact ⟨Nat.le_refl _, fun _ => rfl⟩
  | setcc _ _ _ ihl ihr | add _ _ ihl ihr | sub _ _ ihl ihr =>
    simp only [SDValue.selects]
    refine ⟨by omega, fun h => ?_⟩
    rw [ihl.2 (by omega), ihr.2 (by omega)]
  | select hc ht hf ihc iht ihf =>
    simp only [SDValue.selects]
    refine ⟨by omega, fun h => ?_⟩
    rw [ihc.2 (by omega), iht.2 (by omega), ihf.2 (by omega)]
  | selectCC cc hl hr ht hf ihl ihr iht ihf =>
    simp only [SDValue.selects]
    refine ⟨by omega, fun h => ?_⟩
    rw [ihl.2 (by omega), ihr.2 (by omega), iht.2 (by omega), ihf.2 (by omega)]
  | @lower c c' t t' f f' hc ht hf ihc iht ihf =>
    have hle := lowerSELECT_selects c' t' f'
    have hone : (SDValue.select c t f).selects x =
        1 + (c.selects x + t.selects x + f.selects x) := by
      rw [SDValue.selects, if_pos ⟨rfl, rfl⟩]
    rw [hone]
    exact ⟨by omega, fun h => by omega⟩

/-- Everything can be lowered. -/
theorem exists_lowered (x : XLen) {w : ℕ} (a : SDValue w) :
    ∃ a', LowerSome x a a' ∧ a'.selects x = 0 := by
  induction a with
  | node id => exact ⟨_, .refl _, rfl⟩
  | constant c => exact ⟨_, .refl _, rfl⟩
  | setcc lhs rhs cc ihl ihr =>
    obtain ⟨lhs', hl, hl0⟩ := ihl
    obtain ⟨rhs', hr, hr0⟩ := ihr
    exact ⟨_, .setcc cc hl hr, by rw [SDValue.selects, hl0, hr0]⟩
  | add a b iha ihb =>
    obtain ⟨a', ha, ha0⟩ := iha
    obtain ⟨b', hb, hb0⟩ := ihb
    exact ⟨_, .add ha hb, by rw [SDValue.selects, ha0, hb0]⟩
  | sub a b iha ihb =>
    obtain ⟨a', ha, ha0⟩ := iha
    obtain ⟨b', hb, hb0⟩ := ihb
    exact ⟨_, .sub ha hb, by rw [SDValue.selects, ha0, hb0]⟩
  | @select w v c t f ihc iht ihf =>
    obtain ⟨c', hc, hc0⟩ := ihc
    obtain ⟨t', ht, ht0⟩ := iht
    obtain ⟨f', hf, hf0⟩ := ihf
    by_cases htype : w = x.bits ∧ v = x.bits
    · obtain ⟨rfl, rfl⟩ := htype
      have hle := lowerSELECT_selects c' t' f'
      exact ⟨_, .lower hc ht hf, by omega⟩
    · exact ⟨_, .select hc ht hf, by rw [SDValue.selects, if_neg htype, hc0, ht0, hf0]⟩
  | selectCC lhs rhs cc t f ihl ihr iht ihf =>
    obtain ⟨lhs', hl, hl0⟩ := ihl
    obtain ⟨rhs', hr, hr0⟩ := ihr
    obtain ⟨t', ht, ht0⟩ := iht
    obtain ⟨f', hf, hf0⟩ := ihf
    exact ⟨_, .selectCC cc hl hr ht hf, by rw [SDValue.selects, hl0, hr0, ht0, hf0]⟩

/-! ### Any order -/

theorem LowerSome.steps {w : ℕ} {a a' : SDValue w} (h : ReflTransGen (LowerSome x) a a') :
    (∀ env : DagEnv, a.Every (BooleanCondition env) →
      a'.eval env = a.eval env ∧ a'.Every (BooleanCondition env)) ∧
    (a.Every BranchCode → a'.Every BranchCode) := by
  induction h with
  | refl => exact ⟨fun env ha => ⟨rfl, ha⟩, id⟩
  | tail _ hstep ih =>
    refine ⟨fun env ha => ?_, fun ha => hstep.branchCode (ih.2 ha)⟩
    obtain ⟨heval, hbool⟩ := ih.1 env ha
    obtain ⟨heval', hbool'⟩ := hstep.eval hbool
    exact ⟨heval'.trans heval, hbool'⟩

/-- However far and in whatever order the SELECT nodes are lowered, the value is the same, a
step that changes anything brings the end nearer, and at the end no SELECT is left and every
code has its branch. -/
theorem lowerSELECT_anyOrder {w : ℕ} {a a' : SDValue w} (h : ReflTransGen (LowerSome x) a a') :
    (∀ env : DagEnv, a.Every (BooleanCondition env) → a'.eval env = a.eval env) ∧
    (∀ b, LowerSome x a' b → b ≠ a' → b.selects x < a'.selects x) ∧
    ∃ b, LowerSome x a' b ∧ b.selects x = 0 ∧ (a.Every BranchCode → b.Every BranchCode) := by
  obtain ⟨heval, hcode⟩ := LowerSome.steps h
  refine ⟨fun env ha => (heval env ha).1, fun b hb hne => ?_, ?_⟩
  · obtain ⟨hle, heq⟩ := hb.selects
    exact Nat.lt_of_le_of_ne hle fun h => hne (heq h)
  · obtain ⟨b, hb, hzero⟩ := exists_lowered x a'
    exact ⟨b, hb, hzero, fun ha => hb.branchCode (hcode ha)⟩

def isAboveFive : SDValue 32 :=
  .select (.setcc (.node 0 : SDValue 32) (.constant 5#32) .setugt : SDValue 32) (.constant 1#32)
    (.constant 0#32)

def isAboveFiveCC : SDValue 32 :=
  .selectCC (.constant 5#32 : SDValue 32) (.node 0) .setult (.constant 1#32) (.constant 0#32)

theorem isAboveFive_lower : LowerSome .rv32 isAboveFive isAboveFiveCC :=
  .lower (.refl (.setcc (.node 0 : SDValue 32) (.constant 5#32) .setugt)) (.refl (.constant 1#32))
    (.refl (.constant 0#32))

/-- The outer SELECT is lowered before the one it depends on. -/
theorem selectAboveFive_steps : ReflTransGen (LowerSome .rv32)
    (.select isAboveFive (.node 1) (.node 2) : SDValue 32)
    (.selectCC isAboveFiveCC (.constant 0#32) .setne (.node 1) (.node 2)) :=
  .tail (.single (.lower (.refl isAboveFive) (.refl (.node 1)) (.refl (.node 2))))
    (.selectCC .setne isAboveFive_lower (.refl (.constant 0#32)) (.refl (.node 1))
      (.refl (.node 2)))

theorem lowerSELECT_anyOrder_aboveFive :
    (SDValue.selectCC isAboveFiveCC (.constant 0#32) .setne (.node 1) (.node 2) : SDValue 32).eval
        (fun w id => BitVec.ofNat w (id + 6)) = 7#32 :=
  (lowerSELECT_anyOrder selectAboveFive_steps).1 (fun w id => BitVec.ofNat w (id + 6))
    ⟨.inr rfl, ⟨.inr rfl, ⟨trivial, trivial, trivial⟩, trivial, trivial⟩, trivial, trivial⟩

/-! ### The branch at the end of a block -/

/-- BRCOND and what becomes of it, less the chain. -/
inductive BranchNode (x : XLen) where
  | brcond (condV : SDValue x.bits) (dest : MBB)
  | brcc (n : BrCC)

def BranchNode.target (env : DagEnv) : BranchNode x → Option MBB
  | .brcond condV dest => if condV.eval env = 1#x.bits then some dest else none
  | .brcc n => if n.cc.holds (n.lhs.eval env) (n.rhs.eval env) then some n.dest else none

inductive BranchStep : BranchNode x → BranchNode x → Prop
  | cond {condV condV' : SDValue x.bits} (dest : MBB) (h : LowerSome x condV condV') :
      BranchStep (.brcond condV dest) (.brcond condV' dest)
  | lower (condV : SDValue x.bits) (dest : MBB) :
      BranchStep (.brcond condV dest) (.brcc (lowerBRCOND x condV dest))
  | operands (n : BrCC) {lhs rhs : SDValue n.width} (hl : LowerSome x n.lhs lhs)
      (hr : LowerSome x n.rhs rhs) :
      BranchStep (.brcc n) (.brcc ⟨n.width, lhs, rhs, n.cc, n.dest⟩)

def BranchNode.Booleans (env : DagEnv) : BranchNode x → Prop
  | .brcond condV _ => condV.isBoolean env ∧ condV.Every (BooleanCondition env)
  | .brcc n => n.lhs.Every (BooleanCondition env) ∧ n.rhs.Every (BooleanCondition env)

def BranchNode.BranchCodes : BranchNode x → Prop
  | .brcond condV _ => condV.Every BranchCode
  | .brcc n => n.cc.HasBranch ∧ n.lhs.Every BranchCode ∧ n.rhs.Every BranchCode

/-- BRCOND and the SELECT nodes. -/
def BranchNode.left : BranchNode x → ℕ
  | .brcond condV _ => condV.selects x + 1
  | .brcc n => n.lhs.selects x + n.rhs.selects x

theorem lowerBRCOND_cases (condV : SDValue x.bits) (dest : MBB) :
    (∃ (lhs rhs : SDValue x.bits) (cc : IsdCondCode), condV = .setcc lhs rhs cc ∧
      lowerBRCOND x condV dest =
        ⟨x.bits, (translateSetCCForBranch lhs rhs cc).1, (translateSetCCForBranch lhs rhs cc).2.1,
          (translateSetCCForBranch lhs rhs cc).2.2, dest⟩) ∨
    lowerBRCOND x condV dest = ⟨x.bits, condV, .constant 0#x.bits, .setne, dest⟩ := by
  cases condV with
  | @setcc _ v lhs rhs cc =>
    by_cases hv : v = x.bits
    · subst hv
      exact .inl ⟨lhs, rhs, cc, rfl, by simp only [lowerBRCOND, if_true]⟩
    · exact .inr (by simp only [lowerBRCOND, if_neg hv])
  | _ => exact .inr rfl

theorem lowerBRCOND_every {P : (w : ℕ) → SDValue w → Prop} (hzero : P x.bits (.constant 0#x.bits))
    {condV : SDValue x.bits} (h : condV.Every P) (dest : MBB) :
    (lowerBRCOND x condV dest).lhs.Every P ∧ (lowerBRCOND x condV dest).rhs.Every P := by
  rcases lowerBRCOND_cases condV dest with ⟨lhs, rhs, cc, rfl, hlower⟩ | hlower
  · rw [hlower]
    exact translateSetCCForBranch_every hzero cc h.2.1 h.2.2
  · rw [hlower]
    exact ⟨h, hzero⟩

theorem lowerBRCOND_code (condV : SDValue x.bits) (dest : MBB) :
    (lowerBRCOND x condV dest).cc.HasBranch := by
  rcases lowerBRCOND_cases condV dest with ⟨lhs, rhs, cc, -, hlower⟩ | hlower
  · rw [hlower]
    exact translateSetCCForBranch_code lhs rhs cc
  · rw [hlower]
    exact ⟨_, _, rfl, rfl⟩

theorem lowerBRCOND_selects (condV : SDValue x.bits) (dest : MBB) :
    (lowerBRCOND x condV dest).lhs.selects x + (lowerBRCOND x condV dest).rhs.selects x ≤
      condV.selects x := by
  rcases lowerBRCOND_cases condV dest with ⟨lhs, rhs, cc, rfl, hlower⟩ | hlower
  · rw [hlower]
    exact translateSetCCForBranch_selects lhs rhs cc
  · rw [hlower]
    exact Nat.le_refl _

theorem lowerBRCOND_target {condV : SDValue x.bits} {env : DagEnv} (h : condV.isBoolean env)
    (dest : MBB) : (BranchNode.brcc (lowerBRCOND x condV dest) : BranchNode x).target env =
      (BranchNode.brcond condV dest).target env := by
  have hw := x.one_lt_bits
  rcases lowerBRCOND_cases condV dest with ⟨lhs, rhs, cc, rfl, hlower⟩ | hlower
  · rw [hlower]
    simp only [BranchNode.target, translateSetCCForBranch_holds hw, setcc_eq_one hw]
  · have hone := boolean_setne hw h
    rw [hlower]
    simp only [BranchNode.target, constant_eval, hone]

theorem BranchStep.preserves {b b' : BranchNode x} (h : BranchStep b b') :
    (∀ env : DagEnv, b.Booleans env → b'.target env = b.target env ∧ b'.Booleans env) ∧
    (b.BranchCodes → b'.BranchCodes) ∧ (b' ≠ b → b'.left < b.left) := by
  cases h with
  | @cond condV condV' dest h =>
    obtain ⟨hle, heq⟩ := h.selects
    refine ⟨fun env hb => ?_, h.branchCode, fun hne => ?_⟩
    · obtain ⟨heval, hevery⟩ := h.eval hb.2
      refine ⟨by rw [BranchNode.target, BranchNode.target, heval], ?_, hevery⟩
      rw [SDValue.isBoolean, heval]
      exact hb.1
    · have hlt := Nat.lt_of_le_of_ne hle fun h => hne (heq h ▸ rfl)
      exact Nat.succ_lt_succ hlt
  | lower condV dest =>
    refine ⟨fun env hb => ⟨lowerBRCOND_target hb.1 dest, lowerBRCOND_every trivial hb.2 dest⟩,
      fun hb => ⟨lowerBRCOND_code condV dest, lowerBRCOND_every trivial hb dest⟩, fun _ => ?_⟩
    exact Nat.lt_succ_of_le (lowerBRCOND_selects condV dest)
  | @operands n lhs rhs hl hr =>
    obtain ⟨hlel, heql⟩ := hl.selects
    obtain ⟨hler, heqr⟩ := hr.selects
    refine ⟨fun env hb => ?_, fun hb => ⟨hb.1, hl.branchCode hb.2.1, hr.branchCode hb.2.2⟩,
      fun hne => ?_⟩
    · obtain ⟨hel, hbl⟩ := hl.eval hb.1
      obtain ⟨her, hbr⟩ := hr.eval hb.2
      exact ⟨by rw [BranchNode.target, BranchNode.target, hel, her], hbl, hbr⟩
    · refine Nat.lt_of_le_of_ne (Nat.add_le_add hlel hler) fun h => hne ?_
      have hsum : lhs.selects x + rhs.selects x = n.lhs.selects x + n.rhs.selects x := h
      rw [heql (by omega), heqr (by omega)]

theorem BranchStep.steps {b b' : BranchNode x} (h : ReflTransGen BranchStep b b') :
    (∀ env : DagEnv, b.Booleans env → b'.target env = b.target env ∧ b'.Booleans env) ∧
    (b.BranchCodes → b'.BranchCodes) := by
  induction h with
  | refl => exact ⟨fun env hb => ⟨rfl, hb⟩, id⟩
  | tail _ hstep ih =>
    obtain ⟨htarget, hcodes, -⟩ := hstep.preserves
    refine ⟨fun env hb => ?_, fun hb => hcodes (ih.2 hb)⟩
    obtain ⟨heq, hbool⟩ := ih.1 env hb
    obtain ⟨heq', hbool'⟩ := htarget env hbool
    exact ⟨heq'.trans heq, hbool'⟩

/-- BRCOND and its operands can be lowered from anywhere. -/
theorem exists_brcc (b : BranchNode x) :
    ∃ n, ReflTransGen BranchStep b (.brcc n) ∧ n.lhs.selects x = 0 ∧ n.rhs.selects x = 0 := by
  have hbrcc : ∀ n : BrCC, ∃ n', BranchStep (x := x) (.brcc n) (.brcc n') ∧
      n'.lhs.selects x = 0 ∧ n'.rhs.selects x = 0 := by
    intro n
    obtain ⟨lhs, hl, hl0⟩ := exists_lowered x n.lhs
    obtain ⟨rhs, hr, hr0⟩ := exists_lowered x n.rhs
    exact ⟨_, .operands n hl hr, hl0, hr0⟩
  cases b with
  | brcond condV dest =>
    obtain ⟨n, hn, hzero⟩ := hbrcc (lowerBRCOND x condV dest)
    exact ⟨n, .head (.lower condV dest) (.single hn), hzero⟩
  | brcc n =>
    obtain ⟨n', hn, hzero⟩ := hbrcc n
    exact ⟨n', .single hn, hzero⟩

theorem selectBrcc_jump {n : BrCC} (h : n.cc.HasBranch) :
    ∃ sb, selectBrcc n = some sb ∧ ∀ env : DagEnv,
      sb.jump env = (BranchNode.brcc n : BranchNode x).target env := by
  obtain ⟨rcc, op, hrcc, hop⟩ := h
  have hpat := patBrcc_eq n.cc
  rw [hrcc, Option.bind_some, hop, Option.map_eq_some_iff] at hpat
  obtain ⟨p, hfind, rfl⟩ := hpat
  refine ⟨⟨n.width, p.2, n.lhs, n.rhs, n.dest⟩, by rw [selectBrcc, hfind]; rfl, fun env => ?_⟩
  rw [SelectedBranch.jump, branch_of_intCC _ rcc p.2 hrcc hop]
  rfl

/-- However BRCOND and the SELECT nodes under it are lowered, the target stays the same, a step
that changes anything brings the end nearer, and at the end stands a branch instruction that
jumps as BRCOND did. -/
theorem lowerBRCOND_anyOrder {condV : SDValue x.bits} {dest : MBB} {b : BranchNode x}
    (h : ReflTransGen BranchStep (.brcond condV dest) b) (hcodes : condV.Every BranchCode) :
    (∀ env : DagEnv, condV.isBoolean env → condV.Every (BooleanCondition env) →
      b.target env = if condV.eval env = 1#x.bits then some dest else none) ∧
    (∀ b', BranchStep b b' → b' ≠ b → b'.left < b.left) ∧
    ∃ n sb, ReflTransGen BranchStep b (.brcc n) ∧ n.lhs.selects x = 0 ∧ n.rhs.selects x = 0 ∧
      n.lhs.Every BranchCode ∧ n.rhs.Every BranchCode ∧ selectBrcc n = some sb ∧
      ∀ env : DagEnv, condV.isBoolean env → condV.Every (BooleanCondition env) →
        sb.jump env = if condV.eval env = 1#x.bits then some dest else none := by
  refine ⟨fun env hbool hevery => ((BranchStep.steps h).1 env ⟨hbool, hevery⟩).1,
    fun b' hb' => hb'.preserves.2.2, ?_⟩
  obtain ⟨n, hn, hl, hr⟩ := exists_brcc b
  obtain ⟨htarget, hcode⟩ := BranchStep.steps (h.trans hn)
  obtain ⟨hcc, hcl, hcr⟩ := hcode hcodes
  obtain ⟨sb, hsb, hjump⟩ := selectBrcc_jump (x := x) hcc
  refine ⟨n, sb, hn, hl, hr, hcl, hcr, hsb, fun env hbool hevery => ?_⟩
  rw [hjump]
  exact (htarget env ⟨hbool, hevery⟩).1

theorem lowerBRCOND_anyOrder_aboveFive :
    ∃ n sb, ReflTransGen (BranchStep (x := .rv32)) (.brcond isAboveFiveCC 7) (.brcc n) ∧
      n.lhs.selects .rv32 = 0 ∧ n.rhs.selects .rv32 = 0 ∧ n.lhs.Every BranchCode ∧
      n.rhs.Every BranchCode ∧ selectBrcc n = some sb ∧
      ∀ env : DagEnv, isAboveFive.isBoolean env → isAboveFive.Every (BooleanCondition env) →
        sb.jump env = if isAboveFive.eval env = 1#32 then some 7 else none :=
  (lowerBRCOND_anyOrder (.single (.cond 7 isAboveFive_lower))
    ⟨trivial, ⟨trivial, trivial, trivial⟩, trivial, trivial⟩).2.2

end ToyRiscv
