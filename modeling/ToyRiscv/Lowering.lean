import ToyRiscv.MachineFunction

/-!
# Lowering of SELECT and BRCOND

`translateSetCCForBranch`, `lowerSELECT` and `lowerBRCOND`
(TOYRISCVISelLowering.cpp:85-112, 182-245, 389-410) on DAG values of integer
type, and the branch patterns `PatBrcc` (TOYRISCVInstrInfo.td:194-203). SELECT is
custom lowered for the type XLenVT only, so its vector case does not arise.
-/

namespace ToyRiscv

/-- DAG values of an integer type, indexed by its width. A node that lowering
does not look into is a `node`, of any value. -/
inductive SDValue : ℕ → Type where
  | node {w : ℕ} (id : ℕ) : SDValue w
  | constant {w : ℕ} (c : BitVec w) : SDValue w
  | setcc {w v : ℕ} (lhs rhs : SDValue v) (cc : IsdCondCode) : SDValue w
  | add {w : ℕ} (a b : SDValue w) : SDValue w
  | sub {w : ℕ} (a b : SDValue w) : SDValue w
  | select {w v : ℕ} (condV : SDValue v) (trueV falseV : SDValue w) : SDValue w
  | selectCC {w v : ℕ} (lhs rhs : SDValue v) (cc : IsdCondCode) (trueV falseV : SDValue w) :
      SDValue w
  deriving DecidableEq

abbrev DagEnv := (w : ℕ) → ℕ → BitVec w

/-- Booleans are 0 or 1 (`ZeroOrOneBooleanContent`). -/
def SDValue.eval (env : DagEnv) : {w : ℕ} → SDValue w → BitVec w
  | w, .node id => env w id
  | _, .constant c => c
  | w, .setcc lhs rhs cc => if cc.holds (lhs.eval env) (rhs.eval env) then 1#w else 0#w
  | _, .add a b => a.eval env + b.eval env
  | _, .sub a b => a.eval env - b.eval env
  | _, .select (v := v) c t f => if c.eval env = 1#v then t.eval env else f.eval env
  | _, .selectCC lhs rhs cc t f =>
    if cc.holds (lhs.eval env) (rhs.eval env) then t.eval env else f.eval env

theorem constant_eval {w : ℕ} (c : BitVec w) (env : DagEnv) :
    (SDValue.constant c).eval env = c := rfl

theorem setcc_eval {w v : ℕ} (lhs rhs : SDValue v) (cc : IsdCondCode) (env : DagEnv) :
    (SDValue.setcc lhs rhs cc : SDValue w).eval env =
      if cc.holds (lhs.eval env) (rhs.eval env) then 1#w else 0#w := rfl

theorem add_eval {w : ℕ} (a b : SDValue w) (env : DagEnv) :
    (SDValue.add a b).eval env = a.eval env + b.eval env := rfl

theorem sub_eval {w : ℕ} (a b : SDValue w) (env : DagEnv) :
    (SDValue.sub a b).eval env = a.eval env - b.eval env := rfl

theorem select_eval {w v : ℕ} (condV : SDValue v) (trueV falseV : SDValue w) (env : DagEnv) :
    (SDValue.select condV trueV falseV).eval env =
      if condV.eval env = 1#v then trueV.eval env else falseV.eval env := rfl

theorem selectCC_eval {w v : ℕ} (lhs rhs : SDValue v) (cc : IsdCondCode)
    (trueV falseV : SDValue w) (env : DagEnv) :
    (SDValue.selectCC lhs rhs cc trueV falseV).eval env =
      if cc.holds (lhs.eval env) (rhs.eval env) then trueV.eval env else falseV.eval env := rfl

def SDValue.isBoolean {w : ℕ} (env : DagEnv) (a : SDValue w) : Prop :=
  a.eval env = 0#w ∨ a.eval env = 1#w

def isAllOnesConstant {w : ℕ} : SDValue w → Bool
  | .constant c => c == BitVec.allOnes w
  | _ => false

def isOneConstant {w : ℕ} : SDValue w → Bool
  | .constant c => c == 1#w
  | _ => false

/-- The new `LHS`, `RHS` and `CC`. -/
def translateSetCCForBranch {w : ℕ} (LHS RHS : SDValue w) (CC : IsdCondCode) :
    SDValue w × SDValue w × IsdCondCode :=
  if CC = .setgt ∧ isAllOnesConstant RHS then (LHS, .constant 0#w, .setge)
  else if CC = .setlt ∧ isOneConstant RHS then (.constant 0#w, LHS, .setge)
  else match CC with
  | .setgt | .setle | .setugt | .setule => (RHS, LHS, getSetCCSwappedOperands CC)
  | _ => (LHS, RHS, CC)

/-- The special case in `lowerSELECT` for two constants that differ by one. -/
def selectOfConstants {w : ℕ} (CC : IsdCondCode) (condV trueV falseV : SDValue w) :
    Option (SDValue w) :=
  match CC, trueV, falseV with
  | .setlt, .constant trueVal, .constant falseVal =>
    if trueVal - 1#w = falseVal then some (.add condV falseV)
    else if trueVal + 1#w = falseVal then some (.sub falseV condV)
    else none
  | _, _, _ => none

def lowerSELECT (x : XLen) (condV trueV falseV : SDValue x.bits) : SDValue x.bits :=
  match condV with
  | @SDValue.setcc _ v lhs rhs cc =>
    if v = x.bits then
      match selectOfConstants cc (.setcc lhs rhs cc) trueV falseV with
      | some n => n
      | none =>
        let t := translateSetCCForBranch lhs rhs cc
        .selectCC t.1 t.2.1 t.2.2 trueV falseV
    else .selectCC (.setcc lhs rhs cc) (.constant 0#x.bits) .setne trueV falseV
  | condV => .selectCC condV (.constant 0#x.bits) .setne trueV falseV

/-- `TOYRISCVISD::BR_CC`, less its chain. -/
structure BrCC where
  width : ℕ
  lhs : SDValue width
  rhs : SDValue width
  cc : IsdCondCode
  dest : MBB

def lowerBRCOND (x : XLen) (condV : SDValue x.bits) (dest : MBB) : BrCC :=
  match condV with
  | @SDValue.setcc _ v lhs rhs cc =>
    if v = x.bits then
      let t := translateSetCCForBranch lhs rhs cc
      ⟨v, t.1, t.2.1, t.2.2, dest⟩
    else ⟨x.bits, .setcc lhs rhs cc, .constant 0#x.bits, .setne, dest⟩
  | condV => ⟨x.bits, condV, .constant 0#x.bits, .setne, dest⟩

/-- The instances of `PatBrcc`. -/
def patBrcc : List (IsdCondCode × BranchOp) :=
  [(.seteq, .beq), (.setne, .bne), (.setlt, .blt), (.setge, .bge), (.setult, .bltu),
    (.setuge, .bgeu)]

/-- A conditional branch whose registers hold the values of two DAG nodes. -/
structure SelectedBranch where
  width : ℕ
  op : BranchOp
  rs1 : SDValue width
  rs2 : SDValue width
  target : MBB

def selectBrcc (n : BrCC) : Option SelectedBranch :=
  (patBrcc.find? fun p => p.1 = n.cc).map fun p => ⟨n.width, p.2, n.lhs, n.rhs, n.dest⟩

/-- Where the branch jumps; `none` when it is not taken. -/
def SelectedBranch.jump (b : SelectedBranch) (env : DagEnv) : Option MBB :=
  if b.op.taken (b.rs1.eval env) (b.rs2.eval env) then some b.target else none

/-! ### The rewritten comparison -/

theorem isAllOnesConstant_eval {w : ℕ} {a : SDValue w} (h : isAllOnesConstant a = true)
    (env : DagEnv) : a.eval env = BitVec.allOnes w := by
  cases a with
  | constant c => simpa [isAllOnesConstant, constant_eval] using h
  | _ => simp [isAllOnesConstant] at h

theorem isOneConstant_eval {w : ℕ} {a : SDValue w} (h : isOneConstant a = true) (env : DagEnv) :
    a.eval env = 1#w := by
  cases a with
  | constant c => simpa [isOneConstant, constant_eval] using h
  | _ => simp [isOneConstant] at h

theorem gt_allOnes {w : ℕ} (hw : 1 < w) (a : BitVec w) :
    (BitVec.allOnes w).slt a = (0#w).sle a := by
  have hone : (BitVec.allOnes w).toInt = -1 := by
    rw [BitVec.toInt_allOnes, if_pos (by omega)]
  rw [BitVec.slt, BitVec.sle, hone, BitVec.toInt_zero, decide_eq_decide]
  omega

theorem lt_one {w : ℕ} (hw : 1 < w) (a : BitVec w) : a.slt 1#w = a.sle 0#w := by
  have hone : (1#w).toInt = 1 := BitVec.toInt_one hw
  rw [BitVec.slt, BitVec.sle, hone, BitVec.toInt_zero, decide_eq_decide]
  omega

theorem translateSetCCForBranch_holds {w : ℕ} (hw : 1 < w) (LHS RHS : SDValue w)
    (CC : IsdCondCode) (env : DagEnv) :
    (translateSetCCForBranch LHS RHS CC).2.2.holds
        ((translateSetCCForBranch LHS RHS CC).1.eval env)
        ((translateSetCCForBranch LHS RHS CC).2.1.eval env) =
      CC.holds (LHS.eval env) (RHS.eval env) := by
  unfold translateSetCCForBranch
  split
  · rename_i h
    rw [h.1]
    simp only [IsdCondCode.holds, constant_eval, isAllOnesConstant_eval h.2 env]
    exact (gt_allOnes hw _).symm
  · split
    · rename_i h
      rw [h.1]
      simp only [IsdCondCode.holds, constant_eval, isOneConstant_eval h.2 env]
      exact (lt_one hw _).symm
    · cases CC with
      | setgt => exact swapped_holds .setgt _ _
      | setle => exact swapped_holds .setle _ _
      | setugt => exact swapped_holds .setugt _ _
      | setule => exact swapped_holds .setule _ _
      | _ => rfl

/-- The two code tables accept every code that `translateSetCCForBranch` returns. -/
theorem translateSetCCForBranch_code {w : ℕ} (LHS RHS : SDValue w) (CC : IsdCondCode) :
    ∃ rcc op, getRISCVCCForIntCC (translateSetCCForBranch LHS RHS CC).2.2 = some rcc ∧
      getBrCond rcc = some op := by
  unfold translateSetCCForBranch
  split
  · exact ⟨_, _, rfl, rfl⟩
  · split
    · exact ⟨_, _, rfl, rfl⟩
    · cases CC <;> exact ⟨_, _, rfl, rfl⟩

/-- `PatBrcc` maps the codes as `getRISCVCCForIntCC` and `getBrCond` do. -/
theorem patBrcc_eq (cc : IsdCondCode) :
    (patBrcc.find? fun p => p.1 = cc).map Prod.snd = (getRISCVCCForIntCC cc).bind getBrCond := by
  cases cc <;> rfl

/-! ### SELECT -/

theorem one_ne_zero_of_lt {w : ℕ} (hw : 1 < w) : (1#w : BitVec w) ≠ 0#w := by
  rw [ne_eq, BitVec.one_eq_zero_iff]
  omega

theorem boolean_setne {w : ℕ} (hw : 1 < w) {c : BitVec w} (h : c = 0#w ∨ c = 1#w) :
    IsdCondCode.setne.holds c 0#w = true ↔ c = 1#w := by
  simp only [IsdCondCode.holds, bne_iff_ne, ne_eq]
  rcases h with rfl | rfl
  · simpa using (one_ne_zero_of_lt hw).symm
  · simpa using one_ne_zero_of_lt hw

theorem setcc_eq_one {w v : ℕ} (hw : 1 < w) (lhs rhs : SDValue v) (cc : IsdCondCode)
    (env : DagEnv) : (SDValue.setcc lhs rhs cc : SDValue w).eval env = 1#w ↔
      cc.holds (lhs.eval env) (rhs.eval env) = true := by
  rw [setcc_eval]
  split
  · rename_i h
    exact ⟨fun _ => h, fun _ => rfl⟩
  · rename_i h
    exact ⟨fun he => absurd he.symm (one_ne_zero_of_lt hw), fun he => absurd he h⟩

theorem setcc_isBoolean {w v : ℕ} (lhs rhs : SDValue v) (cc : IsdCondCode) (env : DagEnv) :
    (SDValue.setcc lhs rhs cc : SDValue w).isBoolean env := by
  rw [SDValue.isBoolean, setcc_eval]
  split
  · exact Or.inr rfl
  · exact Or.inl rfl

/-- Adding or subtracting the boolean steps from one constant to the other,
modulo `2 ^ w`. -/
theorem selectOfConstants_eval {w : ℕ} (hw : 1 < w) (CC : IsdCondCode)
    (condV trueV falseV n : SDValue w) (h : selectOfConstants CC condV trueV falseV = some n)
    (env : DagEnv) (hb : condV.isBoolean env) :
    n.eval env = (SDValue.select condV trueV falseV).eval env := by
  unfold selectOfConstants at h
  split at h
  · rename_i trueVal falseVal
    rw [select_eval]
    split at h
    · rename_i hone
      obtain rfl := Option.some.inj h
      simp only [add_eval, constant_eval, ← hone]
      rcases hb with hb | hb
      · rw [hb, if_neg (one_ne_zero_of_lt hw).symm, BitVec.zero_add]
      · rw [hb, if_pos rfl, BitVec.add_comm, BitVec.sub_add_cancel]
    · split at h
      · rename_i hone
        obtain rfl := Option.some.inj h
        simp only [sub_eval, constant_eval, ← hone]
        rcases hb with hb | hb
        · rw [hb, if_neg (one_ne_zero_of_lt hw).symm, BitVec.sub_zero]
        · rw [hb, if_pos rfl, BitVec.add_sub_cancel]
      · cases h
  · cases h

theorem selectCC_translate_eval {w v : ℕ} (hw : 1 < w) (hv : 1 < v) (lhs rhs : SDValue v)
    (cc : IsdCondCode) (trueV falseV : SDValue w) (env : DagEnv) :
    (SDValue.selectCC (translateSetCCForBranch lhs rhs cc).1
        (translateSetCCForBranch lhs rhs cc).2.1 (translateSetCCForBranch lhs rhs cc).2.2 trueV
        falseV).eval env =
      (SDValue.select (SDValue.setcc lhs rhs cc : SDValue w) trueV falseV).eval env := by
  have hone := setcc_eq_one hw lhs rhs cc env
  rw [selectCC_eval, translateSetCCForBranch_holds hv, select_eval]
  simp only [hone]

theorem selectCC_setne_eval {w : ℕ} (hw : 1 < w) (condV trueV falseV : SDValue w) (env : DagEnv)
    (hb : condV.isBoolean env) :
    (SDValue.selectCC condV (.constant 0#w) .setne trueV falseV).eval env =
      (SDValue.select condV trueV falseV).eval env := by
  have hone := boolean_setne hw hb
  rw [selectCC_eval, select_eval]
  simp only [constant_eval, hone]

theorem lowerSELECT_cases (x : XLen) (condV trueV falseV : SDValue x.bits) :
    (∃ (lhs rhs : SDValue x.bits) (cc : IsdCondCode), condV = .setcc lhs rhs cc ∧
      (selectOfConstants cc condV trueV falseV = some (lowerSELECT x condV trueV falseV) ∨
       lowerSELECT x condV trueV falseV = .selectCC (translateSetCCForBranch lhs rhs cc).1
        (translateSetCCForBranch lhs rhs cc).2.1 (translateSetCCForBranch lhs rhs cc).2.2 trueV
        falseV)) ∨
    lowerSELECT x condV trueV falseV =
      .selectCC condV (.constant 0#x.bits) .setne trueV falseV := by
  cases condV with
  | setcc lhs rhs cc =>
    rename_i v
    by_cases hv : v = x.bits
    · subst hv
      refine Or.inl ⟨lhs, rhs, cc, rfl, ?_⟩
      simp only [lowerSELECT, if_true]
      cases hsel : selectOfConstants cc (.setcc lhs rhs cc) trueV falseV with
      | some n => exact Or.inl rfl
      | none => exact Or.inr rfl
    · exact Or.inr (by simp only [lowerSELECT, if_neg hv])
  | _ => exact Or.inr rfl

theorem selectOfConstants_ne_selectCC {w v : ℕ} (CC : IsdCondCode) (condV trueV falseV : SDValue w)
    (lhs rhs : SDValue v) (cc : IsdCondCode) (t f : SDValue w) :
    selectOfConstants CC condV trueV falseV ≠ some (.selectCC lhs rhs cc t f) := by
  unfold selectOfConstants
  split
  · split
    · simp
    · split
      · simp
      · simp
  · simp

theorem lowerSELECT_branch (x : XLen) (condV trueV falseV : SDValue x.bits) {v : ℕ}
    (lhs rhs : SDValue v) (cc : IsdCondCode) (t f : SDValue x.bits)
    (h : lowerSELECT x condV trueV falseV = .selectCC lhs rhs cc t f) :
    v = x.bits ∧ ∃ rcc op, getRISCVCCForIntCC cc = some rcc ∧ getBrCond rcc = some op ∧
      ∀ env : DagEnv, condV.isBoolean env →
        (op.taken (lhs.eval env) (rhs.eval env) = true ↔ condV.eval env = 1#x.bits) := by
  have hw := x.one_lt_bits
  rcases lowerSELECT_cases x condV trueV falseV with ⟨l, r, c, hcond, hsel | hcc⟩ | hne
  · rw [h] at hsel
    exact absurd hsel (selectOfConstants_ne_selectCC _ _ _ _ _ _ _ _ _)
  · rw [h] at hcc
    cases hcc
    obtain ⟨rcc, op, hrcc, hop⟩ := translateSetCCForBranch_code l r c
    refine ⟨rfl, rcc, op, hrcc, hop, fun env _ => ?_⟩
    rw [branch_of_intCC _ rcc op hrcc hop, translateSetCCForBranch_holds hw, hcond,
      setcc_eq_one hw]
  · rw [h] at hne
    cases hne
    refine ⟨rfl, .condNe, .bne, rfl, rfl, fun env hb => ?_⟩
    rw [branch_of_intCC .setne .condNe .bne rfl rfl, constant_eval]
    exact boolean_setne hw hb

/-- `lowerSELECT` returns a node with the value of the SELECT, and whatever
condition code it puts there has a branch, which is taken when the condition is
true. -/
theorem lowerSELECT_correct (x : XLen) (condV trueV falseV : SDValue x.bits) :
    (∀ env : DagEnv, condV.isBoolean env →
      (lowerSELECT x condV trueV falseV).eval env =
        (SDValue.select condV trueV falseV).eval env) ∧
    ∀ (v : ℕ) (lhs rhs : SDValue v) (cc : IsdCondCode) (t f : SDValue x.bits),
      lowerSELECT x condV trueV falseV = .selectCC lhs rhs cc t f →
      v = x.bits ∧ ∃ rcc op, getRISCVCCForIntCC cc = some rcc ∧ getBrCond rcc = some op ∧
        ∀ env : DagEnv, condV.isBoolean env →
          (op.taken (lhs.eval env) (rhs.eval env) = true ↔ condV.eval env = 1#x.bits) := by
  have hw := x.one_lt_bits
  refine ⟨fun env hb => ?_, fun v lhs rhs cc t f h =>
    lowerSELECT_branch x condV trueV falseV lhs rhs cc t f h⟩
  rcases lowerSELECT_cases x condV trueV falseV with ⟨l, r, c, hcond, hsel | hcc⟩ | hne
  · exact selectOfConstants_eval hw c condV trueV falseV _ hsel env hb
  · rw [hcc, hcond]
    exact selectCC_translate_eval hw hw l r c trueV falseV env
  · rw [hne]
    exact selectCC_setne_eval hw condV trueV falseV env hb

theorem lowerSELECT_correct_maxInt :
    (lowerSELECT .rv32 (.setcc (.node 0 : SDValue 32) (.constant 1#32) .setlt)
        (.constant 0x80000000#32) (.constant 0x7FFFFFFF#32)).eval (fun w _ => BitVec.ofInt w (-5)) =
      0x80000000#32 := by
  have h := (lowerSELECT_correct .rv32 (.setcc (.node 0 : SDValue 32) (.constant 1#32) .setlt)
    (.constant 0x80000000#32) (.constant 0x7FFFFFFF#32)).1 (fun w _ => BitVec.ofInt w (-5))
    (setcc_isBoolean _ _ _ _)
  rw [h]
  rfl

/-! ### BRCOND -/

/-- The lowered branch has a pattern and jumps when the condition is true. -/
theorem lowerBRCOND_correct (x : XLen) (condV : SDValue x.bits) (dest : MBB) :
    ∃ b, selectBrcc (lowerBRCOND x condV dest) = some b ∧ b.width = x.bits ∧
      ∀ env : DagEnv, condV.isBoolean env →
        b.jump env = if condV.eval env = 1#x.bits then some dest else none := by
  have hw := x.one_lt_bits
  -- the fallback compares the boolean with zero
  have hfallback : ∃ b, selectBrcc ⟨x.bits, condV, .constant 0#x.bits, .setne, dest⟩ = some b ∧
      b.width = x.bits ∧ ∀ env : DagEnv, condV.isBoolean env →
        b.jump env = if condV.eval env = 1#x.bits then some dest else none := by
    refine ⟨_, rfl, rfl, fun env hb => ?_⟩
    have hone := boolean_setne hw hb
    simp only [SelectedBranch.jump, BranchOp.taken, constant_eval]
    simp only [IsdCondCode.holds] at hone
    simp only [hone]
  cases condV with
  | setcc lhs rhs cc =>
    rename_i v
    by_cases hv : v = x.bits
    · subst hv
      obtain ⟨rcc, op, hrcc, hop⟩ := translateSetCCForBranch_code lhs rhs cc
      have hpat := patBrcc_eq (translateSetCCForBranch lhs rhs cc).2.2
      rw [hrcc, Option.bind_some, hop, Option.map_eq_some_iff] at hpat
      obtain ⟨p, hfind, rfl⟩ := hpat
      have hlower : lowerBRCOND x (.setcc lhs rhs cc) dest =
          ⟨x.bits, (translateSetCCForBranch lhs rhs cc).1, (translateSetCCForBranch lhs rhs cc).2.1,
            (translateSetCCForBranch lhs rhs cc).2.2, dest⟩ := by
        simp only [lowerBRCOND, if_true]
      refine ⟨⟨x.bits, p.2, (translateSetCCForBranch lhs rhs cc).1,
        (translateSetCCForBranch lhs rhs cc).2.1, dest⟩, ?_, rfl, fun env _ => ?_⟩
      · rw [hlower, selectBrcc, hfind]
        rfl
      · rw [SelectedBranch.jump, branch_of_intCC _ rcc p.2 hrcc hop,
          translateSetCCForBranch_holds hw]
        simp only [setcc_eq_one hw]
    · simpa only [lowerBRCOND, if_neg hv] using hfallback
  | _ => exact hfallback

theorem lowerBRCOND_correct_gtMinusOne :
    ∃ b, selectBrcc (lowerBRCOND .rv64 (.setcc (.node 0 : SDValue 64)
        (.constant (BitVec.allOnes 64)) .setgt) 7) = some b ∧ b.width = 64 ∧
      b.jump (fun w _ => 0#w) = some 7 := by
  obtain ⟨b, hb, hwidth, hjump⟩ := lowerBRCOND_correct .rv64 (.setcc (.node 0 : SDValue 64)
    (.constant (BitVec.allOnes 64)) .setgt) 7
  refine ⟨b, hb, hwidth, ?_⟩
  rw [hjump _ (setcc_isBoolean _ _ _ _)]
  decide

end ToyRiscv
