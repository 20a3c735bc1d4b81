import ToyRiscv.ArgumentLowering

/-!
# Arbitrary signatures

Where `CC_RISCV32` puts each part of a signature of any types, and what
`LowerFormalArguments` and `LowerReturn` make of it. A part of an integer type gets
the next argument register while there is one; every other part gets the next eight
bytes of the stack.
-/

namespace ToyRiscv
open Lib.Positions

/-- `CCPromoteToType<i32>` on `i8` and `i16`. -/
def MVT.promoted (vt : MVT) : MVT := if vt = .i8 ∨ vt = .i16 then .i32 else vt

def MVT.inRegister (vt : MVT) : Bool := decide (vt.promoted = .i32 ∨ vt.promoted = .i64)

def registerParts (vts : List MVT) : ℕ := vts.countP MVT.inRegister

/-- The location of the part `i`, by the parts before it. -/
def argumentLoc (vts : List MVT) (i : ℕ) (vt : MVT) : CCLoc :=
  match if vt.inRegister then argumentRegs[registerParts (vts.take i)]? else none with
  | some r => .reg r
  | none => .mem (8 * (i - min (registerParts (vts.take i)) 8))

def argumentAssign (vts : List MVT) (i : ℕ) (vt : MVT) : CCValAssign :=
  ⟨i, vt, vt.promoted, argumentLoc vts i vt⟩

def argumentState (vts : List MVT) : CCState where
  used := argumentRegs.take (registerParts vts)
  stackOffset := 8 * (vts.length - min (registerParts vts) 8)
  locs := vts.zipIdx.map fun vi => argumentAssign vts vi.2 vi.1

/-! ### Counting register parts -/

@[simp] theorem registerParts_append (vts vts' : List MVT) :
    registerParts (vts ++ vts') = registerParts vts + registerParts vts' := List.countP_append

@[simp] theorem registerParts_singleton (vt : MVT) :
    registerParts [vt] = if vt.inRegister then 1 else 0 := by
  simp [registerParts, List.countP_cons]

theorem registerParts_le (vts : List MVT) : registerParts vts ≤ vts.length := List.countP_le_length

theorem registerParts_take_succ {vts : List MVT} {i : ℕ} {vt : MVT} (h : vts[i]? = some vt) :
    registerParts (vts.take (i + 1)) =
      registerParts (vts.take i) + if vt.inRegister then 1 else 0 := by
  rw [List.take_add_one, h, Option.toList_some, registerParts_append, registerParts_singleton]

theorem registerParts_take_bounds (vts : List MVT) {i j : ℕ} (hij : i ≤ j) :
    registerParts (vts.take i) ≤ registerParts (vts.take j) ∧
      registerParts (vts.take j) ≤ registerParts (vts.take i) + (j - i) := by
  have hsplit : vts.take j = vts.take i ++ (vts.drop i).take (j - i) := by
    rw [← List.take_add, Nat.add_sub_cancel' hij]
  have hle := registerParts_le ((vts.drop i).take (j - i))
  rw [List.length_take] at hle
  rw [hsplit, registerParts_append]
  omega

/-! ### The analysis in closed form -/

theorem analyze_append (fn : CCAssignFn) (vts rest : List MVT) (valNo : ℕ) (S : CCState) :
    S.analyze fn valNo (vts ++ rest) =
      match S.analyze fn valNo vts with
      | .error e => .error e
      | .ok S' => S'.analyze fn (valNo + vts.length) rest := by
  induction vts generalizing valNo S with
  | nil => rfl
  | cons vt vts ih =>
    rw [List.cons_append, CCState.analyze, CCState.analyze]
    cases fn valNo vt S with
    | none => rfl
    | some S' =>
      simp only [ih, List.length_cons, Nat.add_assoc, Nat.add_comm 1]

theorem argumentAssign_append {vts : List MVT} {i : ℕ} (hi : i ≤ vts.length) (rest : List MVT)
    (vt : MVT) : argumentAssign (vts ++ rest) i vt = argumentAssign vts i vt := by
  rw [argumentAssign, argumentAssign, argumentLoc, argumentLoc, List.take_append_of_le_length hi]

theorem argumentState_locs_concat (vts : List MVT) (vt : MVT) :
    (argumentState (vts ++ [vt])).locs =
      (argumentState vts).locs ++ [argumentAssign vts vts.length vt] := by
  simp only [argumentState, List.zipIdx_append, List.map_append, Nat.zero_add]
  congr 1
  · apply List.map_congr_left
    rintro ⟨vt', i⟩ hi
    have hlt := (List.mem_zipIdx hi).2.1
    exact argumentAssign_append (by omega) [vt] vt'
  · simp only [List.zipIdx_singleton, List.map_cons, List.map_nil]
    rw [argumentAssign_append (Nat.le_refl _)]

theorem CCAssignToReg_argumentState (vts : List MVT) (valNo : ℕ) (valVT locVT : MVT) :
    CCAssignToReg argumentRegs valNo valVT locVT (argumentState vts) =
      argumentRegs[registerParts vts]?.map fun r =>
        ⟨argumentRegs.take (registerParts vts + 1), (argumentState vts).stackOffset,
          (argumentState vts).locs ++ [⟨valNo, valVT, locVT, .reg r⟩]⟩ := by
  have hfind := find?_notMem_take argumentRegs_nodup (registerParts vts)
  rw [CCAssignToReg, CCState.allocateReg, argumentState, hfind]
  cases hk : argumentRegs[registerParts vts]? with
  | none => rfl
  | some r =>
    simp only [Option.map_some, CCState.addLoc, List.take_add_one, hk, Option.toList_some]

theorem CCAssignToStack_argumentState (vts : List MVT) (valNo : ℕ) (valVT locVT : MVT) :
    CCAssignToStack 8 8 valNo valVT locVT (argumentState vts) =
      ⟨(argumentState vts).used, (argumentState vts).stackOffset + 8, (argumentState vts).locs ++
        [⟨valNo, valVT, locVT, .mem (argumentState vts).stackOffset⟩]⟩ := by
  have halign : ((argumentState vts).stackOffset + 8 - 1) / 8 * 8 =
      (argumentState vts).stackOffset := by
    show (8 * _ + 8 - 1) / 8 * 8 = 8 * _
    omega
  simp only [CCAssignToStack, CCState.allocateStack, CCState.addLoc, halign]

/-- One part more, by the state it leaves. -/
theorem eq_argumentState_concat {vts : List MVT} {vt : MVT} {S : CCState}
    (hused : S.used = argumentRegs.take (registerParts vts + if vt.inRegister then 1 else 0))
    (hoffset : S.stackOffset =
      8 * (vts.length + 1 - min (registerParts vts + if vt.inRegister then 1 else 0) 8))
    (hlocs : S.locs = (argumentState vts).locs ++
      [⟨vts.length, vt, vt.promoted, argumentLoc vts vts.length vt⟩]) :
    S = argumentState (vts ++ [vt]) := by
  have hconcat := argumentState_locs_concat vts vt
  have hcount : registerParts (vts ++ [vt]) =
      registerParts vts + if vt.inRegister then 1 else 0 := by
    rw [registerParts_append, registerParts_singleton]
  have hlength : (vts ++ [vt]).length = vts.length + 1 := List.length_append
  rw [← hcount] at hused hoffset
  rw [← hlength] at hoffset
  cases S
  simp only at hused hoffset hlocs
  rw [hused, hoffset, hlocs]
  exact congrArg (CCState.mk _ _) hconcat.symm

theorem CC_RISCV32_argumentState (vts : List MVT) (vt : MVT) :
    CC_RISCV32 vts.length vt (argumentState vts) = some (argumentState (vts ++ [vt])) := by
  have hlen := registerParts_le vts
  have htake : vts.take vts.length = vts := List.take_length
  have hoffset : (argumentState vts).stackOffset = 8 * (vts.length - min (registerParts vts) 8) :=
    rfl
  rw [CC_RISCV32]
  change ((if vt.promoted = .i32 ∨ vt.promoted = .i64 then
    CCAssignToReg argumentRegs vts.length vt vt.promoted (argumentState vts) else none) <|>
    some (CCAssignToStack 8 8 vts.length vt vt.promoted (argumentState vts))) = _
  rw [CCAssignToReg_argumentState, CCAssignToStack_argumentState]
  by_cases hreg : vt.inRegister = true
  · have hcond : vt.promoted = .i32 ∨ vt.promoted = .i64 := of_decide_eq_true hreg
    rw [if_pos hcond]
    cases hk : argumentRegs[registerParts vts]? with
    | some r =>
      have hlt : registerParts vts < 8 := (List.getElem?_eq_some_iff.mp hk).1
      refine congrArg some (eq_argumentState_concat ?_ ?_ ?_)
      · rw [if_pos hreg]
      · rw [if_pos hreg]
        show (argumentState vts).stackOffset = _
        omega
      · rw [argumentLoc, htake, if_pos hreg, hk]
    | none =>
      have hge : 8 ≤ registerParts vts := List.getElem?_eq_none_iff.mp hk
      refine congrArg some (eq_argumentState_concat ?_ ?_ ?_)
      · rw [if_pos hreg, List.take_of_length_le (Nat.le_succ_of_le hge)]
        exact List.take_of_length_le hge
      · rw [if_pos hreg]
        show (argumentState vts).stackOffset + 8 = _
        omega
      · rw [argumentLoc, htake, if_pos hreg, hk]
        rfl
  · have hcond : ¬ (vt.promoted = .i32 ∨ vt.promoted = .i64) := fun h => hreg (decide_eq_true h)
    rw [if_neg hcond]
    refine congrArg some (eq_argumentState_concat ?_ ?_ ?_)
    · rw [if_neg hreg]
      rfl
    · rw [if_neg hreg]
      show (argumentState vts).stackOffset + 8 = _
      omega
    · rw [argumentLoc, htake, if_neg hreg]
      rfl

theorem analyze_eq_argumentState (vts : List MVT) :
    CCState.init.analyze CC_RISCV32 0 vts = .ok (argumentState vts) := by
  induction vts using List.reverseRecOn with
  | nil => rfl
  | append_singleton vts vt ih =>
    rw [analyze_append, ih]
    simp only [Nat.zero_add]
    rw [CCState.analyze, CC_RISCV32_argumentState]
    rfl

/-! ### No two parts in one place -/

def CCLoc.Disjoint : CCLoc → CCLoc → Prop
  | .reg r, .reg s => r ≠ s
  | .mem a, .mem b => a + 8 ≤ b ∨ b + 8 ≤ a
  | _, _ => True

theorem argumentLoc_reg {vts : List MVT} {i : ℕ} {vt : MVT} {r : MCPhysReg}
    (h : argumentLoc vts i vt = .reg r) :
    vt.inRegister = true ∧ argumentRegs[registerParts (vts.take i)]? = some r := by
  rw [argumentLoc] at h
  split at h
  · next hr =>
    cases h
    split at hr
    · next hreg => exact ⟨hreg, hr⟩
    · cases hr
  · cases h

theorem argumentLoc_mem {vts : List MVT} {i : ℕ} {vt : MVT} {offset : ℕ}
    (h : argumentLoc vts i vt = .mem offset) :
    offset = 8 * (i - min (registerParts (vts.take i)) 8) ∧
      (vt.inRegister = true → 8 ≤ registerParts (vts.take i)) := by
  rw [argumentLoc] at h
  split at h
  · cases h
  · next hnone =>
    cases h
    refine ⟨rfl, fun hreg => ?_⟩
    rw [if_pos hreg] at hnone
    exact List.getElem?_eq_none_iff.mp hnone

theorem argumentLoc_disjoint {vts : List MVT} {i j : ℕ} {vt vt' : MVT} (hi : vts[i]? = some vt)
    (hij : i < j) : (argumentLoc vts i vt).Disjoint (argumentLoc vts j vt') := by
  have hsucc := registerParts_take_succ hi
  have hbounds := registerParts_take_bounds vts (i := i + 1) (j := j) hij
  cases hloc : argumentLoc vts i vt with
  | reg r =>
    cases hloc' : argumentLoc vts j vt' with
    | reg s =>
      obtain ⟨hreg, hr⟩ := argumentLoc_reg hloc
      obtain ⟨-, hs⟩ := argumentLoc_reg hloc'
      rintro rfl
      -- the count of register parts has moved on in between
      have hlt : registerParts (vts.take i) < argumentRegs.length :=
        (List.getElem?_eq_some_iff.mp hr).1
      have hsame := (List.getElem?_inj hlt argumentRegs_nodup).mp (hr.trans hs.symm)
      rw [if_pos hreg] at hsucc
      omega
    | mem b => trivial
  | mem a =>
    cases hloc' : argumentLoc vts j vt' with
    | reg s => trivial
    | mem b =>
      obtain ⟨rfl, hfull⟩ := argumentLoc_mem hloc
      obtain ⟨rfl, -⟩ := argumentLoc_mem hloc'
      refine Or.inl ?_
      have hle := registerParts_le (vts.take i)
      rw [List.length_take] at hle
      by_cases hreg : vt.inRegister = true
      · have := hfull hreg
        omega
      · rw [if_neg hreg] at hsucc
        omega

theorem argumentState_getElem? (vts : List MVT) (i : ℕ) :
    (argumentState vts).locs[i]? = vts[i]?.map (argumentAssign vts i) := by
  simp only [argumentState, List.getElem?_map, List.getElem?_zipIdx, Option.map_map, Nat.zero_add]
  rfl

theorem argumentLoc_mem_bounds {vts : List MVT} {i : ℕ} {vt : MVT} {offset : ℕ}
    (hi : vts[i]? = some vt) (h : argumentLoc vts i vt = .mem offset) :
    offset % 8 = 0 ∧ offset + 8 ≤ (argumentState vts).stackOffset := by
  obtain ⟨rfl, hfull⟩ := argumentLoc_mem h
  have hlt : i < vts.length := (List.getElem?_eq_some_iff.mp hi).1
  have hsucc := registerParts_take_succ hi
  have hbounds := registerParts_take_bounds vts (i := i + 1) (j := vts.length) hlt
  rw [List.take_length] at hbounds
  have hle := registerParts_le (vts.take i)
  rw [List.length_take] at hle
  refine ⟨Nat.mul_mod_right 8 _, ?_⟩
  show 8 * _ + 8 ≤ 8 * _
  by_cases hreg : vt.inRegister = true
  · have := hfull hreg
    omega
  · rw [if_neg hreg] at hsucc
    omega

/-- Every signature is analyzed; its parts keep their numbers and get the locations the parts
before them leave, no two the same register or overlapping bytes, and the stack area holds
them all. -/
theorem analyzeFormalArguments_locations (vts : List MVT) :
    ∃ S, CCState.init.analyze CC_RISCV32 0 vts = .ok S ∧
      (∀ i : ℕ, S.locs[i]? = vts[i]?.map fun vt => ⟨i, vt, vt.promoted, argumentLoc vts i vt⟩) ∧
      S.locs.Pairwise (fun VA VA' => VA.loc.Disjoint VA'.loc) ∧
      ∀ VA ∈ S.locs, ∀ offset, VA.loc = .mem offset →
        offset % 8 = 0 ∧ offset + 8 ≤ S.stackOffset := by
  have hloc : ∀ {i : ℕ} {VA : CCValAssign}, (argumentState vts).locs[i]? = some VA →
      ∃ vt, vts[i]? = some vt ∧ VA.loc = argumentLoc vts i vt := by
    intro i VA h
    rw [argumentState_getElem?] at h
    obtain ⟨vt, hvt, rfl⟩ := Option.map_eq_some_iff.mp h
    exact ⟨vt, hvt, rfl⟩
  refine ⟨_, analyze_eq_argumentState vts, argumentState_getElem? vts, ?_, ?_⟩
  · rw [List.pairwise_iff_getElem]
    intro i j hi hj hij
    obtain ⟨vt, hvt, he⟩ := hloc (List.getElem?_eq_getElem hi)
    obtain ⟨vt', hvt', he'⟩ := hloc (List.getElem?_eq_getElem hj)
    rw [he, he']
    exact argumentLoc_disjoint hvt hij
  · intro VA hVA offset hmem
    obtain ⟨i, hi⟩ := List.mem_iff_getElem?.mp hVA
    obtain ⟨vt, hvt, he⟩ := hloc hi
    exact argumentLoc_mem_bounds hvt (he.symm.trans hmem)

example : (argumentState [.i32, .f32, .i8]).locs.map CCValAssign.loc = [.reg 10, .mem 0, .reg 11] :=
  rfl

/-! ### What the formal arguments come to -/

section Arguments
variable {χ : Type} (x : XLen) (chain : χ)

/-- The copies from fresh virtual registers, from the number `v` on. -/
def argumentCopies (v n : ℕ) : List (CopyFromReg χ) :=
  (List.range' v n).map fun vreg => ⟨chain, vreg, x.vt⟩

/-- The report a location stops at. -/
def argProblem (VA : CCValAssign) : Option String :=
  match VA.loc with
  | .mem _ => some "Defined with too many args"
  | .reg _ => if VA.locVT ≠ x.vt then some "unhandled argument type" else none

def CCValAssign.reg? (VA : CCValAssign) : Option MCPhysReg :=
  match VA.loc with
  | .reg r => some r
  | .mem _ => none

theorem lowerArgLocs_eq (locs : List CCValAssign) (RegInfo : MachineRegisterInfo) :
    lowerArgLocs x chain locs RegInfo =
      match locs.findSome? (argProblem x) with
      | some msg => .error (.fatalError msg)
      | none => .ok (⟨RegInfo.numVirtRegs + locs.length, RegInfo.liveIns ++
          (locs.filterMap CCValAssign.reg?).zip (List.range' RegInfo.numVirtRegs locs.length)⟩,
          argumentCopies x chain RegInfo.numVirtRegs locs.length) := by
  induction locs generalizing RegInfo with
  | nil =>
    simp [lowerArgLocs, argumentCopies]
  | cons VA locs ih =>
    obtain ⟨valNo, valVT, locVT, loc⟩ := VA
    cases loc with
    | mem offset => rfl
    | reg r =>
      by_cases hvt : locVT = x.vt
      · subst hvt
        have hreg : CCValAssign.reg? ⟨valNo, valVT, x.vt, .reg r⟩ = some r := rfl
        have hok : argProblem x ⟨valNo, valVT, x.vt, .reg r⟩ = none := if_neg (not_not_intro rfl)
        rw [lowerArgLocs, List.findSome?_cons, hok, List.filterMap_cons_some hreg]
        dsimp only
        rw [if_neg (not_not_intro rfl)]
        simp only [MachineRegisterInfo.createVirtualRegister, MachineRegisterInfo.addLiveIn, ih]
        cases locs.findSome? (argProblem x) with
        | some msg => rfl
        | none =>
          simp only [List.length_cons, argumentCopies, List.range'_succ, List.map_cons,
            List.zip_cons_cons, List.append_assoc, List.cons_append, List.nil_append,
            Nat.add_assoc, Nat.add_comm 1]
      · have hbad : argProblem x ⟨valNo, valVT, locVT, .reg r⟩ =
            some "unhandled argument type" := if_pos hvt
        rw [lowerArgLocs, List.findSome?_cons, hbad]
        exact if_pos hvt

variable {x}

theorem promoted_inRegister {vt : MVT} (h : vt.promoted = x.vt) : vt.inRegister = true :=
  decide_eq_true (h ▸ x.vt_i32_or_i64)

theorem registerParts_eq_length {vts : List MVT} (h : ∀ vt ∈ vts, vt.promoted = x.vt) :
    registerParts vts = vts.length :=
  List.countP_eq_length.mpr fun vt hvt => promoted_inRegister (h vt hvt)

theorem argProblem_eq_none {vts : List MVT} {i : ℕ} {vt : MVT} :
    argProblem x (argumentAssign vts i vt) = none ↔
      vt.promoted = x.vt ∧ ∃ r, argumentLoc vts i vt = .reg r := by
  rw [argProblem, argumentAssign]
  cases argumentLoc vts i vt with
  | mem offset => exact iff_of_false nofun fun h => by obtain ⟨-, r, hr⟩ := h; cases hr
  | reg r => simp

theorem findSome?_argProblem {vts : List MVT} :
    (argumentState vts).locs.findSome? (argProblem x) = none ↔
      vts.length ≤ 8 ∧ ∀ vt ∈ vts, vt.promoted = x.vt := by
  rw [List.findSome?_eq_none_iff]
  constructor
  · intro h
    have hall : ∀ vt ∈ vts, vt.promoted = x.vt := by
      intro vt hvt
      obtain ⟨i, hi⟩ := List.mem_iff_getElem?.mp hvt
      have hmem : argumentAssign vts i vt ∈ (argumentState vts).locs := by
        apply List.mem_of_getElem? (i := i)
        rw [argumentState_getElem?, hi]
        rfl
      exact (argProblem_eq_none.mp (h _ hmem)).1
    refine ⟨?_, hall⟩
    by_contra hlen
    have hlt : 8 < vts.length := by omega
    -- the ninth part is on the stack
    have hmem : argumentAssign vts 8 vts[8] ∈ (argumentState vts).locs := by
      apply List.mem_of_getElem? (i := 8)
      rw [argumentState_getElem?, List.getElem?_eq_getElem hlt]
      rfl
    obtain ⟨-, r, hr⟩ := argProblem_eq_none.mp (h _ hmem)
    have hcount : registerParts (vts.take 8) = 8 := by
      rw [registerParts_eq_length fun vt hvt => hall vt (List.mem_of_mem_take hvt),
        List.length_take_of_le hlt.le]
    have hreg := (argumentLoc_reg hr).2
    rw [hcount] at hreg
    cases hreg
  · intro h VA hVA
    obtain ⟨hlen, hall⟩ := h
    obtain ⟨i, hi⟩ := List.mem_iff_getElem?.mp hVA
    rw [argumentState_getElem?] at hi
    obtain ⟨vt, hvt, rfl⟩ := Option.map_eq_some_iff.mp hi
    have hvt' := hall vt (List.mem_of_getElem? hvt)
    have hlt : i < vts.length := (List.getElem?_eq_some_iff.mp hvt).1
    have hle := registerParts_le (vts.take i)
    rw [List.length_take] at hle
    have hlt8 : registerParts (vts.take i) < argumentRegs.length := by
      show _ < 8
      omega
    refine argProblem_eq_none.mpr ⟨hvt', argumentRegs[registerParts (vts.take i)], ?_⟩
    rw [argumentLoc, if_pos (promoted_inRegister hvt'), List.getElem?_eq_getElem hlt8]

theorem filterMap_reg? {vts : List MVT} (hlen : vts.length ≤ 8)
    (hall : ∀ vt ∈ vts, vt.promoted = x.vt) :
    (argumentState vts).locs.filterMap CCValAssign.reg? = argumentRegs.take vts.length := by
  induction vts using List.reverseRecOn with
  | nil => rfl
  | append_singleton vts vt ih =>
    rw [List.length_append, List.length_singleton] at hlen ⊢
    have hvts : ∀ vt' ∈ vts, vt'.promoted = x.vt := fun vt' h => hall vt' (by simp [h])
    have hcount : registerParts vts = vts.length := registerParts_eq_length hvts
    have hlt : vts.length < argumentRegs.length := Nat.lt_of_succ_le hlen
    have hloc : CCValAssign.reg? (argumentAssign vts vts.length vt) =
        some argumentRegs[vts.length] := by
      rw [CCValAssign.reg?, argumentAssign, argumentLoc, List.take_length, hcount,
        if_pos (promoted_inRegister (hall vt (by simp))), List.getElem?_eq_getElem hlt]
    rw [argumentState_locs_concat, List.filterMap_append, ih (by omega) hvts,
      List.filterMap_cons_some hloc, List.take_add_one, List.getElem?_eq_getElem hlt]
    rfl

theorem lowerFormalArguments_eq (Ins : List MVT) (RegInfo : MachineRegisterInfo) :
    lowerFormalArguments x chain callingConvC false Ins RegInfo =
      match (argumentState Ins).locs.findSome? (argProblem x) with
      | some msg => .error (.fatalError msg)
      | none => .ok (⟨RegInfo.numVirtRegs + Ins.length, RegInfo.liveIns ++
          (argumentRegs.take Ins.length).zip (List.range' RegInfo.numVirtRegs Ins.length)⟩,
          argumentCopies x chain RegInfo.numVirtRegs Ins.length, chain) := by
  have hlen : (argumentState Ins).locs.length = Ins.length := by simp [argumentState]
  rw [lowerFormalArguments, if_neg (not_not_intro rfl), if_neg Bool.false_ne_true,
    analyze_eq_argumentState]
  simp only [lowerArgLocs_eq, hlen]
  cases hfind : (argumentState Ins).locs.findSome? (argProblem x) with
  | some msg => rfl
  | none =>
    obtain ⟨hle, hall⟩ := findSome?_argProblem.mp hfind
    rw [filterMap_reg? hle hall]

/-- Only the C convention without variable arguments comes through. -/
theorem lowerFormalArguments_ok {CallConv : ℕ} {IsVarArg : Bool} {Ins : List MVT}
    {RegInfo : MachineRegisterInfo} {r : MachineRegisterInfo × List (CopyFromReg χ) × χ}
    (h : lowerFormalArguments x chain CallConv IsVarArg Ins RegInfo = .ok r) :
    (CallConv = callingConvC ∧ IsVarArg = false ∧ Ins.length ≤ 8 ∧
        ∀ vt ∈ Ins, vt.promoted = x.vt) ∧
      r = (⟨RegInfo.numVirtRegs + Ins.length, RegInfo.liveIns ++
          (argumentRegs.take Ins.length).zip (List.range' RegInfo.numVirtRegs Ins.length)⟩,
        argumentCopies x chain RegInfo.numVirtRegs Ins.length, chain) := by
  by_cases hconv : CallConv = callingConvC
  · subst hconv
    cases IsVarArg with
    | true => cases h
    | false =>
      rw [lowerFormalArguments_eq] at h
      cases hfind : (argumentState Ins).locs.findSome? (argProblem x) with
      | some msg =>
        rw [hfind] at h
        cases h
      | none =>
        rw [hfind] at h
        cases h
        exact ⟨⟨rfl, rfl, findSome?_argProblem.mp hfind⟩, rfl⟩
  · rw [lowerFormalArguments, if_pos hconv] at h
    cases h

theorem lowerFormalArguments_convention {CallConv : ℕ} (h : CallConv ≠ callingConvC)
    (IsVarArg : Bool) (Ins : List MVT) (RegInfo : MachineRegisterInfo) :
    lowerFormalArguments x chain CallConv IsVarArg Ins RegInfo =
      .error (.fatalError "Unsupported calling convention") := if_pos h

theorem lowerFormalArguments_varArg (Ins : List MVT) (RegInfo : MachineRegisterInfo) :
    lowerFormalArguments x chain callingConvC true Ins RegInfo =
      .error (.fatalError "VarArg not supported") := rfl

variable (x)

/-- One copy for each of the `n` arguments, from a fresh virtual register that the
matching argument register flows into; otherwise a report to the user. -/
def ArgumentsLowered (RegInfo : MachineRegisterInfo) (n : ℕ) :
    Except Failure (MachineRegisterInfo × List (CopyFromReg χ) × χ) → Prop
  | .ok (RegInfo', InVals, chain') =>
    chain' = chain ∧ n ≤ argumentRegs.length ∧ argumentRegs.Nodup ∧
      ∃ vregs : List ℕ, vregs.length = n ∧ vregs.Nodup ∧
        (∀ v ∈ vregs, RegInfo.numVirtRegs ≤ v) ∧
        RegInfo'.liveIns = RegInfo.liveIns ++ (argumentRegs.take n).zip vregs ∧
        InVals = vregs.map fun v => ⟨chain, v, x.vt⟩
  | .error (.fatalError _) => True
  | .error _ => False

variable {x}

theorem argumentsLowered (CallConv : ℕ) (IsVarArg : Bool) (Ins : List MVT)
    (RegInfo : MachineRegisterInfo) : ArgumentsLowered x chain RegInfo Ins.length
      (lowerFormalArguments x chain CallConv IsVarArg Ins RegInfo) := by
  cases hrun : lowerFormalArguments x chain CallConv IsVarArg Ins RegInfo with
  | ok r =>
    obtain ⟨⟨-, -, hle, -⟩, rfl⟩ := lowerFormalArguments_ok chain hrun
    exact ⟨rfl, hle, argumentRegs_nodup, List.range' RegInfo.numVirtRegs Ins.length,
      List.length_range', List.nodup_range', fun v hv => (List.mem_range'_1.mp hv).1, rfl, rfl⟩
  | error e =>
    by_cases hconv : CallConv = callingConvC
    · subst hconv
      cases IsVarArg with
      | true =>
        cases hrun
        trivial
      | false =>
        rw [lowerFormalArguments_eq] at hrun
        split at hrun
        · cases hrun
          trivial
        · cases hrun
    · rw [lowerFormalArguments_convention chain hconv] at hrun
      cases hrun
      trivial

/-- Every signature of whatever types is lowered or reported: another convention first, then
variable arguments, then the first part that is not passed in a register of its full width. -/
theorem lowerFormalArguments_outcome (CallConv : ℕ) (IsVarArg : Bool) (Ins : List MVT)
    (RegInfo : MachineRegisterInfo) :
    ArgumentsLowered x chain RegInfo Ins.length
        (lowerFormalArguments x chain CallConv IsVarArg Ins RegInfo) ∧
      ((∃ r, lowerFormalArguments x chain CallConv IsVarArg Ins RegInfo = .ok r) ↔
        CallConv = callingConvC ∧ IsVarArg = false ∧ Ins.length ≤ 8 ∧
          ∀ vt ∈ Ins, vt.promoted = x.vt) ∧
      (CallConv ≠ callingConvC → lowerFormalArguments x chain CallConv IsVarArg Ins RegInfo =
        .error (.fatalError "Unsupported calling convention")) ∧
      (CallConv = callingConvC → IsVarArg = true →
        lowerFormalArguments x chain CallConv IsVarArg Ins RegInfo =
          .error (.fatalError "VarArg not supported")) ∧
      (CallConv = callingConvC → IsVarArg = false → ∀ msg,
        lowerFormalArguments x chain CallConv IsVarArg Ins RegInfo = .error (.fatalError msg) ↔
          (argumentState Ins).locs.findSome? (argProblem x) = some msg) := by
  refine ⟨argumentsLowered chain CallConv IsVarArg Ins RegInfo, ⟨?_, ?_⟩,
    fun hconv => lowerFormalArguments_convention chain hconv IsVarArg Ins RegInfo, ?_, ?_⟩
  · rintro ⟨r, hr⟩
    exact (lowerFormalArguments_ok chain hr).1
  · rintro ⟨hconv, hvar, hle, hall⟩
    subst hconv hvar
    rw [lowerFormalArguments_eq, findSome?_argProblem.mpr ⟨hle, hall⟩]
    exact ⟨_, rfl⟩
  · intro hconv hvar
    subst hconv hvar
    exact lowerFormalArguments_varArg chain Ins RegInfo
  · intro hconv hvar msg
    subst hconv hvar
    rw [lowerFormalArguments_eq]
    cases (argumentState Ins).locs.findSome? (argProblem x) with
    | some msg' => simp
    | none => simp

end Arguments

/-! ### Signatures of words -/

section Signatures
variable {χ ν : Type} (x : XLen) (chain : χ)

/-- All parts copied and listed, each once and in order; otherwise a report to the user. -/
def ReturnLowered (Outs : List (OutputPart ν)) : Except Failure (RetFlag χ ν) → Prop
  | .ok Ret =>
    Outs.length ≤ returnRegs.length ∧ ReturnCopies returnRegs x.vt chain Outs Outs.length Ret
  | .error (.fatalError _) => True
  | .error _ => False

theorem signatureLowered_iff (RegInfo : MachineRegisterInfo) (Ins : List MVT)
    {Outs : List (OutputPart ν)} (hOuts : ∀ Out ∈ Outs, Out.vt = x.vt) :
    ArgumentsLowered x chain RegInfo Ins.length
        (lowerFormalArguments x chain callingConvC false Ins RegInfo) ∧
      ReturnLowered x chain Outs (lowerReturn chain false Outs) ↔ Outs.length ≤ 2 := by
  rw [and_iff_right (argumentsLowered chain callingConvC false Ins RegInfo)]
  rcases Nat.lt_or_ge returnRegs.length Outs.length with hlt | hle
  · rw [lowerReturn_unreachable x chain hOuts hlt]
    exact iff_of_false id (Nat.not_le_of_lt hlt)
  · obtain ⟨Ret, hRet, hcopies⟩ := lowerReturn_regs x chain hOuts hle
    rw [hRet]
    exact iff_of_true ⟨hle, hcopies⟩ hle

end Signatures

/-- An `i32` comes in and an `i64` goes back in two parts. -/
theorem signatureLowered_iff_pair :
    ArgumentsLowered .rv32 () ⟨0, []⟩ 1
        (lowerFormalArguments .rv32 () callingConvC false [.i32] ⟨0, []⟩) ∧
      ReturnLowered .rv32 () [⟨.i32, 7⟩, ⟨.i32, 8⟩]
        (lowerReturn () false [⟨.i32, 7⟩, ⟨.i32, (8 : ℕ)⟩]) :=
  (signatureLowered_iff .rv32 () ⟨0, []⟩ [.i32] (by decide)).mpr (by decide)

/-- A structure of three words to return. -/
theorem signature_threeParts :
    ¬ (ArgumentsLowered .rv32 () ⟨0, []⟩ 0
        (lowerFormalArguments .rv32 () callingConvC false [] ⟨0, []⟩) ∧
      ReturnLowered .rv32 () [⟨.i32, 7⟩, ⟨.i32, 8⟩, ⟨.i32, 9⟩]
        (lowerReturn () false [⟨.i32, 7⟩, ⟨.i32, 8⟩, ⟨.i32, (9 : ℕ)⟩])) :=
  fun h => h.2

end ToyRiscv
