import ToyRiscv.CondCode
import ToyRiscv.Lib.Positions

/-!
# Calling conventions

`RetCC_RISCV32` and `CC_RISCV32` (TOYRISCVCallingConv.td:2-15) and the analysis that
offers them the parts of a signature in order; a part that gets no location is
`llvm_unreachable` there.
-/

namespace ToyRiscv
open Lib.Positions

inductive MVT where
  | i1
  | i8
  | i16
  | i32
  | i64
  | f32
  | f64
  deriving DecidableEq, Repr

/-- `Subtarget.getXLenVT()`. -/
def XLen.vt : XLen → MVT
  | .rv32 => .i32
  | .rv64 => .i64

/-- How a lowering can stop short. -/
inductive Failure where
  | fatalError (msg : String)
  | unreachable
  | assertion (msg : String)
  deriving DecidableEq, Repr

abbrev MCPhysReg := Fin 32

/-- `A0` to `A7`. -/
def argumentRegs : List MCPhysReg := [10, 11, 12, 13, 14, 15, 16, 17]

/-- `A0` and `A1`. -/
def returnRegs : List MCPhysReg := [10, 11]

/-! ### Conventions -/

inductive CCLoc where
  | reg (r : MCPhysReg)
  | mem (offset : ℕ)
  deriving DecidableEq, Repr

structure CCValAssign where
  valNo : ℕ
  valVT : MVT
  locVT : MVT
  loc : CCLoc
  deriving DecidableEq, Repr

structure CCState where
  used : List MCPhysReg
  stackOffset : ℕ
  locs : List CCValAssign
  deriving DecidableEq, Repr

def CCState.init : CCState := ⟨[], 0, []⟩

def CCState.allocateReg (S : CCState) (regs : List MCPhysReg) : Option (MCPhysReg × CCState) :=
  (regs.find? fun r => decide (r ∉ S.used)).map fun r => (r, { S with used := S.used ++ [r] })

def CCState.allocateStack (S : CCState) (size align : ℕ) : ℕ × CCState :=
  let offset := (S.stackOffset + align - 1) / align * align
  (offset, { S with stackOffset := offset + size })

def CCState.addLoc (S : CCState) (VA : CCValAssign) : CCState := { S with locs := S.locs ++ [VA] }

/-- `none` where the convention has no location for the value. -/
abbrev CCAssignFn := ℕ → MVT → CCState → Option CCState

def CCAssignToReg (regs : List MCPhysReg) (valNo : ℕ) (valVT locVT : MVT) (S : CCState) :
    Option CCState :=
  (S.allocateReg regs).map fun (r, S) => S.addLoc ⟨valNo, valVT, locVT, .reg r⟩

def CCAssignToStack (size align : ℕ) (valNo : ℕ) (valVT locVT : MVT) (S : CCState) : CCState :=
  let (offset, S) := S.allocateStack size align
  S.addLoc ⟨valNo, valVT, locVT, .mem offset⟩

def RetCC_RISCV32 : CCAssignFn := fun valNo valVT S =>
  if valVT = .i32 ∨ valVT = .i64 then CCAssignToReg returnRegs valNo valVT valVT S else none

def CC_RISCV32 : CCAssignFn := fun valNo valVT S =>
  let locVT := if valVT = .i8 ∨ valVT = .i16 then .i32 else valVT
  let inReg := if locVT = .i32 ∨ locVT = .i64 then
    CCAssignToReg argumentRegs valNo valVT locVT S else none
  inReg <|> some (CCAssignToStack 8 8 valNo valVT locVT S)

/-- `AnalyzeFormalArguments` and `AnalyzeReturn`, from the part number `valNo` on. -/
def CCState.analyze (fn : CCAssignFn) (valNo : ℕ) : List MVT → CCState → Except Failure CCState
  | [], S => .ok S
  | vt :: vts, S =>
    match fn valNo vt S with
    | none => .error .unreachable
    | some S' => S'.analyze fn (valNo + 1) vts

/-! ### Registers in order -/

/-- The state once `k` parts of the type `vt` have got the first `k` registers. -/
def regState (regs : List MCPhysReg) (vt : MVT) (k : ℕ) : CCState where
  used := regs.take k
  stackOffset := 0
  locs := (regs.take k).zipIdx.map fun (r, i) => ⟨i, vt, vt, .reg r⟩

theorem regState_succ {regs : List MCPhysReg} {k : ℕ} {r : MCPhysReg} (hk : regs[k]? = some r)
    (vt : MVT) :
    regState regs vt (k + 1) =
      ⟨regs.take k ++ [r], 0, (regState regs vt k).locs ++ [⟨k, vt, vt, .reg r⟩]⟩ := by
  have hlt : k < regs.length := (List.getElem?_eq_some_iff.mp hk).1
  have hlen : (regs.take k).length = k := List.length_take_of_le hlt.le
  simp only [regState, List.take_add_one, hk, Option.toList_some, List.zipIdx_append, hlen,
    Nat.zero_add, List.map_append]
  rfl

theorem CCAssignToReg_regState {regs : List MCPhysReg} (hregs : regs.Nodup) (vt : MVT) (k : ℕ) :
    CCAssignToReg regs k vt vt (regState regs vt k) =
      regs[k]?.map fun _ => regState regs vt (k + 1) := by
  have hfind := find?_notMem_take hregs k
  rw [CCAssignToReg, CCState.allocateReg, regState, hfind]
  cases hk : regs[k]? with
  | none => rfl
  | some r =>
    rw [Option.map_some, regState_succ hk]
    rfl

theorem analyze_regState {fn : CCAssignFn} {regs : List MCPhysReg} {vt : MVT}
    (hfn : ∀ k < regs.length, fn k vt (regState regs vt k) = some (regState regs vt (k + 1)))
    (rest : List MVT) (n : ℕ) {k : ℕ} (hle : k + n ≤ regs.length) :
    (regState regs vt k).analyze fn k (List.replicate n vt ++ rest) =
      (regState regs vt (k + n)).analyze fn (k + n) rest := by
  induction n generalizing k with
  | zero => rfl
  | succ n ih =>
    rw [List.replicate_succ, List.cons_append, CCState.analyze, hfn k (by omega)]
    have hnext := ih (k := k + 1) (by omega)
    rw [Nat.add_right_comm k 1 n] at hnext
    exact hnext

theorem analyze_init {fn : CCAssignFn} {regs : List MCPhysReg} {vt : MVT}
    (hfn : ∀ k < regs.length, fn k vt (regState regs vt k) = some (regState regs vt (k + 1)))
    (rest : List MVT) {n : ℕ} (hle : n ≤ regs.length) :
    CCState.init.analyze fn 0 (List.replicate n vt ++ rest) =
      (regState regs vt n).analyze fn n rest := by
  have hregs := analyze_regState hfn rest n (k := 0) (by omega)
  rw [Nat.zero_add] at hregs
  exact hregs

theorem XLen.vt_i32_or_i64 (x : XLen) : x.vt = .i32 ∨ x.vt = .i64 := by
  cases x with
  | rv32 => exact Or.inl rfl
  | rv64 => exact Or.inr rfl

theorem argumentRegs_nodup : argumentRegs.Nodup := by decide

theorem returnRegs_nodup : returnRegs.Nodup := by decide

/-! ### Return values -/

theorem RetCC_RISCV32_regState (x : XLen) (k : ℕ) :
    RetCC_RISCV32 k x.vt (regState returnRegs x.vt k) =
      returnRegs[k]?.map fun _ => regState returnRegs x.vt (k + 1) := by
  rw [RetCC_RISCV32, if_pos x.vt_i32_or_i64, CCAssignToReg_regState returnRegs_nodup]

theorem analyze_returns (x : XLen) (rest : List MVT) {n : ℕ} (hle : n ≤ returnRegs.length) :
    CCState.init.analyze RetCC_RISCV32 0 (List.replicate n x.vt ++ rest) =
      (regState returnRegs x.vt n).analyze RetCC_RISCV32 n rest := by
  apply analyze_init _ rest hle
  intro k hk
  rw [RetCC_RISCV32_regState, List.getElem?_eq_getElem hk]
  rfl

theorem analyze_returns_unreachable (x : XLen) (n : ℕ) :
    CCState.init.analyze RetCC_RISCV32 0 (List.replicate (returnRegs.length + (n + 1)) x.vt) =
      .error .unreachable := by
  rw [List.replicate_add, analyze_returns x _ le_rfl, List.replicate_succ, CCState.analyze,
    RetCC_RISCV32_regState]
  rfl

end ToyRiscv
