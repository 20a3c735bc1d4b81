import ToyRiscv.Lib.ByteMemory

/-!
# DAG expressions and chains

The selection DAG nodes of type `XLenVT` that the patterns of TOYRISCVInstrInfo.td
are written in. A node whose value is not fixed (the upper bits of an any-extending
load, a shift by `w` or more) may have any of the values it admits.
-/

namespace ToyRiscv
open Lib.ByteMemory

inductive DagOp where
  | add
  | sub
  | and
  | or
  | xor
  | shl
  | srl
  | setlt
  | setult
  deriving DecidableEq, Repr

inductive LoadFrag where
  | load
  | sextloadi8
  | zextloadi8
  | extloadi8
  | sextloadi16
  | zextloadi16
  | extloadi16
  deriving DecidableEq, Repr

inductive StoreFrag where
  | store
  | truncstorei8
  | truncstorei16
  deriving DecidableEq, Repr

inductive DagExpr (w : ℕ) where
  | arg (x : ℕ)
  | const (c : BitVec w)
  | bin (op : DagOp) (a b : DagExpr w)
  | load (frag : LoadFrag) (addr : DagExpr w)
  deriving DecidableEq, Repr

/-- The nodes on the chain: a store, or a value that later nodes use under the
name `x` (a load that hangs on the chain here, or a shared node). -/
inductive ChainNode (w : ℕ) where
  | bind (x : ℕ) (e : DagExpr w)
  | store (frag : StoreFrag) (value addr : DagExpr w)
  deriving DecidableEq, Repr

variable {w : ℕ}

def DagOp.Means (a b v : BitVec w) : DagOp → Prop
  | .add => v = a + b
  | .sub => v = a - b
  | .and => v = a &&& b
  | .or => v = a ||| b
  | .xor => v = a ^^^ b
  | .shl => b.toNat < w → v = a <<< b.toNat
  | .srl => b.toNat < w → v = a >>> b.toNat
  | .setlt => v = if a.slt b then 1#w else 0#w
  | .setult => v = if a.ult b then 1#w else 0#w

def LoadFrag.Means (m : Mem w) (a v : BitVec w) : LoadFrag → Prop
  | .load => v = (readBytes m a (w / 8)).setWidth w
  | .sextloadi8 => v = (readBytes m a 1).signExtend w
  | .zextloadi8 => v = (readBytes m a 1).setWidth w
  | .extloadi8 => v.setWidth (8 * 1) = readBytes m a 1
  | .sextloadi16 => v = (readBytes m a 2).signExtend w
  | .zextloadi16 => v = (readBytes m a 2).setWidth w
  | .extloadi16 => v.setWidth (8 * 2) = readBytes m a 2

def StoreFrag.bytes (w : ℕ) : StoreFrag → ℕ
  | .store => w / 8
  | .truncstorei8 => 1
  | .truncstorei16 => 2

def DagExpr.Means (env : ℕ → BitVec w) (m : Mem w) : DagExpr w → BitVec w → Prop
  | .arg x, v => v = env x
  | .const c, v => v = c
  | .bin op a b, v => ∃ va vb, a.Means env m va ∧ b.Means env m vb ∧ op.Means va vb v
  | .load frag addr, v => ∃ a, addr.Means env m a ∧ frag.Means m a v

structure ChainState (w : ℕ) where
  env : ℕ → BitVec w
  mem : Mem w

def ChainNode.Means (s : ChainState w) : ChainNode w → ChainState w → Prop
  | .bind x e, t => ∃ v, e.Means s.env s.mem v ∧ t = ⟨Function.update s.env x v, s.mem⟩
  | .store frag value addr, t => ∃ v a, value.Means s.env s.mem v ∧ addr.Means s.env s.mem a ∧
      t = ⟨s.env, writeBytes s.mem a v (frag.bytes w)⟩

def ChainMeans : List (ChainNode w) → ChainState w → ChainState w → Prop
  | [], s, t => t = s
  | node :: chain, s, t => ∃ u, node.Means s u ∧ ChainMeans chain u t

/-- The operations whose patterns also match with the operands exchanged. -/
def DagOp.commutative : DagOp → Bool
  | .add | .and | .or | .xor => true
  | _ => false

theorem DagOp.Means.comm {op : DagOp} (hop : op.commutative = true) {a b v : BitVec w}
    (h : op.Means a b v) : op.Means b a v := by
  cases op <;> simp only [commutative, Bool.false_eq_true] at hop
  · exact h.trans (BitVec.add_comm a b)
  · exact h.trans (BitVec.and_comm a b)
  · exact h.trans (BitVec.or_comm a b)
  · exact h.trans (BitVec.xor_comm a b)

end ToyRiscv
