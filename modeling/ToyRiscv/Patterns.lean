import ToyRiscv.Dag
import ToyRiscv.Immediates

/-!
# Selection patterns

The `Pat` definitions of TOYRISCVInstrInfo.td:140-319 over the DAG, and every way
of covering expressions and chains with them. Each selected instruction defines a
fresh register; `n` counts the registers in use.
-/

namespace ToyRiscv

def patGprGpr : List (DagOp × AluOp) :=
  [(.add, .add), (.sub, .sub), (.and, .and), (.or, .or), (.xor, .xor), (.shl, .sll), (.srl, .srl),
    (.setlt, .slt), (.setult, .sltu)]

def patGprSimm12 : List (DagOp × AluImmOp) :=
  [(.add, .addi), (.and, .andi), (.or, .ori), (.xor, .xori), (.setlt, .slti), (.setult, .sltiu)]

def ldPat : List (LoadFrag × LoadOp) :=
  [(.sextloadi8, .lb), (.extloadi8, .lb), (.sextloadi16, .lh), (.extloadi16, .lh), (.load, .lw),
    (.zextloadi8, .lbu), (.zextloadi16, .lhu)]

def stPat : List (StoreFrag × StoreOp) :=
  [(.truncstorei8, .sb), (.truncstorei16, .sh), (.store, .sw)]

variable {w : ℕ}

/-- `(op GPR:$rs1, simm12:$imm12)` matches `op a b`. -/
inductive MatchesSimm12 (op : DagOp) : DagExpr w → DagExpr w → DagExpr w → ℤ → Prop
  | right (a : DagExpr w) (c : BitVec w) (hc : isInt 12 c.toInt) :
      MatchesSimm12 op a (.const c) a c.toInt
  | left (hop : op.commutative = true) (a : DagExpr w) (c : BitVec w) (hc : isInt 12 c.toInt) :
      MatchesSimm12 op (.const c) a a c.toInt

/-- The two address forms of `LdPat` and `StPat`. -/
inductive MatchesAddress : DagExpr w → DagExpr w → ℤ → Prop
  | base (a : DagExpr w) : MatchesAddress a a 0
  | simm12 {a b rs1 : DagExpr w} {imm12 : ℤ} (h : MatchesSimm12 .add a b rs1 imm12) :
      MatchesAddress (.bin .add a b) rs1 imm12

/-- `Selects vregs n e code r n'`: a cover of `e`, with the arguments in `vregs`,
emits `code`, which takes the registers `n .. n' - 1` and leaves the value in `r`. -/
inductive Selects (vregs : ℕ → ℕ) :
    ℕ → DagExpr w → List (Inst ℕ) → ℕ → ℕ → Prop
  | arg (n x : ℕ) : Selects vregs n (.arg x) [] (vregs x) n
  | simm12 (n : ℕ) (c : BitVec w) (hc : isInt 12 c.toInt) :
      Selects vregs n (.const c) [.ri .addi n 0 c.toInt] n (n + 1)
  | simm32 (n : ℕ) (c : BitVec w) (hc : isInt 32 c.toInt) :
      Selects vregs n (.const c) (materialize c n (n + 1)) (n + 1) (n + 2)
  | gprGpr {n n₁ n₂ : ℕ} {op : DagOp} {inst : AluOp} {a b : DagExpr w} {ca cb : List (Inst ℕ)}
      {ra rb : ℕ} (hpat : (op, inst) ∈ patGprGpr) (ha : Selects vregs n a ca ra n₁)
      (hb : Selects vregs n₁ b cb rb n₂) :
      Selects vregs n (.bin op a b) (ca ++ cb ++ [.rr inst n₂ ra rb]) n₂ (n₂ + 1)
  | gprSimm12 {n n₁ : ℕ} {op : DagOp} {inst : AluImmOp} {a b rs1 : DagExpr w} {imm12 : ℤ}
      {c : List (Inst ℕ)} {r : ℕ} (hpat : (op, inst) ∈ patGprSimm12)
      (himm : MatchesSimm12 op a b rs1 imm12) (h : Selects vregs n rs1 c r n₁) :
      Selects vregs n (.bin op a b) (c ++ [.ri inst n₁ r imm12]) n₁ (n₁ + 1)
  | load {n n₁ : ℕ} {frag : LoadFrag} {inst : LoadOp} {addr rs1 : DagExpr w} {imm12 : ℤ}
      {c : List (Inst ℕ)} {r : ℕ} (hpat : (frag, inst) ∈ ldPat)
      (haddr : MatchesAddress addr rs1 imm12) (h : Selects vregs n rs1 c r n₁) :
      Selects vregs n (.load frag addr) (c ++ [.load inst n₁ r imm12]) n₁ (n₁ + 1)

/-- A cover of a chain; `vregs'` holds the nodes bound on the way. -/
inductive SelectsChain : (ℕ → ℕ) → ℕ → List (ChainNode w) → List (Inst ℕ) →
    (ℕ → ℕ) → ℕ → Prop
  | nil (vregs : ℕ → ℕ) (n : ℕ) : SelectsChain vregs n [] [] vregs n
  | bind {vregs vregs' : ℕ → ℕ} {n n₁ n' x : ℕ} {e : DagExpr w} {c d : List (Inst ℕ)}
      {r : ℕ} {chain : List (ChainNode w)} (he : Selects vregs n e c r n₁)
      (h : SelectsChain (Function.update vregs x r) n₁ chain d vregs' n') :
      SelectsChain vregs n (.bind x e :: chain) (c ++ d) vregs' n'
  | store {vregs vregs' : ℕ → ℕ} {n n₁ n₂ n' : ℕ} {frag : StoreFrag} {inst : StoreOp}
      {value addr rs1 : DagExpr w} {imm12 : ℤ} {cv ca d : List (Inst ℕ)} {rv ra : ℕ}
      {chain : List (ChainNode w)} (hpat : (frag, inst) ∈ stPat)
      (haddr : MatchesAddress addr rs1 imm12) (hv : Selects vregs n value cv rv n₁)
      (ha : Selects vregs n₁ rs1 ca ra n₂) (h : SelectsChain vregs n₂ chain d vregs' n') :
      SelectsChain vregs n (.store frag value addr :: chain)
        (cv ++ ca ++ .store inst rv ra imm12 :: d) vregs' n'

end ToyRiscv
