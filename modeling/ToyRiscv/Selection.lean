import ToyRiscv.Patterns

/-!
# Covers and their registers

What the patterns make of single operations, and what every cover keeps: its
immediates fit, its registers are fresh, and the code of an expression leaves the
registers in use and the memory as they were.
-/

namespace ToyRiscv
open Lib.ByteMemory

variable {w : ℕ}

/-! ### The tables -/

theorem patGprGpr_means {op : DagOp} {inst : AluOp} (hpat : (op, inst) ∈ patGprGpr)
    (a b : BitVec w) : op.Means a b (inst.value a b) := by
  have hshift : b.toNat < w → b.toNat % w = b.toNat := Nat.mod_eq_of_lt
  simp only [patGprGpr, List.mem_cons, Prod.mk.injEq, List.not_mem_nil, or_false] at hpat
  rcases hpat with ⟨rfl, rfl⟩ | ⟨rfl, rfl⟩ | ⟨rfl, rfl⟩ | ⟨rfl, rfl⟩ | ⟨rfl, rfl⟩ | ⟨rfl, rfl⟩ |
    ⟨rfl, rfl⟩ | ⟨rfl, rfl⟩ | ⟨rfl, rfl⟩
  case inr.inr.inr.inr.inr.inl => exact fun hb => by rw [AluOp.value, hshift hb]
  case inr.inr.inr.inr.inr.inr.inl => exact fun hb => by rw [AluOp.value, hshift hb]
  all_goals rfl

theorem patGprSimm12_means {op : DagOp} {inst : AluImmOp} (hpat : (op, inst) ∈ patGprSimm12)
    (a b : BitVec w) : op.Means a b (inst.value a b) := by
  simp only [patGprSimm12, List.mem_cons, Prod.mk.injEq, List.not_mem_nil, or_false] at hpat
  rcases hpat with ⟨rfl, rfl⟩ | ⟨rfl, rfl⟩ | ⟨rfl, rfl⟩ | ⟨rfl, rfl⟩ | ⟨rfl, rfl⟩ | ⟨rfl, rfl⟩ <;>
    rfl

theorem setWidth_signExtend {n : ℕ} (h : n ≤ w) (x : BitVec n) :
    (x.signExtend w).setWidth n = x := by
  rw [BitVec.signExtend, setWidth_ofInt h, BitVec.ofInt_toInt]

theorem exists_pattern {α β : Type} {x : α} {table : List (α × β)}
    (h : x ∈ table.map Prod.fst) : ∃ y, (x, y) ∈ table := by
  simpa using h

theorem exists_patGprGpr (op : DagOp) : ∃ inst, (op, inst) ∈ patGprGpr :=
  exists_pattern (by cases op <;> decide)

theorem exists_ldPat (frag : LoadFrag) : ∃ inst, (frag, inst) ∈ ldPat :=
  exists_pattern (by cases frag <;> decide)

theorem exists_stPat (frag : StoreFrag) : ∃ inst, (frag, inst) ∈ stPat :=
  exists_pattern (by cases frag <;> decide)

/-! ### Immediate operands -/

theorem MatchesSimm12.fits {op : DagOp} {a b rs1 : DagExpr w} {imm12 : ℤ}
    (h : MatchesSimm12 op a b rs1 imm12) : isInt 12 imm12 := by
  cases h <;> assumption

theorem MatchesAddress.fits {addr rs1 : DagExpr w} {imm12 : ℤ}
    (h : MatchesAddress addr rs1 imm12) : isInt 12 imm12 := by
  cases h with
  | base => decide
  | simm12 h => exact h.fits

theorem Selects.fits (hw : 32 ≤ w) (hw64 : w ≤ 64) {vregs : ℕ → ℕ} {n n' : ℕ}
    {e : DagExpr w} {code : List (Inst ℕ)} {r : ℕ}
    (h : Selects vregs n e code r n') : ∀ I ∈ code, I.Fits := by
  induction h with
  | arg n x => exact List.forall_mem_nil _
  | simm12 n c hc => exact List.forall_mem_singleton.mpr hc
  | simm32 n c hc => exact materialize_fits hw hw64 c n (n + 1)
  | gprGpr hpat ha hb iha ihb =>
    exact List.forall_mem_append.mpr
      ⟨List.forall_mem_append.mpr ⟨iha, ihb⟩, List.forall_mem_singleton.mpr trivial⟩
  | gprSimm12 hpat himm h ih =>
    exact List.forall_mem_append.mpr ⟨ih, List.forall_mem_singleton.mpr himm.fits⟩
  | load hpat haddr h ih =>
    exact List.forall_mem_append.mpr ⟨ih, List.forall_mem_singleton.mpr haddr.fits⟩

theorem SelectsChain.fits (hw : 32 ≤ w) (hw64 : w ≤ 64) {vregs vregs' : ℕ → ℕ} {n n' : ℕ}
    {chain : List (ChainNode w)} {code : List (Inst ℕ)}
    (h : SelectsChain vregs n chain code vregs' n') : ∀ I ∈ code, I.Fits := by
  induction h with
  | nil => exact List.forall_mem_nil _
  | bind he h ih => exact List.forall_mem_append.mpr ⟨he.fits hw hw64, ih⟩
  | store hpat haddr hv ha h ih =>
    exact List.forall_mem_append.mpr ⟨List.forall_mem_append.mpr ⟨hv.fits hw hw64, ha.fits hw hw64⟩,
      List.forall_mem_cons.mpr ⟨haddr.fits, ih⟩⟩

/-! ### Fresh registers -/

structure FreshFrom (vregs : ℕ → ℕ) (n : ℕ) : Prop where
  pos : 0 < n
  args : ∀ x, vregs x < n

theorem FreshFrom.mono {vregs : ℕ → ℕ} {n n' : ℕ} (h : FreshFrom vregs n) (hn : n ≤ n') :
    FreshFrom vregs n' :=
  ⟨Nat.lt_of_lt_of_le h.pos hn, fun x => Nat.lt_of_lt_of_le (h.args x) hn⟩

theorem FreshFrom.update {vregs : ℕ → ℕ} {n n' r : ℕ} (hf : FreshFrom vregs n) (hn : n ≤ n')
    (hr : r < n') (x : ℕ) : FreshFrom (Function.update vregs x r) n' := by
  refine ⟨Nat.lt_of_lt_of_le hf.pos hn, fun y => ?_⟩
  by_cases hy : y = x
  · rw [hy, Function.update_self]
    exact hr
  · rw [Function.update_of_ne hy]
    exact (hf.mono hn).args y

theorem Selects.bounds {vregs : ℕ → ℕ} {n n' : ℕ} {e : DagExpr w}
    {code : List (Inst ℕ)} {r : ℕ} (h : Selects vregs n e code r n')
    (hf : FreshFrom vregs n) : n ≤ n' ∧ r < n' := by
  induction h with
  | arg n x => exact ⟨Nat.le_refl n, hf.args x⟩
  | simm12 n c hc => omega
  | simm32 n c hc => omega
  | gprGpr hpat ha hb iha ihb =>
    have ha := iha hf
    have hb := ihb (hf.mono ha.1)
    omega
  | gprSimm12 hpat himm h ih =>
    have h := ih hf
    omega
  | load hpat haddr h ih =>
    have h := ih hf
    omega

/-! ### What the code leaves alone -/

/-- The registers below `n` and the memory are as they were. -/
structure Keeps (n : ℕ) (s t : ArchState ℕ w) : Prop where
  below : ∀ q < n, t.get q = s.get q
  mem : t.mem = s.mem

theorem Keeps.refl (n : ℕ) (s : ArchState ℕ w) : Keeps n s s := ⟨fun _ _ => rfl, rfl⟩

theorem Keeps.trans {n n' : ℕ} {s t u : ArchState ℕ w} (h : Keeps n s t) (h' : Keeps n' t u)
    (hn : n ≤ n') : Keeps n s u where
  below q hq := (h'.below q (Nat.lt_of_lt_of_le hq hn)).trans (h.below q hq)
  mem := h'.mem.trans h.mem

theorem Keeps.set {n rd : ℕ} (hrd : n ≤ rd) (v : BitVec w) (s : ArchState ℕ w) :
    Keeps n s (s.set rd v).next where
  below q hq := by
    have hne : q ≠ rd := by omega
    rw [get_next, get_set_of_ne _ hne]
  mem := rfl

theorem Keeps.args {n : ℕ} {s t : ArchState ℕ w} (h : Keeps n s t) {vregs : ℕ → ℕ}
    (hf : FreshFrom vregs n) : (fun x => t.get (vregs x)) = fun x => s.get (vregs x) :=
  funext fun x => h.below (vregs x) (hf.args x)

theorem Selects.keeps {vregs : ℕ → ℕ} {n n' : ℕ} {e : DagExpr w} {code : List (Inst ℕ)} {r : ℕ}
    (h : Selects vregs n e code r n') (hf : FreshFrom vregs n) (s : ArchState ℕ w) :
    Keeps n s (run code s) := by
  induction h generalizing s with
  | arg n x => exact .refl n s
  | simm12 n c hc => exact .set (Nat.le_refl n) _ s
  | simm32 n c hc =>
    exact ⟨fun q hq => materialize_get (by omega) (by omega) s, materialize_mem c n (n + 1) s⟩
  | @gprGpr n n₁ n₂ op inst a b ca cb ra rb hpat ha hb iha ihb =>
    have hna := (ha.bounds hf).1
    have hf₁ := hf.mono hna
    have hnb := (hb.bounds hf₁).1
    rw [run_append, run_append]
    exact ((iha hf s).trans (ihb hf₁ _) hna).trans (.set (Nat.le_refl n₂) _ _)
      (Nat.le_trans hna hnb)
  | gprSimm12 hpat himm h ih =>
    rw [run_append]
    exact (ih hf s).trans (.set (Nat.le_refl _) _ _) (h.bounds hf).1
  | load hpat haddr h ih =>
    rw [run_append]
    exact (ih hf s).trans (.set (Nat.le_refl _) _ _) (h.bounds hf).1

/-- Behind a chain only the registers in use before it are as they were. -/
theorem SelectsChain.frame {vregs vregs' : ℕ → ℕ} {n n' : ℕ} {chain : List (ChainNode w)}
    {code : List (Inst ℕ)} (h : SelectsChain vregs n chain code vregs' n')
    (hf : FreshFrom vregs n) : n ≤ n' ∧ FreshFrom vregs' n' ∧
      ∀ s : ArchState ℕ w, ∀ q < n, (run code s).get q = s.get q := by
  induction h with
  | nil vregs n => exact ⟨Nat.le_refl n, hf, fun s q hq => rfl⟩
  | @bind vregs vregs' n n₁ n' x e c d r chain he h ih =>
    have hn := he.bounds hf
    obtain ⟨hn', hf', hbelow⟩ := ih (hf.update hn.1 hn.2 x)
    refine ⟨Nat.le_trans hn.1 hn', hf', fun s q hq => ?_⟩
    rw [run_append, hbelow (run c s) q (Nat.lt_of_lt_of_le hq hn.1)]
    exact (he.keeps hf s).below q hq
  | @store vregs vregs' n n₁ n₂ n' frag inst value addr rs1 imm12 cv ca d rv ra chain hpat haddr hv
      ha h ih =>
    have hnv := (hv.bounds hf).1
    have hf₁ := hf.mono hnv
    have hna := (ha.bounds hf₁).1
    obtain ⟨hn', hf', hbelow⟩ := ih (hf₁.mono hna)
    refine ⟨Nat.le_trans (Nat.le_trans hnv hna) hn', hf', fun s q hq => ?_⟩
    have hq₁ : q < n₁ := Nat.lt_of_lt_of_le hq hnv
    rw [run_append, run_append, run_cons, hbelow _ q (Nat.lt_of_lt_of_le hq₁ hna)]
    calc ((Inst.store inst rv ra imm12).exec (run ca (run cv s))).get q
        = (run ca (run cv s)).get q := rfl
      _ = (run cv s).get q := (ha.keeps hf₁ (run cv s)).below q hq₁
      _ = s.get q := (hv.keeps hf s).below q hq

def argRegs (x : ℕ) : ℕ := if x < 8 then 10 + x else 0

theorem argRegs_fresh : FreshFrom argRegs 32 :=
  ⟨by decide, fun x => by rw [argRegs]; split <;> omega⟩

end ToyRiscv
