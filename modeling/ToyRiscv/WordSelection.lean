import ToyRiscv.Selection

/-!
# What a cover computes

The patterns reach every constant through LUI and ADDI and every full-width access
through LW and SW, whatever `XLenVT` is. `WordMeans` says what that makes of a DAG;
where no constant carries and no access is wider than a word it is the meaning of
the DAG itself.
-/

namespace ToyRiscv
open Lib.ByteMemory Lib

variable {w : ℕ}

/-! ### The DAG as the patterns take it -/

def LoadFrag.WordMeans (m : Mem w) (a v : BitVec w) : LoadFrag → Prop
  | .load => v = (readBytes m a 4).signExtend w
  | frag => frag.Means m a v

def StoreFrag.wordBytes : StoreFrag → ℕ
  | .store => 4
  | .truncstorei8 => 1
  | .truncstorei16 => 2

def DagExpr.WordMeans (env : ℕ → BitVec w) (m : Mem w) : DagExpr w → BitVec w → Prop
  | .arg x, v => v = env x
  | .const c, v => v = BitVec.ofInt w (luiCarry c.toInt)
  | .bin op a b, v => ∃ va vb, a.WordMeans env m va ∧ b.WordMeans env m vb ∧ op.Means va vb v
  | .load frag addr, v => ∃ a, addr.WordMeans env m a ∧ frag.WordMeans m a v

def ChainNode.WordMeans (s : ChainState w) : ChainNode w → ChainState w → Prop
  | .bind x e, t => ∃ v, e.WordMeans s.env s.mem v ∧ t = ⟨Function.update s.env x v, s.mem⟩
  | .store frag value addr, t => ∃ v a, value.WordMeans s.env s.mem v ∧
      addr.WordMeans s.env s.mem a ∧ t = ⟨s.env, writeBytes s.mem a v frag.wordBytes⟩

def ChainWordMeans : List (ChainNode w) → ChainState w → ChainState w → Prop
  | [], s, t => t = s
  | node :: chain, s, t => ∃ u, node.WordMeans s u ∧ ChainWordMeans chain u t

/-! ### Where it is the DAG itself -/

def DagExpr.Exact : DagExpr w → Prop
  | .arg _ => True
  | .const c => w = 32 ∨ c.toInt < 2 ^ 31 - 2048
  | .bin _ a b => a.Exact ∧ b.Exact
  | .load frag addr => (frag = .load → w = 32) ∧ addr.Exact

def ChainNode.Exact : ChainNode w → Prop
  | .bind _ e => e.Exact
  | .store frag value addr => (frag = .store → w = 32) ∧ value.Exact ∧ addr.Exact

/-- In 32-bit mode every DAG is. -/
theorem DagExpr.exact32 (e : DagExpr 32) : e.Exact := by
  induction e with
  | arg x => trivial
  | const c => exact .inl rfl
  | bin op a b iha ihb => exact ⟨iha, ihb⟩
  | load frag addr ih => exact ⟨fun _ => rfl, ih⟩

theorem ChainNode.exact32 (node : ChainNode 32) : node.Exact := by
  cases node with
  | bind x e => exact e.exact32
  | store frag value addr => exact ⟨fun _ => rfl, value.exact32, addr.exact32⟩

theorem ofInt_luiCarry_eq {c : BitVec w} (h : w = 32 ∨ c.toInt < 2 ^ 31 - 2048) :
    BitVec.ofInt w (luiCarry c.toInt) = c := by
  rcases h with rfl | hlt
  · rw [ofInt_luiCarry, BitVec.ofInt_toInt]
  · rw [luiCarry_of_lt hlt, BitVec.ofInt_toInt]

theorem LoadFrag.wordMeans_iff {frag : LoadFrag} (h : frag = .load → w = 32) (m : Mem w)
    (a v : BitVec w) : frag.WordMeans m a v ↔ frag.Means m a v := by
  cases frag with
  | load =>
    obtain rfl := h rfl
    have hsame : (readBytes m a 4).signExtend 32 = (readBytes m a 4).setWidth 32 :=
      (BitVec.signExtend_eq (readBytes m a 4)).trans (BitVec.setWidth_eq _).symm
    show v = _ ↔ v = _
    rw [hsame]
  | _ => rfl

theorem StoreFrag.wordBytes_eq {frag : StoreFrag} (h : frag = .store → w = 32) :
    frag.wordBytes = frag.bytes w := by
  cases frag with
  | store => rw [h rfl]; rfl
  | _ => rfl

theorem DagExpr.wordMeans_iff {e : DagExpr w} (h : e.Exact) (env : ℕ → BitVec w) (m : Mem w)
    (v : BitVec w) : e.WordMeans env m v ↔ e.Means env m v := by
  induction e generalizing v with
  | arg x => rfl
  | const c =>
    show v = BitVec.ofInt w (luiCarry c.toInt) ↔ v = c
    rw [ofInt_luiCarry_eq h]
  | bin op a b iha ihb => simp only [DagExpr.WordMeans, DagExpr.Means, iha h.1, ihb h.2]
  | load frag addr ih =>
    simp only [DagExpr.WordMeans, DagExpr.Means, ih h.2, LoadFrag.wordMeans_iff h.1]

theorem ChainNode.wordMeans_iff {node : ChainNode w} (h : node.Exact) (s t : ChainState w) :
    node.WordMeans s t ↔ node.Means s t := by
  cases node with
  | bind x e => simp only [ChainNode.WordMeans, ChainNode.Means, DagExpr.wordMeans_iff h]
  | store frag value addr =>
    simp only [ChainNode.WordMeans, ChainNode.Means, DagExpr.wordMeans_iff h.2.1,
      DagExpr.wordMeans_iff h.2.2, StoreFrag.wordBytes_eq h.1]

theorem chainWordMeans_iff {chain : List (ChainNode w)} (h : ∀ node ∈ chain, node.Exact)
    (s t : ChainState w) : ChainWordMeans chain s t ↔ ChainMeans chain s t := by
  induction chain generalizing s with
  | nil => rfl
  | cons node chain ih =>
    obtain ⟨hnode, hchain⟩ := List.forall_mem_cons.mp h
    simp only [ChainWordMeans, ChainMeans, ChainNode.wordMeans_iff hnode, ih hchain]

/-! ### Patterns -/

theorem ldPat_wordMeans (hw : 32 ≤ w) {frag : LoadFrag} {inst : LoadOp}
    (hpat : (frag, inst) ∈ ldPat) (m : Mem w) (a : BitVec w) :
    frag.WordMeans m a (inst.value m a) := by
  have hb : 8 * 1 ≤ w := by omega
  have hh : 8 * 2 ≤ w := by omega
  simp only [ldPat, List.mem_cons, Prod.mk.injEq, List.not_mem_nil, or_false] at hpat
  rcases hpat with ⟨rfl, rfl⟩ | ⟨rfl, rfl⟩ | ⟨rfl, rfl⟩ | ⟨rfl, rfl⟩ | ⟨rfl, rfl⟩ | ⟨rfl, rfl⟩ |
    ⟨rfl, rfl⟩
  case inr.inl => exact setWidth_signExtend hb (readBytes m a 1)
  case inr.inr.inr.inl => exact setWidth_signExtend hh (readBytes m a 2)
  all_goals rfl

theorem stPat_wordBytes {frag : StoreFrag} {inst : StoreOp} (hpat : (frag, inst) ∈ stPat) :
    inst.bytes = frag.wordBytes := by
  simp only [stPat, List.mem_cons, Prod.mk.injEq, List.not_mem_nil, or_false] at hpat
  rcases hpat with ⟨rfl, rfl⟩ | ⟨rfl, rfl⟩ | ⟨rfl, rfl⟩ <;> rfl

theorem luiCarry_of_isInt12 {N : ℤ} (hN : isInt 12 N) : luiCarry N = N :=
  luiCarry_of_lt (Int.lt_trans hN.2 (by decide))

/-- A constant of twelve bits does not carry. -/
theorem wordMeans_const (hw : 12 ≤ w) {c : BitVec w} (hc : isInt 12 c.toInt) (env : ℕ → BitVec w)
    (m : Mem w) : (DagExpr.const c).WordMeans env m (imm12Value w c.toInt) := by
  show imm12Value w c.toInt = BitVec.ofInt w (luiCarry c.toInt)
  rw [luiCarry_of_isInt12 hc, BitVec.ofInt_toInt, imm12Value_toInt hw hc]

theorem MatchesSimm12.wordMeans (hw : 12 ≤ w) {op : DagOp} {a b rs1 : DagExpr w} {imm12 : ℤ}
    (h : MatchesSimm12 op a b rs1 imm12) {env : ℕ → BitVec w} {m : Mem w} {va v : BitVec w}
    (hva : rs1.WordMeans env m va) (hv : op.Means va (imm12Value w imm12) v) :
    (DagExpr.bin op a b).WordMeans env m v := by
  cases h with
  | right _ c hc => exact ⟨va, _, hva, wordMeans_const hw hc env m, hv⟩
  | left hop _ c hc => exact ⟨_, va, wordMeans_const hw hc env m, hva, hv.comm hop⟩

theorem MatchesAddress.wordMeans (hw : 12 ≤ w) {addr rs1 : DagExpr w} {imm12 : ℤ}
    (h : MatchesAddress addr rs1 imm12) {env : ℕ → BitVec w} {m : Mem w} {va : BitVec w}
    (hva : rs1.WordMeans env m va) : addr.WordMeans env m (va + imm12Value w imm12) := by
  cases h with
  | base =>
    rw [imm12Value_zero, BitVec.add_zero]
    exact hva
  | simm12 h => exact h.wordMeans hw hva rfl

/-! ### The value -/

theorem Selects.wordValue (hw : 32 ≤ w) (hw64 : w ≤ 64) {vregs : ℕ → ℕ} {n n' : ℕ}
    {e : DagExpr w} {code : List (Inst ℕ)} {r : ℕ} (h : Selects vregs n e code r n')
    (hf : FreshFrom vregs n) (s : ArchState ℕ w) :
    e.WordMeans (fun x => s.get (vregs x)) s.mem ((run code s).get r) := by
  have hw12 : 12 ≤ w := by omega
  induction h generalizing s with
  | arg n x => rfl
  | simm12 n c hc =>
    have hn : n ≠ 0 := Nat.ne_of_gt hf.pos
    rw [run_cons, run_nil, Inst.exec, get_next, get_set_self _ hn, get_zero, AluImmOp.value,
      BitVec.zero_add]
    exact wordMeans_const hw12 hc _ _
  | simm32 n c hc =>
    have hn := hf.pos
    exact materialize_value hw hw64 hc (by omega) (by omega) s
  | @gprGpr n n₁ n₂ op inst a b ca cb ra rb hpat ha hb iha ihb =>
    have hna := ha.bounds hf
    have hf₁ := hf.mono hna.1
    have hn₂ : n₂ ≠ 0 := Nat.ne_of_gt (Nat.lt_of_lt_of_le hf₁.pos (hb.bounds hf₁).1)
    have ha' := ha.keeps hf s
    have hb' := hb.keeps hf₁ (run ca s)
    -- the code for `b` leaves the value of `a` in its register
    have hva := iha hf s
    rw [← hb'.below ra hna.2] at hva
    have hvb := ihb hf₁ (run ca s)
    rw [ha'.args hf, ha'.mem] at hvb
    rw [run_append, run_append, run_cons, run_nil, Inst.exec, get_next, get_set_self _ hn₂]
    exact ⟨_, _, hva, hvb, patGprGpr_means hpat _ _⟩
  | @gprSimm12 n n₁ op inst a b rs1 imm12 c r hpat himm h ih =>
    have hn₁ : n₁ ≠ 0 := Nat.ne_of_gt (Nat.lt_of_lt_of_le hf.pos (h.bounds hf).1)
    rw [run_append, run_cons, run_nil, Inst.exec, get_next, get_set_self _ hn₁]
    exact himm.wordMeans hw12 (ih hf s) (patGprSimm12_means hpat _ _)
  | @load n n₁ frag inst addr rs1 imm12 c r hpat haddr h ih =>
    have hn₁ : n₁ ≠ 0 := Nat.ne_of_gt (Nat.lt_of_lt_of_le hf.pos (h.bounds hf).1)
    rw [run_append, run_cons, run_nil, Inst.exec, get_next, get_set_self _ hn₁,
      (h.keeps hf s).mem]
    exact ⟨_, haddr.wordMeans hw12 (ih hf s), ldPat_wordMeans hw hpat _ _⟩

/-! ### Chains -/

def chainState (vregs : ℕ → ℕ) (s : ArchState ℕ w) : ChainState w :=
  ⟨fun x => s.get (vregs x), s.mem⟩

/-- A store leaves the registers, and the memory of the chain behind it. -/
theorem chainState_store {inst : StoreOp} {frag : StoreFrag} (hpat : (frag, inst) ∈ stPat)
    (vregs : ℕ → ℕ) (rv ra : ℕ) (imm12 : ℤ) (s : ArchState ℕ w) :
    chainState vregs ((Inst.store inst rv ra imm12).exec s) =
      ⟨fun x => s.get (vregs x),
        writeBytes s.mem (s.get ra + imm12Value w imm12) (s.get rv) frag.wordBytes⟩ := by
  rw [← stPat_wordBytes hpat]
  rfl

theorem chainState_bind {n r : ℕ} {vregs : ℕ → ℕ} {s t : ArchState ℕ w} (h : Keeps n s t)
    (hf : FreshFrom vregs n) (x : ℕ) :
    chainState (Function.update vregs x r) t =
      ⟨Function.update (fun y => s.get (vregs y)) x (t.get r), s.mem⟩ := by
  rw [chainState, h.mem]
  congr 1
  funext y
  by_cases hy : y = x
  · rw [hy, Function.update_self, Function.update_self]
  · rw [Function.update_of_ne hy, Function.update_of_ne hy, h.below _ (hf.args y)]

theorem SelectsChain.wordMeans (hw : 32 ≤ w) (hw64 : w ≤ 64) {vregs vregs' : ℕ → ℕ} {n n' : ℕ}
    {chain : List (ChainNode w)} {code : List (Inst ℕ)}
    (h : SelectsChain vregs n chain code vregs' n') (hf : FreshFrom vregs n)
    (s : ArchState ℕ w) :
    ChainWordMeans chain (chainState vregs s) (chainState vregs' (run code s)) := by
  have hw12 : 12 ≤ w := by omega
  induction h generalizing s with
  | nil => rfl
  | @bind vregs vregs' n n₁ n' x e c d r chain he h ih =>
    have hn := he.bounds hf
    have hih := ih (hf.update hn.1 hn.2 x) (run c s)
    rw [chainState_bind (he.keeps hf s) hf] at hih
    rw [run_append]
    exact ⟨_, ⟨_, he.wordValue hw hw64 hf s, rfl⟩, hih⟩
  | @store vregs vregs' n n₁ n₂ n' frag inst value addr rs1 imm12 cv ca d rv ra chain hpat haddr hv
      ha h ih =>
    have hnv := hv.bounds hf
    have hf₁ := hf.mono hnv.1
    have hkv := hv.keeps hf s
    have hka := ha.keeps hf₁ (run cv s)
    -- the code for the address leaves the value in its register
    have hrv := hka.below rv hnv.2
    have hva := ha.wordValue hw hw64 hf₁ (run cv s)
    rw [hkv.args hf, hkv.mem] at hva
    have hih := ih (hf₁.mono (ha.bounds hf₁).1)
      ((Inst.store inst rv ra imm12).exec (run ca (run cv s)))
    rw [chainState_store hpat, hrv, hka.mem, hkv.mem, hka.args hf₁, hkv.args hf] at hih
    rw [run_append, run_append, run_cons]
    exact ⟨_, ⟨_, _, hv.wordValue hw hw64 hf s, haddr.wordMeans hw12 hva, rfl⟩, hih⟩

/-! ### Which DAGs have a cover -/

def DagExpr.constants : DagExpr w → List (BitVec w)
  | .arg _ => []
  | .const c => [c]
  | .bin _ a b => a.constants ++ b.constants
  | .load _ addr => addr.constants

def ChainNode.constants : ChainNode w → List (BitVec w)
  | .bind _ e => e.constants
  | .store _ value addr => value.constants ++ addr.constants

theorem MatchesSimm12.constants {op : DagOp} {a b rs1 : DagExpr w} {imm12 : ℤ}
    (h : MatchesSimm12 op a b rs1 imm12) (hrs1 : ∀ c ∈ rs1.constants, isInt 32 c.toInt) :
    ∀ c ∈ (DagExpr.bin op a b).constants, isInt 32 c.toInt := by
  cases h with
  | right _ c hc =>
    exact List.forall_mem_append.mpr
      ⟨hrs1, List.forall_mem_singleton.mpr (isInt_mono (by decide) hc)⟩
  | left hop _ c hc =>
    exact List.forall_mem_append.mpr
      ⟨List.forall_mem_singleton.mpr (isInt_mono (by decide) hc), hrs1⟩

theorem MatchesAddress.constants {addr rs1 : DagExpr w} {imm12 : ℤ}
    (h : MatchesAddress addr rs1 imm12) (hrs1 : ∀ c ∈ rs1.constants, isInt 32 c.toInt) :
    ∀ c ∈ addr.constants, isInt 32 c.toInt := by
  cases h with
  | base => exact hrs1
  | simm12 h => exact h.constants hrs1

theorem Selects.constants {vregs : ℕ → ℕ} {n n' : ℕ} {e : DagExpr w} {code : List (Inst ℕ)}
    {r : ℕ} (h : Selects vregs n e code r n') : ∀ c ∈ e.constants, isInt 32 c.toInt := by
  induction h with
  | arg n x => exact List.forall_mem_nil _
  | simm12 n c hc => exact List.forall_mem_singleton.mpr (isInt_mono (by decide) hc)
  | simm32 n c hc => exact List.forall_mem_singleton.mpr hc
  | gprGpr hpat ha hb iha ihb => exact List.forall_mem_append.mpr ⟨iha, ihb⟩
  | gprSimm12 hpat himm h ih => exact himm.constants ih
  | load hpat haddr h ih => exact haddr.constants ih

theorem selects_of_constants (vregs : ℕ → ℕ) {e : DagExpr w}
    (he : ∀ c ∈ e.constants, isInt 32 c.toInt) (n : ℕ) :
    ∃ code r n', Selects vregs n e code r n' := by
  induction e generalizing n with
  | arg x => exact ⟨_, _, _, .arg n x⟩
  | const c => exact ⟨_, _, _, .simm32 n c (he c (List.mem_singleton_self c))⟩
  | bin op a b iha ihb =>
    obtain ⟨hea, heb⟩ := List.forall_mem_append.mp he
    obtain ⟨inst, hpat⟩ := exists_patGprGpr op
    obtain ⟨ca, ra, n₁, ha⟩ := iha hea n
    obtain ⟨cb, rb, n₂, hb⟩ := ihb heb n₁
    exact ⟨_, _, _, .gprGpr hpat ha hb⟩
  | load frag addr ih =>
    obtain ⟨inst, hpat⟩ := exists_ldPat frag
    obtain ⟨c, r, n₁, h⟩ := ih he n
    exact ⟨_, _, _, .load hpat (.base addr) h⟩

theorem SelectsChain.constants {vregs vregs' : ℕ → ℕ} {n n' : ℕ} {chain : List (ChainNode w)}
    {code : List (Inst ℕ)} (h : SelectsChain vregs n chain code vregs' n') :
    ∀ node ∈ chain, ∀ c ∈ node.constants, isInt 32 c.toInt := by
  induction h with
  | nil => exact List.forall_mem_nil _
  | bind he h ih => exact List.forall_mem_cons.mpr ⟨he.constants, ih⟩
  | store hpat haddr hv ha h ih =>
    exact List.forall_mem_cons.mpr
      ⟨List.forall_mem_append.mpr ⟨hv.constants, haddr.constants ha.constants⟩, ih⟩

theorem selectsChain_of_constants (vregs : ℕ → ℕ) {chain : List (ChainNode w)}
    (hchain : ∀ node ∈ chain, ∀ c ∈ node.constants, isInt 32 c.toInt) (n : ℕ) :
    ∃ code vregs' n', SelectsChain vregs n chain code vregs' n' := by
  induction chain generalizing vregs n with
  | nil => exact ⟨_, _, _, .nil vregs n⟩
  | cons node chain ih =>
    obtain ⟨hnode, hrest⟩ := List.forall_mem_cons.mp hchain
    cases node with
    | bind x e =>
      obtain ⟨c, r, n₁, he⟩ := selects_of_constants vregs hnode n
      obtain ⟨d, vregs', n', h⟩ := ih (Function.update vregs x r) hrest n₁
      exact ⟨_, _, _, .bind he h⟩
    | store frag value addr =>
      obtain ⟨hvalue, haddr⟩ := List.forall_mem_append.mp hnode
      obtain ⟨inst, hpat⟩ := exists_stPat frag
      obtain ⟨cv, rv, n₁, hv⟩ := selects_of_constants vregs hvalue n
      obtain ⟨ca, ra, n₂, ha⟩ := selects_of_constants vregs haddr n₁
      obtain ⟨d, vregs', n', h⟩ := ih vregs hrest n₂
      exact ⟨_, _, _, .store hpat (.base addr) hv ha h⟩

/-- The ADD of an offset, however it is covered. -/
theorem Selects.addConst (hw : 32 ≤ w) (hw64 : w ≤ 64) {vregs : ℕ → ℕ} {n n' x : ℕ} {c : BitVec w}
    {code : List (Inst ℕ)} {r : ℕ} (hf : FreshFrom vregs n)
    (h : Selects vregs n (.bin .add (.arg x) (.const c)) code r n') (s : ArchState ℕ w) :
    isInt 32 c.toInt ∧
      (run code s).get r = s.get (vregs x) + BitVec.ofInt w (luiCarry c.toInt) := by
  refine ⟨h.constants c (List.mem_singleton_self c), ?_⟩
  obtain ⟨va, vb, hva, hvb, hv⟩ := h.wordValue hw hw64 hf s
  cases hva
  cases hvb
  exact hv

/-- Whatever cover is chosen, its immediates fit, an expression's code leaves a
value of the expression in the result register and the memory alone, and a
chain's code leaves the bound values and the memory of the chain. -/
theorem selection_correct {vregs : ℕ → ℕ} {n : ℕ} (hf : FreshFrom vregs n) :
    (∀ (e : DagExpr 32) (code : List (Inst ℕ)) (r n' : ℕ), Selects vregs n e code r n' →
      (∀ I ∈ code, I.Fits) ∧ ∀ s : ArchState ℕ 32,
        e.Means (fun x => s.get (vregs x)) s.mem ((run code s).get r) ∧
          (run code s).mem = s.mem) ∧
    ∀ (chain : List (ChainNode 32)) (code : List (Inst ℕ)) (vregs' : ℕ → ℕ) (n' : ℕ),
      SelectsChain vregs n chain code vregs' n' →
        (∀ I ∈ code, I.Fits) ∧ ∀ s : ArchState ℕ 32,
          ChainMeans chain (chainState vregs s) (chainState vregs' (run code s)) := by
  constructor
  · intro e code r n' h
    refine ⟨h.fits (by decide) (by decide), fun s => ?_⟩
    have hvalue := h.wordValue (by decide) (by decide) hf s
    exact ⟨(DagExpr.wordMeans_iff e.exact32 _ _ _).mp hvalue, (h.keeps hf s).mem⟩
  · intro chain code vregs' n' h
    refine ⟨h.fits (by decide) (by decide), fun s => ?_⟩
    have hmeans := h.wordMeans (by decide) (by decide) hf s
    exact (chainWordMeans_iff (fun node _ => node.exact32) _ _).mp hmeans

/-- `a0 + 0xfffff800`, and the low byte of `a1` stored at `a0 + 3`. -/
theorem selection_correct_addStore :
    ((∀ I ∈ materialize 0xfffff800#32 32 33 ++ [.rr .add 34 10 33], I.Fits) ∧
      ∀ s : ArchState ℕ 32,
        (DagExpr.bin .add (.arg 0) (.const 0xfffff800#32)).Means (fun x => s.get (argRegs x)) s.mem
          ((run (materialize 0xfffff800#32 32 33 ++ [.rr .add 34 10 33]) s).get 34) ∧
        (run (materialize 0xfffff800#32 32 33 ++ [.rr .add 34 10 33]) s).mem = s.mem) ∧
    ((∀ I ∈ ([.store .sb 11 10 3] : List (Inst ℕ)), I.Fits) ∧ ∀ s : ArchState ℕ 32,
      ChainMeans [.store .truncstorei8 (.arg 1) (.bin .add (.arg 0) (.const 3#32))]
        (chainState argRegs s) (chainState argRegs (run [.store .sb 11 10 3] s))) :=
  ⟨(selection_correct argRegs_fresh).1 _ _ 34 35
      (.gprGpr (by decide) (.arg 32 0) (.simm32 32 0xfffff800#32 (by decide))),
    (selection_correct argRegs_fresh).2 _ _ argRegs 32
      (.store (by decide) (.simm12 (.right (.arg 0) 3#32 (by decide))) (.arg 32 1) (.arg 32 0)
        (.nil argRegs 32))⟩

/-! ### Both word sizes -/

/-- Whatever cover is chosen, at either word size, its immediates fit, the registers in use keep
their values, and it computes the DAG with words for the full-width accesses and LUI's sign
extension in the constants: the DAG itself where that changes nothing. -/
theorem selection_words (x : XLen) {vregs : ℕ → ℕ} {n : ℕ} (hf : FreshFrom vregs n) :
    (∀ (e : DagExpr x.bits) (code : List (Inst ℕ)) (r n' : ℕ), Selects vregs n e code r n' →
      (∀ I ∈ code, I.Fits) ∧ ∀ s : ArchState ℕ x.bits, Keeps n s (run code s) ∧
        e.WordMeans (fun y => s.get (vregs y)) s.mem ((run code s).get r) ∧
        (e.Exact → e.Means (fun y => s.get (vregs y)) s.mem ((run code s).get r))) ∧
    ∀ (chain : List (ChainNode x.bits)) (code : List (Inst ℕ)) (vregs' : ℕ → ℕ) (n' : ℕ),
      SelectsChain vregs n chain code vregs' n' →
        (∀ I ∈ code, I.Fits) ∧ ∀ s : ArchState ℕ x.bits, (∀ q < n, (run code s).get q = s.get q) ∧
          ChainWordMeans chain (chainState vregs s) (chainState vregs' (run code s)) ∧
          ((∀ node ∈ chain, node.Exact) →
            ChainMeans chain (chainState vregs s) (chainState vregs' (run code s))) := by
  constructor
  · intro e code r n' h
    refine ⟨h.fits x.le_bits x.bits_le, fun s => ?_⟩
    have hvalue := h.wordValue x.le_bits x.bits_le hf s
    exact ⟨h.keeps hf s, hvalue, fun he => (DagExpr.wordMeans_iff he _ _ _).mp hvalue⟩
  · intro chain code vregs' n' h
    refine ⟨h.fits x.le_bits x.bits_le, fun s => ?_⟩
    obtain ⟨-, -, hbelow⟩ := h.frame hf
    have hmeans := h.wordMeans x.le_bits x.bits_le hf s
    exact ⟨hbelow s, hmeans, fun hchain => (chainWordMeans_iff hchain _ _).mp hmeans⟩

/-- In 64-bit mode `a1` is stored at `a0 + 3` as a word. -/
theorem selection_words_store :
    (∀ I ∈ ([.store .sw 11 10 3] : List (Inst ℕ)), I.Fits) ∧ ∀ s : ArchState ℕ 64,
      (∀ q < 32, (run [.store .sw 11 10 3] s).get q = s.get q) ∧
      ChainWordMeans [.store .store (.arg 1) (.bin .add (.arg 0) (.const 3#64))]
        (chainState argRegs s) (chainState argRegs (run [.store .sw 11 10 3] s)) ∧
      ((∀ node ∈ [ChainNode.store .store (.arg 1) (.bin .add (.arg 0) (.const 3#64))],
          node.Exact) →
        ChainMeans [.store .store (.arg 1) (.bin .add (.arg 0) (.const 3#64))]
          (chainState argRegs s) (chainState argRegs (run [.store .sw 11 10 3] s))) :=
  (selection_words .rv64 argRegs_fresh).2 _ _ argRegs 32
    (.store (by decide) (.simm12 (.right (.arg 0) 3#64 (by decide))) (.arg 32 1) (.arg 32 0)
      (.nil argRegs 32))

end ToyRiscv
