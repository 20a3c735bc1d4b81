import ToyRiscv.MachineFunction
import ToyRiscv.Lib.TraceSimulation
import Mathlib.Logic.Function.Basic

/-!
# Running a machine function

A block is run as a whole: its PHIs read in parallel the registers left by the
predecessor, the other instructions follow one by one, and control leaves
through a terminator or falls through to the next block in layout. The effect of
an ordinary instruction is a parameter: any function of the values it uses and
of the memory (by which all machine state besides virtual registers is meant).
-/

namespace ToyRiscv

abbrev Regs (w : ℕ) := Register → BitVec w

/-- The values for the defined registers, by operand position, and the memory. -/
abbrev InstrSem (w : ℕ) (μ : Type) :=
  OrdinaryInstr → List (BitVec w) → μ → (ℕ → BitVec w) × μ

structure Store (w : ℕ) (μ : Type) where
  regs : Regs w
  mem : μ

inductive Flow where
  | next
  | goto (b : MBB)
  | ret
  deriving DecidableEq, Repr

variable {w : ℕ} {μ : Type}

/-- `dst = if cond(CC, LHS, RHS) then TrueV else FalseV`. -/
def SelectPseudo.value (s : SelectPseudo) (R : Regs w) : Option (BitVec w) :=
  (s.cc.holds? (R s.lhs) (R s.rhs)).map fun c => if c then R s.trueV else R s.falseV

def writeDefs (R : Regs w) (ds : List Register) (out : ℕ → BitVec w) : Regs w :=
  fun r => if r ∈ ds then out (ds.idxOf r) else R r

def execInstr (sem : InstrSem w μ) (st : Store w μ) : MachineInstr → Option (Store w μ × Flow)
  | .phi .. => none
  | .select s => (s.value st.regs).map fun v => (⟨Function.update st.regs s.dst v, st.mem⟩, .next)
  | .branch op a b t => some (st, if op.taken (st.regs a) (st.regs b) then .goto t else .next)
  | .pseudoBR t => some (st, .goto t)
  | .pseudoRET _ => some (st, .ret)
  | .debug .. => some (st, .next)
  | .ordinary i =>
    let o := sem i (i.uses.map st.regs) st.mem
    some (⟨writeDefs st.regs i.defs o.1, o.2⟩, .next)

def execBody (sem : InstrSem w μ) : List MachineInstr → Store w μ → Option (Store w μ × Flow)
  | [], st => some (st, .next)
  | I :: l, st =>
    match execInstr sem st I with
    | some (st', .next) => execBody sem l st'
    | o => o

/-- The register a PHI reads when control comes from `pred`. -/
def incomingRegister (pred : Option MBB) (inc : List (Register × MBB)) : Option Register :=
  pred.bind fun p => (inc.find? fun rp => rp.2 == p).map Prod.fst

/-- The PHIs at the head of a block, all reading from `R`. -/
def execPhis (pred : Option MBB) (R : Regs w) : List MachineInstr → Option (Regs w)
  | .phi d inc :: l =>
    match incomingRegister pred inc, execPhis pred R l with
    | some r, some R' => some (Function.update R' d (R r))
    | _, _ => none
  | _ => some R

structure BlockState (w : ℕ) (μ : Type) where
  pred : Option MBB
  block : MBB
  store : Store w μ

/-- What is observed when control leaves a block; `dest` is `none` on return. -/
structure BlockExit (w : ℕ) (μ : Type) where
  block : MBB
  store : Store w μ
  dest : Option MBB

def leave (F : MachineFunction) (b : MBB) (st : Store w μ) : Flow → Option (BlockExit w μ)
  | .next => (F.nextBlock b).map fun n => ⟨b, st, some n⟩
  | .goto t => some ⟨b, st, some t⟩
  | .ret => some ⟨b, st, none⟩

def execBlock (sem : InstrSem w μ) (F : MachineFunction) (s : BlockState w μ) :
    Option (BlockExit w μ) :=
  (execPhis s.pred s.store.regs (F.insts s.block)).bind fun R =>
    (execBody sem ((F.insts s.block).dropWhile MachineInstr.isPhi) ⟨R, s.store.mem⟩).bind
      fun o => leave F s.block o.1 o.2

def BlockExit.next (e : BlockExit w μ) : Option (BlockState w μ) :=
  e.dest.map fun b => ⟨some e.block, b, e.store⟩

def blockStep (sem : InstrSem w μ) (F : MachineFunction) (s : BlockState w μ) :
    Option (BlockExit w μ × Option (BlockState w μ)) :=
  (execBlock sem F s).map fun e => (e, e.next)

def blockTrace (sem : InstrSem w μ) (F : MachineFunction) (n : ℕ) (s : BlockState w μ) :
    List (BlockExit w μ) :=
  Lib.TraceSimulation.run (blockStep sem F) n s

def MachineFunction.start (F : MachineFunction) (st : Store w μ) : BlockState w μ :=
  ⟨none, F.entry, st⟩

/-! ### Straight-line execution -/

variable {sem : InstrSem w μ}

theorem execBody_append (l m : List MachineInstr) (st : Store w μ) :
    execBody sem (l ++ m) st =
      match execBody sem l st with
      | some (st', .next) => execBody sem m st'
      | o => o := by
  induction l generalizing st with
  | nil => rfl
  | cons I l ih =>
    simp only [List.cons_append, execBody]
    rcases execInstr sem st I with - | ⟨st', - | b | -⟩
    · rfl
    · exact ih st'
    · rfl
    · rfl

theorem execBody_append_next {l : List MachineInstr} {st st' : Store w μ}
    (h : execBody sem l st = some (st', .next)) (m : List MachineInstr) :
    execBody sem (l ++ m) st = execBody sem m st' := by
  rw [execBody_append, h]

theorem execInstr_debug {I : MachineInstr} (h : I.isDebugInstr = true) (st : Store w μ) :
    execInstr sem st I = some (st, .next) := by
  obtain ⟨v, rs, rfl⟩ := I.eq_debug h
  rfl

theorem execBody_nonDebug (l : List MachineInstr) (st : Store w μ) :
    execBody sem (nonDebug l) st = execBody sem l st := by
  induction l generalizing st with
  | nil => rfl
  | cons I l ih =>
    by_cases h : I.isDebugInstr = true
    · rw [nonDebug_cons_debug h, ih, execBody, execInstr_debug h]
    · rw [nonDebug_cons (by simpa using h), execBody, execBody]
      rcases execInstr sem st I with - | ⟨st', - | b | -⟩
      · rfl
      · exact ih st'
      · rfl
      · rfl

theorem execBody_of_nonDebug_eq {l m : List MachineInstr} (h : nonDebug l = nonDebug m)
    (st : Store w μ) : execBody sem l st = execBody sem m st := by
  rw [← execBody_nonDebug l, h, execBody_nonDebug m]

theorem execInstr_flow {I : MachineInstr} {st st' : Store w μ} {f : Flow}
    (h : execInstr sem st I = some (st', f)) :
    (f = .next ∧ I.isBarrier = false) ∨
      (∃ t, f = .goto t ∧ t ∈ I.targets ∧ I.isTerminator = true) ∨
      (f = .ret ∧ I.isTerminator = true) := by
  cases I with
  | phi d inc => cases h
  | select s =>
    obtain ⟨v, -, hv⟩ := Option.map_eq_some_iff.mp h
    cases hv
    exact Or.inl ⟨rfl, rfl⟩
  | branch op a b t =>
    simp only [execInstr, Option.some.injEq, Prod.mk.injEq] at h
    obtain ⟨-, rfl⟩ := h
    cases op.taken (st.regs a) (st.regs b) with
    | true => exact Or.inr (Or.inl ⟨t, rfl, List.mem_singleton.mpr rfl, rfl⟩)
    | false => exact Or.inl ⟨rfl, rfl⟩
  | pseudoBR t =>
    cases h
    exact Or.inr (Or.inl ⟨t, rfl, List.mem_singleton.mpr rfl, rfl⟩)
  | pseudoRET us =>
    cases h
    exact Or.inr (Or.inr ⟨rfl, rfl⟩)
  | debug v rs =>
    cases h
    exact Or.inl ⟨rfl, rfl⟩
  | ordinary i =>
    cases h
    exact Or.inl ⟨rfl, rfl⟩

theorem execBody_goto {l : List MachineInstr} {st st' : Store w μ} {t : MBB}
    (h : execBody sem l st = some (st', .goto t)) : ∃ I ∈ l, t ∈ I.targets := by
  induction l generalizing st with
  | nil => cases h
  | cons I l ih =>
    simp only [execBody] at h
    rcases hI : execInstr sem st I with - | ⟨st1, - | b | -⟩
    · rw [hI] at h
      cases h
    · rw [hI] at h
      obtain ⟨J, hJ, ht⟩ := ih h
      exact ⟨J, List.mem_cons_of_mem _ hJ, ht⟩
    · rw [hI] at h
      cases h
      rcases execInstr_flow hI with ⟨hf, -⟩ | ⟨t', hf, ht, -⟩ | ⟨hf, -⟩
      · cases hf
      · cases hf
        exact ⟨I, List.mem_cons_self .., ht⟩
      · cases hf
    · rw [hI] at h
      cases h

theorem execBody_next {l : List MachineInstr} {st st' : Store w μ}
    (h : execBody sem l st = some (st', .next)) : ∀ I ∈ l, I.isBarrier = false := by
  induction l generalizing st with
  | nil => exact List.forall_mem_nil _
  | cons I l ih =>
    simp only [execBody] at h
    rcases hI : execInstr sem st I with - | ⟨st1, - | b | -⟩
    · rw [hI] at h
      cases h
    · rw [hI] at h
      rcases execInstr_flow hI with ⟨-, hbar⟩ | ⟨t', hf, -⟩ | ⟨hf, -⟩
      · exact List.forall_mem_cons.mpr ⟨hbar, ih h⟩
      · cases hf
      · cases hf
    · rw [hI] at h
      cases h
    · rw [hI] at h
      cases h

/-! ### PHIs -/

theorem execPhis_append {m : List MachineInstr} (hm : ∀ I ∈ m, I.isPhi = false)
    (pred : Option MBB) (R : Regs w) (l : List MachineInstr) :
    execPhis pred R (l ++ m) = execPhis pred R l := by
  induction l with
  | nil =>
    cases m with
    | nil => rfl
    | cons I m =>
      have hI := hm I (List.mem_cons_self ..)
      cases I with
      | phi d inc => cases hI
      | _ => rfl
  | cons I l ih =>
    cases I with
    | phi d inc => simp only [List.cons_append, execPhis, ih]
    | _ => rfl

theorem dropWhile_phi_append {m : List MachineInstr} (hm : ∀ I ∈ m, I.isPhi = false)
    (l : List MachineInstr) : (l ++ m).dropWhile MachineInstr.isPhi =
      l.dropWhile MachineInstr.isPhi ++ m := by
  induction l with
  | nil =>
    cases m with
    | nil => rfl
    | cons I m => simp [hm I (List.mem_cons_self ..)]
  | cons I l ih =>
    simp only [List.cons_append, List.dropWhile_cons, ih]
    split <;> rfl

/-! ### Prefixes of a block -/

theorem execBody_of_no_terminator {l : List MachineInstr} (hl : ∀ I ∈ l, I.isTerminator = false)
    {st st' : Store w μ} {f : Flow} (h : execBody sem l st = some (st', f)) : f = .next := by
  induction l generalizing st with
  | nil =>
    cases h
    rfl
  | cons I l ih =>
    have hI := hl I (List.mem_cons_self ..)
    simp only [execBody] at h
    rcases hx : execInstr sem st I with - | ⟨st1, g⟩
    · rw [hx] at h
      cases h
    · rcases execInstr_flow hx with ⟨rfl, -⟩ | ⟨-, -, -, hterm⟩ | ⟨-, hterm⟩
      · rw [hx] at h
        exact ih (fun J hJ => hl J (List.mem_cons_of_mem _ hJ)) h
      · exact absurd hterm (by simp [hI])
      · exact absurd hterm (by simp [hI])

/-- The PHIs of a block and the instructions behind them, up to somewhere before
its first terminator. -/
def execPrefix (sem : InstrSem w μ) (pred : Option MBB) (pre : List MachineInstr)
    (st : Store w μ) : Option (Store w μ) :=
  (execPhis pred st.regs pre).bind fun R =>
    (execBody sem (pre.dropWhile MachineInstr.isPhi) ⟨R, st.mem⟩).map Prod.fst

variable (sem) in
theorem execBlock_append {F : MachineFunction} {b : MBB} {pre post : List MachineInstr}
    (h : F.insts b = pre ++ post) (hpre : ∀ I ∈ pre, I.isTerminator = false)
    (hpost : ∀ I ∈ post, I.isPhi = false) (pred : Option MBB) (st : Store w μ) :
    execBlock sem F ⟨pred, b, st⟩ = (execPrefix sem pred pre st).bind fun st0 =>
      (execBody sem post st0).bind fun o => leave F b o.1 o.2 := by
  unfold execBlock execPrefix
  dsimp only
  rw [h, execPhis_append hpost, dropWhile_phi_append hpost, Option.bind_assoc]
  apply Option.bind_congr
  intro R _
  rw [execBody_append]
  rcases hx : execBody sem (pre.dropWhile MachineInstr.isPhi) ⟨R, st.mem⟩ with - | ⟨st0, f⟩
  · rfl
  · have hsub : ∀ I ∈ pre.dropWhile MachineInstr.isPhi, I.isTerminator = false :=
      fun I hI => hpre I ((List.dropWhile_sublist _).mem hI)
    rw [execBody_of_no_terminator hsub hx]
    rfl

end ToyRiscv
