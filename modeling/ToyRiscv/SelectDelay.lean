import ToyRiscv.SelectSplit
import ToyRiscv.MachineSemantics

/-!
# Delaying the selects of a sequence

`emitSelectPseudo` leaves the other instructions of a sequence in HeadMBB and
does the work of all its selects in the PHIs of TailMBB. `Delayed` relates the
run that has executed the selects to the one that has not, and
`delayed_execBody` carries it through a sequence; the PHIs then close the gap
(`execPhis_selectPhi`).
-/

namespace ToyRiscv

variable {w : ℕ} {μ : Type} {sem : InstrSem w μ} {LHS RHS : Register} {CC : CondCode}

/-- `st` has executed the selects `T` and `st'` has not: they agree elsewhere,
and `st'` still holds what the selects read. -/
structure Delayed (T : List SelectPseudo) (st st' : Store w μ) : Prop where
  mem : st.mem = st'.mem
  regs : ∀ r, r ∉ T.map SelectPseudo.dst → st.regs r = st'.regs r
  value : ∀ t ∈ T, t.value st'.regs = some (st.regs t.dst)

theorem Delayed.refl (st : Store w μ) : Delayed [] st st :=
  ⟨rfl, fun _ _ => rfl, fun _ ht => absurd ht List.not_mem_nil⟩

/-- The registers the delayed selects touch are all defined by now (`A`), and
none of the selects overwrites an operand of the shared condition. -/
structure Pending (LHS RHS : Register) (CC : CondCode) (A : Register → Prop)
    (T : List SelectPseudo) : Prop where
  lhs : A LHS ∧ LHS ∉ T.map SelectPseudo.dst
  rhs : A RHS ∧ RHS ∉ T.map SelectPseudo.dst
  cond : ∀ t ∈ T, t.lhs = LHS ∧ t.rhs = RHS ∧ t.cc = CC
  avail : ∀ t ∈ T, A t.trueV ∧ A t.falseV ∧ A t.dst

theorem Pending.mono {A B : Register → Prop} {T : List SelectPseudo}
    (h : Pending LHS RHS CC A T) (hAB : ∀ r, A r → B r) : Pending LHS RHS CC B T where
  lhs := ⟨hAB _ h.lhs.1, h.lhs.2⟩
  rhs := ⟨hAB _ h.rhs.1, h.rhs.2⟩
  cond := h.cond
  avail t ht := ⟨hAB _ (h.avail t ht).1, hAB _ (h.avail t ht).2.1, hAB _ (h.avail t ht).2.2⟩

theorem Pending.snoc {A : Register → Prop} {T : List SelectPseudo} {s : SelectPseudo}
    (h : Pending LHS RHS CC A T) (hlhs : s.lhs = LHS) (hrhs : s.rhs = RHS) (hcc : s.cc = CC)
    (htrue : A s.trueV) (hfalse : A s.falseV) (hdst : ¬ A s.dst) :
    Pending LHS RHS CC (fun r => A r ∨ r ∈ [s.dst]) (T ++ [s]) := by
  have hne : ∀ r, A r → r ≠ s.dst := fun r hr he => hdst (he ▸ hr)
  refine ⟨⟨Or.inl h.lhs.1, ?_⟩, ⟨Or.inl h.rhs.1, ?_⟩, ?_, ?_⟩
  · simpa using ⟨by simpa using h.lhs.2, hne _ h.lhs.1⟩
  · simpa using ⟨by simpa using h.rhs.2, hne _ h.rhs.1⟩
  · intro t ht
    rcases List.mem_append.mp ht with ht | ht
    · exact h.cond t ht
    · rw [List.mem_singleton.mp ht]
      exact ⟨hlhs, hrhs, hcc⟩
  · intro t ht
    rcases List.mem_append.mp ht with ht | ht
    · obtain ⟨h1, h2, h3⟩ := h.avail t ht
      exact ⟨Or.inl h1, Or.inl h2, Or.inl h3⟩
    · rw [List.mem_singleton.mp ht]
      exact ⟨Or.inl htrue, Or.inl hfalse, Or.inr (List.mem_singleton_self _)⟩

/-! ### One instruction -/

theorem SelectPseudo.value_congr (s : SelectPseudo) {R R' : Regs w} (hl : R s.lhs = R' s.lhs)
    (hr : R s.rhs = R' s.rhs) (ht : R s.trueV = R' s.trueV) (hf : R s.falseV = R' s.falseV) :
    s.value R = s.value R' := by
  simp only [SelectPseudo.value, hl, hr, ht, hf]

theorem SelectPseudo.value_isSome (s : SelectPseudo) (R : Regs w) (h : s.cc ≠ .condInvalid) :
    ∃ v, s.value R = some v := by
  obtain ⟨op, hop⟩ := getBrCond_isSome s.cc h
  exact ⟨_, by rw [SelectPseudo.value, getBrCond_taken s.cc op hop]; rfl⟩

theorem Delayed.select {A : Register → Prop} {T : List SelectPseudo} {st st' : Store w μ}
    {s : SelectPseudo} (h : Delayed T st st') (hp : Pending LHS RHS CC A T)
    (hlhs : s.lhs = LHS) (hrhs : s.rhs = RHS)
    (htrue : s.trueV ∉ T.map SelectPseudo.dst) (hfalse : s.falseV ∉ T.map SelectPseudo.dst)
    (hdst : s.dst ∉ T.map SelectPseudo.dst) {v : BitVec w} (hv : s.value st.regs = some v) :
    Delayed (T ++ [s]) ⟨Function.update st.regs s.dst v, st.mem⟩ st' where
  mem := h.mem
  regs r hr := by
    simp only [List.map_append, List.map_cons, List.map_nil, List.mem_append, List.mem_singleton,
      not_or] at hr
    show Function.update st.regs s.dst v r = _
    rw [Function.update_of_ne hr.2, h.regs r hr.1]
  value t ht := by
    show _ = some (Function.update st.regs s.dst v t.dst)
    rcases List.mem_append.mp ht with ht | ht
    · have hne : t.dst ≠ s.dst := fun he => hdst (he ▸ List.mem_map_of_mem ht)
      rw [Function.update_of_ne hne, h.value t ht]
    · rw [List.mem_singleton.mp ht, Function.update_self, ← hv]
      refine s.value_congr ?_ ?_ (h.regs _ htrue).symm (h.regs _ hfalse).symm
      · rw [hlhs, h.regs _ hp.lhs.2]
      · rw [hrhs, h.regs _ hp.rhs.2]

theorem Delayed.ordinary {A : Register → Prop} {T : List SelectPseudo} {st st' : Store w μ}
    {i : OrdinaryInstr} (h : Delayed T st st') (sem : InstrSem w μ) (hp : Pending LHS RHS CC A T)
    (huses : ∀ r ∈ i.uses, r ∉ T.map SelectPseudo.dst) (hdefs : ∀ r, A r → r ∉ i.defs) :
    ∃ st1 st1', execInstr sem st (.ordinary i) = some (st1, .next) ∧
      execInstr sem st' (.ordinary i) = some (st1', .next) ∧ Delayed T st1 st1' := by
  have hargs : i.uses.map st.regs = i.uses.map st'.regs :=
    List.map_congr_left fun r hr => h.regs r (huses r hr)
  have hkeep : ∀ (R : Regs w) out r, A r → writeDefs R i.defs out r = R r :=
    fun R out r hr => if_neg (hdefs r hr)
  refine ⟨_, _, rfl, rfl, ?_, fun r hr => ?_, fun t ht => ?_⟩
  · show (sem i (i.uses.map st.regs) st.mem).2 = (sem i (i.uses.map st'.regs) st'.mem).2
    rw [hargs, h.mem]
  · show writeDefs st.regs i.defs (sem i (i.uses.map st.regs) st.mem).1 r =
      writeDefs st'.regs i.defs (sem i (i.uses.map st'.regs) st'.mem).1 r
    simp only [writeDefs, hargs, h.mem, h.regs r hr]
  · obtain ⟨htrue, hfalse, hdst⟩ := hp.avail t ht
    obtain ⟨hlhs, hrhs, -⟩ := hp.cond t ht
    show t.value (writeDefs st'.regs i.defs _) = some (writeDefs st.regs i.defs _ t.dst)
    rw [hkeep _ _ _ hdst, ← h.value t ht]
    exact t.value_congr (hkeep _ _ _ (hlhs ▸ hp.lhs.1)) (hkeep _ _ _ (hrhs ▸ hp.rhs.1))
      (hkeep _ _ _ htrue) (hkeep _ _ _ hfalse)

/-! ### A whole sequence -/

/-- Neither a PHI nor a terminator: what a sequence consists of. -/
def MachineInstr.isPlain (I : MachineInstr) : Prop := I.isPhi = false ∧ I.isTerminator = false

theorem MachineInstr.eq_ordinary {I : MachineInstr} (h : I.isPlain) (hdbg : I.isDebugInstr = false)
    (hsel : I.asSelect = none) : ∃ i, I = .ordinary i := by
  obtain ⟨hphi, hterm⟩ := h
  cases I with
  | ordinary i => exact ⟨i, rfl⟩
  | phi d inc => cases hphi
  | debug v rs => cases hdbg
  | select s => cases hsel
  | _ => cases hterm

/-- Running a mergeable sequence, and running it without its selects, by
induction on the scan. -/
theorem delayed_execBody (sem : InstrSem w μ) {S : List Register} {l : List MachineInstr}
    (hm : Mergeable LHS RHS CC S l) (hcc : CC ≠ .condInvalid) :
    ∀ (A : Register → Prop) (T : List SelectPseudo) (st st' : Store w μ),
      UsesDefined A l → (defsOf l).Nodup → (∀ r, A r → r ∉ defsOf l) →
      (∀ I ∈ l, I.isPlain) → (∀ r ∈ T.map SelectPseudo.dst, r ∈ S) →
      Pending LHS RHS CC A T → Delayed T st st' →
      ∃ st1 st1', execBody sem l st = some (st1, .next) ∧
        execBody sem (l.filter fun I => !I.isSelectPseudo) st' = some (st1', .next) ∧
        Delayed (T ++ l.filterMap MachineInstr.asSelect) st1 st1' := by
  induction hm with
  | nil S =>
    intro A T st st' _ _ _ _ _ _ hd
    exact ⟨st, st', rfl, rfl, by simpa using hd⟩
  | @debug S I l hdbg hl ih =>
    intro A T st st' huse hnd hA hplain hTS hp hd
    have hdefs := I.debug_defs hdbg
    rw [defsOf_cons, hdefs, List.nil_append] at hnd
    simp only [defsOf_cons, hdefs, List.nil_append] at hA
    have huse' : UsesDefined A l := usesDefined_mono (by simp [hdefs]) l huse.2
    obtain ⟨st1, st1', h1, h1', hd1⟩ := ih A T st st' huse' hnd hA
      (fun J hJ => hplain J (List.mem_cons_of_mem _ hJ)) hTS hp hd
    have hsel := I.debug_asSelect hdbg
    refine ⟨st1, st1', ?_, ?_, ?_⟩
    · rw [execBody, execInstr_debug hdbg]
      exact h1
    · rw [List.filter_cons_of_pos (by simp [MachineInstr.isSelectPseudo, hsel]), execBody,
        execInstr_debug hdbg]
      exact h1'
    · rwa [List.filterMap_cons_none hsel]
  | @select S l s hlhs hrhs hcc' htrue hfalse hl ih =>
    intro A T st st' huse hnd hA hplain hTS hp hd
    have hA' : ∀ r, A r → r ≠ s.dst ∧ r ∉ defsOf l := by
      simpa [MachineInstr.defs] using hA
    have hnd' : s.dst ∉ defsOf l ∧ (defsOf l).Nodup := by
      simpa [MachineInstr.defs] using hnd
    have havail : A s.trueV ∧ A s.falseV := by
      have := huse.1
      simp only [MachineInstr.orderedUses, MachineInstr.uses, List.forall_mem_cons] at this
      exact ⟨this.2.2.1, this.2.2.2.1⟩
    have hnew : ¬ A s.dst := fun h => (hA' _ h).1 rfl
    have hdst : s.dst ∉ T.map SelectPseudo.dst := fun h => by
      obtain ⟨t, ht, hts⟩ := List.mem_map.mp h
      exact hnew (hts ▸ (hp.avail t ht).2.2)
    obtain ⟨v, hv⟩ := s.value_isSome st.regs (hcc'.symm ▸ hcc)
    have hd2 :=
      hd.select hp hlhs hrhs (fun h => htrue (hTS _ h)) (fun h => hfalse (hTS _ h)) hdst hv
    have hA2 : ∀ r, A r ∨ r ∈ [s.dst] → r ∉ defsOf l := by
      rintro r (hr | hr)
      · exact (hA' r hr).2
      · rw [List.mem_singleton.mp hr]
        exact hnd'.1
    have hTS2 : ∀ r ∈ (T ++ [s]).map SelectPseudo.dst, r ∈ s.dst :: S := by
      intro r hr
      simp only [List.map_append, List.map_cons, List.map_nil, List.mem_append,
        List.mem_singleton] at hr
      rcases hr with hr | rfl
      · exact List.mem_cons_of_mem _ (hTS r hr)
      · exact List.mem_cons_self ..
    obtain ⟨st1, st1', h1, h1', hd1⟩ := ih (fun r => A r ∨ r ∈ [s.dst]) (T ++ [s]) _ st' huse.2
      hnd'.2 hA2 (fun J hJ => hplain J (List.mem_cons_of_mem _ hJ)) hTS2
      (hp.snoc hlhs hrhs hcc' havail.1 havail.2 hnew) hd2
    refine ⟨st1, st1', ?_, ?_, ?_⟩
    · rw [execBody, execInstr, hv]
      exact h1
    · rwa [List.filter_cons_of_neg (by simp [MachineInstr.isSelectPseudo, MachineInstr.asSelect])]
    · rw [MachineInstr.filterMap_asSelect_cons]
      simpa using hd1
  | @other S I l hdbg hsel heff hmem huses hl ih =>
    intro A T st st' huse hnd hA hplain hTS hp hd
    obtain ⟨i, rfl⟩ := I.eq_ordinary (hplain I (List.mem_cons_self ..)) hdbg hsel
    rw [defsOf_cons, List.nodup_append] at hnd
    simp only [defsOf_cons, List.mem_append, not_or] at hA
    obtain ⟨st2, st2', h2, h2', hd2⟩ := hd.ordinary sem hp
      (fun r hr h => huses r hr (hTS r h)) (fun r hr => (hA r hr).1)
    have hA2 : ∀ r, A r ∨ r ∈ i.defs → r ∉ defsOf l := by
      rintro r (hr | hr)
      · exact (hA r hr).2
      · exact fun h => hnd.2.2 r hr r h rfl
    obtain ⟨st1, st1', h1, h1', hd1⟩ := ih (fun r => A r ∨ r ∈ i.defs) T st2 st2' huse.2 hnd.2.1 hA2
      (fun J hJ => hplain J (List.mem_cons_of_mem _ hJ)) hTS (hp.mono fun r => Or.inl) hd2
    refine ⟨st1, st1', ?_, ?_, ?_⟩
    · rw [execBody, h2]
      exact h1
    · rw [List.filter_cons_of_pos (by simp [MachineInstr.isSelectPseudo, hsel]), execBody, h2']
      exact h1'
    · rwa [List.filterMap_cons_none hsel]

theorem Mergeable.selects {S : List Register} {l : List MachineInstr}
    (hm : Mergeable LHS RHS CC S l) :
    ∀ t ∈ l.filterMap MachineInstr.asSelect, t.lhs = LHS ∧ t.rhs = RHS ∧ t.cc = CC := by
  induction hm with
  | nil => simp
  | debug hdbg _ ih =>
    rw [List.filterMap_cons_none (MachineInstr.debug_asSelect hdbg)]
    exact ih
  | select s hlhs hrhs hcc _ _ _ ih =>
    rw [MachineInstr.filterMap_asSelect_cons]
    intro t ht
    rcases List.mem_cons.mp ht with rfl | ht
    · exact ⟨hlhs, hrhs, hcc⟩
    · exact ih t ht
  | other _ hsel _ _ _ _ ih =>
    rw [List.filterMap_cons_none hsel]
    exact ih

/-! ### The PHIs of TailMBB -/

/-- The predecessor of TailMBB from which control arrives. -/
def arrival (BB ifFalseMBB : MBB) (taken : Bool) : MBB := if taken then BB else ifFalseMBB

theorem incoming_selectPhi {BB ifFalseMBB : MBB} (hne : BB ≠ ifFalseMBB) (s : SelectPseudo)
    (taken : Bool) :
    incomingRegister (some (arrival BB ifFalseMBB taken))
        [(s.trueV, BB), (s.falseV, ifFalseMBB)] =
      some (if taken then s.trueV else s.falseV) := by
  cases taken with
  | true => simp [incomingRegister, arrival]
  | false => simp [incomingRegister, arrival, hne]

/-- Arriving over the branch or past it, the PHIs catch up with the selects. -/
theorem execPhis_selectPhi {BB ifFalseMBB : MBB} (hne : BB ≠ ifFalseMBB) (taken : Bool)
    (R V : Regs w) (T : List SelectPseudo)
    (hT : ∀ t ∈ T, (if taken then R t.trueV else R t.falseV) = V t.dst) :
    ∃ R', execPhis (some (arrival BB ifFalseMBB taken)) R (T.map (selectPhi BB ifFalseMBB)) =
        some R' ∧
      ∀ r, R' r = if r ∈ T.map SelectPseudo.dst then V r else R r := by
  induction T with
  | nil => exact ⟨R, rfl, by simp⟩
  | cons t T ih =>
    obtain ⟨R', hR', hval⟩ := ih fun u hu => hT u (List.mem_cons_of_mem _ hu)
    refine ⟨Function.update R' t.dst (V t.dst), ?_, fun r => ?_⟩
    · rw [List.map_cons, selectPhi, execPhis, incoming_selectPhi hne, hR',
        ← hT t (List.mem_cons_self ..)]
      cases taken <;> rfl
    · by_cases hr : r = t.dst
      · subst hr
        simp
      · rw [Function.update_of_ne hr, hval r]
        simp [hr]

end ToyRiscv
