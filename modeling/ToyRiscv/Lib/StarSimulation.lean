import Mathlib.Data.Option.Basic
import Mathlib.Logic.Relation
import Mathlib.Order.WellFounded

/-!
# Star simulation of deterministic machines

A machine `step : σ → Option (σ ⊕ ρ)` goes on, halts with a result or is stuck.
A step of the source is matched by any number of steps of the target; by none
only if a rank falls. Then both end alike, from any related states: with related
results, stuck, or not at all.
-/

namespace Lib.StarSimulation
open Relation

variable {σ τ ρ υ : Type*}

def Next (step : σ → Option (σ ⊕ ρ)) (s s' : σ) : Prop := step s = some (.inl s')

/-- The run from `s` ends: with the result `o`, or stuck if there is none. -/
def Ends (step : σ → Option (σ ⊕ ρ)) (s : σ) (o : Option ρ) : Prop :=
  ∃ s', ReflTransGen (Next step) s s' ∧ step s' = o.map .inr

variable {step : σ → Option (σ ⊕ ρ)} {step' : τ → Option (τ ⊕ υ)}

theorem Ends.of_step {s : σ} {o : Option ρ} (h : step s = o.map .inr) : Ends step s o :=
  ⟨s, .refl, h⟩

theorem Ends.head {s s' : σ} {o : Option ρ} (h : ReflTransGen (Next step) s s')
    (he : Ends step s' o) : Ends step s o := by
  obtain ⟨s'', hrun, hend⟩ := he
  exact ⟨s'', h.trans hrun, hend⟩

theorem not_next_of_end {s s' : σ} {o : Option ρ} (h : step s = o.map .inr) :
    ¬ Next step s s' := by
  intro hnext
  rw [Next, h] at hnext
  cases o <;> cases hnext

theorem step_cases (step : σ → Option (σ ⊕ ρ)) (s : σ) :
    (∃ s', Next step s s') ∨ ∃ o : Option ρ, step s = o.map .inr := by
  rcases h : step s with - | s' | r
  · exact .inr ⟨none, rfl⟩
  · exact .inl ⟨s', h⟩
  · exact .inr ⟨some r, rfl⟩

/-- A state on the way ends as the whole run does. -/
theorem Ends.tail {s s' : σ} {o : Option ρ} (h : ReflTransGen (Next step) s s')
    (he : Ends step s o) : Ends step s' o := by
  induction h using ReflTransGen.head_induction_on with
  | refl => exact he
  | head hstep _ ih =>
    apply ih
    obtain ⟨t, hrun, hend⟩ := he
    rcases hrun.cases_head with rfl | ⟨u, hu, hrun⟩
    · exact absurd hstep (not_next_of_end hend)
    · cases Option.some.inj (hstep.symm.trans hu)
      exact ⟨t, hrun, hend⟩

theorem Ends.unique {s : σ} {o o' : Option ρ} (h : Ends step s o) (h' : Ends step s o') :
    o = o' := by
  obtain ⟨t, hrun, hend⟩ := h
  obtain ⟨t', hrun', hend'⟩ := Ends.tail hrun h'
  rcases hrun'.cases_head with rfl | ⟨u, hu, -⟩
  · have hinj : Function.Injective (Option.map (Sum.inr : ρ → σ ⊕ ρ)) :=
      Option.map_injective Sum.inr_injective
    exact hinj (hend.symm.trans hend')
  · exact absurd hu (not_next_of_end hend)

/-- Along a run that ends one cannot go on for ever. -/
theorem Ends.acc {s : σ} {o : Option ρ} (h : Ends step s o) :
    Acc (fun b a => TransGen (Next step) a b) s := by
  have hacc : Acc (fun b a => Next step a b) s := by
    obtain ⟨t, hrun, hend⟩ := h
    induction hrun using ReflTransGen.head_induction_on with
    | refl => exact ⟨_, fun u hu => absurd hu (not_next_of_end hend)⟩
    | head hstep _ ih =>
      refine ⟨_, fun u hu => ?_⟩
      cases Option.some.inj (hstep.symm.trans hu)
      exact ih
  have hswap : (fun b a => TransGen (Next step) a b) = TransGen fun b a => Next step a b :=
    funext fun b => funext fun a => propext transGen_swap.symm
  rw [hswap]
  exact hacc.transGen

structure StarSim (step : σ → Option (σ ⊕ ρ)) (step' : τ → Option (τ ⊕ υ)) (R : σ → τ → Prop)
    (Q : ρ → υ → Prop) (rank : σ → ℕ) : Prop where
  next : ∀ s t, R s t → ∀ s', Next step s s' → ∃ t', R s' t' ∧
    (TransGen (Next step') t t' ∨ t' = t ∧ rank s' < rank s)
  ends : ∀ s t, R s t → ∀ o, step s = o.map .inr →
    ∃ t' o', ReflTransGen (Next step') t t' ∧ step' t' = o'.map .inr ∧ Option.Rel Q o o'

variable {R : σ → τ → Prop} {Q : ρ → υ → Prop} {rank : σ → ℕ}

theorem StarSim.reaches (h : StarSim step step' R Q rank) {s s' : σ} {t : τ} (hR : R s t)
    (hrun : ReflTransGen (Next step) s s') : ∃ t', ReflTransGen (Next step') t t' ∧ R s' t' := by
  induction hrun with
  | refl => exact ⟨t, .refl, hR⟩
  | tail _ hstep ih =>
    obtain ⟨u, hu, hRu⟩ := ih
    obtain ⟨v, hRv, hv | ⟨rfl, -⟩⟩ := h.next _ u hRu _ hstep
    · exact ⟨v, hu.trans hv.to_reflTransGen, hRv⟩
    · exact ⟨v, hu, hRv⟩

theorem StarSim.ends_forward (h : StarSim step step' R Q rank) {s : σ} {t : τ} {o : Option ρ}
    (hR : R s t) (he : Ends step s o) : ∃ o', Ends step' t o' ∧ Option.Rel Q o o' := by
  obtain ⟨s', hrun, hend⟩ := he
  obtain ⟨u, hu, hRu⟩ := h.reaches hR hrun
  obtain ⟨v, o', hv, hend', hQ⟩ := h.ends s' u hRu o hend
  exact ⟨o', ⟨v, hu.trans hv, hend'⟩, hQ⟩

/-- Outer induction on what is left of the target's run, inner on the rank. -/
theorem StarSim.ends_backward (h : StarSim step step' R Q rank) {s : σ} {t : τ} {o' : Option υ}
    (hR : R s t) (he : Ends step' t o') : ∃ o, Ends step s o ∧ Option.Rel Q o o' := by
  have hacc := he.acc
  induction hacc generalizing s with
  | intro t _ ih =>
    induction hrank : rank s using Nat.strongRecOn generalizing s with
    | ind n ihn =>
      rcases step_cases step s with ⟨s', hs⟩ | ⟨o, hs⟩
      · obtain ⟨u, hRu, hu | ⟨rfl, hlt⟩⟩ := h.next s t hR s' hs
        · obtain ⟨o, ho, hQ⟩ := ih u hu hRu (he.tail hu.to_reflTransGen)
          exact ⟨o, ho.head (.single hs), hQ⟩
        · obtain ⟨o, ho, hQ⟩ := ihn (rank s') (hrank ▸ hlt) hRu rfl
          exact ⟨o, ho.head (.single hs), hQ⟩
      · obtain ⟨o'', ho'', hQ⟩ := h.ends_forward hR (.of_step hs)
        cases Ends.unique he ho''
        exact ⟨o, .of_step hs, hQ⟩

/-- Source and target end alike, and the target passes all the source does. -/
structure SameRuns (step : σ → Option (σ ⊕ ρ)) (step' : τ → Option (τ ⊕ υ)) (R : σ → τ → Prop)
    (Q : ρ → υ → Prop) (s : σ) (t : τ) : Prop where
  reaches : ∀ s', ReflTransGen (Next step) s s' → ∃ t', ReflTransGen (Next step') t t' ∧ R s' t'
  ends_forward : ∀ o, Ends step s o → ∃ o', Ends step' t o' ∧ Option.Rel Q o o'
  ends_backward : ∀ o', Ends step' t o' → ∃ o, Ends step s o ∧ Option.Rel Q o o'

theorem StarSim.sameRuns (h : StarSim step step' R Q rank) {s : σ} {t : τ} (hR : R s t) :
    SameRuns step step' R Q s t where
  reaches _ hrun := h.reaches hR hrun
  ends_forward _ he := h.ends_forward hR he
  ends_backward _ he := h.ends_backward hR he

end Lib.StarSimulation
