import Mathlib.Data.List.Basic
import Mathlib.Logic.Relation

/-!
# Stuttering simulation of deterministic event traces

A system `next : σ → Option (ε × Option σ)` emits one event a step and then goes
on or halts; `none` is a state that cannot move. A concrete system simulates an
abstract one up to a partial view of its events: events without a view are
silent. `trace_forward` and `trace_backward` turn the step condition into
agreement of the viewed traces of any length, in both directions.
-/

namespace Lib.TraceSimulation

variable {σ τ ε κ : Type*}

def run (next : σ → Option (ε × Option σ)) : ℕ → σ → List ε
  | 0, _ => []
  | n + 1, s =>
    match next s with
    | none => []
    | some (e, none) => [e]
    | some (e, some s') => e :: run next n s'

theorem run_zero (next : σ → Option (ε × Option σ)) (s : σ) : run next 0 s = [] := rfl

theorem run_stuck (next : σ → Option (ε × Option σ)) (n : ℕ) (s : σ) (h : next s = none) :
    run next n s = [] := by
  cases n with
  | zero => rfl
  | succ n => simp only [run, h]

theorem run_halt (next : σ → Option (ε × Option σ)) (n : ℕ) (s : σ) (e : ε)
    (h : next s = some (e, none)) : run next (n + 1) s = [e] := by
  simp only [run, h]

theorem run_step (next : σ → Option (ε × Option σ)) (n : ℕ) (s s' : σ) (e : ε)
    (h : next s = some (e, some s')) : run next (n + 1) s = e :: run next n s' := by
  simp only [run, h]

def Silent (next : τ → Option (κ × Option τ)) (view : κ → Option ε) (t t' : τ) : Prop :=
  ∃ e, next t = some (e, some t') ∧ view e = none

/-- The abstract step of `s` is matched from `t` after finitely many silent
steps, by an event with the same view and a related continuation. -/
def Matched (next : σ → Option (ε × Option σ)) (next' : τ → Option (κ × Option τ))
    (view : κ → Option ε) (R : σ → τ → Prop) (s : σ) (t : τ) : Prop :=
  ∃ t', Relation.ReflTransGen (Silent next' view) t t' ∧
    match next s with
    | none => next' t' = none
    | some (e, o) => ∃ e' o', next' t' = some (e', o') ∧ view e' = some e ∧
        Option.Rel R o o'

variable {next : σ → Option (ε × Option σ)} {next' : τ → Option (κ × Option τ)}
  {view : κ → Option ε} {R : σ → τ → Prop}

theorem view_run_silent {t t' : τ} (h : Relation.ReflTransGen (Silent next' view) t t') (m : ℕ) :
    ∃ k, (run next' k t).filterMap view = (run next' m t').filterMap view := by
  induction h using Relation.ReflTransGen.head_induction_on with
  | refl => exact ⟨m, rfl⟩
  | head hstep _ ih =>
    obtain ⟨k, hk⟩ := ih
    obtain ⟨e, he, hv⟩ := hstep
    refine ⟨k + 1, ?_⟩
    rw [run_step next' k _ _ e he, List.filterMap_cons_none hv, hk]

/-- A run through silent steps either shows nothing or continues from their end
with a shorter run. -/
theorem view_run_through {t t' : τ} (h : Relation.ReflTransGen (Silent next' view) t t') (m : ℕ) :
    ∃ k, k ≤ m ∧ (run next' m t).filterMap view = (run next' k t').filterMap view := by
  induction h using Relation.ReflTransGen.head_induction_on generalizing m with
  | refl => exact ⟨m, Nat.le_refl _, rfl⟩
  | head hstep _ ih =>
    obtain ⟨e, he, hv⟩ := hstep
    cases m with
    | zero => exact ⟨0, Nat.le_refl _, rfl⟩
    | succ m =>
      obtain ⟨k, hk, hrun⟩ := ih m
      refine ⟨k, by omega, ?_⟩
      rw [run_step next' m _ _ e he, List.filterMap_cons_none hv, hrun]

/-- Every abstract trace is the view of a concrete one. -/
theorem trace_forward (hsim : ∀ s t, R s t → Matched next next' view R s t) (n : ℕ) :
    ∀ s t, R s t → ∃ m, (run next' m t).filterMap view = run next n s := by
  induction n with
  | zero => exact fun s t _ => ⟨0, rfl⟩
  | succ n ih =>
    intro s t hR
    obtain ⟨t', hsil, hm⟩ := hsim s t hR
    rcases hs : next s with - | ⟨e, o⟩
    · exact ⟨0, by rw [run_stuck next _ s hs, run_zero]; rfl⟩
    · simp only [hs] at hm
      obtain ⟨e', o', ht', hv, ho⟩ := hm
      cases ho with
      | none =>
        obtain ⟨k, hk⟩ := view_run_silent hsil 1
        refine ⟨k, ?_⟩
        rw [hk, run_halt next' 0 t' e' ht', run_halt next n s e hs]
        simp [hv]
      | some hrel =>
        obtain ⟨m, hm⟩ := ih _ _ hrel
        obtain ⟨k, hk⟩ := view_run_silent hsil (m + 1)
        refine ⟨k, ?_⟩
        rw [hk, run_step next' m t' _ e' ht', run_step next n s _ e hs,
          List.filterMap_cons_some hv, hm]

/-- Every concrete trace views as an abstract one. -/
theorem trace_backward (hsim : ∀ s t, R s t → Matched next next' view R s t) (m : ℕ) :
    ∀ s t, R s t → ∃ n, (run next' m t).filterMap view = run next n s := by
  induction m using Nat.strongRecOn with
  | ind m ih =>
    intro s t hR
    obtain ⟨t', hsil, hm⟩ := hsim s t hR
    obtain ⟨k, hkm, hk⟩ := view_run_through hsil m
    rw [hk]
    cases k with
    | zero => exact ⟨0, rfl⟩
    | succ k =>
      rcases hs : next s with - | ⟨e, o⟩
      · simp only [hs] at hm
        exact ⟨0, by rw [run_stuck next' _ t' hm, run_zero]; rfl⟩
      · simp only [hs] at hm
        obtain ⟨e', o', ht', hv, ho⟩ := hm
        cases ho with
        | none =>
          refine ⟨1, ?_⟩
          rw [run_halt next' k t' e' ht', run_halt next 0 s e hs]
          simp [hv]
        | some hrel =>
          obtain ⟨n, hn⟩ := ih k (by omega) _ _ hrel
          refine ⟨n + 1, ?_⟩
          rw [run_step next' k t' _ e' ht', run_step next n s _ e hs,
            List.filterMap_cons_some hv, hn]

/-! ### Equal traces up to a view -/

/-- The runs from `t` show the runs from `s`, and nothing else. -/
structure SameTraces (next : σ → Option (ε × Option σ)) (next' : τ → Option (κ × Option τ))
    (view : κ → Option ε) (s : σ) (t : τ) : Prop where
  forward : ∀ n, ∃ m, (run next' m t).filterMap view = run next n s
  backward : ∀ m, ∃ n, (run next' m t).filterMap view = run next n s

theorem SameTraces.of_matched (hsim : ∀ s t, R s t → Matched next next' view R s t) {s : σ} {t : τ}
    (h : R s t) : SameTraces next next' view s t :=
  ⟨fun n => trace_forward hsim n s t h, fun m => trace_backward hsim m s t h⟩

theorem SameTraces.refl (next : σ → Option (ε × Option σ)) (s : σ) :
    SameTraces next next some s s :=
  ⟨fun n => ⟨n, List.filterMap_some⟩, fun m => ⟨m, List.filterMap_some⟩⟩

theorem SameTraces.trans {ρ ι : Type*} {next'' : ρ → Option (ι × Option ρ)} {view' : ι → Option κ}
    {s : σ} {t : τ} {u : ρ} (h : SameTraces next next' view s t)
    (h' : SameTraces next' next'' view' t u) :
    SameTraces next next'' (fun e => (view' e).bind view) s u := by
  constructor
  · intro n
    obtain ⟨m, hm⟩ := h.forward n
    obtain ⟨k, hk⟩ := h'.forward m
    exact ⟨k, by rw [← List.filterMap_filterMap, hk, hm]⟩
  · intro k
    obtain ⟨m, hm⟩ := h'.backward k
    obtain ⟨n, hn⟩ := h.backward m
    exact ⟨n, by rw [← List.filterMap_filterMap, hm, hn]⟩

end Lib.TraceSimulation
