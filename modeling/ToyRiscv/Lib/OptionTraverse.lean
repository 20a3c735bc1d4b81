import Mathlib.Data.List.Basic

/-!
# Traversing a list with a partial function

`List.mapM` into `Option`: when it succeeds, and what then stands at each position.
-/

namespace Lib.OptionTraverse

variable {α β : Type*} {f : α → Option β}

theorem exists_mapM {l : List α} (h : ∀ a ∈ l, ∃ b, f a = some b) : ∃ l', l.mapM f = some l' := by
  induction l with
  | nil => exact ⟨[], rfl⟩
  | cons a l ih =>
    obtain ⟨ha, hl⟩ := List.forall_mem_cons.mp h
    obtain ⟨b, hb⟩ := ha
    obtain ⟨l', hl'⟩ := ih hl
    exact ⟨b :: l', by rw [List.mapM_cons, hb, hl']; rfl⟩

theorem mapM_eq_map {g : α → β} {l : List α} (h : ∀ a ∈ l, f a = some (g a)) :
    l.mapM f = some (l.map g) := by
  induction l with
  | nil => rfl
  | cons a l ih =>
    obtain ⟨ha, hl⟩ := List.forall_mem_cons.mp h
    rw [List.mapM_cons, ha, ih hl]
    rfl

theorem mapM_cons_eq_some {a : α} {l : List α} {l' : List β} (h : (a :: l).mapM f = some l') :
    ∃ b l'', f a = some b ∧ l.mapM f = some l'' ∧ l' = b :: l'' := by
  rw [List.mapM_cons] at h
  obtain ⟨b, hb, h⟩ := Option.bind_eq_some_iff.mp h
  obtain ⟨l'', hl'', h⟩ := Option.bind_eq_some_iff.mp h
  exact ⟨b, l'', hb, hl'', (Option.some.inj h).symm⟩

theorem length_mapM {l : List α} {l' : List β} (h : l.mapM f = some l') :
    l'.length = l.length := by
  induction l generalizing l' with
  | nil =>
    cases h
    rfl
  | cons a l ih =>
    obtain ⟨b, l'', -, hl'', rfl⟩ := mapM_cons_eq_some h
    rw [List.length_cons, List.length_cons, ih hl'']

theorem getElem?_mapM {l : List α} {l' : List β} (h : l.mapM f = some l') (i : ℕ) :
    l'[i]? = l[i]?.bind f := by
  induction l generalizing l' i with
  | nil =>
    cases h
    rfl
  | cons a l ih =>
    obtain ⟨b, l'', hb, hl'', rfl⟩ := mapM_cons_eq_some h
    cases i with
    | zero => exact hb.symm
    | succ i => exact ih hl'' i

end Lib.OptionTraverse
