import Mathlib.Data.Set.Insert

/-!
# Overwriting the entries of a table

One value written to every entry of a set. Two such writes are one over the union, so
neither repetition nor order matters.
-/

namespace Lib.Overwrite

variable {σ τ : Type*} {v : τ} {S S' : Set σ} {T : σ → τ} {s : σ}

open Classical in
noncomputable def overwrite (v : τ) (S : Set σ) (T : σ → τ) (s : σ) : τ :=
  if s ∈ S then v else T s

theorem overwrite_of_mem (h : s ∈ S) : overwrite v S T s = v := if_pos h

theorem overwrite_of_notMem (h : s ∉ S) : overwrite v S T s = T s := if_neg h

theorem overwrite_empty : overwrite v ∅ T = T :=
  funext fun s => overwrite_of_notMem (Set.notMem_empty s)

theorem overwrite_singleton [DecidableEq σ] (s : σ) :
    overwrite v {s} T = Function.update T s v := by
  funext t
  by_cases h : t = s
  · rw [overwrite_of_mem (Set.mem_singleton_iff.mpr h), h, Function.update_self]
  · rw [overwrite_of_notMem (mt Set.mem_singleton_iff.mp h), Function.update_of_ne h]

theorem overwrite_overwrite : overwrite v S' (overwrite v S T) = overwrite v (S ∪ S') T := by
  funext s
  by_cases h' : s ∈ S'
  · rw [overwrite_of_mem h', overwrite_of_mem (Set.mem_union_right S h')]
  · rw [overwrite_of_notMem h']
    by_cases h : s ∈ S
    · rw [overwrite_of_mem h, overwrite_of_mem (Set.mem_union_left S' h)]
    · have hunion : s ∉ S ∪ S' := mt (Set.mem_union s S S').mp (not_or.mpr ⟨h, h'⟩)
      rw [overwrite_of_notMem h, overwrite_of_notMem hunion]

theorem overwrite_idem : overwrite v S (overwrite v S T) = overwrite v S T := by
  rw [overwrite_overwrite, Set.union_self]

end Lib.Overwrite
