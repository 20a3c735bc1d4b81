import Mathlib.Data.List.Basic
import Mathlib.Data.List.Nodup
import Mathlib.Data.List.Perm.Basic

/-!
# Moving list elements out by position

Positions are counted from `k`, the position of the head, so that a suffix of a
longer list keeps the positions of its elements. `pickAt ps` takes the elements
at `ps` in the order of `ps`, `dropAt ps` leaves the others where they are.
-/

namespace Lib.Positions

variable {α : Type*}

/-! ### A list split at a position -/

section Split
variable {L pre l : List α} {a : α} {k : ℕ}

theorem getElem?_split (h : L = pre ++ a :: l) (hk : pre.length = k) : L[k]? = some a := by
  rw [h, ← hk, List.getElem?_append_right (Nat.le_refl _), Nat.sub_self]
  rfl

theorem drop_split (h : L = pre ++ a :: l) (hk : pre.length = k) : L.drop k = a :: l := by
  rw [h, ← hk, List.drop_left]

theorem take_drop_split (h : L = pre ++ a :: l) (hk : pre.length = k) (m : ℕ) :
    (L.take (k + m + 1)).drop k = a :: l.take m := by
  have hsub : k + m + 1 - k = m + 1 := by omega
  rw [List.drop_take, drop_split h hk, hsub, List.take_succ_cons]

theorem exists_split (h : L[k]? = some a) :
    ∃ t, L = L.take k ++ a :: t ∧ (L.take k).length = k := by
  obtain ⟨hlt, hget⟩ := List.getElem?_eq_some_iff.mp h
  refine ⟨L.drop (k + 1), ?_, List.length_take_of_le (Nat.le_of_lt hlt)⟩
  rw [← hget, ← List.drop_eq_getElem_cons hlt, List.take_append_drop]

end Split

theorem find?_notMem_take [DecidableEq α] {l : List α} (hl : l.Nodup) (k : ℕ) :
    (l.find? fun a => decide (a ∉ l.take k)) = l[k]? := by
  have htaken : ((l.take k).find? fun a => decide (a ∉ l.take k)) = none := by
    rw [List.find?_eq_none]
    intro a ha hfree
    exact of_decide_eq_true hfree ha
  have hsplit : ((l.take k ++ l.drop k).find? fun a => decide (a ∉ l.take k)) =
      ((l.take k).find? fun a => decide (a ∉ l.take k)).or
        ((l.drop k).find? fun a => decide (a ∉ l.take k)) := List.find?_append
  rw [List.take_append_drop, htaken, Option.none_or] at hsplit
  rw [hsplit, ← List.head?_drop]
  cases hdrop : l.drop k with
  | nil => rfl
  | cons a rest =>
    have hnodup : (l.take k ++ a :: rest).Nodup := by
      rw [← hdrop, List.take_append_drop]
      exact hl
    have hfree : a ∉ l.take k := fun ha =>
      List.disjoint_of_nodup_append hnodup ha List.mem_cons_self
    exact List.find?_cons_of_pos (decide_eq_true hfree)

/-! ### Moving elements -/

/-- The element at position `p` of a list whose head is at position `k`. -/
def elemAt (k : ℕ) (l : List α) (p : ℕ) : Option α := if p < k then none else l[p - k]?

def pickAt (ps : List ℕ) (k : ℕ) (l : List α) : List α := ps.filterMap (elemAt k l)

def dropAt (ps : List ℕ) : ℕ → List α → List α
  | _, [] => []
  | k, a :: l => if k ∈ ps then dropAt ps (k + 1) l else a :: dropAt ps (k + 1) l

theorem elemAt_self (k : ℕ) (a : α) (l : List α) : elemAt k (a :: l) k = some a := by
  simp [elemAt]

theorem elemAt_cons_ne (k : ℕ) (a : α) (l : List α) {p : ℕ} (hp : p ≠ k) :
    elemAt k (a :: l) p = elemAt (k + 1) l p := by
  by_cases hlt : p < k
  · simp [elemAt, hlt, Nat.lt_succ_of_lt hlt]
  · have hk : p - k = p - (k + 1) + 1 := by omega
    have hk1 : ¬ p < k + 1 := by omega
    simp [elemAt, hlt, hk1, hk]

theorem elemAt_succ_self (k : ℕ) (l : List α) : elemAt (k + 1) l k = none := by
  simp [elemAt]

theorem elemAt_append_left {k : ℕ} {l m : List α} {p : ℕ} {a : α} (h : elemAt k l p = some a) :
    elemAt k (l ++ m) p = some a := by
  unfold elemAt at h ⊢
  split at h
  · cases h
  · rename_i hp
    rw [if_neg hp]
    exact List.getElem?_append_left (List.getElem?_eq_some_iff.mp h).1 ▸ h

theorem elemAt_append_right (k : ℕ) (l m : List α) {p : ℕ} (hp : k + l.length ≤ p) :
    elemAt k (l ++ m) p = elemAt (k + l.length) m p := by
  have h1 : ¬ p < k := by omega
  have h2 : ¬ p < k + l.length := by omega
  have h3 : p - k - l.length = p - (k + l.length) := by omega
  rw [elemAt, elemAt, if_neg h1, if_neg h2, List.getElem?_append_right (by omega), h3]

theorem pickAt_append_right (ps : List ℕ) (k : ℕ) (l m : List α)
    (h : ∀ p ∈ ps, k + l.length ≤ p) : pickAt ps k (l ++ m) = pickAt ps (k + l.length) m :=
  List.filterMap_congr fun p hp => elemAt_append_right k l m (h p hp)

theorem dropAt_append (ps : List ℕ) (k : ℕ) (l m : List α) :
    dropAt ps k (l ++ m) = dropAt ps k l ++ dropAt ps (k + l.length) m := by
  induction l generalizing k with
  | nil => rfl
  | cons a l ih =>
    have hlen : k + 1 + l.length = k + (a :: l).length := by simp only [List.length_cons]; omega
    simp only [List.cons_append, dropAt, ih (k + 1), hlen]
    split <;> rfl

theorem dropAt_sublist (ps : List ℕ) (k : ℕ) (l : List α) : (dropAt ps k l).Sublist l := by
  induction l generalizing k with
  | nil => exact List.Sublist.refl _
  | cons a l ih =>
    simp only [dropAt]
    split
    · exact (ih (k + 1)).cons a
    · exact (ih (k + 1)).cons_cons a

theorem exists_occurrence_cons {P : List α → List α → Prop} {a b : α} {l : List α} :
    (∃ init t, b :: l = init ++ a :: t ∧ P init t) ↔
      (b = a ∧ P [] l) ∨ ∃ init t, l = init ++ a :: t ∧ P (b :: init) t := by
  constructor
  · intro hocc
    obtain ⟨init, t, hl, h⟩ := hocc
    rcases List.cons_eq_append_iff.mp hl with ⟨rfl, ht⟩ | ⟨init', rfl, hl'⟩
    · cases ht
      exact Or.inl ⟨rfl, h⟩
    · exact Or.inr ⟨init', t, hl', h⟩
  · intro hocc
    rcases hocc with ⟨rfl, h⟩ | ⟨init, t, rfl, h⟩
    · exact ⟨[], l, rfl, h⟩
    · exact ⟨b :: init, t, rfl, h⟩

theorem not_exists_occurrence_nil {P : List α → List α → Prop} {a : α} :
    ¬ ∃ init t, [] = init ++ a :: t ∧ P init t := by
  intro hocc
  obtain ⟨init, t, hl, -⟩ := hocc
  exact List.append_ne_nil_of_right_ne_nil init (List.cons_ne_nil a t) hl.symm

theorem add_length_cons (k : ℕ) (b : α) (l : List α) : k + (b :: l).length = k + 1 + l.length := by
  rw [List.length_cons]
  omega

theorem mem_dropAt {ps : List ℕ} {k : ℕ} {l : List α} {a : α} :
    a ∈ dropAt ps k l ↔ ∃ init t, l = init ++ a :: t ∧ k + init.length ∉ ps := by
  induction l generalizing k with
  | nil => exact iff_of_false List.not_mem_nil not_exists_occurrence_nil
  | cons b l ih =>
    simp only [exists_occurrence_cons, add_length_cons, ← ih, List.length_nil, Nat.add_zero,
      dropAt]
    split
    · rename_i hk
      exact ⟨Or.inr, fun h => h.elim (fun h => absurd hk h.2) id⟩
    · rename_i hk
      rw [List.mem_cons]
      exact or_congr_left ⟨fun h => ⟨h.symm, hk⟩, fun h => h.1.symm⟩

/-- Nothing is lost and nothing duplicated by moving elements out. -/
theorem pickAt_dropAt_perm (ps : List ℕ) (hps : ps.Nodup) (k : ℕ) (l : List α) :
    (pickAt ps k l ++ dropAt ps k l).Perm l := by
  induction l generalizing k with
  | nil =>
    have he : pickAt ps k ([] : List α) = [] := by
      simp [pickAt, List.filterMap_eq_nil_iff, elemAt]
    rw [he]
    exact List.Perm.refl _
  | cons a l ih =>
    by_cases hk : k ∈ ps
    · have hsplit : (pickAt ps k (a :: l)).Perm (a :: pickAt ps (k + 1) l) := by
        have hperm := List.perm_cons_erase hk
        have hrest : pickAt (ps.erase k) k (a :: l) = pickAt (ps.erase k) (k + 1) l :=
          List.filterMap_congr fun p hp =>
            elemAt_cons_ne k a l fun he => by
              subst he
              exact (List.Nodup.not_mem_erase hps) hp
        calc (pickAt ps k (a :: l)).Perm (pickAt (k :: ps.erase k) k (a :: l)) :=
              hperm.filterMap _
          _ = a :: pickAt (ps.erase k) (k + 1) l := by
              rw [← hrest, pickAt, List.filterMap_cons_some (elemAt_self k a l)]
              rfl
          _ = a :: pickAt (k :: ps.erase k) (k + 1) l := by
              rw [pickAt, pickAt, List.filterMap_cons_none (elemAt_succ_self k l)]
          List.Perm _ (a :: pickAt ps (k + 1) l) := (hperm.symm.filterMap _).cons a
      simp only [dropAt, if_pos hk]
      exact (hsplit.append_right _).trans ((ih (k + 1)).cons a)
    · have hsame : pickAt ps k (a :: l) = pickAt ps (k + 1) l :=
        List.filterMap_congr fun p hp => elemAt_cons_ne k a l fun he => hk (he ▸ hp)
      simp only [dropAt, if_neg hk, hsame]
      exact List.perm_middle.trans ((ih (k + 1)).cons a)

theorem filterMap_dropAt {β : Type*} (f : α → Option β) (ps : List ℕ) (k : ℕ) (l : List α)
    (h : ∀ p ∈ ps, ∀ a, elemAt k l p = some a → f a = none) :
    (dropAt ps k l).filterMap f = l.filterMap f := by
  induction l generalizing k with
  | nil => rfl
  | cons a l ih =>
    have htail : ∀ p ∈ ps, ∀ b, elemAt (k + 1) l p = some b → f b = none := by
      intro p hp b hb
      by_cases hpk : p = k
      · rw [hpk, elemAt_succ_self] at hb
        cases hb
      · exact h p hp b (by rw [elemAt_cons_ne k a l hpk, hb])
    by_cases hk : k ∈ ps
    · have hf : f a = none := h k hk a (elemAt_self k a l)
      simp only [dropAt, if_pos hk, List.filterMap_cons_none hf]
      exact ih (k + 1) htail
    · simp only [dropAt, if_neg hk, List.filterMap_cons, ih (k + 1) htail]

theorem filter_dropAt (q : α → Bool) (ps : List ℕ) (k : ℕ) (l : List α)
    (h : ∀ p ∈ ps, ∀ a, elemAt k l p = some a → q a = false) :
    (dropAt ps k l).filter q = l.filter q := by
  rw [← List.filterMap_eq_filter]
  exact filterMap_dropAt _ ps k l fun p hp a ha => by simp [h p hp a ha]

end Lib.Positions
