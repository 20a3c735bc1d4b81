import Mathlib.Data.BitVec
import Mathlib.Tactic.Common

/-!
# Words given by assignments to bit ranges

A word is described by a list of assignments, each of a value to a range of bit
positions, of which the last one to cover a bit decides it. A word is assembled
only if every bit of it is covered.
-/

namespace Lib.BitFields

/-- The value of the bits `lo .. lo + len - 1`. -/
structure Field where
  lo : ℕ
  len : ℕ
  value : BitVec len
  deriving DecidableEq, Repr

def Field.covers (f : Field) (i : ℕ) : Bool := decide (f.lo ≤ i ∧ i < f.lo + f.len)

/-- Bit `i` as the assignments leave it. -/
def bitAt : List Field → ℕ → Option Bool
  | [], _ => none
  | f :: fs, i => (bitAt fs i).or (if f.covers i then some (f.value.getLsbD (i - f.lo)) else none)

def Determined (n : ℕ) (fs : List Field) : Prop := ∀ i < n, (bitAt fs i).isSome = true

instance (n : ℕ) (fs : List Field) : Decidable (Determined n fs) :=
  inferInstanceAs (Decidable (∀ i < n, (bitAt fs i).isSome = true))

def ofBits (n : ℕ) (b : ℕ → Bool) : BitVec n :=
  (BitVec.ofBoolListLE ((List.range n).map b)).cast (by simp)

def assemble (n : ℕ) (fs : List Field) : Option (BitVec n) :=
  if Determined n fs then some (ofBits n fun i => (bitAt fs i).getD false) else none

theorem getLsbD_ofBits (n : ℕ) (b : ℕ → Bool) {i : ℕ} (hi : i < n) :
    (ofBits n b).getLsbD i = b i := by
  rw [ofBits, BitVec.getLsbD_cast, BitVec.getLsbD_ofBoolListLE, List.getD_eq_getElem?_getD,
    List.getElem?_map, List.getElem?_range hi]
  rfl

theorem bitAt_append (fs gs : List Field) (i : ℕ) :
    bitAt (fs ++ gs) i = (bitAt gs i).or (bitAt fs i) := by
  induction fs with
  | nil => simp [bitAt]
  | cons f fs ih => rw [List.cons_append, bitAt, bitAt, ih, Option.or_assoc]

theorem bitAt_eq_none {fs : List Field} {i : ℕ} (h : ∀ f ∈ fs, f.covers i = false) :
    bitAt fs i = none := by
  induction fs with
  | nil => rfl
  | cons f fs ih =>
    rw [bitAt, ih fun g hg => h g (List.mem_cons_of_mem _ hg), h f (List.mem_cons_self ..)]
    rfl

theorem bitAt_isSome (fs : List Field) (i : ℕ) :
    (bitAt fs i).isSome = fs.any fun f => f.covers i := by
  induction fs with
  | nil => rfl
  | cons f fs ih =>
    rw [bitAt, Option.isSome_or, ih, List.any_cons, Bool.or_comm]
    cases f.covers i <;> rfl

/-- Whether every bit is covered depends on the ranges only. -/
theorem determined_of_ranges {n : ℕ} {fs : List Field} (rs : List (ℕ × ℕ))
    (hrs : fs.map (fun f => (f.lo, f.len)) = rs)
    (h : ∀ i < n, rs.any (fun r => decide (r.1 ≤ i ∧ i < r.1 + r.2)) = true) :
    Determined n fs := by
  intro i hi
  have hi' := h i hi
  rw [← hrs, List.any_map] at hi'
  rw [bitAt_isSome]
  exact hi'

theorem assemble_eq_some {n : ℕ} {fs : List Field} (h : Determined n fs) :
    assemble n fs = some (ofBits n fun i => (bitAt fs i).getD false) := if_pos h

theorem determined_of_assemble {n : ℕ} {fs : List Field} {W : BitVec n}
    (h : assemble n fs = some W) : Determined n fs := by
  unfold assemble at h
  split at h
  · assumption
  · cases h

theorem getLsbD_assemble {n : ℕ} {fs : List Field} {W : BitVec n} (h : assemble n fs = some W)
    {i : ℕ} (hi : i < n) : some (W.getLsbD i) = bitAt fs i := by
  have hd := determined_of_assemble h
  rw [assemble_eq_some hd, Option.some.injEq] at h
  obtain ⟨b, hb⟩ := Option.isSome_iff_exists.mp (hd i hi)
  rw [← h, getLsbD_ofBits n _ hi, hb]
  rfl

theorem extract_assemble {n : ℕ} {fs : List Field} {W : BitVec n} (h : assemble n fs = some W)
    (k : ℕ) {lo len : ℕ} {v : BitVec len} (hf : fs[k]? = some ⟨lo, len, v⟩) (hle : lo + len ≤ n)
    (hlater : ∀ g ∈ fs.drop (k + 1), g.lo + g.len ≤ lo ∨ lo + len ≤ g.lo) :
    W.extractLsb' lo len = v := by
  obtain ⟨hk, hget⟩ := List.getElem?_eq_some_iff.mp hf
  have hsplit : fs = fs.take k ++ ⟨lo, len, v⟩ :: fs.drop (k + 1) := by
    rw [← hget, ← List.drop_eq_getElem_cons hk, List.take_append_drop]
  apply BitVec.eq_of_getLsbD_eq
  intro i hi
  have hcov : (Field.mk lo len v).covers (lo + i) = true := by
    simp only [Field.covers, decide_eq_true_eq]
    omega
  have hnone : bitAt (fs.drop (k + 1)) (lo + i) = none := by
    apply bitAt_eq_none
    intro g hg
    have := hlater g hg
    simp only [Field.covers, decide_eq_false_iff_not]
    omega
  have hbit := getLsbD_assemble h (i := lo + i) (by omega)
  rw [hsplit, bitAt_append, bitAt, hnone, Option.none_or, hcov, if_pos rfl, Option.some_or,
    Option.some.injEq, Nat.add_sub_cancel_left] at hbit
  rw [BitVec.getLsbD_extractLsb', decide_eq_true hi, Bool.true_and, hbit]

end Lib.BitFields
