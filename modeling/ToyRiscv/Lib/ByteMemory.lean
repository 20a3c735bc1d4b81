import Mathlib.Data.BitVec
import Mathlib.Logic.Function.Basic
import Mathlib.Tactic.Common

/-!
# Little-endian byte memory

A memory of bytes with `w`-bit addresses that wrap around, and the little-endian
words in it.
-/

namespace Lib.ByteMemory

abbrev Mem (w : ℕ) := BitVec w → BitVec 8

variable {w k : ℕ}

def addrAt (a : BitVec w) (i : ℕ) : BitVec w := a + BitVec.ofNat w i

/-- The word in the `n` bytes at `a`. -/
def readBytes (m : Mem w) (a : BitVec w) : (n : ℕ) → BitVec (8 * n)
  | 0 => 0#0
  | n + 1 => (m (addrAt a n) ++ readBytes m a n).cast (Nat.add_comm ..)

def byteOf (v : BitVec k) (i : ℕ) : BitVec 8 := v.extractLsb' (8 * i) 8

/-- The first `n` bytes of `v` put at `a`. -/
def writeBytes (m : Mem w) (a : BitVec w) (v : BitVec k) : ℕ → Mem w
  | 0 => m
  | n + 1 => Function.update (writeBytes m a v n) (addrAt a n) (byteOf v n)

theorem byteOf_readBytes (m : Mem w) (a : BitVec w) (n : ℕ) {i : ℕ} (hi : i < n) :
    byteOf (readBytes m a n) i = m (addrAt a i) := by
  induction n with
  | zero => omega
  | succ n ih =>
    apply BitVec.eq_of_getLsbD_eq
    intro j hj
    rw [byteOf, BitVec.getLsbD_extractLsb', decide_eq_true hj, Bool.true_and, readBytes,
      BitVec.getLsbD_cast, BitVec.getLsbD_append]
    by_cases hin : i < n
    · have hlt : 8 * i + j < 8 * n := by omega
      rw [if_pos hlt, ← ih hin, byteOf, BitVec.getLsbD_extractLsb', decide_eq_true hj,
        Bool.true_and]
    · have hi' : i = n := by omega
      subst hi'
      rw [if_neg (by omega), Nat.add_sub_cancel_left]

theorem eq_of_byteOf {n : ℕ} {u v : BitVec (8 * n)} (h : ∀ i < n, byteOf u i = byteOf v i) :
    u = v := by
  apply BitVec.eq_of_getLsbD_eq
  intro j hj
  have hbit := congrArg (fun b => b.getLsbD (j % 8)) (h (j / 8) (by omega))
  have hmod : j % 8 < 8 := Nat.mod_lt _ (by decide)
  simp only [byteOf, BitVec.getLsbD_extractLsb', decide_eq_true hmod, Bool.true_and,
    Nat.div_add_mod] at hbit
  exact hbit

theorem readBytes_eq_iff (m : Mem w) (a : BitVec w) (n : ℕ) (v : BitVec (8 * n)) :
    readBytes m a n = v ↔ ∀ i < n, m (addrAt a i) = byteOf v i := by
  constructor
  · intro h i hi
    rw [← h, byteOf_readBytes m a n hi]
  · intro h
    exact eq_of_byteOf fun i hi => (byteOf_readBytes m a n hi).trans (h i hi)

theorem addrAt_inj (a : BitVec w) {i j : ℕ} (hi : i < 2 ^ w) (hj : j < 2 ^ w)
    (h : addrAt a i = addrAt a j) : i = j := by
  have hnat := congrArg BitVec.toNat (BitVec.add_right_inj a |>.mp h)
  rw [BitVec.toNat_ofNat, BitVec.toNat_ofNat, Nat.mod_eq_of_lt hi, Nat.mod_eq_of_lt hj] at hnat
  exact hnat

theorem writeBytes_inside (m : Mem w) (a : BitVec w) (v : BitVec k) (n : ℕ) (hn : n ≤ 2 ^ w)
    {i : ℕ} (hi : i < n) : writeBytes m a v n (addrAt a i) = byteOf v i := by
  induction n with
  | zero => omega
  | succ n ih =>
    rw [writeBytes]
    by_cases hin : i = n
    · rw [hin, Function.update_self]
    · have hne : addrAt a i ≠ addrAt a n := fun h =>
        hin (addrAt_inj a (by omega) (by omega) h)
      rw [Function.update_of_ne hne, ih (by omega) (by omega)]

theorem writeBytes_outside (m : Mem w) (a : BitVec w) (v : BitVec k) (n : ℕ) {b : BitVec w}
    (hb : ∀ i < n, b ≠ addrAt a i) : writeBytes m a v n b = m b := by
  induction n with
  | zero => rfl
  | succ n ih =>
    rw [writeBytes, Function.update_of_ne (hb n (Nat.lt_succ_self n)),
      ih fun i hi => hb i (Nat.lt_succ_of_lt hi)]

theorem byteOf_setWidth (v : BitVec k) {n i : ℕ} (hi : i < n) :
    byteOf (v.setWidth (8 * n)) i = byteOf v i := by
  apply BitVec.eq_of_getLsbD_eq
  intro j hj
  have hlt : 8 * i + j < 8 * n := by omega
  rw [byteOf, byteOf, BitVec.getLsbD_extractLsb', BitVec.getLsbD_extractLsb',
    BitVec.getLsbD_setWidth, decide_eq_true hlt, Bool.true_and]

theorem readBytes_writeBytes (m : Mem w) (a : BitVec w) (n : ℕ) (v : BitVec k) (hn : n ≤ 2 ^ w) :
    readBytes (writeBytes m a v n) a n = v.setWidth (8 * n) :=
  (readBytes_eq_iff ..).mpr fun _ hi =>
    (writeBytes_inside m a v n hn hi).trans (byteOf_setWidth v hi).symm

theorem mem_ext_at {m m' : Mem w} (a : BitVec w) (n : ℕ)
    (hin : ∀ i < n, m (addrAt a i) = m' (addrAt a i))
    (hout : ∀ b, (∀ i < n, b ≠ addrAt a i) → m b = m' b) : m = m' := by
  funext b
  by_cases hb : ∃ i < n, b = addrAt a i
  · obtain ⟨i, hi, rfl⟩ := hb
    exact hin i hi
  · exact hout b fun i hi h => hb ⟨i, hi, h⟩

/-- A shorter write is the longer one exactly if the other bytes are there already. -/
theorem writeBytes_eq_longer_iff (m : Mem w) (a : BitVec w) (v : BitVec k) {n l : ℕ} (hnl : n ≤ l)
    (hl : l ≤ 2 ^ w) :
    writeBytes m a v n = writeBytes m a v l ↔
      ∀ i, n ≤ i → i < l → m (addrAt a i) = byteOf v i := by
  have hout : ∀ i, n ≤ i → i < l → writeBytes m a v n (addrAt a i) = m (addrAt a i) :=
    fun i hni hil => writeBytes_outside m a v n fun j hj h =>
      absurd (addrAt_inj a (by omega) (by omega) h) (by omega)
  constructor
  · intro h i hni hil
    rw [← hout i hni hil, h, writeBytes_inside m a v l hl hil]
  · intro h
    refine mem_ext_at a l (fun i hi => ?_) fun b hb => ?_
    · rw [writeBytes_inside m a v l hl hi]
      by_cases hin : i < n
      · exact writeBytes_inside m a v n (Nat.le_trans hnl hl) hin
      · rw [hout i (by omega) hi, h i (by omega) hi]
    · rw [writeBytes_outside m a v l hb,
        writeBytes_outside m a v n fun i hi => hb i (Nat.lt_of_lt_of_le hi hnl)]

end Lib.ByteMemory
