import ToyRiscv.Patterns

/-!
# The patterns in 64-bit mode

`XLenVT` is `i64` there, but the pattern for constants goes through LUI, which
sign-extends a 32-bit word, and the full-width loads and stores are still LW and SW.
-/

namespace ToyRiscv
open Lib.ByteMemory

/-! ### Constants -/

theorem materialize_rv64_iff {c : BitVec 64} (hc : isInt 32 c.toInt) {upper rd : ℕ}
    (hupper : upper ≠ 0) (hrd : rd ≠ 0) (s : ArchState ℕ 64) :
    (run (materialize c upper rd) s).get rd = c ↔ c.toInt < 2 ^ 31 - 2048 := by
  rw [materialize_value (by decide) (by decide) hc hupper hrd, luiCarry]
  split_ifs with hlt
  · exact iff_of_true (BitVec.ofInt_toInt ..) hlt
  · refine iff_of_false (fun heq => ?_) hlt
    have hfits : isInt 64 (c.toInt - 2 ^ 32) := by
      have h0 := hc.1
      have h1 := hc.2
      exact ⟨by omega, by omega⟩
    have hval := toInt_ofInt_of_isInt (by decide) hfits
    rw [heq] at hval
    omega

theorem materialize_rv64_iff_maxInt :
    (run (materialize 0x7fffffff#64 1 2)
        (⟨fun _ => 0#64, fun _ => 0#8, 0#64⟩ : ArchState ℕ 64)).get 2 =
      0x7fffffff#64 ↔ (0x7fffffff#64).toInt < 2 ^ 31 - 2048 :=
  materialize_rv64_iff (by decide) (by decide) (by decide) _

theorem materialize_rv64_carry :
    isInt 32 (0x7ffff800#64).toInt ∧
      (run (materialize 0x7ffff800#64 1 2)
        (⟨fun _ => 0#64, fun _ => 0#8, 0#64⟩ : ArchState ℕ 64)).get 2 ≠ 0x7ffff800#64 := by
  decide

/-! ### Full-width memory access -/

/-- The store writes the eight bytes of the value and no other, the load then
returns the value, and the load alone returns the eight bytes held. -/
def FullWidthAccess (store : StoreOp) (load : LoadOp) (rs2 rs1 rd : ℕ) (offset : ℤ)
    (s : ArchState ℕ 64) : Prop :=
  let addr := s.get rs1 + BitVec.ofInt 64 offset
  let stored := (Inst.store store rs2 rs1 offset).exec s
  stored.mem = writeBytes s.mem addr (s.get rs2) 8 ∧
    ((Inst.load load rd rs1 offset).exec stored).get rd = s.get rs2 ∧
    ((Inst.load load rd rs1 offset).exec s).get rd = readBytes s.mem addr 8

/-- The upper half of the value is in memory already, and the value and the
doubleword held are the sign extensions of their low halves. -/
def LowWordSuffices (m : Mem 64) (addr v : BitVec 64) : Prop :=
  (∀ i, 4 ≤ i → i < 8 → m (addrAt addr i) = byteOf v i) ∧ (v.setWidth 32).signExtend 64 = v ∧
    (readBytes m addr 4).signExtend 64 = readBytes m addr 8

theorem stPat_store {inst : StoreOp} (hpat : (.store, inst) ∈ stPat) : inst = .sw := by
  simpa [stPat] using hpat

theorem ldPat_load {inst : LoadOp} (hpat : (.load, inst) ∈ ldPat) : inst = .lw := by
  simpa [ldPat] using hpat

theorem lw_value {rd rs1 : ℕ} (hrd : rd ≠ 0) {offset : ℤ} (hoff : isInt 12 offset)
    (s : ArchState ℕ 64) : ((Inst.load .lw rd rs1 offset).exec s).get rd =
      (readBytes s.mem (s.get rs1 + BitVec.ofInt 64 offset) 4).signExtend 64 := by
  rw [Inst.exec, get_next, get_set_self _ hrd, imm12Value_of_isInt (by decide) hoff, LoadOp.value]

theorem sw_mem {rs2 rs1 : ℕ} {offset : ℤ} (hoff : isInt 12 offset) (s : ArchState ℕ 64) :
    ((Inst.store .sw rs2 rs1 offset).exec s).mem =
      writeBytes s.mem (s.get rs1 + BitVec.ofInt 64 offset) (s.get rs2) 4 := by
  rw [Inst.exec, imm12Value_of_isInt (by decide) hoff, StoreOp.bytes]

theorem fullWidthAccess_iff {store : StoreOp} {load : LoadOp} (hst : (.store, store) ∈ stPat)
    (hld : (.load, load) ∈ ldPat) (rs2 rs1 : ℕ) {rd : ℕ} (hrd : rd ≠ 0) {offset : ℤ}
    (hoff : isInt 12 offset) (s : ArchState ℕ 64) :
    FullWidthAccess store load rs2 rs1 rd offset s ↔
      LowWordSuffices s.mem (s.get rs1 + BitVec.ofInt 64 offset) (s.get rs2) := by
  rw [stPat_store hst, ldPat_load hld]
  have hback :
      ((Inst.load .lw rd rs1 offset).exec ((Inst.store .sw rs2 rs1 offset).exec s)).get rd =
      ((s.get rs2).setWidth 32).signExtend 64 := by
    rw [lw_value hrd hoff, sw_mem hoff]
    exact congrArg (BitVec.signExtend 64) (readBytes_writeBytes s.mem _ 4 (s.get rs2) (by decide))
  simp only [FullWidthAccess, LowWordSuffices]
  rw [hback, sw_mem hoff, lw_value hrd hoff, writeBytes_eq_longer_iff _ _ _ (by decide) (by decide)]

theorem fullWidthAccess_iff_small :
    FullWidthAccess .sw .lw 2 1 3 8
        (⟨fun r => if r = 2 then 7#64 else 0#64, fun _ => 0#8, 0#64⟩ : ArchState ℕ 64) ↔
      LowWordSuffices (fun _ => 0#8) (0#64 + BitVec.ofInt 64 8) 7#64 :=
  fullWidthAccess_iff (by decide) (by decide) 2 1 (by decide) (by decide) _

/-- Bit 32 of the value is neither stored nor loaded. -/
theorem fullWidthAccess_bit32 :
    (.store, .sw) ∈ stPat ∧ (.load, .lw) ∈ ldPat ∧ ¬ FullWidthAccess .sw .lw 2 1 3 8
      (⟨fun r => if r = 2 then 0x100000000#64 else 0#64, fun _ => 0#8, 0#64⟩ : ArchState ℕ 64) := by
  refine ⟨by decide, by decide, fun h => ?_⟩
  exact absurd h.2.1 (by decide)

end ToyRiscv
