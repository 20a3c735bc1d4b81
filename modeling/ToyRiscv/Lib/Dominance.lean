import Mathlib.Data.List.Chain

/-!
# Dominance in a rooted directed graph

`Dominates E entry d u` is the textbook definition: every path from `entry` to
`u` passes through `d`. Its negation is reachability that avoids `d`, and that
is the form in which dominance is proved and used.
-/

namespace Lib.Dominance

variable {ν : Type*} {E : ν → ν → Prop} {entry d u : ν}

/-- Every path of `E` from `entry` to `u` passes through `d`. -/
def Dominates (E : ν → ν → Prop) (entry d u : ν) : Prop :=
  ∀ p : List ν, (entry :: p).IsChain E →
    (entry :: p).getLast (List.cons_ne_nil entry p) = u → d ∈ entry :: p

/-- Some path from `entry` to `u` has no node equal to `d`. -/
def ReachAvoiding (E : ν → ν → Prop) (entry d u : ν) : Prop :=
  entry ≠ d ∧ Relation.ReflTransGen (fun a b => E a b ∧ b ≠ d) entry u

theorem ReachAvoiding.root (h : entry ≠ d) : ReachAvoiding E entry d entry :=
  ⟨h, Relation.ReflTransGen.refl⟩

theorem ReachAvoiding.step {a b : ν} (h : ReachAvoiding E entry d a) (he : E a b)
    (hb : b ≠ d) : ReachAvoiding E entry d b :=
  ⟨h.1, h.2.tail ⟨he, hb⟩⟩

/-- What holds at the root and along every edge that stays off `d` holds of
everything reachable around `d`. -/
theorem ReachAvoiding.invariant {P : ν → Prop} (h : ReachAvoiding E entry d u)
    (h0 : entry ≠ d → P entry) (hs : ∀ a b, P a → E a b → b ≠ d → P b) : P u := by
  obtain ⟨hne, hr⟩ := h
  induction hr with
  | refl => exact h0 hne
  | tail _ hab ih => exact hs _ _ ih hab.1 hab.2

theorem ReachAvoiding.ne (h : ReachAvoiding E entry d u) : u ≠ d :=
  h.invariant id (fun _ _ _ _ hb => hb)

theorem dominates_iff : Dominates E entry d u ↔ ¬ ReachAvoiding E entry d u := by
  constructor
  · intro hdom hr
    obtain ⟨p, hp, hlast⟩ := List.exists_isChain_cons_of_relationReflTransGen hr.2
    have hmem := hdom p (hp.imp fun _ _ h => h.1) hlast
    rcases List.mem_cons.mp hmem with he | hin
    · exact hr.1 he.symm
    · have hall : ∀ x ∈ entry :: p, x ≠ d := by
        intro x hx
        refine List.IsChain.induction (· ≠ d) (entry :: p) hp (fun _ _ h _ => h.2) ?_ x hx
        intro _
        exact hr.1
      exact hall d hmem rfl
  · intro hr p hp hlast
    by_contra hmem
    have havoid : (entry :: p).IsChain fun a b => E a b ∧ b ≠ d :=
      hp.imp_of_mem_imp fun a b _ hb he => ⟨he, fun hbd => hmem (hbd ▸ hb)⟩
    refine hr ⟨fun he => hmem (he ▸ List.mem_cons_self ..), ?_⟩
    exact List.relationReflTransGen_of_exists_isChain_cons p havoid hlast

theorem dominates_self (E : ν → ν → Prop) (entry d : ν) : Dominates E entry d d :=
  dominates_iff.mpr fun h => h.ne rfl

end Lib.Dominance
