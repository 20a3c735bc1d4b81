import Mathlib.Data.Int.Notation
import Mathlib.Data.List.Basic

/-!
# Text that reads back in one way

Fields of a line stand between separators that do not occur in them, numbers are
decimal, and lines end in a newline.
-/

namespace Lib.Text

section Separators
variable {α : Type*} {p : α → Prop} {a b r s : List α} {c d : α}

/-- The first separator ends the field before it. -/
theorem append_cons_inj (ha : ∀ x ∈ a, ¬ p x) (hb : ∀ x ∈ b, ¬ p x) (hc : p c) (hd : p d)
    (h : a ++ c :: r = b ++ d :: s) : a = b ∧ c = d ∧ r = s := by
  induction a generalizing b with
  | nil =>
    cases b with
    | nil =>
      obtain ⟨hcd, hrs⟩ := List.cons_eq_cons.mp h
      exact ⟨rfl, hcd, hrs⟩
    | cons y b =>
      obtain ⟨hcy, -⟩ := List.cons_eq_cons.mp h
      exact absurd (hcy ▸ hc) (hb y (List.mem_cons_self ..))
  | cons x a ih =>
    cases b with
    | nil =>
      obtain ⟨hxd, -⟩ := List.cons_eq_cons.mp h
      exact absurd (hxd ▸ hd) (ha x (List.mem_cons_self ..))
    | cons y b =>
      obtain ⟨hxy, htail⟩ := List.cons_eq_cons.mp h
      obtain ⟨hab, hrest⟩ := ih (fun z hz => ha z (List.mem_cons_of_mem _ hz))
        (fun z hz => hb z (List.mem_cons_of_mem _ hz)) htail
      exact ⟨List.cons_eq_cons.mpr ⟨hxy, hab⟩, hrest⟩

/-- The last separator starts the field behind it. -/
theorem append_cons_inj_right (hr : ∀ x ∈ r, ¬ p x) (hs : ∀ x ∈ s, ¬ p x) (hc : p c) (hd : p d)
    (h : a ++ c :: r = b ++ d :: s) : a = b ∧ c = d ∧ r = s := by
  have hrev : r.reverse ++ c :: a.reverse = s.reverse ++ d :: b.reverse := by
    have h' := congrArg List.reverse h
    simpa only [List.reverse_append, List.reverse_cons, List.append_assoc,
      List.singleton_append] using h'
  have hr' : ∀ x ∈ r.reverse, ¬ p x := fun x hx => hr x (List.mem_reverse.mp hx)
  have hs' : ∀ x ∈ s.reverse, ¬ p x := fun x hx => hs x (List.mem_reverse.mp hx)
  obtain ⟨hrs, hcd, hab⟩ := append_cons_inj hr' hs' hc hd hrev
  exact ⟨List.reverse_injective hab, hcd, List.reverse_injective hrs⟩

end Separators

/-! ### Numbers -/

def digits (n : ℕ) : List Char := Nat.toDigits 10 n

theorem digits_injective {m n : ℕ} (h : digits m = digits n) : m = n := by
  have hvalue := congrArg (fun cs => Nat.ofDigitChars 10 cs 0) h
  simpa only [digits, Nat.ofDigitChars_ten_toDigits] using hvalue

theorem isDigit_of_mem_digits {n : ℕ} {c : Char} (h : c ∈ digits n) : c.isDigit = true :=
  Nat.isDigit_of_mem_toDigits (by decide) (by decide) h

def decimal (i : ℤ) : List Char := if i < 0 then '-' :: digits i.natAbs else digits i.natAbs

theorem mem_decimal {i : ℤ} {c : Char} (h : c ∈ decimal i) : c.isDigit = true ∨ c = '-' := by
  rw [decimal] at h
  split at h
  · rcases List.mem_cons.mp h with h | h
    · exact .inr h
    · exact .inl (isDigit_of_mem_digits h)
  · exact .inl (isDigit_of_mem_digits h)

theorem minus_notMem_digits (n : ℕ) : '-' ∉ digits n := fun h =>
  absurd (isDigit_of_mem_digits h) (by decide)

theorem decimal_injective {i j : ℤ} (h : decimal i = decimal j) : i = j := by
  rw [decimal, decimal] at h
  split at h <;> split at h
  · have habs := digits_injective (List.cons_eq_cons.mp h).2
    omega
  · exact absurd (h ▸ List.mem_cons_self ..) (minus_notMem_digits _)
  · exact absurd (h ▸ List.mem_cons_self ..) (minus_notMem_digits _)
  · have habs := digits_injective h
    omega

/-! ### Lines -/

def unlines (lines : List (List Char)) : List Char := lines.flatMap (· ++ ['\n'])

theorem unlines_injective {lines lines' : List (List Char)} (h : ∀ l ∈ lines, '\n' ∉ l)
    (h' : ∀ l ∈ lines', '\n' ∉ l) (heq : unlines lines = unlines lines') : lines = lines' := by
  induction lines generalizing lines' with
  | nil =>
    cases lines' with
    | nil => rfl
    | cons l' lines' => simp [unlines] at heq
  | cons l lines ih =>
    cases lines' with
    | nil => simp [unlines] at heq
    | cons l' lines' =>
      obtain ⟨hl, hlines⟩ := List.forall_mem_cons.mp h
      obtain ⟨hl', hlines'⟩ := List.forall_mem_cons.mp h'
      have hsplit : l ++ '\n' :: unlines lines = l' ++ '\n' :: unlines lines' := by
        simpa [unlines] using heq
      obtain ⟨hfirst, -, hrest⟩ := append_cons_inj (p := (· = '\n')) (fun x hx he => hl (he ▸ hx))
        (fun x hx he => hl' (he ▸ hx)) rfl rfl hsplit
      rw [hfirst, ih hlines hlines' hrest]

end Lib.Text
