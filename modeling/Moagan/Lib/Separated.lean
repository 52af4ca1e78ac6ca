import Mathlib.Data.List.Basic

/-!
# Texts joined by a separator

* `intercalate_inj`      texts without the separator are recovered from their join
* `intercalate_forge`    a text that holds the separator joins as the two texts around it
* `bytes`                the UTF-8 bytes of a text; below 128 every byte is a character of the text
* `repr_inj`             decimal notation tells numbers apart
-/

namespace Separated

section
variable {α : Type*} (sep : α)

theorem intercalate_concat {xs : List (List α)} (hxs : xs ≠ []) (x : List α) :
    [sep].intercalate (xs ++ [x]) = [sep].intercalate xs ++ sep :: x := by
  induction xs with
  | nil => exact absurd rfl hxs
  | cons y ys ih =>
    cases ys with
    | nil => simp
    | cons z zs =>
      have := ih (List.cons_ne_nil z zs)
      simp only [List.cons_append, List.intercalate_cons_cons] at this ⊢
      rw [this]
      simp

theorem intercalate_forge (xs ys : List (List α)) (a b : List α) :
    [sep].intercalate (xs ++ (a ++ sep :: b) :: ys) = [sep].intercalate (xs ++ a :: b :: ys) := by
  induction xs with
  | nil =>
    cases ys with
    | nil => simp
    | cons y ys => simp
  | cons x xs ih =>
    cases xs with
    | nil => simpa using ih
    | cons z zs =>
      simp only [List.cons_append, List.intercalate_cons_cons] at ih ⊢
      rw [ih]

variable [DecidableEq α]

/-- **Texts without the separator are recovered from their join.** -/
theorem intercalate_inj {xs ys : List (List α)} (hxs : xs ≠ []) (hys : ys ≠ [])
    (hx : ∀ x ∈ xs, sep ∉ x) (hy : ∀ y ∈ ys, sep ∉ y) :
    [sep].intercalate xs = [sep].intercalate ys ↔ xs = ys := by
  constructor
  · intro h
    rw [← List.splitOn_intercalate sep hx hxs, ← List.splitOn_intercalate sep hy hys, h]
  · intro h
    rw [h]

end

/-! ## text as bytes -/

def bytes (s : String) : List UInt8 := s.toList.flatMap String.utf8EncodeChar

theorem bytes_append (s t : String) : bytes (s ++ t) = bytes s ++ bytes t := by
  rw [bytes, String.toList_append, List.flatMap_append]
  rfl

theorem bytes_inj {s t : String} : bytes s = bytes t ↔ s = t := by
  constructor
  · intro h
    rw [← String.toByteArray_inj, ← String.utf8Encode_toList, ← String.utf8Encode_toList]
    exact congrArg List.toByteArray h
  · intro h
    rw [h]

/-- a byte below 128 stands for a character of its own -/
theorem mem_bytes_ascii {s : String} {b : UInt8} (hb : b.toNat < 128) (h : b ∈ bytes s) :
    Char.ofNat b.toNat ∈ s.toList := by
  obtain ⟨c, hc, hm⟩ := List.mem_flatMap.mp h
  suffices hcb : c.val.toNat = b.toNat by
    rw [← hcb]
    have : Char.ofNat c.val.toNat = c := Char.ofNat_toNat c
    rwa [this]
  unfold String.utf8EncodeChar at hm
  dsimp only at hm
  split_ifs at hm with h1 h2 h3
  all_goals
    simp only [List.mem_cons, List.not_mem_nil, or_false] at hm
  · rw [hm, UInt8.toNat_ofNat', Nat.mod_eq_of_lt (by omega)]
  · obtain rfl | rfl := hm <;> rw [UInt8.toNat_ofNat'] at hb <;> omega
  · obtain rfl | rfl | rfl := hm <;> rw [UInt8.toNat_ofNat'] at hb <;> omega
  · obtain rfl | rfl | rfl | rfl := hm <;> rw [UInt8.toNat_ofNat'] at hb <;> omega

theorem repr_inj {m n : ℕ} : m.repr = n.repr ↔ m = n := by
  constructor
  · intro h
    have hd := congrArg String.toList h
    rw [Nat.toList_repr, Nat.toList_repr] at hd
    rw [← Nat.ofDigitChars_toDigits (b := 10) (n := m) (by decide) (by decide), hd,
      Nat.ofDigitChars_toDigits (by decide) (by decide)]
  · intro h
    rw [h]

theorem mem_repr {n : ℕ} {c : Char} (h : c ∈ n.repr.toList) : c.isDigit = true := by
  rw [Nat.toList_repr] at h
  exact Nat.isDigit_of_mem_toDigits (by decide) (by decide) h

theorem repr_ne_empty (n : ℕ) : n.repr ≠ "" := by
  intro h
  have hd := congrArg String.toList h
  rw [Nat.toList_repr] at hd
  exact Nat.toDigits_ne_nil hd

end Separated
