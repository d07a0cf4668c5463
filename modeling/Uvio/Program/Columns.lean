import Mathlib.Algebra.Ring.Nat

/-!
# Numbers in columns

A number written into a column of fixed width, the lowest digit first and from
the right. It names no program.

- `column`: the digits that end up in the column.
- `column_eq_leftpad`: these are the number as it is usually written, padded with
  zeros, if the column is wide enough.
-/

namespace Uvio.Program

variable {α : Type}

/-- The last `width` digits of `n` in base `b`, the highest first. -/
def column (digit : Nat → α) (b : Nat) : Nat → Nat → List α
  | 0, _ => []
  | width + 1, n => column digit b width (n / b) ++ [digit (n % b)]

@[simp] theorem length_column (digit : Nat → α) (b width n : Nat) :
    (column digit b width n).length = width := by
  induction width generalizing n with
  | zero => rfl
  | succ width ih => rw [column, List.length_append, ih, List.length_singleton]

/-- A column holds digits. -/
theorem forall_mem_column (P : α → Prop) {digit : Nat → α} {b : Nat} (hb : 0 < b)
    (hdigit : ∀ d < b, P (digit d)) (width n : Nat) : ∀ c ∈ column digit b width n, P c := by
  induction width generalizing n with
  | zero => exact fun c hc => absurd hc List.not_mem_nil
  | succ width ih =>
    intro c hc
    rw [column, List.mem_append, List.mem_singleton] at hc
    rcases hc with hc | rfl
    · exact ih (n / b) c hc
    · exact hdigit _ (Nat.mod_lt n hb)

/-- Padding leaves the last element where it is. -/
theorem leftpad_append_singleton (width : Nat) (a c : α) (l : List α) :
    (l ++ [c]).leftpad (width + 1) a = l.leftpad width a ++ [c] := by
  rw [List.leftpad, List.leftpad, List.length_append, List.length_singleton,
    Nat.add_sub_add_right, List.append_assoc]

/-- A single zero is padding. -/
theorem leftpad_zero (width : Nat) (a : α) :
    [a].leftpad (width + 1) a = [].leftpad (width + 1) a := by
  rw [← List.nil_append [a], leftpad_append_singleton, List.leftpad, List.leftpad, List.append_nil,
    List.append_nil]
  exact List.replicate_succ'.symm

/-- **A wide enough column holds the number**, padded with zeros. -/
theorem column_eq_leftpad {f : Char → α} {digit : Nat → α} {b : Nat} (hb : 1 < b)
    (hdigit : ∀ d < b, digit d = f d.digitChar) {width n : Nat} (h : n < b ^ (width + 1)) :
    column digit b (width + 1) n = ((Nat.toDigits b n).leftpad (width + 1) '0').map f := by
  induction width generalizing n with
  | zero =>
    have hn : n < b := by
      rwa [Nat.zero_add, Nat.pow_one] at h
    rw [column, column, List.nil_append, Nat.mod_eq_of_lt hn, hdigit n hn,
      Nat.toDigits_of_lt_base hn]
    rfl
  | succ width ih =>
    have hdiv : n / b < b ^ (width + 1) := Nat.div_lt_of_lt_mul (by rwa [← Nat.pow_succ'])
    rw [column, ih hdiv, hdigit _ (Nat.mod_lt n (by omega)), Nat.toDigits_eq_if hb (n := n)]
    split
    next hn =>
      -- one digit, and nothing but zeros in front of it
      rw [Nat.div_eq_of_lt hn, Nat.mod_eq_of_lt hn, Nat.toDigits_zero, leftpad_zero,
        ← List.nil_append [n.digitChar], leftpad_append_singleton, List.map_append]
      rfl
    next =>
      rw [leftpad_append_singleton, List.map_append]
      rfl

end Uvio.Program
