import Mathlib.Algebra.Ring.Nat
import Mathlib.Data.List.Basic

/-!
# Pieces of a sequence

A sequence that comes in pieces, of which a front was taken. It names no program.

- `dropPieces n pieces`: the pieces behind the first `n` elements. What is left of a
  piece that was taken in part is a piece.
- `Edge pieces n`: one of the pieces ends behind the first `n` elements.
- `edge_add`, `edge_le`: the next edge is at the end of the first piece that is left.
-/

namespace Uvio.Program

variable {α : Type}

/-- What is left of the pieces behind the first `n` elements. -/
def dropPieces : Nat → List (List α) → List (List α)
  | _, [] => []
  | n, x :: xs => if x.length ≤ n then dropPieces (n - x.length) xs else x.drop n :: xs

/-- The first `n` elements are a number of whole pieces. -/
def Edge (pieces : List (List α)) (n : Nat) : Prop := ∃ k, (pieces.take k).flatten.length = n

section Pieces

variable {pieces xs rest : List (List α)} {x : List α} {n m : Nat}

theorem dropPieces_of_le (h : x.length ≤ n) :
    dropPieces n (x :: xs) = dropPieces (n - x.length) xs := if_pos h

theorem dropPieces_of_lt (h : n < x.length) : dropPieces n (x :: xs) = x.drop n :: xs :=
  if_neg (Nat.not_le.mpr h)

/-- Nothing is taken. -/
theorem dropPieces_zero (hne : ∀ x ∈ pieces, x ≠ []) : dropPieces 0 pieces = pieces := by
  cases pieces with
  | nil => rfl
  | cons x xs => rw [dropPieces_of_lt (List.length_pos_iff.mpr (hne x (.head _))), List.drop_zero]

@[simp] theorem flatten_dropPieces (n : Nat) (pieces : List (List α)) :
    (dropPieces n pieces).flatten = pieces.flatten.drop n := by
  induction pieces generalizing n with
  | nil => exact List.drop_nil.symm
  | cons x xs ih =>
    rw [List.flatten_cons, List.drop_append]
    rcases Nat.lt_or_ge n x.length with h | h
    · rw [dropPieces_of_lt h, List.flatten_cons, Nat.sub_eq_zero_of_le (Nat.le_of_lt h),
        List.drop_zero]
    · rw [dropPieces_of_le h, ih, List.drop_eq_nil_of_le h, List.nil_append]

/-- No piece that is left is empty. -/
theorem ne_nil_of_mem_dropPieces (hne : ∀ x ∈ pieces, x ≠ []) (n : Nat) :
    ∀ x ∈ dropPieces n pieces, x ≠ [] := by
  induction pieces generalizing n with
  | nil => exact nofun
  | cons x xs ih =>
    rcases Nat.lt_or_ge n x.length with h | h
    · rw [dropPieces_of_lt h]
      intro y hy
      rcases List.mem_cons.mp hy with rfl | hy
      · exact fun hnil => absurd (List.drop_eq_nil_iff.mp hnil) (Nat.not_le.mpr h)
      · exact hne y (.tail _ hy)
    · rw [dropPieces_of_le h]
      exact ih (fun y hy => hne y (.tail _ hy)) _

theorem edge_zero (pieces : List (List α)) : Edge pieces 0 := ⟨0, rfl⟩

theorem edge_cons : Edge (x :: xs) n ↔ n = 0 ∨ x.length ≤ n ∧ Edge xs (n - x.length) := by
  constructor
  · rintro ⟨k, rfl⟩
    cases k with
    | zero => exact Or.inl rfl
    | succ k =>
      refine Or.inr ⟨?_, k, ?_⟩
      · simp
      · simp
  · rintro (rfl | ⟨hle, k, hk⟩)
    · exact edge_zero _
    · refine ⟨k + 1, ?_⟩
      rw [List.take_succ_cons, List.flatten_cons, List.length_append, hk]
      omega

/-- The first piece that is left ends at an edge, -/
theorem edge_add (h : dropPieces n pieces = x :: rest) : Edge pieces (n + x.length) := by
  induction pieces generalizing n with
  | nil => cases h
  | cons y ys ih =>
    rcases Nat.lt_or_ge n y.length with hlt | hge
    · rw [dropPieces_of_lt hlt] at h
      obtain ⟨rfl, rfl⟩ := List.cons.inj h
      have hlen : n + (y.drop n).length = y.length := by
        rw [List.length_drop]
        omega
      rw [hlen, edge_cons, Nat.sub_self]
      exact Or.inr ⟨Nat.le_refl _, edge_zero _⟩
    · rw [dropPieces_of_le hge] at h
      refine edge_cons.mpr (Or.inr ⟨by omega, ?_⟩)
      rw [Nat.sub_add_comm hge]
      exact ih h

/-- and there is none before. -/
theorem edge_le (h : dropPieces n pieces = x :: rest) (hm : Edge pieces m) (hlt : n < m) :
    n + x.length ≤ m := by
  induction pieces generalizing n m with
  | nil => cases h
  | cons y ys ih =>
    rcases edge_cons.mp hm with rfl | ⟨hle, hm'⟩
    · exact absurd hlt (Nat.not_lt_zero n)
    · rcases Nat.lt_or_ge n y.length with hn | hn
      · rw [dropPieces_of_lt hn] at h
        obtain ⟨rfl, rfl⟩ := List.cons.inj h
        rw [List.length_drop]
        omega
      · rw [dropPieces_of_le hn] at h
        have := ih h hm' (by omega)
        omega

/-- Taking a front of the first piece that is left. -/
theorem dropPieces_add (h : dropPieces n pieces = x :: rest) {j : Nat} (hj : j < x.length) :
    dropPieces (n + j) pieces = x.drop j :: rest := by
  induction pieces generalizing n with
  | nil => cases h
  | cons y ys ih =>
    rcases Nat.lt_or_ge n y.length with hn | hn
    · rw [dropPieces_of_lt hn] at h
      obtain ⟨rfl, rfl⟩ := List.cons.inj h
      rw [List.length_drop] at hj
      rw [dropPieces_of_lt (by omega), List.drop_drop]
    · rw [dropPieces_of_le hn] at h
      rw [dropPieces_of_le (by omega), Nat.sub_add_comm hn]
      exact ih h

/-- Taking the whole of it. -/
theorem dropPieces_add_length (hne : ∀ x ∈ pieces, x ≠ []) (h : dropPieces n pieces = x :: rest) :
    dropPieces (n + x.length) pieces = rest := by
  induction pieces generalizing n with
  | nil => cases h
  | cons y ys ih =>
    have hne' : ∀ z ∈ ys, z ≠ [] := fun z hz => hne z (.tail _ hz)
    rcases Nat.lt_or_ge n y.length with hn | hn
    · rw [dropPieces_of_lt hn] at h
      obtain ⟨rfl, rfl⟩ := List.cons.inj h
      have hlen : n + (y.drop n).length = y.length := by
        rw [List.length_drop]
        omega
      rw [hlen, dropPieces_of_le (Nat.le_refl _), Nat.sub_self, dropPieces_zero hne']
    · rw [dropPieces_of_le hn] at h
      rw [dropPieces_of_le (by omega), Nat.sub_add_comm hn]
      exact ih hne' h

end Pieces

end Uvio.Program
