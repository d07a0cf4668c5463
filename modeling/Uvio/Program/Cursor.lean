import Mathlib.Data.List.Basic

/-!
# Reading by position

Computations that read a sequence at positions of their own choice, with a record of
the positions. It names no program.

- `index`, `scan`: one element; a loop that goes on to the next element of a kind.
- `Reading n x b W`: `x` returns `b`, and reads positions below `n` only if and only
  if `W`. The rules follow the ways computations are put together.
- `first_or_none`: a sequence cut at its first element of a kind, if it has one.
-/

namespace Uvio.Program

variable {α β γ : Type}

/-- Computations on the positions read so far. -/
abbrev Reads := StateM (List Nat)

/-- What a computation returns. -/
def Reads.value (x : Reads β) : β := (x.run []).1

/-- The positions it reads. -/
def Reads.positions (x : Reads β) : List Nat := (x.run []).2

/-- `s[i]`, and `z` for the element behind the last one. -/
def index (z : α) (s : List α) (i : Nat) : Reads α := fun past => (s.getD i z, past ++ [i])

/-- `while (i < s.size() && !stop(s[i])) ++i;`, with the `i` it ends at. -/
def scan (z : α) (stop : α → Bool) (s : List α) (i : Nat) : Reads Nat := do
  if i < s.length then
    if stop (← index z s i) then return i
    else scan z stop s (i + 1)
  else return i
termination_by s.length - i

/-! ## What is returned, and what is read -/

/-- `x` returns `b`, and the positions it reads are all below `n` if and only if `W`. -/
def Reading (n : Nat) (x : Reads β) (b : β) (W : Prop) : Prop :=
  ∀ past, ∃ reads, x.run past = (b, past ++ reads) ∧ ((∀ i ∈ reads, i < n) ↔ W)

namespace Reading

variable {n : Nat} {x : Reads β} {b : β} {W : Prop}

theorem value_eq (h : Reading n x b W) : x.value = b := by
  obtain ⟨reads, hrun, -⟩ := h []
  rw [Reads.value, hrun]

theorem forall_positions_iff (h : Reading n x b W) : (∀ i ∈ x.positions, i < n) ↔ W := by
  obtain ⟨reads, hrun, hreads⟩ := h []
  rw [Reads.positions, hrun]
  exact hreads

theorem congr {W' : Prop} (h : Reading n x b W) (hW : W ↔ W') : Reading n x b W' := by
  intro past
  obtain ⟨reads, hrun, hreads⟩ := h past
  exact ⟨reads, hrun, hreads.trans hW⟩

theorem mono {m : Nat} (h : Reading n x b True) (hnm : n ≤ m) : Reading m x b True := by
  intro past
  obtain ⟨reads, hrun, hreads⟩ := h past
  refine ⟨reads, hrun, iff_true_intro fun i hi => ?_⟩
  exact Nat.lt_of_lt_of_le (hreads.mpr True.intro i hi) hnm

protected theorem pure (n : Nat) (b : β) : Reading n (pure b : Reads β) b True := by
  intro past
  refine ⟨[], ?_, ?_⟩
  · rw [List.append_nil]
    rfl
  · simp

/-- The rule of sequencing. -/
theorem bind {f : β → Reads γ} {c : γ} {W' : Prop} (h : Reading n x b W)
    (hf : Reading n (f b) c W') : Reading n (x >>= f) c (W ∧ W') := by
  intro past
  obtain ⟨reads, hrun, hreads⟩ := h past
  obtain ⟨reads', hrun', hreads'⟩ := hf (past ++ reads)
  refine ⟨reads ++ reads', ?_, ?_⟩
  · rw [StateT.run_bind, hrun, ← List.append_assoc]
    exact hrun'
  · simp only [List.mem_append, or_imp, forall_and, hreads, hreads']

/-- Sequencing after a part that reads nothing beyond. -/
theorem andThen {f : β → Reads γ} {c : γ} {W' : Prop} (h : Reading n x b True)
    (hf : Reading n (f b) c W') : Reading n (x >>= f) c W' :=
  (h.bind hf).congr (and_iff_right True.intro)

theorem index (z : α) (s : List α) (i : Nat) :
    Reading n (index z s i) (s.getD i z) (i < n) := by
  intro past
  exact ⟨[i], rfl, by simp⟩

end Reading

/-- **A scan stays within the sequence** and ends behind the elements that do not stop it.
The induction is on how many elements there are from `i` on. -/
theorem scan_reading (z : α) (stop : α → Bool) (s : List α) (i : Nat) :
    Reading s.length (scan z stop s i) (i + ((s.drop i).takeWhile (!stop ·)).length) True := by
  induction hleft : s.length - i generalizing i with
  | zero =>
    rw [scan, if_neg (by omega), List.drop_eq_nil_of_le (by omega)]
    exact .pure _ i
  | succ left ih =>
    have hi : i < s.length := by omega
    have hread := Reading.index (n := s.length) z s i
    rw [List.getD_eq_getElem?_getD, List.getElem?_eq_getElem hi, Option.getD_some] at hread
    rw [scan, if_pos hi, List.drop_eq_getElem_cons hi]
    cases hstop : stop s[i] with
    | true =>
      have hleave : Reading s.length (if stop s[i] then pure i else scan z stop s (i + 1)) i
          True := by
        rw [if_pos hstop]
        exact .pure _ i
      rw [List.takeWhile_cons_of_neg (by simp [hstop])]
      exact (hread.bind hleave).congr (and_iff_left True.intro |>.trans (iff_true_intro hi))
    | false =>
      have hagain : Reading s.length (if stop s[i] then pure i else scan z stop s (i + 1))
          (i + (((s.drop (i + 1)).takeWhile (!stop ·)).length + 1)) True := by
        rw [if_neg (by simp [hstop]), ← Nat.add_assoc, Nat.add_right_comm]
        exact ih (i + 1) (by omega)
      rw [List.takeWhile_cons_of_pos (by simp [hstop]), List.length_cons]
      exact (hread.bind hagain).congr (and_iff_left True.intro |>.trans (iff_true_intro hi))

/-! ## The first element of a kind -/

/-- A sequence is cut at the first element of a kind, if it has one. -/
theorem first_or_none (stop : α → Bool) (s : List α) :
    (∀ c ∈ s, stop c = false) ∨
      ∃ front c rest, s = front ++ c :: rest ∧ (∀ d ∈ front, stop d = false) ∧ stop c = true := by
  induction s with
  | nil => exact Or.inl nofun
  | cons a s ih =>
    cases ha : stop a with
    | true => exact Or.inr ⟨[], a, s, rfl, nofun, ha⟩
    | false =>
      rcases ih with hnone | ⟨front, c, rest, rfl, hfront, hc⟩
      · exact Or.inl (List.forall_mem_cons.mpr ⟨ha, hnone⟩)
      · exact Or.inr ⟨a :: front, c, rest, rfl, List.forall_mem_cons.mpr ⟨ha, hfront⟩, hc⟩

/-- What a scan passes over in a sequence that is cut there. -/
theorem takeWhile_first {stop : α → Bool} {front rest : List α} {c : α}
    (hfront : ∀ d ∈ front, stop d = false) (hc : stop c = true) :
    (front ++ c :: rest).takeWhile (!stop ·) = front := by
  rw [List.takeWhile_append_of_pos, List.takeWhile_cons_of_neg, List.append_nil]
  · simp [hc]
  · intro d hd
    simp [hfront d hd]

end Uvio.Program
