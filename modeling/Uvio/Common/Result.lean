import Uvio.Common.Machine
import Uvio.Program.Stateful

/-!
# Results and coroutines

`Result<T>` carries a value or an `Error`; a coroutine of type `Task<T>` acts on
the state of the objects it holds references to. A coroutine may also not come
back at all, which is a `Stop` and not an `Error`: it stays suspended because the
event it waits for never comes, it goes round a loop for ever, an exception
leaves it (`unhandled_exception` terminates the process), or an `assert` fails.
-/

namespace Uvio

open Program

/-- `uvio::Error`, by its code. -/
inductive Error where
  | unexpectedEOF
  | writeZero
  | reuniteError
  | resolveFailed
  | unclassified
deriving DecidableEq, Repr

/-- `Result<T>`: `expected<T, Error>`. -/
abbrev Result (α : Type) := Except Error α

/-- Why a coroutine does not come back. -/
inductive Stop where
  /-- Suspended on an event that does not come. -/
  | pending
  /-- In a loop that is never left. -/
  | spin
  /-- An exception reached `unhandled_exception`. -/
  | terminate
  /-- A failed `assert`. -/
  | abort
deriving DecidableEq, Repr

/-- `Task<T>`, on the state `ρ` of the objects the coroutine works on. -/
abbrev Task (ρ : Type) := Prog Stop ρ

variable {ρ : Type}

/-- `max_size()` of `std::string` and `std::vector<char>`. -/
def maxSize : Nat := 2 ^ 63 - 1

/-- `resize(n)`: `std::length_error` beyond `max_size()`, new elements are zero. -/
def resize (s : Bytes) (n : Nat) : Task ρ Bytes :=
  if maxSize < n then Prog.stop .terminate
  else pure (s.take n ++ List.replicate (n - s.length) 0)

/-- A `resize` to a size a string can have. -/
theorem run_resize (dst : Bytes) {n : Nat} (h : n ≤ maxSize) (s : ρ) :
    ∃ dst', dst'.length = n ∧ (resize dst n : Task ρ Bytes).run s = .ok (dst', s) := by
  refine ⟨dst.take n ++ List.replicate (n - dst.length) 0, ?_, ?_⟩
  · rw [List.length_append, List.length_take, List.length_replicate]
    omega
  · unfold resize
    rw [if_neg (Nat.not_lt.mpr h)]
    rfl

/-- A `resize` gives the size asked for, or it is more than a string can have. -/
theorem resize_length (dst : Bytes) (n : Nat) (s : ρ) :
    Meets (resize dst n) s (fun out _ => out.length = n ∧ n ≤ maxSize)
      fun e => e = .terminate ∧ maxSize < n := by
  by_cases h : n ≤ maxSize
  · obtain ⟨dst', hdst, hrun⟩ := run_resize dst h s
    exact (meets_of_ok hrun).mpr ⟨hdst, h⟩
  · unfold resize
    rw [if_pos (Nat.lt_of_not_le h)]
    exact ⟨rfl, Nat.lt_of_not_le h⟩

theorem resize_simulates {τ : Type} {R : ρ → τ → Prop} (s : Bytes) (n : Nat) :
    Simulates R Eq (resize s n : Task ρ Bytes) (resize s n : Task τ Bytes) :=
  Simulates.ite (Simulates.stop _) (Simulates.pure rfl)

/-- `ASSERT(x)`, which `NDEBUG` compiles out. -/
def assertion (ndebug : Bool) (x : Bool) : Task ρ Unit :=
  if ndebug || x then pure () else Prog.stop .abort

@[simp] theorem assertion_true (ndebug : Bool) :
    assertion ndebug true = (pure () : Task ρ Unit) := by
  simp [assertion]

end Uvio
