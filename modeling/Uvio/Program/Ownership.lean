import Mathlib.Logic.Function.Basic

/-!
# Objects that own resources

A library for objects that come and go and hold one resource each or none, such as
unique pointers. It names no program.

- `Holders`: which objects are alive, and what each of them holds.
- `Exclusive`: no resource is held twice.
- `Exclusive.put`, `Exclusive.remove`, `Exclusive.transfer`: it is kept when a fresh
  resource is stored, when an object goes away, and when a resource moves on.
-/

namespace Uvio.Program

variable {ι κ : Type}

/-- The objects that are alive, each with the resource it holds. -/
abbrev Holders (ι κ : Type) := ι → Option (Option κ)

namespace Holders

/-- Object `i` is alive and holds `k`. -/
def Holds (o : Holders ι κ) (i : ι) (k : κ) : Prop := o i = some (some k)

/-- No resource is held by two objects. -/
def Exclusive (o : Holders ι κ) : Prop := ∀ i j k, o.Holds i k → o.Holds j k → i = j

theorem join_eq_some {o : Holders ι κ} {i : ι} {k : κ} : (o i).join = some k ↔ o.Holds i k :=
  Option.join_eq_some_iff

variable [DecidableEq ι]

/-- Object `i` is alive and holds `v`, whatever it was before. -/
def put (o : Holders ι κ) (i : ι) (v : Option κ) : Holders ι κ := Function.update o i (some v)

/-- Object `i` goes away. -/
def remove (o : Holders ι κ) (i : ι) : Holders ι κ := Function.update o i none

/-- What `i` holds moves to `j`, whatever `j` was before. -/
def transfer (o : Holders ι κ) (i j : ι) : Holders ι κ := (o.put j (o i).join).put i none

variable {o : Holders ι κ} {i j l : ι} {k : κ} {v : Option κ}

theorem holds_put : (o.put i v).Holds j k ↔ j = i ∧ v = some k ∨ j ≠ i ∧ o.Holds j k := by
  by_cases hj : j = i
  · subst hj
    simp [Holds, put]
  · simp [Holds, put, hj]

theorem holds_remove : (o.remove i).Holds j k ↔ j ≠ i ∧ o.Holds j k := by
  by_cases hj : j = i
  · subst hj
    simp [Holds, remove]
  · simp [Holds, remove, hj]

theorem holds_transfer (hij : i ≠ j) :
    (o.transfer i j).Holds l k ↔ l = j ∧ o.Holds i k ∨ l ≠ i ∧ l ≠ j ∧ o.Holds l k := by
  unfold transfer
  rw [holds_put, holds_put, join_eq_some]
  constructor
  · rintro (⟨-, hnone⟩ | ⟨hli, hlj | hlj⟩)
    · cases hnone
    · exact Or.inl hlj
    · exact Or.inr ⟨hli, hlj⟩
  · rintro (⟨rfl, hi⟩ | ⟨hli, hlj⟩)
    · exact Or.inr ⟨hij.symm, Or.inl ⟨rfl, hi⟩⟩
    · exact Or.inr ⟨hli, Or.inr hlj⟩

/-- A transfer changes the holders, not what is held, but for what it overwrites. -/
theorem exists_holds_transfer (hij : i ≠ j) :
    (∃ l, (o.transfer i j).Holds l k) ↔ ∃ l, l ≠ j ∧ o.Holds l k := by
  constructor
  · rintro ⟨l, hl⟩
    rcases (holds_transfer hij).mp hl with ⟨-, hi⟩ | ⟨-, hlj, hl⟩
    · exact ⟨i, hij, hi⟩
    · exact ⟨l, hlj, hl⟩
  · rintro ⟨l, hlj, hl⟩
    by_cases hli : l = i
    · exact ⟨j, (holds_transfer hij).mpr (Or.inl ⟨rfl, hli ▸ hl⟩)⟩
    · exact ⟨l, (holds_transfer hij).mpr (Or.inr ⟨hli, hlj, hl⟩)⟩

theorem Exclusive.put (h : Exclusive o) (hfresh : ∀ k, v = some k → ∀ j, ¬ o.Holds j k) :
    Exclusive (o.put i v) := by
  intro a b k ha hb
  rcases holds_put.mp ha with ⟨hai, hv⟩ | ⟨-, ha'⟩ <;>
    rcases holds_put.mp hb with ⟨hbi, hv'⟩ | ⟨-, hb'⟩
  · exact hai.trans hbi.symm
  · exact absurd hb' (hfresh k hv b)
  · exact absurd ha' (hfresh k hv' a)
  · exact h a b k ha' hb'

theorem Exclusive.remove (h : Exclusive o) : Exclusive (o.remove i) := fun a b k ha hb =>
  h a b k (holds_remove.mp ha).2 (holds_remove.mp hb).2

theorem Exclusive.transfer (h : Exclusive o) (hij : i ≠ j) : Exclusive (o.transfer i j) := by
  intro a b k ha hb
  rcases (holds_transfer hij).mp ha with ⟨haj, hi⟩ | ⟨hai, -, ha'⟩ <;>
    rcases (holds_transfer hij).mp hb with ⟨hbj, hi'⟩ | ⟨hbi, -, hb'⟩
  · exact haj.trans hbj.symm
  · exact absurd (h b i k hb' hi) hbi
  · exact absurd (h a i k ha' hi') hai
  · exact h a b k ha' hb'

end Holders

end Uvio.Program
