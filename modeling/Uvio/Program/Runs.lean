import Mathlib.Logic.Function.Basic

/-!
# Runs of a transition system

A library for systems that take one action after the other, where an action may
not be possible in a state. It names no program.

- `Run step C init past s`: from `init` the actions `past` lead to `s`, and each of
  them was taken in a state that `C` allows it in. `C := fun _ _ => True` gives
  all runs.
- `Run.invariant`: what holds at the beginning and is kept by every allowed step
  holds at the end of every run. It may speak of the actions taken so far.
- `Run.member`: in a family of systems that act one at a time, each member goes
  through a run of its own.
- `foldlM_invariant`: the same along a list of actions from any state.
- `of_update_eq_some`: what an entry of a table is after one entry was set.
- `mapM_of_invariant`: calls with a memory of their own that answer as a function of
  the argument does.
-/

namespace Uvio.Program

variable {σ α : Type}

/-- The runs from `init` all of whose steps meet `C`. -/
inductive Run (step : σ → α → Option σ) (C : σ → α → Prop) (init : σ) : List α → σ → Prop where
  | nil : Run step C init [] init
  | snoc {past : List α} {s s' : σ} {a : α} (run : Run step C init past s) (allowed : C s a)
      (taken : step s a = some s') : Run step C init (past ++ [a]) s'

namespace Run

variable {step : σ → α → Option σ} {C : σ → α → Prop} {init : σ}

/-- **Invariants hold along runs.** -/
theorem invariant (I : List α → σ → Prop) (hinit : I [] init)
    (hstep : ∀ past s a s', I past s → C s a → step s a = some s' → I (past ++ [a]) s')
    {past : List α} {s : σ} (h : Run step C init past s) : I past s := by
  induction h with
  | nil => exact hinit
  | snoc _ allowed taken ih => exact hstep _ _ _ _ ih allowed taken

/-- A run is determined by its actions. -/
theorem foldlM_eq {past : List α} {s : σ} (h : Run step C init past s) :
    past.foldlM step init = some s := by
  induction h with
  | nil => rfl
  | snoc _ _ taken ih =>
    rw [List.foldlM_append, ih]
    show (step _ _ >>= fun s => pure s) = _
    rw [taken]
    rfl

end Run

theorem foldlM_cons_eq_some {step : σ → α → Option σ} {a : α} {actions : List α} {s s' : σ} :
    (a :: actions).foldlM step s = some s' ↔
      ∃ s₁, step s a = some s₁ ∧ actions.foldlM step s₁ = some s' := by
  rw [List.foldlM_cons]
  exact Option.bind_eq_some_iff

/-- **Invariants hold along a list of actions** from any state. -/
theorem foldlM_invariant {step : σ → α → Option σ} {actions : List α} (I : σ → Prop)
    (hstep : ∀ s a s', a ∈ actions → I s → step s a = some s' → I s') {s s' : σ} (h : I s)
    (hrun : actions.foldlM step s = some s') : I s' := by
  induction actions generalizing s with
  | nil =>
    obtain rfl := Option.some.inj hrun
    exact h
  | cons a actions ih =>
    obtain ⟨s₁, htaken, hrest⟩ := foldlM_cons_eq_some.mp hrun
    refine ih (fun s b s' hb => hstep s b s' (.tail _ hb)) ?_ hrest
    exact hstep s a s₁ (.head _) h htaken

/-- **Calls with a memory**: if under `I` each call answers as `f` and keeps `I`, so do
the calls one after the other. -/
theorem mapM_of_invariant {β : Type} {call : α → StateM σ β} {f : α → β} {args : List α}
    (I : σ → Prop)
    (hcall : ∀ a ∈ args, ∀ s, I s → ((call a).run s).1 = f a ∧ I ((call a).run s).2) {s : σ}
    (h : I s) : ((args.mapM call).run s).1 = args.map f ∧ I ((args.mapM call).run s).2 := by
  induction args generalizing s with
  | nil => exact ⟨rfl, h⟩
  | cons a args ih =>
    obtain ⟨hanswer, hkept⟩ := hcall a (.head _) s h
    obtain ⟨hanswers, hend⟩ := ih (fun b hb => hcall b (.tail _ hb)) hkept
    rw [List.mapM_cons]
    exact ⟨congrArg₂ List.cons hanswer hanswers, hend⟩

/-- In a table in which one entry was set, an entry is that one or as it was. -/
theorem of_update_eq_some {ι β : Type} [DecidableEq ι] {table : ι → Option β} {i j : ι} {x y : β}
    (h : Function.update table i (some x) j = some y) :
    j = i ∧ x = y ∨ j ≠ i ∧ table j = some y := by
  rw [Function.update_apply] at h
  split at h
  next hji => exact Or.inl ⟨hji, Option.some.inj h⟩
  next hji => exact Or.inr ⟨hji, h⟩

/-! ## Families -/

section Family

variable {ι : Type} [DecidableEq ι]

/-- A family of systems: an action is one of one member. -/
def family (step : σ → α → Option σ) (s : ι → σ) (a : ι × α) : Option (ι → σ) :=
  (step (s a.1) a.2).map (Function.update s a.1)

/-- The actions of one member. -/
def own (i : ι) (past : List (ι × α)) : List α :=
  past.filterMap fun a => if a.1 = i then some a.2 else none

theorem own_snoc (i : ι) (past : List (ι × α)) (a : ι × α) :
    own i (past ++ [a]) = own i past ++ if a.1 = i then [a.2] else [] := by
  by_cases hi : a.1 = i <;> simp [own, hi]

/-- **A member goes through its own actions**, whatever the others do. -/
theorem Run.member {step : σ → α → Option σ} {C : (ι → σ) → ι × α → Prop} {init : ι → σ}
    {past : List (ι × α)} {s : ι → σ} (h : Run (family step) C init past s) (i : ι) :
    Run step (fun _ _ => True) (init i) (own i past) (s i) := by
  induction h with
  | nil => exact .nil
  | @snoc past s s' a _ _ taken ih =>
    obtain ⟨t, ht, rfl⟩ := Option.map_eq_some_iff.mp taken
    rw [own_snoc]
    by_cases hi : a.1 = i
    · subst hi
      rw [if_pos rfl, Function.update_self]
      exact .snoc ih trivial ht
    · rw [if_neg hi, List.append_nil, Function.update_of_ne (Ne.symm hi)]
      exact ih

end Family

end Uvio.Program
