import Uvio.Program.Stateful
import Mathlib.Data.List.Forall2

/-!
# Bisimulation

`Simulates` carries what an abstract computation returns over to a concrete one. Here
two computations act alike in all they can do: they return together, or they stop
together, with the same reason, but that the first one may give up earlier. It names no
program.

- `Bisimilar E R S V x y`: from states related by `R`, `x` and `y` return values related by
  `V` in states related by `S`, or both stop with one reason, or `x` stops with one in `E`.
- `Bisimilar.bind`, `Bisimilar.ite`, `Bisimilar.loop`: how it is put together.
- `Bisimilar.ok_iff`: if `x` never gives up, what one of them returns, the other
  returns, too.
-/

namespace Uvio.Program

variable {ε σ τ α β γ δ : Type} {E : ε → Prop}

/-- Two outcomes that are alike, or the first is one of giving up. -/
def Alike (E : ε → Prop) (R : σ → τ → Prop) (V : α → β → Prop) :
    Except ε (α × σ) → Except ε (β × τ) → Prop
  | .ok (a, s), .ok (b, t) => V a b ∧ R s t
  | .error e, .error e' => e = e' ∨ E e
  | .error e, .ok _ => E e
  | .ok _, .error _ => False

/-- From states related by `R`, `x` and `y` return alike or stop with the same reason, unless
`x` stops with one in `E`. -/
def Bisimilar (E : ε → Prop) (R S : σ → τ → Prop) (V : α → β → Prop) (x : Prog ε σ α)
    (y : Prog ε τ β) : Prop :=
  ∀ s t, R s t → Alike E S V (x.run s) (y.run t)

/-- The outcomes that are alike. -/
theorem Alike.cases {R : σ → τ → Prop} {V : α → β → Prop} {p : Except ε (α × σ)}
    {q : Except ε (β × τ)} (h : Alike E R V p q) :
    (∃ a s b t, p = .ok (a, s) ∧ q = .ok (b, t) ∧ V a b ∧ R s t) ∨
      (∃ e, p = .error e ∧ q = .error e) ∨ ∃ e, p = .error e ∧ E e := by
  cases p with
  | error e =>
    cases q with
    | error e' =>
      rcases h with rfl | he
      · exact Or.inr (Or.inl ⟨e, rfl, rfl⟩)
      · exact Or.inr (Or.inr ⟨e, rfl, he⟩)
    | ok q => exact Or.inr (Or.inr ⟨e, rfl, h⟩)
  | ok p =>
    cases q with
    | error e' => exact False.elim h
    | ok q => exact Or.inl ⟨p.1, p.2, q.1, q.2, rfl, rfl, h⟩

/-- To give up is alike to everything. -/
theorem Alike.of_error {R : σ → τ → Prop} {V : α → β → Prop} {e : ε} (he : E e)
    (q : Except ε (β × τ)) : Alike E R V (.error e : Except ε (α × σ)) q := by
  cases q with
  | error e' => exact Or.inr he
  | ok q => exact he

namespace Bisimilar

variable {R S T : σ → τ → Prop} {V : α → β → Prop} {W : γ → δ → Prop} {x : Prog ε σ α}
  {y : Prog ε τ β}

theorem pure {a : α} {b : β} (hRS : ∀ s t, R s t → S s t) (h : V a b) :
    Bisimilar E R S V (Pure.pure a : Prog ε σ α) (Pure.pure b) :=
  fun s t hR => ⟨h, hRS s t hR⟩

theorem stop (e : ε) : Bisimilar E R S V (Prog.stop e) (Prog.stop e) := fun _ _ _ => Or.inl rfl

/-- More is asked of the states before, or less of those behind. -/
theorem mono {R' S' : σ → τ → Prop} (h : Bisimilar E R S V x y) (hR : ∀ s t, R' s t → R s t)
    (hS : ∀ s t, S s t → S' s t) : Bisimilar E R' S' V x y := by
  intro s t hR'
  rcases (h s t (hR s t hR')).cases with
    ⟨a, s', b, t', hx, hy, hV, hS'⟩ | ⟨e, hx, hy⟩ | ⟨e, hx, he⟩
  · rw [hx, hy]
    exact ⟨hV, hS s' t' hS'⟩
  · rw [hx, hy]
    exact Or.inl rfl
  · rw [hx]
    exact Alike.of_error he _

/-- Less is asked of the values. -/
theorem imp {V' : α → β → Prop} (h : Bisimilar E R S V x y) (hV : ∀ a b, V a b → V' a b) :
    Bisimilar E R S V' x y := by
  intro s t hR
  rcases (h s t hR).cases with ⟨a, s', b, t', hx, hy, hab, hS⟩ | ⟨e, hx, hy⟩ | ⟨e, hx, he⟩
  · rw [hx, hy]
    exact ⟨hV a b hab, hS⟩
  · rw [hx, hy]
    exact Or.inl rfl
  · rw [hx]
    exact Alike.of_error he _

/-- Alike parts, one after the other. -/
theorem bind {f : α → Prog ε σ γ} {g : β → Prog ε τ δ} (h : Bisimilar E R S V x y)
    (hf : ∀ a b, V a b → Bisimilar E S T W (f a) (g b)) :
    Bisimilar E R T W (x >>= f) (y >>= g) := by
  intro s t hR
  rcases (h s t hR).cases with ⟨a, s', b, t', hx, hy, hV, hS⟩ | ⟨e, hx, hy⟩ | ⟨e, hx, he⟩
  · rw [Prog.run_bind_of_ok hx, Prog.run_bind_of_ok hy]
    exact hf a b hV s' t' hS
  · rw [Prog.run_bind_of_error hx, Prog.run_bind_of_error hy]
    exact Or.inl rfl
  · rw [Prog.run_bind_of_error hx]
    exact Alike.of_error he _

/-- Parts that give the same value, one after the other. -/
theorem bind_eq {x : Prog ε σ α} {y : Prog ε τ α} {f : α → Prog ε σ γ} {g : α → Prog ε τ δ}
    (h : Bisimilar E R S Eq x y) (hf : ∀ a, Bisimilar E S T W (f a) (g a)) :
    Bisimilar E R T W (x >>= f) (y >>= g) :=
  h.bind fun a _ hab => hab ▸ hf a

theorem ite {c : Prop} [Decidable c] {x₁ x₂ : Prog ε σ α} {y₁ y₂ : Prog ε τ β}
    (h₁ : Bisimilar E R S V x₁ y₁) (h₂ : Bisimilar E R S V x₂ y₂) :
    Bisimilar E R S V (if c then x₁ else x₂) (if c then y₁ else y₂) := by
  by_cases hc : c
  · rw [if_pos hc, if_pos hc]
    exact h₁
  · rw [if_neg hc, if_neg hc]
    exact h₂

/-- Loops whose passes act alike. -/
theorem loop {spin : ε} {body : γ → Prog ε σ (Pass γ α)} {body' : γ → Prog ε τ (Pass γ α)}
    (h : ∀ c, Bisimilar E R R Eq (body c) (body' c)) (fuel : Nat) (c : γ) :
    Bisimilar E R R Eq (Uvio.Program.loop spin body fuel c)
      (Uvio.Program.loop spin body' fuel c) := by
  induction fuel generalizing c with
  | zero => exact stop spin
  | succ fuel ih =>
    refine (h c).bind_eq ?_
    rintro (c' | a)
    · exact ih c'
    · exact pure (fun _ _ hR => hR) rfl

/-- What one returns, the other returns, in a state of which the same can be said. -/
theorem ok_iff {x : Prog ε σ α} {y : Prog ε τ α}
    (h : Bisimilar (fun _ => False) R S Eq x y) {s : σ} {t : τ} (hR : R s t) {P : σ → Prop}
    {Q : τ → Prop} (hPQ : ∀ s' t', S s' t' → (P s' ↔ Q t')) {a : α} :
    (∃ s', x.run s = .ok (a, s') ∧ P s') ↔ ∃ t', y.run t = .ok (a, t') ∧ Q t' := by
  rcases (h s t hR).cases with ⟨a', s', b', t', hx, hy, rfl, hS⟩ | ⟨e, hx, hy⟩ | ⟨e, hx, he⟩
  · rw [hx, hy]
    constructor
    · rintro ⟨s'', heq, hP⟩
      cases heq
      exact ⟨t', rfl, (hPQ _ _ hS).mp hP⟩
    · rintro ⟨t'', heq, hQ⟩
      cases heq
      exact ⟨s', rfl, (hPQ _ _ hS).mpr hQ⟩
  · simp [hx, hy]
  · cases he

end Bisimilar

/-! ## Systems -/

section Systems

variable {R S : σ → τ → Prop} {l : List σ} {u : List τ}

theorem forall₂_of_mem (h : List.Forall₂ R l u) (hRS : ∀ s ∈ l, ∀ t, R s t → S s t) :
    List.Forall₂ S l u := by
  induction h with
  | nil => exact .nil
  | cons hst _ ih =>
    exact .cons (hRS _ List.mem_cons_self _ hst)
      (ih fun s hs => hRS s (List.mem_cons_of_mem _ hs))

theorem exists_rel_of_mem (h : List.Forall₂ R l u) {s : σ} (hs : s ∈ l) : ∃ t, R s t := by
  induction h with
  | nil => cases hs
  | cons hst _ ih =>
    rcases List.mem_cons.mp hs with rfl | hs
    · exact ⟨_, hst⟩
    · exact ih hs

theorem rel_getElem? (h : List.Forall₂ R l u) (i : Nat) : Option.Rel R l[i]? u[i]? := by
  induction h generalizing i with
  | nil => exact .none
  | cons hst _ ih =>
    cases i with
    | zero => exact .some hst
    | succ i => simpa using ih i

theorem forall₂_eraseIdx (h : List.Forall₂ R l u) (i : Nat) :
    List.Forall₂ R (l.eraseIdx i) (u.eraseIdx i) := by
  induction h generalizing i with
  | nil => exact .nil
  | cons hst htail ih =>
    cases i with
    | zero => exact htail
    | succ i => exact .cons hst (ih i)

end Systems

end Uvio.Program
