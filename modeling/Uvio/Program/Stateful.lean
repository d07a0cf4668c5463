import Mathlib.Tactic.Basic
import Mathlib.Logic.Function.Basic

/-!
# Stateful computations that may stop

A library for programs that act on a state and may stop for good before they
return: `Prog ε σ α` is `σ → Except ε (α × σ)`. It names no program; what is
here is the vocabulary the verification of one needs.

- `Prog.zoom`: run a computation on a part of a larger state.
- `Meets x s Q E`: from `s`, `x` either returns with `Q` or stops with `E`. With
  `E := fun _ => False` this is total correctness, with `E := fun _ => True`
  partial correctness, and in between it says which ways of stopping are allowed.
- `loop`: a `while (true)` loop whose body says `Pass.again` or `Pass.leave`, run
  for a bounded number of passes, with a rule for loops that have a variant
  (`Meets.loop`), one for loops that have only an invariant (`Meets.loop_invariant`)
  and one for loops that never end (`loop_spins`).
- `EachPass`: a condition on the states in which the passes of a loop begin, which
  an invariant establishes (`EachPass.of_invariant`) and the loop may rely on
  (`Meets.loop_of_eachPass`).
- `Simulates R x y`: whenever the abstract `y` returns, the concrete `x` returns
  the same value, and the relation `R` holds between the two states again. The
  rules follow the ways programs are put together.
-/

namespace Uvio.Program

/-- Computations on a state `σ` that may stop with a reason `ε`. -/
abbrev Prog (ε σ : Type) := StateT σ (Except ε)

variable {ε σ τ α β γ : Type}

/-- What was mapped came from a return. -/
theorem map_eq_ok_iff {f : α → β} {x : Except ε α} {b : β} :
    x.map f = .ok b ↔ ∃ a, x = .ok a ∧ f a = b := by
  cases x with
  | error e => simp [Except.map]
  | ok a => simp [Except.map]

theorem map_injective {f : α → β} (hf : Function.Injective f) :
    Function.Injective (Except.map f : Except ε α → Except ε β) := by
  intro x y h
  cases x with
  | error e =>
    cases y with
    | error e' => exact congrArg Except.error (Except.error.inj h)
    | ok b => cases h
  | ok a =>
    cases y with
    | error e' => cases h
    | ok b => exact congrArg Except.ok (hf (Except.ok.inj h))

/-- The state after a return. -/
theorem toOption_map_snd_eq_some {x : Except ε (α × σ)} {s : σ}
    (h : x.toOption.map Prod.snd = some s) : ∃ a, x = .ok (a, s) := by
  cases x with
  | error e => cases h
  | ok p =>
    obtain ⟨a, s'⟩ := p
    cases h
    exact ⟨a, rfl⟩

namespace Prog

/-- Stop for good. -/
def stop (e : ε) : Prog ε σ α := fun _ => .error e

/-- Run `x` on the part `get s` of the state, and put the part back. -/
def zoom (get : σ → τ) (put : σ → τ → σ) (x : Prog ε τ α) : Prog ε σ α := fun s =>
  match x.run (get s) with
  | .ok (a, t) => .ok (a, put s t)
  | .error e => .error e

@[simp] theorem run_get (s : σ) : (get : Prog ε σ σ).run s = .ok (s, s) := rfl

/-- A computation that returned hands its value and its state on. -/
theorem run_bind_of_ok {x : Prog ε σ α} {f : α → Prog ε σ β} {s s' : σ} {a : α}
    (h : x.run s = .ok (a, s')) : (x >>= f).run s = (f a).run s' := by
  rw [StateT.run_bind, h]
  rfl

/-- A computation that stopped stops what follows. -/
theorem run_bind_of_error {x : Prog ε σ α} {f : α → Prog ε σ β} {s : σ} {e : ε}
    (h : x.run s = .error e) : (x >>= f).run s = .error e := by
  rw [StateT.run_bind, h]
  rfl

/-- A sequence returns only through a return of its first part. -/
theorem run_bind_eq_ok {x : Prog ε σ α} {f : α → Prog ε σ β} {s : σ} {r : β × σ} :
    (x >>= f).run s = .ok r ↔ ∃ a s', x.run s = .ok (a, s') ∧ (f a).run s' = .ok r := by
  cases h : x.run s with
  | error e =>
    rw [run_bind_of_error h]
    simp
  | ok p =>
    obtain ⟨a, s'⟩ := p
    rw [run_bind_of_ok h]
    constructor
    · intro hf
      exact ⟨a, s', rfl, hf⟩
    · rintro ⟨a', s'', hp, hf⟩
      cases hp
      exact hf

theorem run_zoom_of_ok {get : σ → τ} {put : σ → τ → σ} {x : Prog ε τ α} {s : σ} {a : α}
    {t : τ} (h : x.run (get s) = .ok (a, t)) :
    (zoom get put x).run s = .ok (a, put s t) := by
  show (match x.run (get s) with
    | .ok (a, t) => Except.ok (a, put s t)
    | .error e => .error e) = _
  rw [h]

theorem run_zoom_of_error {get : σ → τ} {put : σ → τ → σ} {x : Prog ε τ α} {s : σ} {e : ε}
    (h : x.run (get s) = .error e) : (zoom get put x).run s = .error e := by
  show (match x.run (get s) with
    | .ok (a, t) => Except.ok (a, put s t)
    | .error e => .error e) = _
  rw [h]

/-- A computation on a part of the state returns as it does on that part alone. -/
theorem run_zoom_eq_ok {get : σ → τ} {put : σ → τ → σ} {x : Prog ε τ α} {s s' : σ} {a : α} :
    (zoom get put x).run s = .ok (a, s') ↔ ∃ t, x.run (get s) = .ok (a, t) ∧ s' = put s t := by
  cases h : x.run (get s) with
  | error e =>
    rw [run_zoom_of_error h]
    simp
  | ok p =>
    obtain ⟨b, t⟩ := p
    rw [run_zoom_of_ok h]
    simp [and_assoc, eq_comm]

end Prog

/-! ## Postconditions for returning and for stopping -/

/-- From `s`, the computation returns with `Q` or stops with `E`. -/
def Meets (x : Prog ε σ α) (s : σ) (Q : α → σ → Prop) (E : ε → Prop) : Prop :=
  match x.run s with
  | .ok (a, s') => Q a s'
  | .error e => E e

theorem meets_of_ok {x : Prog ε σ α} {s s' : σ} {a : α} {Q : α → σ → Prop} {E : ε → Prop}
    (h : x.run s = .ok (a, s')) : Meets x s Q E ↔ Q a s' := by
  simp only [Meets, h]

theorem meets_of_error {x : Prog ε σ α} {s : σ} {e : ε} {Q : α → σ → Prop} {E : ε → Prop}
    (h : x.run s = .error e) : Meets x s Q E ↔ E e := by
  simp only [Meets, h]

/-- What a specification says of a run that returned. -/
theorem Meets.of_ok {x : Prog ε σ α} {s s' : σ} {a : α} {Q : α → σ → Prop} {E : ε → Prop}
    (h : Meets x s Q E) (hrun : x.run s = .ok (a, s')) : Q a s' :=
  (meets_of_ok hrun).mp h

/-- A computation that may not stop returns. -/
theorem Meets.returns {x : Prog ε σ α} {s : σ} {Q : α → σ → Prop}
    (h : Meets x s Q fun _ => False) : ∃ a s', x.run s = .ok (a, s') ∧ Q a s' := by
  cases hx : x.run s with
  | error e => exact ((meets_of_error hx).mp h).elim
  | ok p => exact ⟨p.1, p.2, rfl, (meets_of_ok hx).mp h⟩

/-- A computation that returns one value in one state. -/
theorem run_eq_ok_iff {x : Prog ε σ α} {s s' : σ} {a : α} :
    x.run s = .ok (a, s') ↔ Meets x s (fun b t => b = a ∧ t = s') fun _ => False := by
  constructor
  · intro h
    exact (meets_of_ok h).mpr ⟨rfl, rfl⟩
  · intro h
    obtain ⟨_, _, hrun, rfl, rfl⟩ := h.returns
    exact hrun

@[simp] theorem meets_get (s : σ) (Q : σ → σ → Prop) (E : ε → Prop) :
    Meets (get : Prog ε σ σ) s Q E ↔ Q s s := Iff.rfl

/-- The rule of sequencing. -/
@[simp] theorem meets_bind {x : Prog ε σ α} {f : α → Prog ε σ β} {s : σ} {Q : β → σ → Prop}
    {E : ε → Prop} : Meets (x >>= f) s Q E ↔ Meets x s (fun a s' => Meets (f a) s' Q E) E := by
  cases hx : x.run s with
  | error e => rw [meets_of_error hx, meets_of_error (Prog.run_bind_of_error hx)]
  | ok p =>
    rw [meets_of_ok hx]
    simp only [Meets, Prog.run_bind_of_ok hx]

/-- The rule of consequence. -/
theorem Meets.mono {x : Prog ε σ α} {s : σ} {Q Q' : α → σ → Prop} {E E' : ε → Prop}
    (h : Meets x s Q E) (hQ : ∀ a s', Q a s' → Q' a s') (hE : ∀ e, E e → E' e) :
    Meets x s Q' E' := by
  cases hx : x.run s with
  | error e => exact (meets_of_error hx).mpr (hE e ((meets_of_error hx).mp h))
  | ok p => exact (meets_of_ok hx).mpr (hQ _ _ ((meets_of_ok hx).mp h))

/-- The specification that says nothing. -/
theorem Meets.trivial (x : Prog ε σ α) (s : σ) : Meets x s (fun _ _ => True) fun _ => True := by
  cases hx : x.run s with
  | error e => exact (meets_of_error hx).mpr True.intro
  | ok p => exact (meets_of_ok hx).mpr True.intro

/-- Specifications of the parts compose along a sequence. -/
theorem Meets.bind {x : Prog ε σ α} {f : α → Prog ε σ β} {s : σ} {Q : α → σ → Prop}
    {Q' : β → σ → Prop} {E E' : ε → Prop} (hx : Meets x s Q E) (hE : ∀ e, E e → E' e)
    (hf : ∀ a s', Q a s' → Meets (f a) s' Q' E') : Meets (x >>= f) s Q' E' :=
  meets_bind.mpr (hx.mono hf hE)

/-- A specification of a computation on a part of the state. -/
theorem meets_zoom {get : σ → τ} {put : σ → τ → σ} {x : Prog ε τ α} {s : σ}
    {Q : α → σ → Prop} {E : ε → Prop} :
    Meets (Prog.zoom get put x) s Q E ↔ Meets x (get s) (fun a t => Q a (put s t)) E := by
  cases hx : x.run (get s) with
  | error e => rw [meets_of_error hx, meets_of_error (Prog.run_zoom_of_error hx)]
  | ok p => rw [meets_of_ok hx, meets_of_ok (Prog.run_zoom_of_ok hx)]

/-! ## Loops -/

/-- What a pass of a loop's body decides: go round again, or leave. -/
inductive Pass (β α : Type) where
  | again (b : β)
  | leave (a : α)

/-- `while (true)` with body `body` and loop variables `β`, for at most so many
passes; running out of passes is the stop `spin`. -/
def loop (spin : ε) (body : β → Prog ε σ (Pass β α)) : Nat → β → Prog ε σ α
  | 0, _ => Prog.stop spin
  | n + 1, b => do
    match ← body b with
    | .again b' => loop spin body n b'
    | .leave a => pure a

/-- The postcondition of one pass: an invariant on going round, the loop's own
postcondition on leaving. -/
def passPost (I : β → σ → Prop) (Q : α → σ → Prop) : Pass β α → σ → Prop
  | .again b, s => I b s
  | .leave a, s => Q a s

/-- **Loop rule with a variant**: if every pass either leaves with `Q` or goes
round with a smaller variant, a loop with more passes than the variant meets its
postcondition, and never runs out of passes. -/
theorem Meets.loop {spin : ε} {body : β → Prog ε σ (Pass β α)} (I : Nat → β → σ → Prop)
    {Q : α → σ → Prop} {E : ε → Prop}
    (hbody : ∀ n b s, I n b s →
      Meets (body b) s (passPost (fun b' s' => ∃ m < n, I m b' s') Q) E) :
    ∀ {fuel n : Nat} {b : β} {s : σ}, I n b s → n < fuel →
      Meets (Uvio.Program.loop spin body fuel b) s Q E := by
  intro fuel
  induction fuel with
  | zero =>
    intro n b s _ hn
    exact absurd hn (Nat.not_lt_zero n)
  | succ fuel ih =>
    intro n b s hI hn
    refine (hbody n b s hI).bind (fun _ h => h) ?_
    rintro (b' | a) s' hpost
    · obtain ⟨m, hm, hI'⟩ := hpost
      exact ih hI' (Nat.lt_of_lt_of_le hm (Nat.le_of_lt_succ hn))
    · exact hpost

theorem run_loop_again {spin : ε} {body : β → Prog ε σ (Pass β α)} {n : Nat} {b b' : β} {s s' : σ}
    (h : (body b).run s = .ok (.again b', s')) :
    (loop spin body (n + 1) b).run s = (loop spin body n b').run s' :=
  Prog.run_bind_of_ok h

theorem run_loop_leave {spin : ε} {body : β → Prog ε σ (Pass β α)} {n : Nat} {b : β} {a : α}
    {s s' : σ} (h : (body b).run s = .ok (.leave a, s')) :
    (loop spin body (n + 1) b).run s = .ok (a, s') :=
  Prog.run_bind_of_ok h

/-- A loop whose every pass goes round again runs out of any number of passes. -/
theorem loop_spins {spin : ε} {body : β → Prog ε σ (Pass β α)} (I : β → σ → Prop)
    (hbody : ∀ b s, I b s → ∃ b' s', (body b).run s = .ok (.again b', s') ∧ I b' s') :
    ∀ (fuel : Nat) {b : β} {s : σ}, I b s →
      (Uvio.Program.loop spin body fuel b).run s = .error spin := by
  intro fuel
  induction fuel with
  | zero =>
    intro b s _
    rfl
  | succ fuel ih =>
    intro b s hI
    obtain ⟨b', s', hrun, hI'⟩ := hbody b s hI
    rw [run_loop_again hrun]
    exact ih hI'

/-! ### Loops with a record -/

/-- The body of a loop with a record, to which each pass that goes round again adds. -/
def recording (note : β → List γ) (body : β → Prog ε σ (Pass β α)) :
    β × List γ → Prog ε σ (Pass (β × List γ) (α × List γ))
  | (b, notes) => do
    match ← body b with
    | .again b' => pure (.again (b', notes ++ note b))
    | .leave a => pure (.leave (a, notes))

theorem run_recording_again {note : β → List γ} {body : β → Prog ε σ (Pass β α)} {b b' : β}
    {notes : List γ} {s s' : σ} (h : (body b).run s = .ok (.again b', s')) :
    (recording note body (b, notes)).run s = .ok (.again (b', notes ++ note b), s') :=
  Prog.run_bind_of_ok h

theorem run_recording_leave {note : β → List γ} {body : β → Prog ε σ (Pass β α)} {b : β} {a : α}
    {notes : List γ} {s s' : σ} (h : (body b).run s = .ok (.leave a, s')) :
    (recording note body (b, notes)).run s = .ok (.leave (a, notes), s') :=
  Prog.run_bind_of_ok h

/-- The record makes no difference to the loop. -/
theorem run_loop_recording (spin : ε) (note : β → List γ) (body : β → Prog ε σ (Pass β α))
    (fuel : Nat) (b : β) (notes : List γ) (s : σ) :
    (loop spin body fuel b).run s
      = ((loop spin (recording note body) fuel (b, notes)).run s).map
          fun p => (p.1.1, p.2) := by
  induction fuel generalizing b notes s with
  | zero => rfl
  | succ fuel ih =>
    cases hrun : (body b).run s with
    | error e =>
      have hrecord : (recording note body (b, notes)).run s = .error e :=
        Prog.run_bind_of_error hrun
      have hloop : (loop spin body (fuel + 1) b).run s = .error e := Prog.run_bind_of_error hrun
      have hloop' : (loop spin (recording note body) (fuel + 1) (b, notes)).run s = .error e :=
        Prog.run_bind_of_error hrecord
      rw [hloop, hloop']
      rfl
    | ok p =>
      obtain ⟨pass, s'⟩ := p
      cases pass with
      | again b' =>
        rw [run_loop_again hrun, run_loop_again (run_recording_again hrun)]
        exact ih b' _ s'
      | leave a =>
        rw [run_loop_leave hrun, run_loop_leave (run_recording_leave hrun)]
        rfl

/-! ### The states in which passes begin -/

/-- `P` holds whenever one of the first `n` passes begins. -/
def EachPass (body : β → Prog ε σ (Pass β α)) (P : β → σ → Prop) : Nat → β → σ → Prop
  | 0, _, _ => True
  | n + 1, b, s => P b s ∧ ∀ b' s', (body b).run s = .ok (.again b', s') → EachPass body P n b' s'

theorem EachPass.of_invariant {body : β → Prog ε σ (Pass β α)} {P : β → σ → Prop}
    (I : β → σ → Prop) (hP : ∀ b s, I b s → P b s)
    (hbody : ∀ b s b' s', I b s → (body b).run s = .ok (.again b', s') → I b' s') :
    ∀ {n : Nat} {b : β} {s : σ}, I b s → EachPass body P n b s := by
  intro n
  induction n with
  | zero => exact fun _ => trivial
  | succ n ih =>
    intro b s hI
    exact ⟨hP b s hI, fun b' s' hrun => ih (hbody b s b' s' hI hrun)⟩

/-- An invariant that the condition on the passes helps to keep. -/
theorem EachPass.mono {body : β → Prog ε σ (Pass β α)} {P Q : β → σ → Prop} (I : β → σ → Prop)
    (hQ : ∀ b s, I b s → P b s → Q b s)
    (hbody : ∀ b s b' s', I b s → P b s → (body b).run s = .ok (.again b', s') → I b' s') :
    ∀ {n : Nat} {b : β} {s : σ}, I b s → EachPass body P n b s → EachPass body Q n b s := by
  intro n
  induction n with
  | zero => exact fun _ _ => trivial
  | succ n ih =>
    rintro b s hI ⟨hP, hnext⟩
    exact ⟨hQ b s hI hP, fun b' s' hrun => ih (hbody b s b' s' hI hP hrun) (hnext b' s' hrun)⟩

/-- **Loop rule with a condition on the passes**: what every pass does as long as the
condition holds, the loop does. -/
theorem Meets.loop_of_eachPass {spin : ε} {body : β → Prog ε σ (Pass β α)} {P : β → σ → Prop}
    (I : β → σ → Prop) {Q : α → σ → Prop} {E : ε → Prop} (hspin : E spin)
    (hbody : ∀ b s, I b s → P b s → Meets (body b) s (passPost I Q) E) :
    ∀ {fuel : Nat} {b : β} {s : σ}, I b s → EachPass body P fuel b s →
      Meets (Uvio.Program.loop spin body fuel b) s Q E := by
  intro fuel
  induction fuel with
  | zero => exact fun _ _ => hspin
  | succ fuel ih =>
    rintro b s hI ⟨hP, hnext⟩
    have hpass := hbody b s hI hP
    cases hrun : (body b).run s with
    | error e =>
      have hloop : (Uvio.Program.loop spin body (fuel + 1) b).run s = .error e :=
        Prog.run_bind_of_error hrun
      exact (meets_of_error hloop).mpr ((meets_of_error hrun).mp hpass)
    | ok p =>
      obtain ⟨pass, s'⟩ := p
      have hpost := hpass.of_ok hrun
      cases pass with
      | again b' =>
        have hrest := ih hpost (hnext b' s' hrun)
        unfold Meets at hrest ⊢
        rw [run_loop_again hrun]
        exact hrest
      | leave a => exact (meets_of_ok (run_loop_leave hrun)).mpr hpost

/-- **Loop rule without a variant**, for what holds if the loop is left. -/
theorem Meets.loop_invariant {spin : ε} {body : β → Prog ε σ (Pass β α)} (I : β → σ → Prop)
    {Q : α → σ → Prop} {E : ε → Prop} (hspin : E spin)
    (hbody : ∀ b s, I b s → Meets (body b) s (passPost I Q) E) {fuel : Nat} {b : β} {s : σ}
    (h : I b s) : Meets (Uvio.Program.loop spin body fuel b) s Q E :=
  Meets.loop_of_eachPass (P := fun _ _ => True) I hspin (fun b s hI _ => hbody b s hI) h
    (EachPass.of_invariant (fun _ _ => True) (fun _ _ _ => True.intro)
      (fun _ _ _ _ _ _ => True.intro) True.intro)

/-! ## Simulation -/

/-- `x` simulates `y` up to `R` on states and `V` on values: from related states,
whenever `y` returns, `x` returns a related value in a related state. -/
def Simulates (R : σ → τ → Prop) (V : α → β → Prop) (x : Prog ε σ α) (y : Prog ε τ β) : Prop :=
  ∀ s t, R s t → ∀ b t', y.run t = .ok (b, t') → ∃ a s', x.run s = .ok (a, s') ∧ V a b ∧ R s' t'

namespace Simulates

variable {δ : Type} {R : σ → τ → Prop} {V : α → β → Prop} {W : γ → δ → Prop}

theorem pure {a : α} {b : β} (h : V a b) :
    Simulates R V (Pure.pure a : Prog ε σ α) (Pure.pure b) := by
  intro s t hR b' t' hrun
  cases hrun
  exact ⟨a, s, rfl, h, hR⟩

/-- Anything simulates a computation that never returns. -/
theorem stop {x : Prog ε σ α} (e : ε) : Simulates R V x (Prog.stop e) := by
  intro s t _ b t' hrun
  cases hrun

theorem bind {x : Prog ε σ α} {y : Prog ε τ β} {f : α → Prog ε σ γ} {g : β → Prog ε τ δ}
    (hx : Simulates R V x y) (hf : ∀ a b, V a b → Simulates R W (f a) (g b)) :
    Simulates R W (x >>= f) (y >>= g) := by
  intro s t hR d t' hrun
  obtain ⟨b, t₁, hy, hg⟩ := Prog.run_bind_eq_ok.mp hrun
  obtain ⟨a, s₁, hxs, hV, hR₁⟩ := hx s t hR b t₁ hy
  obtain ⟨c, s', hfs, hW, hR'⟩ := hf a b hV s₁ t₁ hR₁ d t' hg
  exact ⟨c, s', Prog.run_bind_eq_ok.mpr ⟨a, s₁, hxs, hfs⟩, hW, hR'⟩

/-- Sequencing after a part that returns the same value on both sides. -/
theorem bind_eq {x : Prog ε σ α} {y : Prog ε τ α} {f : α → Prog ε σ γ} {g : α → Prog ε τ δ}
    (hx : Simulates R Eq x y) (hf : ∀ a, Simulates R W (f a) (g a)) :
    Simulates R W (x >>= f) (y >>= g) :=
  hx.bind fun a _ h => h ▸ hf a

theorem ite {c : Prop} [Decidable c] {x₁ x₂ : Prog ε σ α} {y₁ y₂ : Prog ε τ β}
    (h₁ : Simulates R V x₁ y₁) (h₂ : Simulates R V x₂ y₂) :
    Simulates R V (if c then x₁ else x₂) (if c then y₁ else y₂) := by
  by_cases hc : c
  · rw [if_pos hc, if_pos hc]
    exact h₁
  · rw [if_neg hc, if_neg hc]
    exact h₂

/-- A loop simulates a loop pass by pass. -/
theorem loop {spin : ε} {body : γ → Prog ε σ (Pass γ α)} {body' : γ → Prog ε τ (Pass γ α)}
    (h : ∀ c, Simulates R Eq (body c) (body' c)) :
    ∀ (fuel : Nat) (c : γ),
      Simulates R Eq (Uvio.Program.loop spin body fuel c)
        (Uvio.Program.loop spin body' fuel c) := by
  intro fuel
  induction fuel with
  | zero => exact fun _ => stop spin
  | succ fuel ih =>
    intro c
    refine (h c).bind_eq ?_
    rintro (c' | a)
    · exact ih c'
    · exact pure rfl

end Simulates

end Uvio.Program
