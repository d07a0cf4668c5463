import Uvio.Codec.Base

/-!
# Readers and writers under watch

A codec that does not look at what its reads and writes return goes on after one
that failed, and its result does not say so. `Watched ρ` is a reader or a writer with
a list of the errors its calls have returned. A codec runs on it as it does on
`ρ` alone (`run_iff`), and leaves the list behind.
-/

namespace Uvio.Codec

open Program Io

variable {ρ ω α β : Type}

/-- A reader or a writer, and the errors its calls returned. -/
structure Watched (ρ : Type) where
  inner : ρ
  failures : List Error

namespace Watched

/-- The errors in a result. -/
def failure : Result β → List Error
  | .ok _ => []
  | .error e => [e]

/-- A call on the inner reader or writer. -/
def watch (result : α → Result β) (x : Task ρ α) : Task (Watched ρ) α := fun w =>
  match x.run w.inner with
  | .ok (a, s) => .ok (a, ⟨s, w.failures ++ failure (result a)⟩)
  | .error e => .error e

instance [Reader ρ] : Reader (Watched ρ) where
  readExact buf := watch Prod.snd (Reader.readExact buf)
  readUntil buf endFlag := watch Prod.snd (Reader.readUntil buf endFlag)

instance [Writer ω] : Writer (Watched ω) where
  write buf := watch id (Writer.write buf)
  flush := watch id Writer.flush

variable {result : α → Result β} {x : Task ρ α} {s s' : ρ} {a : α} {fs : List Error}

theorem run_watch_of_ok (h : x.run s = .ok (a, s')) :
    (watch result x).run ⟨s, fs⟩ = .ok (a, ⟨s', fs ++ failure (result a)⟩) := by
  show (match x.run s with
    | .ok (a, s) => Except.ok (a, (⟨s, fs ++ failure (result a)⟩ : Watched ρ))
    | .error e => .error e) = _
  rw [h]

theorem run_watch_of_error {e : Stop} (h : x.run s = .error e) :
    (watch result x).run ⟨s, fs⟩ = .error e := by
  show (match x.run s with
    | .ok (a, s) => Except.ok (a, (⟨s, fs ++ failure (result a)⟩ : Watched ρ))
    | .error e => .error e) = _
  rw [h]

/-! ## Watching changes nothing -/

/-- The reader or writer under watch. -/
def Inner (s : ρ) (w : Watched ρ) : Prop := w.inner = s

theorem watch_simulates (result : α → Result β) (x : Task ρ α) :
    Simulates (flip Inner) Eq (watch result x) x := by
  rintro ⟨_, fs⟩ s rfl a s' hrun
  exact ⟨a, _, run_watch_of_ok hrun, rfl, rfl⟩

theorem simulates_watch (result : α → Result β) (x : Task ρ α) :
    Simulates Inner Eq x (watch result x) := by
  rintro _ ⟨s, fs⟩ rfl a w' hrun
  cases hx : x.run s with
  | error e =>
    rw [run_watch_of_error hx] at hrun
    cases hrun
  | ok p =>
    obtain ⟨b, s'⟩ := p
    rw [run_watch_of_ok hx] at hrun
    cases hrun
    exact ⟨_, _, rfl, rfl, rfl⟩

/-- What simulates each other returns the same, and leaves the same behind. -/
theorem run_iff {x : Task (Watched ρ) α} {y : Task ρ α}
    (h : Simulates (flip Inner) Eq x y) (h' : Simulates Inner Eq y x) :
    y.run s = .ok (a, s') ↔ ∃ fs', x.run ⟨s, fs⟩ = .ok (a, ⟨s', fs'⟩) := by
  constructor
  · intro hrun
    obtain ⟨_, ⟨_, fs'⟩, hx, rfl, rfl⟩ := h ⟨s, fs⟩ s rfl a s' hrun
    exact ⟨fs', hx⟩
  · rintro ⟨fs', hrun⟩
    obtain ⟨_, _, hy, rfl, rfl⟩ := h' s ⟨s, fs⟩ rfl a _ hrun
    exact hy

end Watched

end Uvio.Codec
