import Uvio.Program.Runs

/-!
# Awaitables that a callback completes

A library for operations whose constructor hands them to an event loop, whose
callback reports the outcome, and that one coroutine awaits. It names no program.

- `Awaitable`: the parts a coroutine and an event loop call.
- `Operation`, `act`: one operation from its start on, and what happens to it.
- `run_refused`: an operation the loop did not take and that is not ready from the
  start never lets its coroutine go on.
- `run_told_then_awaited`, `run_awaited_then_told`: the two orders of one callback
  and the `co_await`.
-/

namespace Uvio.Program

/-- An awaitable with awaiters `A`, told about `κ`, that gives `ρ`. A callback says
whether it resumes the handle it finds in the awaiter. -/
structure Awaitable (A κ ρ : Type) where
  ready : A → Bool
  suspend : A → A
  callback : A → κ → Option (A × Bool)
  resume : A → ρ × A

namespace Awaitable

/-- The coroutine, as seen from an operation. -/
inductive Coroutine where
  | notAwaiting
  | suspended
  | resumed
deriving DecidableEq, Repr

/-- A started operation. The loop owes callbacks if it took the operation. There is
one result for each time the coroutine was let go on. -/
structure Operation (A ρ : Type) where
  awaiter : A
  owed : Bool
  coroutine : Coroutine
  results : List ρ

inductive Event (A κ : Type) where
  /-- The constructor. -/
  | start (awaiter : A) (taken : Bool)
  | callback (told : κ)
  | await
deriving DecidableEq, Repr

variable {A κ ρ : Type} (aw : Awaitable A κ ρ)

/-- The coroutine goes on with what `await_resume` gives. -/
def complete (op : Operation A ρ) : Operation A ρ :=
  { op with
    awaiter := (aw.resume op.awaiter).2
    coroutine := .resumed
    results := op.results ++ [(aw.resume op.awaiter).1] }

/-- What a callback and what a `co_await` leave. -/
def afterCallback (op : Operation A ρ) (awaiter : A) (resumes : Bool) : Operation A ρ :=
  if resumes then aw.complete { op with awaiter := awaiter } else { op with awaiter := awaiter }

def afterAwait (op : Operation A ρ) : Operation A ρ :=
  if aw.ready op.awaiter then aw.complete op
  else { op with awaiter := aw.suspend op.awaiter, coroutine := .suspended }

/-- What an event does, where it is possible. -/
def act : Option (Operation A ρ) → Event A κ → Option (Option (Operation A ρ))
  | none, .start awaiter taken => some (some ⟨awaiter, taken, .notAwaiting, []⟩)
  | some op, .callback told =>
    if op.owed then
      (aw.callback op.awaiter told).map fun out => some (aw.afterCallback op out.1 out.2)
    else none
  | some op, .await =>
    if op.coroutine = .notAwaiting then some (some (aw.afterAwait op)) else none
  | _, _ => none

variable {aw}

/-- An operation that was started is there for ever. -/
theorem act_ne_none {op : Operation A ρ} {event : Event A κ} :
    aw.act (some op) event ≠ some none := by
  intro h
  cases event with
  | start awaiter taken => cases h
  | callback told =>
    simp only [act] at h
    split at h
    · obtain ⟨out, -, hout⟩ := Option.map_eq_some_iff.mp h
      cases hout
    · cases h
  | await =>
    simp only [act] at h
    split at h <;> cases h

/-- An operation the loop did not take, before and after its `co_await`. -/
def refused (aw : Awaitable A κ ρ) (awaiter : A) : Bool → Operation A ρ
  | false => ⟨awaiter, false, .notAwaiting, []⟩
  | true => ⟨aw.suspend awaiter, false, .suspended, []⟩

/-- All that can happen to it is one `co_await`. -/
theorem refused_step {awaiter : A} (hready : aw.ready awaiter = false) {awaited : Bool}
    {event : Event A κ} {s' : Option (Operation A ρ)}
    (h : aw.act (some (refused aw awaiter awaited)) event = some s') :
    event = .await ∧ s' = some (refused aw awaiter true) := by
  cases event with
  | start awaiter' taken => cases h
  | callback told => cases awaited <;> cases h
  | await =>
    cases awaited with
    | true => cases h
    | false =>
      refine ⟨rfl, ?_⟩
      have hafter : aw.act (some (refused aw awaiter false)) .await =
          some (some (refused aw awaiter true)) := by
        simp [act, afterAwait, refused, hready]
      exact (Option.some.inj (hafter.symm.trans h)).symm

/-- **An operation the loop did not take** is left alone until it is awaited, and
its coroutine stays suspended from then on. -/
theorem run_refused [DecidableEq A] [DecidableEq κ] {awaiter : A}
    (hready : aw.ready awaiter = false) {past : List (Event A κ)} {s : Option (Operation A ρ)}
    (h : Run aw.act (fun _ _ => True) none past s) (hstart : .start awaiter false ∈ past) :
    s = some (refused aw awaiter (decide (.await ∈ past))) := by
  -- an operation is started once, at the beginning
  refine (h.invariant (fun past s => (s = none → past = []) ∧ (.start awaiter false ∈ past →
    s = some (refused aw awaiter (decide (.await ∈ past))))) ⟨fun _ => rfl, nofun⟩ ?_).2 hstart
  rintro past s event s' ⟨hnone, hsome⟩ - hact
  cases s with
  | none =>
    obtain rfl := hnone rfl
    cases event with
    | start awaiter' taken =>
      obtain rfl := Option.some.inj hact
      refine ⟨nofun, fun hmem => ?_⟩
      obtain ⟨rfl, rfl⟩ : awaiter = awaiter' ∧ false = taken := by simpa using hmem
      simp [refused]
    | callback told => cases hact
    | await => cases hact
  | some op =>
    refine ⟨fun hs' => absurd (hs' ▸ hact) act_ne_none, fun hmem => ?_⟩
    have hpast : .start awaiter false ∈ past := by
      cases event with
      | start => cases hact
      | _ => simpa using hmem
    rw [Option.some.inj (hsome hpast)] at hact
    obtain ⟨rfl, rfl⟩ := refused_step hready hact
    simp

/-- One callback, then the `co_await`. -/
theorem run_told_then_awaited {awaiter : A} {told : κ} {s : Option (Operation A ρ)}
    (h : Run aw.act (fun _ _ => True) none [.start awaiter true, .callback told, .await] s) :
    ∃ out, aw.callback awaiter told = some out ∧
      s = some (aw.afterAwait (aw.afterCallback ⟨awaiter, true, .notAwaiting, []⟩ out.1 out.2)) := by
  have hrun := h.foldlM_eq
  cases hcall : aw.callback awaiter told with
  | none => simp [act, hcall] at hrun
  | some out =>
    refine ⟨out, rfl, ?_⟩
    simp only [List.foldlM, act, hcall, Option.bind_eq_bind, Option.bind_some, Option.map_some,
      if_true] at hrun
    split at hrun
    · exact (Option.some.inj hrun).symm
    · cases hrun

/-- The `co_await`, then one callback. -/
theorem run_awaited_then_told {awaiter : A} {told : κ} {s : Option (Operation A ρ)}
    (h : Run aw.act (fun _ _ => True) none [.start awaiter true, .await, .callback told] s) :
    ∃ out, aw.callback (aw.afterAwait ⟨awaiter, true, .notAwaiting, []⟩).awaiter told = some out ∧
      s = some (aw.afterCallback (aw.afterAwait ⟨awaiter, true, .notAwaiting, []⟩) out.1 out.2) := by
  have hrun := h.foldlM_eq
  have howed : (aw.afterAwait ⟨awaiter, true, .notAwaiting, []⟩).owed = true := by
    unfold afterAwait
    split <;> rfl
  simp only [List.foldlM, act, Option.bind_eq_bind, Option.bind_some, if_true, howed] at hrun
  cases hcall : aw.callback (aw.afterAwait ⟨awaiter, true, .notAwaiting, []⟩).awaiter told with
  | none =>
    rw [hcall] at hrun
    cases hrun
  | some out =>
    rw [hcall] at hrun
    exact ⟨out, rfl, (Option.some.inj hrun).symm⟩

end Awaitable

end Uvio.Program
