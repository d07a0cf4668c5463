import Uvio.Program.Ownership

/-!
# `Task`

Coroutine frames, the `Task` objects that own them, and the coroutines themselves:
what they await, which events they wait for, and when they end. A frame is destroyed
by the destructor of the `Task` that owns it, or by `FinalAwaiter` when the
coroutine ends and has no caller. Tasks and frames are named by numbers.

A `Task` is not touched while it is awaited.
-/

namespace Uvio.Coroutine

open Program Holders

inductive Status where
  /-- At its initial suspend. -/
  | created
  /-- Running, or suspended on an event. -/
  | active
  /-- Suspended in a `co_await` of a `Task`. -/
  | awaiting
  /-- At its final suspend. -/
  | done
deriving DecidableEq, Repr

/-- A coroutine frame with the `caller_` of its promise. -/
structure Frame where
  caller : Option Nat
  status : Status
deriving DecidableEq, Repr

/-- The `Task` objects with the frames they own, and the frames that are there.
`waiting` has the coroutines that some event will resume. -/
structure World where
  tasks : Holders Nat Nat
  frames : Nat → Option Frame
  nextTask : Nat
  nextFrame : Nat
  detached : List Nat
  waiting : List Nat
  destroyed : List Nat
  fault : Bool

inductive Action where
  /-- A coroutine is called, which makes a frame and a `Task`. -/
  | create
  | moveConstruct (t : Nat)
  /-- Task `t` is assigned `std::move` of task `u`. -/
  | moveAssign (t u : Nat)
  /-- `take()` and `resume()`, as in `spawn` and `block_on`. -/
  | spawn (t : Nat)
  /-- Coroutine `c` awaits task `t`. -/
  | coAwait (c t : Nat)
  /-- Coroutine `c` suspends on an event. -/
  | suspend (c : Nat)
  /-- The event a coroutine waits for resumes it. -/
  | event (c : Nat)
  /-- Coroutine `c` reaches its final suspend. -/
  | finish (c : Nat)
  /-- `~Task`. -/
  | destroy (t : Nat)
deriving DecidableEq, Repr

def init : World := ⟨fun _ => none, fun _ => none, 0, 0, [], [], [], false⟩

def setFrame (w : World) (f : Nat) (frame : Frame) : World :=
  { w with frames := Function.update w.frames f (some frame) }

/-- `handle.destroy()`. -/
def destroyFrame (w : World) (f : Nat) : World :=
  { w with
    frames := Function.update w.frames f none
    destroyed := w.destroyed ++ [f] }

/-- `handle.resume()` of a coroutine that goes on: a fault if its frame is gone. -/
def resume (w : World) (f : Nat) : World :=
  match w.frames f with
  | none => { w with fault := true }
  | some frame =>
    -- resuming at the final suspend is undefined; nothing runs
    if frame.status = .done then w else setFrame w f { frame with status := .active }

/-- The coroutine of a task is not under way: nobody awaits the task. -/
def idle (w : World) (t : Nat) : Bool :=
  match (w.tasks t).join.bind w.frames with
  | none => true
  | some frame => frame.status = .created ∨ frame.status = .done

/-- A coroutine that runs: not one that is suspended. -/
def running (w : World) (c : Nat) : Bool :=
  (w.frames c).any (fun frame => frame.status = .active) && c ∉ w.waiting

/-- `FinalAwaiter`. -/
def finalSuspend (w : World) (c : Nat) (frame : Frame) : World :=
  match frame.caller with
  | some caller => resume (setFrame w c { frame with status := .done }) caller
  | none => destroyFrame w c

/-- What an action does, where it is possible. -/
def act (w : World) : Action → Option World
  | .create => some { setFrame w w.nextFrame ⟨none, .created⟩ with
      tasks := w.tasks.put w.nextTask (some w.nextFrame)
      nextTask := w.nextTask + 1
      nextFrame := w.nextFrame + 1 }
  | .moveConstruct t =>
    if w.tasks t = none ∨ idle w t = false then none
    else some { w with
      tasks := w.tasks.transfer t w.nextTask
      nextTask := w.nextTask + 1 }
  | .moveAssign t u =>
    if w.tasks t = none ∨ w.tasks u = none ∨ idle w t = false ∨ idle w u = false then none
    else if u ≠ t then some { w with tasks := w.tasks.transfer u t }
    else some w
  | .spawn t =>
    match (w.tasks t).join with
    | none => none
    | some f =>
      if idle w t then
        some (resume { w with tasks := w.tasks.put t none, detached := w.detached ++ [f] } f)
      else none
  | .coAwait c t =>
    match (w.tasks t).join, w.frames c with
    | some f, some frame =>
      if running w c ∧ idle w t then
        match w.frames f with
        | none => some { w with fault := true }
        | some callee =>
          -- `await_ready`: a coroutine that has ended is not awaited
          if callee.status = .done then some w
          else
            let w := setFrame w c { frame with status := .awaiting }
            some (resume (setFrame w f { callee with caller := some c }) f)
      else none
    | _, _ => none
  | .suspend c => if running w c then some { w with waiting := c :: w.waiting } else none
  | .event c =>
    if c ∈ w.waiting then
      some (resume { w with waiting := w.waiting.filter (· ≠ c) } c)
    else none
  | .finish c =>
    match w.frames c with
    | some frame => if running w c then some (finalSuspend w c frame) else none
    | none => none
  | .destroy t =>
    if w.tasks t = none ∨ idle w t = false then none
    else
      let tasks := w.tasks.remove t
      match (w.tasks t).join with
      | none => some { w with tasks := tasks }
      | some f => some { destroyFrame w f with tasks := tasks }

/-- One step. There is none after a fault. -/
def step (w : World) (action : Action) : Option World :=
  if w.fault then none else act w action

/-- A `Task` owns the frame. -/
def Owned (w : World) (f : Nat) : Prop := ∃ t, w.tasks.Holds t f

theorem running_iff {w : World} {c : Nat} :
    running w c = true ↔ (∃ frame, w.frames c = some frame ∧ frame.status = .active) ∧
      c ∉ w.waiting := by
  unfold running
  cases w.frames c <;> simp

/-- The frame of an idle task is not under way. -/
theorem status_of_idle {w : World} {t f : Nat} {frame : Frame} (hidle : idle w t = true)
    (ht : w.tasks.Holds t f) (hf : w.frames f = some frame) :
    frame.status = .created ∨ frame.status = .done := by
  unfold idle at hidle
  rw [join_eq_some.mpr ht] at hidle
  simpa [hf] using hidle

/-- Resuming a coroutine that has not ended lets it run. -/
theorem resume_eq {w : World} {f : Nat} {frame : Frame} (hf : w.frames f = some frame)
    (hdone : frame.status ≠ .done) : resume w f = setFrame w f { frame with status := .active } := by
  unfold resume
  rw [hf]
  exact if_neg hdone

/-- What each action does, and when: `act` read from its results. -/
inductive Acts (w : World) : Action → World → Prop where
  | create : Acts w .create { setFrame w w.nextFrame ⟨none, .created⟩ with
      tasks := w.tasks.put w.nextTask (some w.nextFrame)
      nextTask := w.nextTask + 1
      nextFrame := w.nextFrame + 1 }
  | moveConstruct {t : Nat} (ht : w.tasks t ≠ none) (hidle : idle w t = true) :
    Acts w (.moveConstruct t) { w with
      tasks := w.tasks.transfer t w.nextTask
      nextTask := w.nextTask + 1 }
  | moveAssign {t u : Nat} (ht : w.tasks t ≠ none) (hu : w.tasks u ≠ none)
      (hidle : idle w t = true ∧ idle w u = true) (hne : u ≠ t) :
    Acts w (.moveAssign t u) { w with tasks := w.tasks.transfer u t }
  | moveAssignSelf {t : Nat} (ht : w.tasks t ≠ none) (hidle : idle w t = true) :
    Acts w (.moveAssign t t) w
  | spawn {t f : Nat} (ht : w.tasks.Holds t f) (hidle : idle w t = true) :
    Acts w (.spawn t)
      (resume { w with tasks := w.tasks.put t none, detached := w.detached ++ [f] } f)
  | coAwaitGone {c t f : Nat} (ht : w.tasks.Holds t f) (hrun : running w c = true)
      (hidle : idle w t = true) (hf : w.frames f = none) :
    Acts w (.coAwait c t) { w with fault := true }
  | coAwaitDone {c t f : Nat} {callee : Frame} (ht : w.tasks.Holds t f) (hrun : running w c = true)
      (hidle : idle w t = true) (hf : w.frames f = some callee) (hdone : callee.status = .done) :
    Acts w (.coAwait c t) w
  | coAwait {c t f : Nat} {frame callee : Frame} (ht : w.tasks.Holds t f)
      (hc : w.frames c = some frame) (hrun : running w c = true) (hidle : idle w t = true)
      (hf : w.frames f = some callee) (hdone : callee.status ≠ .done) :
    Acts w (.coAwait c t) (resume (setFrame (setFrame w c { frame with status := .awaiting }) f
      { callee with caller := some c }) f)
  | suspend {c : Nat} (hrun : running w c = true) :
    Acts w (.suspend c) { w with waiting := c :: w.waiting }
  | event {c : Nat} (hc : c ∈ w.waiting) :
    Acts w (.event c) (resume { w with waiting := w.waiting.filter (· ≠ c) } c)
  | finish {c : Nat} {frame : Frame} (hc : w.frames c = some frame) (hrun : running w c = true) :
    Acts w (.finish c) (finalSuspend w c frame)
  | destroyEmpty {t : Nat} (ht : w.tasks t ≠ none) (hempty : ∀ f, ¬ w.tasks.Holds t f) :
    Acts w (.destroy t) { w with tasks := w.tasks.remove t }
  | destroy {t f : Nat} (ht : w.tasks.Holds t f) (hidle : idle w t = true) :
    Acts w (.destroy t) { destroyFrame w f with tasks := w.tasks.remove t }

theorem acts_of_act {w w' : World} {action : Action} (h : act w action = some w') :
    Acts w action w' := by
  have hempty : ∀ {t : Nat}, (w.tasks t).join = none → ∀ f, ¬ w.tasks.Holds t f := by
    intro t hnone f ht
    rw [join_eq_some.mpr ht] at hnone
    cases hnone
  cases action with
  | create =>
    cases h
    exact .create
  | moveConstruct t =>
    simp only [act, Option.ite_none_left_eq_some, not_or, Bool.not_eq_false] at h
    obtain ⟨⟨ht, hidle⟩, h⟩ := h
    cases h
    exact .moveConstruct ht hidle
  | moveAssign t u =>
    simp only [act, Option.ite_none_left_eq_some, not_or, Bool.not_eq_false] at h
    obtain ⟨⟨ht, hu, hidle⟩, h⟩ := h
    split at h
    next hne =>
      cases h
      exact .moveAssign ht hu hidle hne
    next heq =>
      obtain rfl := not_not.mp heq
      cases h
      exact .moveAssignSelf ht hidle.1
  | spawn t =>
    simp only [act] at h
    split at h
    next => cases h
    next f hf =>
      rw [Option.ite_none_right_eq_some] at h
      obtain ⟨hidle, h⟩ := h
      cases h
      exact .spawn (join_eq_some.mp hf) hidle
  | coAwait c t =>
    simp only [act] at h
    split at h
    next f frame hf hc =>
      rw [Option.ite_none_right_eq_some] at h
      obtain ⟨⟨hrun, hidle⟩, h⟩ := h
      have ht := join_eq_some.mp hf
      split at h
      next hgone =>
        cases h
        exact .coAwaitGone ht hrun hidle hgone
      next callee hcallee =>
        split at h
        next hdone =>
          cases h
          exact .coAwaitDone ht hrun hidle hcallee hdone
        next hdone =>
          cases h
          exact .coAwait ht hc hrun hidle hcallee hdone
    next => cases h
  | suspend c =>
    rw [act, Option.ite_none_right_eq_some] at h
    obtain ⟨hrun, h⟩ := h
    cases h
    exact .suspend hrun
  | event c =>
    rw [act, Option.ite_none_right_eq_some] at h
    obtain ⟨hc, h⟩ := h
    cases h
    exact .event hc
  | finish c =>
    simp only [act] at h
    split at h
    next frame hc =>
      rw [Option.ite_none_right_eq_some] at h
      obtain ⟨hrun, h⟩ := h
      cases h
      exact .finish hc hrun
    next => cases h
  | destroy t =>
    simp only [act, Option.ite_none_left_eq_some, not_or, Bool.not_eq_false] at h
    obtain ⟨⟨ht, hidle⟩, h⟩ := h
    split at h
    next hnone =>
      cases h
      exact .destroyEmpty ht (hempty hnone)
    next f hf =>
      cases h
      exact .destroy (join_eq_some.mp hf) hidle

/-- **A step**: there was no fault, and the action does what it does. -/
theorem acts_of_step {w w' : World} {action : Action} (h : step w action = some w') :
    w.fault = false ∧ Acts w action w' := by
  rw [step, Option.ite_none_left_eq_some, Bool.not_eq_true] at h
  exact ⟨h.1, acts_of_act h.2⟩

end Uvio.Coroutine
