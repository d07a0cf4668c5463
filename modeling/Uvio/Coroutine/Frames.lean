import Uvio.Coroutine.Task
import Uvio.Program.Runs

/-!
# How long a frame is there

What the steps of coroutines and tasks do to one frame, in any run.

- `Destroys`: the action destroys the frame.
- `StepOf`: what a step does to a frame; `StepOf.of_step` says that every step does it.
- `present_iff_keeps`: a frame is there after some actions if none of them destroys it.
-/

namespace Uvio.Coroutine

open Program Holders

/-- The action destroys the frame: its coroutine ends and has no caller, or it is the
destructor of the task that owns it. -/
def Destroys (w : World) (f : Nat) : Action → Prop
  | .finish c => c = f ∧ (w.frames f).bind (·.caller) = none
  | .destroy t => w.tasks.Holds t f
  | _ => False

/-- None of the actions destroys the frame. -/
def Keeps (f : Nat) : World → List Action → Prop
  | _, [] => True
  | w, action :: actions =>
    ¬ Destroys w f action ∧ ∀ w', step w action = some w' → Keeps f w' actions

/-- Suspended on an event. -/
def Suspended (w : World) (f : Nat) : Prop :=
  f ∈ w.waiting ∧ ∃ frame, w.frames f = some frame ∧ frame.status = .active

/-- What a step does to a frame that it does not make. -/
structure StepOf (w w' : World) (f : Nat) (action : Action) : Prop where
  /-- No number is used again. -/
  next : w.nextFrame ≤ w'.nextFrame
  gone : w'.frames f = none ↔ w.frames f = none ∨ Destroys w f action
  /-- Only its event resumes a coroutine. -/
  suspended : Suspended w f → action ≠ .event f → Suspended w' f

/-! ## What a step does -/

theorem setFrame_eq_none {w : World} {f g : Nat} {frame : Frame} (hf : w.frames f ≠ none) :
    (setFrame w f frame).frames g = none ↔ w.frames g = none := by
  show Function.update w.frames f (some frame) g = none ↔ _
  by_cases hgf : g = f
  · subst hgf
    simp [hf]
  · rw [Function.update_of_ne hgf]

theorem resume_eq_none {w : World} {f g : Nat} :
    (resume w f).frames g = none ↔ w.frames g = none := by
  unfold resume
  split
  next => rfl
  next frame hf =>
    split
    next => rfl
    next => exact setFrame_eq_none (by rw [hf]; nofun)

theorem le_resume_nextFrame {w w' : World} {f : Nat} (h : w.nextFrame ≤ w'.nextFrame) :
    w.nextFrame ≤ (resume w' f).nextFrame := by
  unfold resume
  split
  next => exact h
  next => split <;> exact h

theorem Suspended.present {w : World} {f : Nat} (h : Suspended w f) : w.frames f ≠ none := by
  obtain ⟨-, frame, hf, -⟩ := h
  rw [hf]
  nofun

/-- Changing another frame leaves a coroutine suspended. -/
theorem Suspended.setFrame {w : World} {f g : Nat} {frame : Frame} (h : Suspended w f)
    (hgf : g ≠ f) : Suspended (setFrame w g frame) f := by
  obtain ⟨hmem, frame', hf, hact⟩ := h
  exact ⟨hmem, frame', (Function.update_of_ne hgf.symm ..).trans hf, hact⟩

theorem Suspended.resume {w : World} {f g : Nat} (h : Suspended w f) :
    Suspended (resume w g) f := by
  by_cases hgf : g = f
  · subst hgf
    obtain ⟨hmem, frame, hf, hact⟩ := h
    rw [resume_eq hf (by rw [hact]; nofun)]
    exact ⟨hmem, _, Function.update_self .., rfl⟩
  · unfold Coroutine.resume
    split
    next => exact h
    next =>
      split
      next => exact h
      next => exact h.setFrame hgf

theorem Suspended.destroyFrame {w : World} {f g : Nat} (h : Suspended w f) (hgf : g ≠ f) :
    Suspended (destroyFrame w g) f := by
  obtain ⟨hmem, frame, hf, hact⟩ := h
  exact ⟨hmem, frame, (Function.update_of_ne hgf.symm ..).trans hf, hact⟩

theorem Suspended.not_running {w : World} {f c : Nat} (h : Suspended w f)
    (hrun : running w c = true) : c ≠ f := by
  rintro rfl
  exact (running_iff.mp hrun).2 h.1

/-- The coroutine of an idle task is not suspended. -/
theorem Suspended.not_idle {w : World} {f t : Nat} (h : Suspended w f)
    (hidle : idle w t = true) : ¬ w.tasks.Holds t f := by
  intro ht
  obtain ⟨-, frame, hf, hact⟩ := h
  rcases status_of_idle hidle ht hf with hs | hs <;> cases hs.symm.trans hact

/-- The frame is as it was, and so are the events. -/
theorem StepOf.of_same {w w' : World} {f : Nat} {action : Action}
    (hnext : w.nextFrame ≤ w'.nextFrame) (hframes : w'.frames f = w.frames f)
    (hwaiting : f ∈ w.waiting → f ∈ w'.waiting) (hkeep : ¬ Destroys w f action) :
    StepOf w w' f action where
  next := hnext
  gone := by rw [hframes, or_iff_left hkeep]
  suspended := by
    rintro ⟨hmem, hframe⟩ -
    exact ⟨hwaiting hmem, hframes ▸ hframe⟩

theorem StepOf.finalSuspend {w : World} {f c : Nat} {frame : Frame} (hc : w.frames c = some frame)
    (hrun : running w c = true) : StepOf w (finalSuspend w c frame) f (.finish c) := by
  unfold Coroutine.finalSuspend
  split
  next caller hcaller =>
    refine ⟨le_resume_nextFrame (Nat.le_refl _), ?_,
      fun h _ => (h.setFrame (h.not_running hrun)).resume⟩
    rw [resume_eq_none, setFrame_eq_none (by rw [hc]; nofun)]
    refine (or_iff_left ?_).symm
    rintro ⟨rfl, hnone⟩
    rw [hc] at hnone
    cases hcaller.symm.trans hnone
  next hcaller =>
    refine ⟨Nat.le_refl _, ?_, fun h _ => h.destroyFrame (h.not_running hrun)⟩
    show Function.update w.frames c none f = none ↔ _ ∨ c = f ∧ _
    by_cases hcf : c = f
    · subst hcf
      simp [hc, hcaller]
    · rw [Function.update_of_ne (Ne.symm hcf)]
      simp [hcf]

/-- A coroutine of a task starts, and its caller is suspended in a `co_await`. -/
theorem StepOf.coAwait {w : World} {f c t k : Nat} {frame callee : Frame}
    (hc : w.frames c = some frame) (hk : w.frames k = some callee) (ht : w.tasks.Holds t k)
    (hrun : running w c = true) (hidle : idle w t = true) :
    StepOf w (resume (setFrame (setFrame w c { frame with status := .awaiting }) k
      { callee with caller := some c }) k) f (.coAwait c t) where
  next := le_resume_nextFrame (Nat.le_refl _)
  gone := by
    have hcw : w.frames c ≠ none := by rw [hc]; nofun
    have hkw : w.frames k ≠ none := by rw [hk]; nofun
    rw [resume_eq_none, setFrame_eq_none (mt (setFrame_eq_none hcw).mp hkw), setFrame_eq_none hcw]
    exact (or_iff_left id).symm
  suspended h _ := by
    have hkf : k ≠ f := by
      rintro rfl
      exact h.not_idle hidle ht
    exact ((h.setFrame (h.not_running hrun)).setFrame hkf).resume

/-- The destructor of a task that owns a frame. -/
theorem StepOf.destroy {w : World} {f t k : Nat} (ht : w.tasks.Holds t k)
    (hidle : idle w t = true) :
    StepOf w { destroyFrame w k with tasks := w.tasks.remove t } f (.destroy t) where
  next := Nat.le_refl _
  gone := by
    show Function.update w.frames k none f = none ↔ _ ∨ w.tasks.Holds t f
    by_cases hfk : f = k
    · subst hfk
      simp [ht]
    · have hholds : ¬ w.tasks.Holds t f := fun hf =>
        hfk (Option.some.inj (Option.some.inj (hf.symm.trans ht)))
      rw [Function.update_of_ne hfk, or_iff_left hholds]
  suspended h _ := by
    have hkf : k ≠ f := by
      rintro rfl
      exact h.not_idle hidle ht
    exact h.destroyFrame hkf

/-- **What every step does to a frame**, but for the one it makes. -/
theorem StepOf.of_step {w w' : World} {f : Nat} {action : Action} (hstep : step w action = some w')
    (hf : action = .create → f ≠ w.nextFrame) : StepOf w w' f action := by
  cases (acts_of_step hstep).2 with
  | create => exact .of_same (Nat.le_succ _) (Function.update_of_ne (hf rfl) ..) id id
  | moveConstruct => exact .of_same (Nat.le_refl _) rfl id id
  | moveAssign => exact .of_same (Nat.le_refl _) rfl id id
  | moveAssignSelf => exact .of_same (Nat.le_refl _) rfl id id
  | spawn =>
    exact ⟨le_resume_nextFrame (Nat.le_refl _), resume_eq_none.trans (or_iff_left id).symm,
      fun h _ => Suspended.resume h⟩
  | coAwaitGone => exact .of_same (Nat.le_refl _) rfl id id
  | coAwaitDone => exact .of_same (Nat.le_refl _) rfl id id
  | coAwait ht hc hrun hidle hcallee => exact .coAwait hc hcallee ht hrun hidle
  | @suspend c => exact .of_same (Nat.le_refl _) rfl (List.mem_cons_of_mem c) id
  | @event c =>
    refine ⟨le_resume_nextFrame (Nat.le_refl _), resume_eq_none.trans (or_iff_left id).symm,
      fun h hne => Suspended.resume ⟨?_, h.2⟩⟩
    have hfc : f ≠ c := fun hfc => hne (hfc ▸ rfl)
    exact List.mem_filter.mpr ⟨h.1, by simpa using hfc⟩
  | finish hc hrun => exact .finalSuspend hc hrun
  | destroyEmpty _ hempty =>
    exact .of_same (Nat.le_refl _) rfl id fun hholds => absurd hholds (hempty f)
  | destroy ht hidle => exact .destroy ht hidle

/-! ## What a run does -/

/-- The frames that are there have been made. -/
def Bounded (w : World) : Prop := ∀ f, w.nextFrame ≤ f → w.frames f = none

theorem Bounded.lt {w : World} {f : Nat} (h : Bounded w) (hf : w.frames f ≠ none) :
    f < w.nextFrame :=
  Nat.lt_of_not_le fun hle => hf (h f hle)

theorem Bounded.step {w w' : World} {action : Action} (h : Bounded w)
    (hstep : step w action = some w') : Bounded w' := by
  intro f hf
  have hmade : action = .create → f ≠ w.nextFrame := by
    rintro rfl rfl
    obtain ⟨-, hacts⟩ := acts_of_step hstep
    cases hacts
    exact Nat.lt_irrefl _ hf
  have hstepOf := StepOf.of_step hstep hmade
  refine hstepOf.gone.mpr (Or.inl (h f (Nat.le_trans hstepOf.next hf)))

theorem bounded_of_run {past : List Action} {w : World}
    (h : Run step (fun _ _ => True) init past w) : Bounded w :=
  h.invariant (fun _ => Bounded) (fun _ _ => rfl) fun _ _ _ _ hb _ hstep => hb.step hstep

theorem Bounded.foldlM {w w' : World} {actions : List Action} (h : Bounded w)
    (hrun : actions.foldlM Coroutine.step w = some w') : Bounded w' :=
  foldlM_invariant Bounded (fun _ _ _ _ hb hstep => hb.step hstep) h hrun

/-- A frame that was destroyed does not come back. -/
theorem gone_of_gone {w w' : World} {f : Nat} {actions : List Action} (hf : f < w.nextFrame)
    (hgone : w.frames f = none) (hrun : actions.foldlM step w = some w') : w'.frames f = none := by
  refine (foldlM_invariant (fun w => f < w.nextFrame ∧ w.frames f = none) ?_ ⟨hf, hgone⟩ hrun).2
  rintro w action w₁ - ⟨hf, hgone⟩ hstep
  have hstepOf := StepOf.of_step hstep fun _ => Nat.ne_of_lt hf
  exact ⟨Nat.lt_of_lt_of_le hf hstepOf.next, hstepOf.gone.mpr (Or.inl hgone)⟩

theorem keeps_cons {w w' : World} {f : Nat} {action : Action} {actions : List Action}
    (hstep : step w action = some w') :
    Keeps f w (action :: actions) ↔ ¬ Destroys w f action ∧ Keeps f w' actions := by
  have honly : ∀ w₁, step w action = some w₁ → w' = w₁ := fun w₁ hw₁ =>
    Option.some.inj (hstep.symm.trans hw₁)
  exact and_congr_right fun _ => ⟨fun h => h w' hstep, fun h w₁ hw₁ => honly w₁ hw₁ ▸ h⟩

/-- **A frame is there after some actions iff none of them destroys it.** -/
theorem present_iff_keeps {w w' : World} {f : Nat} {actions : List Action} (hb : Bounded w)
    (hf : w.frames f ≠ none) (hrun : actions.foldlM step w = some w') :
    w'.frames f ≠ none ↔ Keeps f w actions := by
  induction actions generalizing w with
  | nil =>
    obtain rfl := Option.some.inj hrun
    exact iff_of_true hf trivial
  | cons action actions ih =>
    obtain ⟨w₁, hstep, hrest⟩ := foldlM_cons_eq_some.mp hrun
    have hlt := hb.lt hf
    have hstepOf := StepOf.of_step hstep fun _ => Nat.ne_of_lt hlt
    rw [keeps_cons hstep]
    by_cases hdestroys : Destroys w f action
    · refine iff_of_false (fun hne => hne ?_) fun hkeeps => hkeeps.1 hdestroys
      exact gone_of_gone (Nat.lt_of_lt_of_le hlt hstepOf.next)
        (hstepOf.gone.mpr (Or.inr hdestroys)) hrest
    · have hf₁ : w₁.frames f ≠ none := fun hgone =>
        (hstepOf.gone.mp hgone).elim hf hdestroys
      rw [ih (hb.step hstep) hf₁ hrest, and_iff_right hdestroys]

/-- A coroutine that is suspended stays so until its event comes. -/
theorem Suspended.foldlM {w w' : World} {f : Nat} {actions : List Action} (h : Suspended w f)
    (hb : Bounded w) (hne : .event f ∉ actions) (hrun : actions.foldlM Coroutine.step w = some w') :
    Suspended w' f := by
  refine (foldlM_invariant (fun w => Suspended w f ∧ Bounded w) ?_ ⟨h, hb⟩ hrun).1
  rintro w action w₁ hmem ⟨h, hb⟩ hstep
  have hother : action ≠ .event f := fun heq => hne (heq ▸ hmem)
  have hstepOf := StepOf.of_step hstep fun _ => Nat.ne_of_lt (hb.lt h.present)
  exact ⟨hstepOf.suspended h hother, hb.step hstep⟩

end Uvio.Coroutine
