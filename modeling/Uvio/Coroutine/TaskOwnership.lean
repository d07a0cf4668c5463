import Uvio.Coroutine.Task
import Uvio.Program.Runs
import Mathlib.Data.List.Nodup

/-!
# Who owns a coroutine frame

Runs of coroutines and tasks.

- `Good`: no frame is destroyed twice or resumed after it was destroyed, and a frame
  that is there is owned by a `Task` or belongs to a detached coroutine that has not
  ended.
- `Timely`: a `Task` that owns a frame is not assigned to, and a coroutine that has
  ended is not taken.
- `frames_owned`: runs all of whose steps are timely are good.
-/

namespace Uvio.Coroutine

open Program Holders

/-- What is asked of frames. -/
structure Good (w : World) : Prop where
  /-- No coroutine was resumed after its frame was destroyed. -/
  sound : w.fault = false
  /-- No frame was destroyed twice. -/
  once : w.destroyed.Nodup
  /-- A frame that was made and not destroyed is owned by a `Task`, or was detached
  and has not reached its final suspend. -/
  owned : ∀ f < w.nextFrame, f ∉ w.destroyed → Owned w f ∨
    f ∈ w.detached ∧ ∃ frame, w.frames f = some frame ∧ frame.status ≠ .done

/-- A task that owns a frame is not assigned to, unless it is to itself; the
coroutine of a task that is taken has not ended. -/
def Timely (w : World) : Action → Prop
  | .moveAssign t u => t = u ∨ (w.tasks t).join = none
  | .spawn t => ∀ f frame, w.tasks.Holds t f → w.frames f = some frame → frame.status ≠ .done
  | _ => True

/-! ## The invariant -/

/-- Started and not ended. -/
def UnderWay (frame : Frame) : Prop := frame.status = .active ∨ frame.status = .awaiting

/-- Who is responsible for a frame: a task for one that is not under way or that has
a caller, nobody for one that was detached. -/
def Placed (w : World) (f : Nat) (frame : Frame) : Prop :=
  if frame.status = .created then frame.caller = none ∧ Owned w f
  else if frame.status = .done then Owned w f
  else if frame.caller = none then f ∈ w.detached ∧ ¬ Owned w f
  else Owned w f

/-- What timely steps keep. -/
structure Inv (w : World) : Prop where
  sound : w.fault = false
  exclusive : w.tasks.Exclusive
  alive : ∀ f, Owned w f → w.frames f ≠ none
  placed : ∀ f frame, w.frames f = some frame → Placed w f frame
  made : ∀ f, f < w.nextFrame ↔ w.frames f ≠ none ∨ f ∈ w.destroyed
  once : w.destroyed.Nodup
  gone : ∀ f ∈ w.destroyed, w.frames f = none
  /-- The caller of a coroutine under way awaits it, and it alone. -/
  caller : ∀ f frame c, w.frames f = some frame → UnderWay frame → frame.caller = some c →
    ∃ frame', w.frames c = some frame' ∧ frame'.status = .awaiting
  callee : ∀ f g frame frame' c, w.frames f = some frame → w.frames g = some frame' →
    UnderWay frame → UnderWay frame' → frame.caller = some c → frame'.caller = some c → f = g
  waiting : ∀ f ∈ w.waiting, ∃ frame, w.frames f = some frame ∧ frame.status = .active
  fresh : ∀ t, w.nextTask ≤ t → w.tasks t = none

theorem inv_init : Inv init where
  sound := rfl
  exclusive := nofun
  alive := by rintro f ⟨t, ht⟩; cases ht
  placed := nofun
  made := by simp [init]
  once := List.nodup_nil
  gone := nofun
  caller := nofun
  callee := nofun
  waiting := nofun
  fresh _ _ := rfl

/-- The invariant gives what is asked. -/
theorem Inv.good {w : World} (h : Inv w) : Good w where
  sound := h.sound
  once := h.once
  owned f hf hleft := by
    obtain ⟨frame, hframe⟩ :=
      Option.ne_none_iff_exists'.mp (((h.made f).mp hf).resolve_right hleft)
    have hplaced := h.placed f frame hframe
    unfold Placed at hplaced
    split at hplaced
    next => exact Or.inl hplaced.2
    next =>
      split at hplaced
      next => exact Or.inl hplaced
      next hdone =>
        split at hplaced
        next => exact Or.inr ⟨hplaced.1, frame, hframe, hdone⟩
        next => exact Or.inl hplaced

theorem Placed.congr {w w' : World} {f : Nat} {frame : Frame} (h : Placed w f frame)
    (howned : Owned w' f ↔ Owned w f) (hdetached : w.detached ⊆ w'.detached) :
    Placed w' f frame := by
  unfold Placed at h ⊢
  rw [howned]
  split
  next hc => rwa [if_pos hc] at h
  next hc =>
    rw [if_neg hc] at h
    split
    next hd => rwa [if_pos hd] at h
    next hd =>
      rw [if_neg hd] at h
      split
      next hn =>
        rw [if_pos hn] at h
        exact ⟨hdetached h.1, h.2⟩
      next hn => rwa [if_neg hn] at h

theorem placed_underWay {w : World} {f : Nat} {frame : Frame} (hway : UnderWay frame) :
    Placed w f frame ↔ (frame.caller = none → f ∈ w.detached ∧ ¬ Owned w f) ∧
      (frame.caller ≠ none → Owned w f) := by
  have hcreated : frame.status ≠ .created := by rcases hway with h | h <;> rw [h] <;> nofun
  have hdone : frame.status ≠ .done := by rcases hway with h | h <;> rw [h] <;> nofun
  rw [Placed, if_neg hcreated, if_neg hdone]
  by_cases hc : frame.caller = none <;> simp [hc]

/-- Tasks may hand frames on. -/
theorem Inv.setTasks {w : World} (h : Inv w) {tasks : Holders Nat Nat} {next : Nat}
    (hexcl : tasks.Exclusive) (howned : ∀ f, (∃ t, tasks.Holds t f) ↔ Owned w f)
    (hfresh : ∀ t, next ≤ t → tasks t = none) : Inv { w with tasks := tasks, nextTask := next } where
  sound := h.sound
  exclusive := hexcl
  alive f hf := h.alive f ((howned f).mp hf)
  placed f frame hframe := (h.placed f frame hframe).congr (howned f) (List.Subset.refl _)
  made := h.made
  once := h.once
  gone := h.gone
  caller := h.caller
  callee := h.callee
  waiting := h.waiting
  fresh := hfresh

/-- One frame may change: `w'` is `w` but for the frame `f` and who owns it. -/
theorem Inv.reframe {w w' : World} (h : Inv w) {f : Nat} {frame frame' : Frame}
    (hf : w.frames f = some frame) (hframes : w'.frames = Function.update w.frames f (some frame'))
    (hsound : w'.fault = w.fault) (hnext : w'.nextFrame = w.nextFrame)
    (hdestroyed : w'.destroyed = w.destroyed) (hwaiting : w'.waiting = w.waiting)
    (hdetached : w.detached ⊆ w'.detached) (hexcl : w'.tasks.Exclusive)
    (hfresh : ∀ t, w'.nextTask ≤ t → w'.tasks t = none)
    (howned : ∀ g, g ≠ f → (Owned w' g ↔ Owned w g)) (hplaced : Placed w' f frame')
    (hcaller : ∀ c, UnderWay frame' → frame'.caller = some c → c ≠ f ∧
      (∃ fc, w.frames c = some fc ∧ fc.status = .awaiting) ∧
      ∀ g fg, w.frames g = some fg → UnderWay fg → fg.caller = some c → g = f)
    (hcallee : frame'.status ≠ .awaiting →
      ∀ g fg, g ≠ f → w.frames g = some fg → UnderWay fg → fg.caller ≠ some f)
    (hactive : f ∈ w.waiting → frame'.status = .active) : Inv w' := by
  have hself : w'.frames f = some frame' := by rw [hframes, Function.update_self]
  have hother : ∀ g, g ≠ f → w'.frames g = w.frames g := fun g hg => by
    rw [hframes, Function.update_of_ne hg]
  -- every frame of `w'` is the new one or one of `w`
  have hsplit : ∀ g fg, w'.frames g = some fg → g = f ∧ fg = frame' ∨
      g ≠ f ∧ w.frames g = some fg := by
    intro g fg hg
    rw [hframes] at hg
    exact (of_update_eq_some hg).imp_left (And.imp_right Eq.symm)
  have hnone : ∀ g, w'.frames g = none ↔ w.frames g = none := by
    intro g
    by_cases hgf : g = f
    · subst hgf
      simp [hself, hf]
    · rw [hother g hgf]
  refine ⟨hsound.trans h.sound, hexcl, ?_, ?_, ?_, hdestroyed ▸ h.once, ?_, ?_, ?_, ?_, hfresh⟩
  · intro g hg hgone
    have hgone' := (hnone g).mp hgone
    by_cases hgf : g = f
    · rw [hgf, hf] at hgone'
      cases hgone'
    · exact h.alive g ((howned g hgf).mp hg) hgone'
  · intro g fg hg
    rcases hsplit g fg hg with ⟨rfl, rfl⟩ | ⟨hgf, hg⟩
    · exact hplaced
    · exact (h.placed g fg hg).congr (howned g hgf) hdetached
  · intro g
    rw [hnext, hdestroyed, ne_eq, hnone]
    exact h.made g
  · intro g hg
    exact (hnone g).mpr (h.gone g (hdestroyed ▸ hg))
  · intro g fg c hg hway hc
    rcases hsplit g fg hg with ⟨rfl, rfl⟩ | ⟨hgf, hg⟩
    · obtain ⟨hcf, ⟨fc, hfc, hawait⟩, -⟩ := hcaller c hway hc
      exact ⟨fc, (hother c hcf).trans hfc, hawait⟩
    · obtain ⟨fc, hfc, hawait⟩ := h.caller g fg c hg hway hc
      by_cases hcf : c = f
      · subst hcf
        refine ⟨frame', hself, ?_⟩
        by_contra hne
        exact hcallee hne g fg hgf hg hway hc
      · exact ⟨fc, (hother c hcf).trans hfc, hawait⟩
  · intro g g' fg fg' c hg hg' hway hway' hc hc'
    rcases hsplit g fg hg with ⟨rfl, rfl⟩ | ⟨hgf, hg⟩ <;>
      rcases hsplit g' fg' hg' with ⟨rfl, rfl⟩ | ⟨hgf', hg'⟩
    · rfl
    · exact ((hcaller c hway hc).2.2 g' fg' hg' hway' hc').symm
    · exact (hcaller c hway' hc').2.2 g fg hg hway hc
    · exact h.callee g g' fg fg' c hg hg' hway hway' hc hc'
  · intro g hg
    rw [hwaiting] at hg
    obtain ⟨fg, hfg, hact⟩ := h.waiting g hg
    by_cases hgf : g = f
    · subst hgf
      exact ⟨frame', hself, hactive hg⟩
    · exact ⟨fg, (hother g hgf).trans hfg, hact⟩

/-- One frame may be destroyed: `w'` is `w` without the frame `f` and its owner. -/
theorem Inv.unframe {w w' : World} (h : Inv w) {f : Nat} {frame : Frame}
    (hf : w.frames f = some frame) (hstatus : frame.status ≠ .awaiting) (hidle : f ∉ w.waiting)
    (hframes : w'.frames = Function.update w.frames f none) (hsound : w'.fault = w.fault)
    (hnext : w'.nextFrame = w.nextFrame) (hdestroyed : w'.destroyed = w.destroyed ++ [f])
    (hwaiting : w'.waiting = w.waiting) (hdetached : w'.detached = w.detached)
    (hexcl : w'.tasks.Exclusive) (hfresh : ∀ t, w'.nextTask ≤ t → w'.tasks t = none)
    (howned : ∀ g, Owned w' g ↔ g ≠ f ∧ Owned w g) : Inv w' := by
  have hself : w'.frames f = none := by rw [hframes, Function.update_self]
  have hother : ∀ g, g ≠ f → w'.frames g = w.frames g := fun g hg => by
    rw [hframes, Function.update_of_ne hg]
  have hsplit : ∀ g fg, w'.frames g = some fg → g ≠ f ∧ w.frames g = some fg := by
    intro g fg hg
    by_cases hgf : g = f
    · rw [hgf, hself] at hg
      cases hg
    · exact ⟨hgf, hother g hgf ▸ hg⟩
  have hmem : ∀ g, g ∈ w'.destroyed ↔ g ∈ w.destroyed ∨ g = f := by simp [hdestroyed]
  refine ⟨hsound.trans h.sound, hexcl, ?_, ?_, ?_, ?_, ?_, ?_, ?_, ?_, hfresh⟩
  · intro g hg
    obtain ⟨hgf, hg⟩ := (howned g).mp hg
    rw [hother g hgf]
    exact h.alive g hg
  · intro g fg hg
    obtain ⟨hgf, hg⟩ := hsplit g fg hg
    refine (h.placed g fg hg).congr ?_ (hdetached ▸ List.Subset.refl _)
    rw [howned g, and_iff_right hgf]
  · intro g
    rw [hnext, h.made g, hmem]
    by_cases hgf : g = f
    · subst hgf
      simp [hf]
    · simp [hother g hgf, hgf]
  · rw [hdestroyed, List.nodup_append]
    refine ⟨h.once, by simp, fun a ha b hb hab => ?_⟩
    obtain rfl := List.mem_singleton.mp hb
    rw [h.gone b (hab ▸ ha)] at hf
    cases hf
  · intro g hg
    by_cases hgf : g = f
    · rw [hgf, hself]
    · rw [hother g hgf]
      exact h.gone g (((hmem g).mp hg).resolve_right hgf)
  · intro g fg c hg hway hc
    obtain ⟨hgf, hg⟩ := hsplit g fg hg
    obtain ⟨fc, hfc, hawait⟩ := h.caller g fg c hg hway hc
    -- the frame that is destroyed awaits nothing
    have hcf : c ≠ f := by
      rintro rfl
      rw [hf] at hfc
      cases hfc
      exact hstatus hawait
    exact ⟨fc, (hother c hcf).trans hfc, hawait⟩
  · intro g g' fg fg' c hg hg'
    exact h.callee g g' fg fg' c (hsplit g fg hg).2 (hsplit g' fg' hg').2
  · intro g hg
    rw [hwaiting] at hg
    have hgf : g ≠ f := fun hgf => hidle (hgf ▸ hg)
    rw [hother g hgf]
    exact h.waiting g hg

theorem owned_put {w : World} {t f : Nat} {v : Option Nat} (ht : ∀ k, ¬ w.tasks.Holds t k) :
    (∃ u, (w.tasks.put t v).Holds u f) ↔ v = some f ∨ Owned w f := by
  constructor
  · rintro ⟨u, hu⟩
    rcases holds_put.mp hu with ⟨-, hv⟩ | ⟨-, hu⟩
    · exact Or.inl hv
    · exact Or.inr ⟨u, hu⟩
  · rintro (hv | ⟨u, hu⟩)
    · exact ⟨t, holds_put.mpr (Or.inl ⟨rfl, hv⟩)⟩
    · refine ⟨u, holds_put.mpr (Or.inr ⟨?_, hu⟩)⟩
      rintro rfl
      exact ht f hu

theorem owned_transfer {w : World} {t u f : Nat} (htu : t ≠ u) (hu : ∀ k, ¬ w.tasks.Holds u k) :
    (∃ l, (w.tasks.transfer t u).Holds l f) ↔ Owned w f := by
  rw [exists_holds_transfer htu]
  constructor
  · rintro ⟨l, -, hl⟩
    exact ⟨l, hl⟩
  · rintro ⟨l, hl⟩
    refine ⟨l, ?_, hl⟩
    rintro rfl
    exact hu f hl

/-- What a task that loses its frame leaves owned. -/
theorem owned_drop {w : World} {t f g : Nat} (h : w.tasks.Exclusive) (ht : w.tasks.Holds t f) :
    (∃ u, u ≠ t ∧ w.tasks.Holds u g) ↔ g ≠ f ∧ Owned w g := by
  constructor
  · rintro ⟨u, hut, hu⟩
    refine ⟨?_, u, hu⟩
    rintro rfl
    exact hut (h u t g hu ht)
  · rintro ⟨hgf, u, hu⟩
    refine ⟨u, ?_, hu⟩
    rintro rfl
    exact hgf (Option.some.inj (Option.some.inj (hu.symm.trans ht)))

theorem Inv.nothing_fresh {w : World} (h : Inv w) {t : Nat} (ht : w.nextTask ≤ t) (k : Nat) :
    ¬ w.tasks.Holds t k := fun hk => nomatch (h.fresh t ht).symm.trans hk

theorem Inv.alive_lt {w : World} (h : Inv w) {t : Nat} (ht : w.tasks t ≠ none) : t < w.nextTask :=
  Nat.lt_of_not_le fun hle => ht (h.fresh t hle)

theorem Inv.create {w : World} (h : Inv w) : Inv { setFrame w w.nextFrame ⟨none, .created⟩ with
    tasks := w.tasks.put w.nextTask (some w.nextFrame)
    nextTask := w.nextTask + 1
    nextFrame := w.nextFrame + 1 } := by
  have hnew : w.frames w.nextFrame = none := by
    by_contra hne
    exact absurd ((h.made _).mpr (Or.inl hne)) (Nat.lt_irrefl _)
  have hleft : w.nextFrame ∉ w.destroyed := fun hmem =>
    absurd ((h.made _).mpr (Or.inr hmem)) (Nat.lt_irrefl _)
  have howned : ∀ g, (∃ u, (w.tasks.put w.nextTask (some w.nextFrame)).Holds u g) ↔
      some w.nextFrame = some g ∨ Owned w g := fun g =>
    owned_put (h.nothing_fresh (Nat.le_refl _))
  have hsplit : ∀ g fg, Function.update w.frames w.nextFrame (some ⟨none, .created⟩) g = some fg →
      g = w.nextFrame ∧ fg = ⟨none, .created⟩ ∨ g ≠ w.nextFrame ∧ w.frames g = some fg := by
    intro g fg hg
    exact (of_update_eq_some hg).imp_left (And.imp_right Eq.symm)
  have hself : Function.update w.frames w.nextFrame (some (⟨none, .created⟩ : Frame)) w.nextFrame =
      some ⟨none, .created⟩ := Function.update_self ..
  have hkeep : ∀ g fg, w.frames g = some fg →
      Function.update w.frames w.nextFrame (some ⟨none, .created⟩) g = some fg := by
    intro g fg hg
    rw [Function.update_of_ne ?_]
    · exact hg
    · rintro rfl
      cases hnew.symm.trans hg
  have hstart : ¬ UnderWay ⟨none, .created⟩ := by rintro (h | h) <;> cases h
  refine ⟨h.sound, ?_, ?_, ?_, ?_, h.once, ?_, ?_, ?_, ?_, ?_⟩
  · refine h.exclusive.put fun k hk j hj => ?_
    obtain rfl := Option.some.inj hk
    exact h.alive _ ⟨j, hj⟩ hnew
  · intro g hg hgone
    rcases (howned g).mp hg with hg | hg
    · obtain rfl := Option.some.inj hg
      cases hself.symm.trans hgone
    · obtain ⟨fg, hfg⟩ := Option.ne_none_iff_exists'.mp (h.alive g hg)
      cases (hkeep g fg hfg).symm.trans hgone
  · intro g fg hg
    rcases hsplit g fg hg with ⟨rfl, rfl⟩ | ⟨hgn, hg⟩
    · exact ⟨rfl, (howned _).mpr (Or.inl rfl)⟩
    · refine (h.placed g fg hg).congr ?_ (List.Subset.refl _)
      rw [Owned, howned, or_iff_right fun hgn' => hgn (Option.some.inj hgn').symm]
  · intro g
    show g < w.nextFrame + 1 ↔ Function.update w.frames w.nextFrame _ g ≠ none ∨ g ∈ w.destroyed
    by_cases hgn : g = w.nextFrame
    · simp [hgn]
    · rw [Function.update_of_ne hgn, ← h.made g]
      omega
  · intro g hg
    have hgn : g ≠ w.nextFrame := by
      rintro rfl
      exact hleft hg
    exact (Function.update_of_ne hgn ..).trans (h.gone g hg)
  · intro g fg c hg hway hc
    rcases hsplit g fg hg with ⟨-, rfl⟩ | ⟨-, hg⟩
    · exact absurd hway hstart
    · obtain ⟨fc, hfc, hawait⟩ := h.caller g fg c hg hway hc
      exact ⟨fc, hkeep c fc hfc, hawait⟩
  · intro g g' fg fg' c hg hg' hway hway'
    rcases hsplit g fg hg with ⟨-, rfl⟩ | ⟨-, hg⟩
    · exact absurd hway hstart
    · rcases hsplit g' fg' hg' with ⟨-, rfl⟩ | ⟨-, hg'⟩
      · exact absurd hway' hstart
      · exact h.callee g g' fg fg' c hg hg' hway hway'
  · intro g hg
    obtain ⟨fg, hfg, hact⟩ := h.waiting g hg
    exact ⟨fg, hkeep g fg hfg, hact⟩
  · intro t ht
    show w.tasks.put w.nextTask _ t = none
    rw [put, Function.update_of_ne (Nat.ne_of_gt ht)]
    exact h.fresh t (Nat.le_of_succ_le ht)

/-! ## The steps -/

/-- A caller awaits no other coroutine. -/
theorem Inv.only_callee {w : World} (h : Inv w) {f c : Nat} {frame : Frame}
    (hf : w.frames f = some frame) (hway : UnderWay frame) (hc : frame.caller = some c) :
    ∀ g fg, w.frames g = some fg → UnderWay fg → fg.caller = some c → g = f :=
  fun g fg hg hwayg hcg => h.callee g f fg frame c hg hf hwayg hway hcg hc

/-- A coroutine that does not await is no caller. -/
theorem Inv.no_callee {w : World} (h : Inv w) {f : Nat} {frame : Frame}
    (hf : w.frames f = some frame) (hne : frame.status ≠ .awaiting) :
    ∀ g fg, w.frames g = some fg → UnderWay fg → fg.caller ≠ some f := by
  intro g fg hg hway hc
  obtain ⟨frame', hf', hawait⟩ := h.caller g fg f hg hway hc
  obtain rfl := Option.some.inj (hf.symm.trans hf')
  exact hne hawait

theorem Inv.setWaiting {w : World} (h : Inv w) {waiting : List Nat}
    (hwaiting : ∀ f ∈ waiting, ∃ frame, w.frames f = some frame ∧ frame.status = .active) :
    Inv { w with waiting := waiting } :=
  { h with
    placed := fun f frame hf => (h.placed f frame hf).congr Iff.rfl (List.Subset.refl _)
    waiting := hwaiting }

theorem Inv.event {w : World} (h : Inv w) {c : Nat} (hc : c ∈ w.waiting) :
    Inv (resume { w with waiting := w.waiting.filter (· ≠ c) } c) := by
  obtain ⟨frame, hframe, hact⟩ := h.waiting c hc
  have hsame : Function.update w.frames c (some { frame with status := .active }) = w.frames := by
    rw [← hact, ← hframe, Function.update_eq_self]
  rw [resume_eq (w := { w with waiting := w.waiting.filter (· ≠ c) }) hframe (by rw [hact]; nofun),
    setFrame]
  dsimp only
  rw [hsame]
  exact h.setWaiting fun f hf => h.waiting f (List.mem_of_mem_filter hf)

/-- **A timely spawn** detaches a coroutine that has not started, and starts it. -/
theorem Inv.spawn {w : World} (h : Inv w) {t f : Nat} (ht : w.tasks.Holds t f)
    (hidle : idle w t = true)
    (hleft : ∀ frame, w.frames f = some frame → frame.status ≠ .done) :
    Inv (resume { w with tasks := w.tasks.put t none, detached := w.detached ++ [f] } f) := by
  obtain ⟨frame, hframe⟩ := Option.ne_none_iff_exists'.mp (h.alive f ⟨t, ht⟩)
  have hcreated : frame.status = .created :=
    (status_of_idle hidle ht hframe).resolve_right (hleft frame hframe)
  have hcaller : frame.caller = none := by
    have hplaced := h.placed f frame hframe
    rw [Placed, if_pos hcreated] at hplaced
    exact hplaced.1
  have howned : ∀ g, (∃ u, (w.tasks.put t none).Holds u g) ↔ g ≠ f ∧ Owned w g := by
    intro g
    rw [← owned_drop h.exclusive ht]
    simp [holds_put]
  rw [resume_eq (w := { w with tasks := w.tasks.put t none, detached := w.detached ++ [f] }) hframe
    (hleft frame hframe)]
  refine h.reframe hframe rfl rfl rfl rfl rfl (List.subset_append_left _ _)
    (h.exclusive.put fun _ hnone => by cases hnone) ?_ ?_ ?_ ?_ ?_ fun _ => rfl
  · intro u hu
    have hut : u ≠ t := by
      rintro rfl
      cases (h.fresh u hu).symm.trans ht
    show w.tasks.put t none u = none
    rw [put, Function.update_of_ne hut]
    exact h.fresh u hu
  · intro g hgf
    exact (howned g).trans (and_iff_right hgf)
  · refine (placed_underWay (Or.inl rfl)).mpr ⟨fun _ => ⟨?_, ?_⟩, fun hc => absurd hcaller hc⟩
    · exact List.mem_append_right _ (List.mem_singleton.mpr rfl)
    · exact fun hown => ((howned f).mp hown).1 rfl
  · intro c _ hc
    cases hcaller.symm.trans hc
  · intro _ g fg _ hg hway
    have hne : frame.status ≠ .awaiting := fun hawait => by cases hcreated.symm.trans hawait
    exact h.no_callee hframe hne g fg hg hway

/-- A coroutine awaits a task whose coroutine has not started, and starts it. -/
theorem Inv.coAwait {w : World} (h : Inv w) {c t f : Nat} {frame callee : Frame}
    (ht : w.tasks.Holds t f) (hc : w.frames c = some frame) (hf : w.frames f = some callee)
    (hrun : running w c = true) (hidle : idle w t = true) (hleft : callee.status ≠ .done) :
    Inv (resume (setFrame (setFrame w c { frame with status := .awaiting }) f
      { callee with caller := some c }) f) := by
  obtain ⟨⟨frame', hc', hact⟩, hwait⟩ := running_iff.mp hrun
  obtain rfl := Option.some.inj (hc.symm.trans hc')
  have hcreated := (status_of_idle hidle ht hf).resolve_right hleft
  have hfc : f ≠ c := by
    rintro rfl
    obtain rfl := Option.some.inj (hf.symm.trans hc)
    cases hcreated.symm.trans hact
  -- nobody is awaited by a coroutine that runs
  have hfree := h.no_callee hc (by rw [hact]; nofun)
  have h₁ : Inv (setFrame w c { frame with status := .awaiting }) := by
    refine h.reframe hc rfl rfl rfl rfl rfl (List.Subset.refl _) h.exclusive h.fresh
      (fun _ _ => Iff.rfl) ?_ ?_ (fun hne => absurd rfl hne) fun hmem => absurd hmem hwait
    · exact (placed_underWay (Or.inr rfl)).mpr
        ((placed_underWay (Or.inl hact)).mp (h.placed c frame hc))
    · intro c' _ hcc'
      obtain ⟨fc, hfc', hawait⟩ := h.caller c frame c' hc (Or.inl hact) hcc'
      refine ⟨?_, ⟨fc, hfc', hawait⟩, h.only_callee hc (Or.inl hact) hcc'⟩
      rintro rfl
      obtain rfl := Option.some.inj (hc.symm.trans hfc')
      cases hact.symm.trans hawait
  have hf₁ : (setFrame w c { frame with status := .awaiting }).frames f = some callee :=
    (Function.update_of_ne hfc ..).trans hf
  have hf₂ : (setFrame (setFrame w c { frame with status := .awaiting }) f
      { callee with caller := some c }).frames f = some { callee with caller := some c } :=
    Function.update_self ..
  rw [resume_eq hf₂ hleft]
  refine h₁.reframe hf₁ (Function.update_idem ..) rfl rfl rfl rfl (List.Subset.refl _)
    h.exclusive h.fresh (fun _ _ => Iff.rfl) ?_ ?_ ?_ fun _ => rfl
  · exact (placed_underWay (Or.inl rfl)).mpr ⟨nofun, fun _ => ⟨t, ht⟩⟩
  · intro c' _ hcc'
    obtain rfl := Option.some.inj hcc'
    refine ⟨hfc.symm, ⟨_, Function.update_self .., rfl⟩, fun g fg hg hway hcg => ?_⟩
    exfalso
    by_cases hgc : g = c
    · subst hgc
      obtain rfl := Option.some.inj (hg.symm.trans (Function.update_self ..))
      exact hfree g frame hc (Or.inl hact) hcg
    · exact hfree g fg ((Function.update_of_ne hgc ..).symm.trans hg) hway hcg
  · exact fun _ g fg _ hg hway => h₁.no_callee hf₁ (by rw [hcreated]; nofun) g fg hg hway

/-- A coroutine that ends: its caller goes on, or its frame is destroyed. -/
theorem Inv.finalSuspend {w : World} (h : Inv w) {c : Nat} {frame : Frame}
    (hc : w.frames c = some frame) (hrun : running w c = true) :
    Inv (finalSuspend w c frame) := by
  obtain ⟨⟨frame', hc', hact⟩, hwait⟩ := running_iff.mp hrun
  obtain rfl := Option.some.inj (hc.symm.trans hc')
  have hway : UnderWay frame := Or.inl hact
  have hne : frame.status ≠ .awaiting := by rw [hact]; nofun
  have hplaced := (placed_underWay hway).mp (h.placed c frame hc)
  unfold Coroutine.finalSuspend
  split
  next caller hcaller =>
    have h₁ : Inv (setFrame w c { frame with status := .done }) := by
      refine h.reframe hc rfl rfl rfl rfl rfl (List.Subset.refl _) h.exclusive h.fresh
        (fun _ _ => Iff.rfl) ?_ ?_ ?_ fun hmem => absurd hmem hwait
      · exact hplaced.2 (by rw [hcaller]; nofun)
      · rintro c' (hway' | hway') <;> cases hway'
      · exact fun _ g fg _ hg hwayg => h.no_callee hc hne g fg hg hwayg
    -- the caller awaits this coroutine and no other
    obtain ⟨fc, hfc, hawait⟩ := h.caller c frame caller hc hway hcaller
    have honly := h.only_callee hc hway hcaller
    have hcc : caller ≠ c := by
      rintro rfl
      obtain rfl := Option.some.inj (hc.symm.trans hfc)
      exact hne hawait
    have hold : ∀ g fg, (setFrame w c { frame with status := .done }).frames g = some fg →
        UnderWay fg → w.frames g = some fg ∧ g ≠ c := by
      intro g fg hg hwayg
      by_cases hgc : g = c
      · subst hgc
        obtain rfl := Option.some.inj (hg.symm.trans (Function.update_self ..))
        rcases hwayg with hwayg | hwayg <;> cases hwayg
      · exact ⟨(Function.update_of_ne hgc ..).symm.trans hg, hgc⟩
    have hfc₁ : (setFrame w c { frame with status := .done }).frames caller = some fc :=
      (Function.update_of_ne hcc ..).trans hfc
    rw [resume_eq hfc₁ (by rw [hawait]; nofun)]
    refine h₁.reframe hfc₁ rfl rfl rfl rfl rfl (List.Subset.refl _) h.exclusive h.fresh
      (fun _ _ => Iff.rfl) ?_ ?_ ?_ fun _ => rfl
    · exact (placed_underWay (Or.inl rfl)).mpr
        ((placed_underWay (Or.inr hawait)).mp (h.placed caller fc hfc))
    · intro c' _ hcc'
      refine ⟨?_, h₁.caller caller fc c' hfc₁ (Or.inr hawait) hcc',
        h₁.only_callee hfc₁ (Or.inr hawait) hcc'⟩
      rintro rfl
      exact hcc (honly c' fc hfc (Or.inr hawait) hcc')
    · intro _ g fg _ hg hwayg hcg
      obtain ⟨hg, hgc⟩ := hold g fg hg hwayg
      exact hgc (honly g fg hg hwayg hcg)
  next hcaller =>
    refine h.unframe hc hne hwait rfl rfl rfl rfl rfl rfl h.exclusive h.fresh fun g => ?_
    refine ⟨fun hg => ⟨?_, hg⟩, fun hg => hg.2⟩
    rintro rfl
    exact (hplaced.1 hcaller).2 hg

/-- The destructor of a task destroys the frame it owns. -/
theorem Inv.destroy {w : World} (h : Inv w) {t f : Nat} (ht : w.tasks.Holds t f)
    (hidle : idle w t = true) : Inv { destroyFrame w f with tasks := w.tasks.remove t } := by
  obtain ⟨frame, hframe⟩ := Option.ne_none_iff_exists'.mp (h.alive f ⟨t, ht⟩)
  have hstatus := status_of_idle hidle ht hframe
  refine h.unframe hframe ?_ ?_ rfl rfl rfl rfl rfl rfl h.exclusive.remove ?_ fun g => ?_
  · rcases hstatus with hs | hs <;> rw [hs] <;> nofun
  · intro hmem
    obtain ⟨frame', hframe', hact⟩ := h.waiting f hmem
    obtain rfl := Option.some.inj (hframe.symm.trans hframe')
    rcases hstatus with hs | hs <;> cases hs.symm.trans hact
  · intro u hu
    show w.tasks.remove t u = none
    unfold Holders.remove
    by_cases hut : u = t
    · rw [hut, Function.update_self]
    · rw [Function.update_of_ne hut]
      exact h.fresh u hu
  · rw [← owned_drop h.exclusive ht]
    show (∃ u, (w.tasks.remove t).Holds u g) ↔ _
    simp [holds_remove]

/-- **Timely steps keep the invariant.** -/
theorem Inv.step {w w' : World} {action : Action} (h : Inv w) (ht : Timely w action)
    (hstep : Coroutine.step w action = some w') : Inv w' := by
  cases (acts_of_step hstep).2 with
  | create => exact h.create
  | @moveConstruct t halive =>
    have hlt := h.alive_lt halive
    have hne : t ≠ w.nextTask := Nat.ne_of_lt hlt
    refine h.setTasks (h.exclusive.transfer hne)
      (fun f => owned_transfer hne (h.nothing_fresh (Nat.le_refl _))) fun u hu => ?_
    have hut : u ≠ t := by omega
    have hun : u ≠ w.nextTask := by omega
    rw [Holders.transfer, put, Function.update_of_ne hut, put, Function.update_of_ne hun]
    exact h.fresh u (Nat.le_of_succ_le hu)
  | @moveAssign t u htalive hualive _ hne =>
    -- the task assigned to owns nothing, as the step is timely
    have hempty : ∀ k, ¬ w.tasks.Holds t k := by
      intro k hk
      rcases ht with rfl | hnone
      · exact hne rfl
      · rw [join_eq_some.mpr hk] at hnone
        cases hnone
    have htlt := h.alive_lt htalive
    have hult := h.alive_lt hualive
    refine h.setTasks (h.exclusive.transfer hne) (fun f => owned_transfer hne hempty)
      fun v hv => ?_
    have hvt : v ≠ t := by omega
    have hvu : v ≠ u := by omega
    rw [Holders.transfer, put, Function.update_of_ne hvu, put, Function.update_of_ne hvt]
    exact h.fresh v hv
  | moveAssignSelf => exact h
  | @spawn t f hholds hidle => exact h.spawn hholds hidle fun frame => ht f frame hholds
  | coAwaitGone hholds _ _ hnone => exact absurd hnone (h.alive _ ⟨_, hholds⟩)
  | coAwaitDone => exact h
  | coAwait hholds hc hrun hidle hcallee hleft =>
    exact h.coAwait hholds hc hcallee hrun hidle hleft
  | suspend hrun =>
    refine h.setWaiting fun f hf => ?_
    rcases List.mem_cons.mp hf with rfl | hf
    · exact (running_iff.mp hrun).1
    · exact h.waiting f hf
  | event hc => exact h.event hc
  | finish hc hrun => exact h.finalSuspend hc hrun
  | @destroyEmpty t halive hempty =>
    refine h.setTasks h.exclusive.remove (fun f => ?_) fun u hu => ?_
    · constructor
      · rintro ⟨u, hu⟩
        exact ⟨u, (holds_remove.mp hu).2⟩
      · rintro ⟨u, hu⟩
        refine ⟨u, holds_remove.mpr ⟨?_, hu⟩⟩
        rintro rfl
        exact hempty f hu
    · have hut : u ≠ t := by
        rintro rfl
        exact halive (h.fresh u hu)
      rw [Holders.remove, Function.update_of_ne hut]
      exact h.fresh u hu
  | destroy hholds hidle => exact h.destroy hholds hidle

/-! ## Runs -/

/-- **Timely runs own every frame**: if no task that owns a frame is assigned to and
no coroutine that has ended is taken, then in every state reached no frame was
destroyed twice or resumed after it was destroyed, and every frame that is there has
a task that owns it, or belongs to a detached coroutine that has not ended. -/
theorem frames_owned {past : List Action} {w : World} (h : Run step Timely init past w) : Good w :=
  (h.invariant (fun _ => Inv) inv_init fun _ _ _ _ hinv ht hstep => hinv.step ht hstep).good

/-- A coroutine is spawned, awaits another one and ends. -/
theorem frames_owned_spawned : ∃ w, Good w ∧ w.destroyed = [1, 0] := by
  have h₁ : Run step Timely init [.create] _ := Run.nil.snoc trivial rfl
  have h₂ : Run step Timely init [.create, .spawn 0] _ :=
    h₁.snoc (fun _ _ hf hframe => by cases hf; cases hframe; nofun) rfl
  have h₃ : Run step Timely init [.create, .spawn 0, .create] _ := h₂.snoc trivial rfl
  have h₄ : Run step Timely init [.create, .spawn 0, .create, .coAwait 0 1] _ :=
    h₃.snoc trivial rfl
  have h₅ : Run step Timely init [.create, .spawn 0, .create, .coAwait 0 1, .finish 1] _ :=
    h₄.snoc trivial rfl
  have h₆ : Run step Timely init
      [.create, .spawn 0, .create, .coAwait 0 1, .finish 1, .destroy 1] _ := h₅.snoc trivial rfl
  have h₇ : Run step Timely init
      [.create, .spawn 0, .create, .coAwait 0 1, .finish 1, .destroy 1, .finish 0] _ :=
    h₆.snoc trivial rfl
  exact ⟨_, frames_owned h₇, rfl⟩

/-- A task that owns a frame is assigned to: the frame is left without an owner. -/
theorem not_frames_owned :
    ¬ ∀ (past : List Action) (w : World), Run step (fun _ _ => True) init past w → Good w := by
  intro h
  have hrun : Run step (fun _ _ => True) init [.create, .create, .moveAssign 0 1] _ :=
    ((Run.nil.snoc trivial rfl).snoc trivial rfl).snoc trivial rfl
  rcases (h _ _ hrun).owned 0 (by decide) (by decide) with ⟨t, ht⟩ | ⟨hdetached, -⟩
  · -- task 0 owns frame 1 now, task 1 nothing
    match t with
    | 0 => cases ht
    | 1 => cases ht
    | t + 2 => cases ht
  · cases hdetached

end Uvio.Coroutine
