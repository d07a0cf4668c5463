import Uvio.Coroutine.Frames

/-!
# `notify_all` and coroutine frames

The loop of `notify_all` over awaiters that live in coroutine frames. Each
`resume()` lets the coroutines do whatever they do until it returns: any actions of
coroutines and tasks. The loop reads `handle_` of an awaiter before the call and
`next_` after it.

- `notifyAll`: the loop, which ends early when it reads an awaiter whose frame is gone.
- `Spares`: in its own round no waiter's frame is destroyed.
- `notifyAll_returned_iff`: the loop returns exactly if every waiter is spared.
-/

namespace Uvio.Sync.LatchFrames

open Program Coroutine

/-- The fields of the `LatchAwaiter` in a frame; an awaiter has the number of its
frame. -/
structure LatchAwaiter where
  handle : Nat
  next : Option Nat
deriving DecidableEq, Repr

inductive Outcome where
  | returned (w : World)
  /-- The frame of this awaiter was gone when `handle_` or `next_` was read. -/
  | dangling (head : Nat)

/-- The loop of `notify_all` at `head`, where the lists say what the coroutines do in
each `resume()`. -/
def notifyAll (awaiters : Nat → LatchAwaiter) :
    Option Nat → List (List Action) → World → Option Outcome
  | none, [], w => some (.returned w)
  | some head, actions :: rest, w =>
    if w.frames head = none then some (.dangling head)
    else
      ((.event (awaiters head).handle :: actions).foldlM step w).bind fun w =>
        if w.frames head = none then some (.dangling head)
        else notifyAll awaiters (awaiters head).next rest w
  -- there is one list for each `resume()`
  | _, _, _ => none

/-- A waiter, and what coroutines do from its resumption until control is back. -/
structure Round where
  waiter : Nat
  actions : List Action
deriving DecidableEq, Repr

/-- The list at `head` has the awaiters of these rounds. -/
def Linked (awaiters : Nat → LatchAwaiter) (head : Option Nat) : List Round → Prop
  | [] => head = none
  | round :: rounds =>
    head = some round.waiter ∧ (awaiters round.waiter).handle = round.waiter ∧
      Linked awaiters (awaiters round.waiter).next rounds

/-- Everybody in the list is suspended in the latch, which alone resumes them. -/
structure Waiting (w : World) (rounds : List Round) : Prop where
  suspended : ∀ round ∈ rounds, Suspended w round.waiter
  distinct : rounds.Pairwise fun round later => round.waiter ≠ later.waiter
  alone : rounds.Pairwise fun round later => .event later.waiter ∉ round.actions

/-- From its resumption until control is back, a waiter does not end without a
caller, and the task that owns its frame is not destroyed. -/
def Spares : World → List Round → Prop
  | _, [] => True
  | w, round :: rounds =>
    Keeps round.waiter w (.event round.waiter :: round.actions) ∧
      ∀ w', (Action.event round.waiter :: round.actions).foldlM step w = some w' →
        Spares w' rounds

theorem spares_cons {w w' : World} {round : Round} {rounds : List Round}
    (hrun : (Action.event round.waiter :: round.actions).foldlM step w = some w') :
    Spares w (round :: rounds) ↔
      Keeps round.waiter w (.event round.waiter :: round.actions) ∧ Spares w' rounds := by
  have honly : ∀ w₁, (Action.event round.waiter :: round.actions).foldlM step w = some w₁ →
      w' = w₁ := fun w₁ hw₁ => Option.some.inj (hrun.symm.trans hw₁)
  exact and_congr_right fun _ => ⟨fun h => h w' hrun, fun h w₁ hw₁ => honly w₁ hw₁ ▸ h⟩

/-- Those who are not resumed yet stay suspended. -/
theorem Waiting.tail {w w' : World} {round : Round} {rounds : List Round}
    (h : Waiting w (round :: rounds)) (hb : Bounded w)
    (hrun : (Action.event round.waiter :: round.actions).foldlM step w = some w') :
    Waiting w' rounds where
  suspended later hlater := by
    have hdistinct := (List.pairwise_cons.mp h.distinct).1 later hlater
    have halone := (List.pairwise_cons.mp h.alone).1 later hlater
    refine (h.suspended later (.tail _ hlater)).foldlM hb (fun hmem => ?_) hrun
    rcases List.mem_cons.mp hmem with heq | hmem
    · exact hdistinct (Action.event.inj heq).symm
    · exact halone hmem
  distinct := (List.pairwise_cons.mp h.distinct).2
  alone := (List.pairwise_cons.mp h.alone).2

theorem notifyAll_returned_iff_spares {awaiters : Nat → LatchAwaiter} {rounds : List Round}
    {head : Option Nat} {w : World} {outcome : Outcome} (hb : Bounded w)
    (hlist : Linked awaiters head rounds) (hwait : Waiting w rounds)
    (hrun : notifyAll awaiters head (rounds.map (·.actions)) w = some outcome) :
    (∃ w', outcome = .returned w') ↔ Spares w rounds := by
  induction rounds generalizing head w with
  | nil =>
    obtain rfl : head = none := hlist
    obtain rfl := Option.some.inj hrun
    exact iff_of_true ⟨w, rfl⟩ trivial
  | cons round rounds ih =>
    obtain ⟨rfl, hhandle, hnext⟩ := hlist
    have hthere := (hwait.suspended round (.head _)).present
    rw [List.map_cons, notifyAll, if_neg hthere, hhandle] at hrun
    obtain ⟨w₁, hround, hrest⟩ := Option.bind_eq_some_iff.mp hrun
    have hkeeps := present_iff_keeps hb hthere hround
    rw [spares_cons hround]
    split at hrest
    next hgone =>
      -- `next_` is read in a frame that is gone
      obtain rfl := Option.some.inj hrest
      refine iff_of_false nofun fun hspares => ?_
      exact hkeeps.mpr hspares.1 hgone
    next hkept =>
      rw [ih (hb.foldlM hround) hnext (hwait.tail hb hround) hrest,
        and_iff_right (hkeeps.mp hkept)]

/-- **`notify_all` reads only awaiters that are there iff waiters are spared**: for
every list of waiters and whatever the coroutines do in each round, the loop returns
without a read in a frame that is gone exactly if no waiter ends without a caller,
and none loses its task, from its resumption until control is back in the loop. -/
theorem notifyAll_returned_iff {past : List Action} {w : World}
    {awaiters : Nat → LatchAwaiter} {head : Option Nat} {rounds : List Round} {outcome : Outcome}
    (hreach : Run step (fun _ _ => True) init past w) (hlist : Linked awaiters head rounds)
    (hwait : Waiting w rounds)
    (hrun : notifyAll awaiters head (rounds.map (·.actions)) w = some outcome) :
    (∃ w', outcome = .returned w') ↔ Spares w rounds :=
  notifyAll_returned_iff_spares (bounded_of_run hreach) hlist hwait hrun

/-- Coroutine 1 ends, and its caller keeps the task and suspends; coroutine 2 suspends
again. -/
theorem notifyAll_returned_iff_two : ∃ w w', notifyAll
    (fun f => ⟨f, if f = 1 then some 2 else none⟩) (some 1) [[.finish 1, .suspend 0], [.suspend 2]]
    w = some (.returned w') := by
  let past : List Action := [.create, .spawn 0, .create, .coAwait 0 1, .suspend 1, .create,
    .spawn 2, .suspend 2]
  let w : World := (past.foldlM step init).getD init
  have hreach : Run step (fun _ _ => True) init past w :=
    (((((((Run.nil.snoc trivial rfl).snoc trivial rfl).snoc trivial rfl).snoc trivial rfl).snoc
      trivial rfl).snoc trivial rfl).snoc trivial rfl).snoc trivial rfl
  let rounds : List Round := [⟨1, [.finish 1, .suspend 0]⟩, ⟨2, [.suspend 2]⟩]
  have hwait : Waiting w rounds := ⟨fun round hround => by
    rcases List.mem_cons.mp hround with rfl | hround
    · exact ⟨by decide, _, rfl, rfl⟩
    · obtain rfl := List.mem_singleton.mp hround
      exact ⟨by decide, _, rfl, rfl⟩, by simp [rounds], by simp [rounds]⟩
  -- coroutine 1 has a caller
  have hspares : Spares w rounds := by
    refine (spares_cons rfl).mpr ⟨?_, (spares_cons rfl).mpr ⟨?_, trivial⟩⟩
    · refine (keeps_cons rfl).mpr ⟨id, (keeps_cons rfl).mpr ⟨fun h => ?_, ?_⟩⟩
      · cases h.2
      · exact (keeps_cons rfl).mpr ⟨id, trivial⟩
    · exact (keeps_cons rfl).mpr ⟨id, (keeps_cons rfl).mpr ⟨id, trivial⟩⟩
  let awaiters : Nat → LatchAwaiter := fun f => ⟨f, if f = 1 then some 2 else none⟩
  have hlist : Linked awaiters (some 1) rounds := ⟨rfl, rfl, rfl, rfl, rfl⟩
  obtain ⟨outcome, hrun⟩ : ∃ outcome,
      notifyAll awaiters (some 1) (rounds.map (·.actions)) w = some outcome := ⟨_, rfl⟩
  obtain ⟨w', rfl⟩ := (notifyAll_returned_iff hreach hlist hwait hrun).mpr hspares
  exact ⟨w, w', hrun⟩

/-- A detached coroutine waits and ends when it is resumed. -/
theorem not_notifyAll_returned : ¬ ∀ (past : List Action) (w : World)
    (awaiters : Nat → LatchAwaiter) (head : Option Nat) (rounds : List Round) (outcome : Outcome),
    Run step (fun _ _ => True) init past w → Linked awaiters head rounds → Waiting w rounds →
      notifyAll awaiters head (rounds.map (·.actions)) w = some outcome →
      ∃ w', outcome = .returned w' := by
  intro h
  have hreach : Run step (fun _ _ => True) init [.create, .spawn 0, .suspend 0] _ :=
    ((Run.nil.snoc trivial rfl).snoc trivial rfl).snoc trivial rfl
  obtain ⟨w', hw'⟩ := h _ _ (fun _ => ⟨0, none⟩) (some 0) [⟨0, [.finish 0]⟩] (.dangling 0) hreach
    ⟨rfl, rfl, rfl⟩ ⟨fun round hround => by
      obtain rfl := List.mem_singleton.mp hround
      exact ⟨by decide, _, rfl, rfl⟩, by simp, by simp⟩ rfl
  cases hw'

end Uvio.Sync.LatchFrames
