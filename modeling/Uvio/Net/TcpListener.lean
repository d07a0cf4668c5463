import Uvio.Program.Runs
import Mathlib.Logic.Function.Basic

/-!
# `TcpListener`

A listener after `bind`, the connections that arrive, and the one coroutine that
accepts them. `accept()` makes an `AcceptAwaiter` and stores its address in
`listen_socket_.data`; the connection callback follows that address, sets
`ready_`, and resumes whoever waits there. Nothing resets the address, neither
when the awaiter is gone nor before the first `accept()`.

libuv takes a connection off the backlog, holds it, calls the callback, and takes
no further one until `uv_accept` fetches it. It runs only while the coroutine is
suspended.

- `Good`: no callback through a bad address, every connection returned once and in
  order, and no accept suspended while libuv holds a connection.
- `Timely`: what has to be true when a connection is reported, and when an accept
  is awaited.
- `run_good`: runs all of whose steps are timely are good.
-/

namespace Uvio.Net.TcpListener

open Program

/-- `AcceptAwaiter`: `ready_`, whether `handle_` is set, and whether its `co_await`
has completed, which moves `client_` out. -/
structure AcceptAwaiter where
  ready : Bool
  handle : Bool
  completed : Bool
deriving DecidableEq, Repr

/-- What the server coroutine is doing. -/
inductive Server where
  | running
  | suspended (id : Nat)
  | elsewhere
deriving DecidableEq, Repr

/-- The listener, libuv and the coroutine. Awaiters are named by the number of the
`accept()` that made them; `awaiters` has those that are alive. -/
structure World (α : Type) where
  backlog : List α
  held : Option α
  data : Option Nat
  awaiters : Nat → Option AcceptAwaiter
  calls : Nat
  server : Server
  returned : List (Option α)
  fault : Bool

inductive Action (α : Type) where
  /-- A connection arrives. -/
  | arrive (c : α)
  /-- libuv takes a connection off the backlog and calls the callback. -/
  | report
  /-- The coroutine calls `accept()`. -/
  | accept
  /-- The coroutine awaits what an `accept()` returned. -/
  | await (id : Nat)
  /-- The lifetime of an awaiter ends. -/
  | release (id : Nat)
  /-- The coroutine awaits something else. -/
  | awaitElse
  /-- What the coroutine awaited elsewhere is there. -/
  | elseDone
deriving DecidableEq, Repr

variable {α : Type}

/-- After `bind`. -/
def init : World α := ⟨[], none, none, fun _ => none, 0, .running, [], false⟩

/-- `await_resume()`: `uv_accept` fetches the connection libuv holds. If it holds
none the error is logged, and the stream returned has no connection. -/
def awaitResume (w : World α) (id : Nat) (a : AcceptAwaiter) : World α :=
  { w with
    held := none
    awaiters := Function.update w.awaiters id (some { a with completed := true })
    server := .running
    returned := w.returned ++ [w.held] }

/-- The connection callback. A null or dangling address is a fault, and so is a
handle whose coroutine is suspended somewhere else by now. -/
def onConnection (w : World α) : World α :=
  match w.data with
  | none => { w with fault := true }
  | some id =>
    match w.awaiters id with
    | none => { w with fault := true }
    | some a =>
      let a := { a with ready := true }
      let w := { w with awaiters := Function.update w.awaiters id (some a) }
      if a.handle then
        -- `resume()` runs `await_resume`, if the coroutine still waits there
        if w.server = .suspended id then awaitResume w id a else { w with fault := true }
      else w

/-- What an action does, where it is possible. -/
def act (w : World α) : Action α → Option (World α)
  | .arrive c => some { w with backlog := w.backlog ++ [c] }
  | .report =>
    match w.held, w.backlog with
    | none, c :: rest =>
      if w.server = .running then none
      else some (onConnection { w with held := some c, backlog := rest })
    | _, _ => none
  | .accept =>
    if w.server = .running then
      some { w with
        data := some w.calls
        awaiters := Function.update w.awaiters w.calls (some ⟨false, false, false⟩)
        calls := w.calls + 1 }
    else none
  | .await id =>
    match w.awaiters id with
    | none => none
    | some a =>
      if w.server = .running ∧ a.completed = false then
        if a.ready then some (awaitResume w id a)
        else some { w with
          awaiters := Function.update w.awaiters id (some { a with handle := true })
          server := .suspended id }
      else none
  | .release id =>
    if w.server = .running then
      some { w with awaiters := Function.update w.awaiters id none }
    else none
  | .awaitElse => if w.server = .running then some { w with server := .elsewhere } else none
  | .elseDone => if w.server = .elsewhere then some { w with server := .running } else none

/-- One step. There is none after a fault. -/
def step (w : World α) (action : Action α) : Option (World α) :=
  if w.fault then none else act w action

/-- The connections that arrived. -/
def arrivals (past : List (Action α)) : List α :=
  past.filterMap fun action =>
    match action with
    | .arrive c => some c
    | _ => none

/-- What is asked of the listener. -/
structure Good (past : List (Action α)) (w : World α) : Prop where
  /-- Every callback found a live awaiter. -/
  sound : w.fault = false
  /-- What was returned, what libuv holds and what is in the backlog are the
  arrivals, each once and in order. -/
  order : ∃ conns, w.returned = conns.map some ∧
    arrivals past = conns ++ w.held.toList ++ w.backlog
  /-- No accept is suspended while libuv holds a connection. -/
  awake : ∀ id, w.server = .suspended id → w.held = none

/-- The `accept()` called last is outstanding: its awaiter is alive, and its
`co_await` has not completed. -/
def Outstanding (w : World α) (id : Nat) : Prop :=
  id + 1 = w.calls ∧ ∃ a, w.awaiters id = some a ∧ a.completed = false

/-- A connection is reported while the last `accept()` is outstanding, and not
while the coroutine is suspended in an earlier one. An accept that was not told of
a connection is awaited only while libuv holds none. -/
def Timely (w : World α) : Action α → Prop
  | .report => ∃ id, Outstanding w id ∧ ∀ id', w.server = .suspended id' → id' = id
  | .await id => w.held = none ∨ ∃ a, w.awaiters id = some a ∧ a.ready = true
  | _ => True

/-! ## The invariant -/

/-- An accept that has not completed, with its awaiter. -/
def Open (w : World α) (id : Nat) (a : AcceptAwaiter) : Prop :=
  w.awaiters id = some a ∧ a.completed = false

/-- What timely steps keep. -/
structure Inv (past : List (Action α)) (w : World α) : Prop where
  sound : w.fault = false
  order : ∃ conns, w.returned = conns.map some ∧
    arrivals past = conns ++ w.held.toList ++ w.backlog
  /-- `data` is the last accept. -/
  data : ∀ id, id + 1 = w.calls → w.data = some id
  /-- A suspended coroutine waits in an open accept that was told of nothing. -/
  suspended : ∀ id, w.server = .suspended id →
    w.held = none ∧ ∃ a, Open w id a ∧ a.handle = true ∧ a.ready = false
  /-- Only the accept the coroutine is suspended in has a handle. -/
  handles : ∀ id a, Open w id a → a.handle = true → w.server = .suspended id
  /-- Only an accept that was told of the connection libuv holds is ready, and it is
  the only one. -/
  told : ∀ id a, Open w id a → a.ready = true →
    w.held ≠ none ∧ ∀ id' a', Open w id' a' → a'.ready = true → id' = id

theorem inv_init : Inv ([] : List (Action α)) init where
  sound := rfl
  order := ⟨[], rfl, rfl⟩
  data := fun _ h => nomatch h
  suspended := fun _ h => nomatch h
  handles := fun _ _ h => nomatch h.1
  told := fun _ _ h => nomatch h.1

/-- The invariant only gives what is asked of the listener. -/
theorem Inv.good {past : List (Action α)} {w : World α} (h : Inv past w) : Good past w where
  sound := h.sound
  order := h.order
  awake := fun id hid => (h.suspended id hid).1

theorem open_update {w : World α} {id id' : Nat} {a a' : AcceptAwaiter}
    (h : Function.update w.awaiters id (some a) id' = some a') :
    id' = id ∧ a' = a ∨ id' ≠ id ∧ w.awaiters id' = some a' := by
  by_cases hid : id' = id
  · subst hid
    rw [Function.update_self] at h
    exact Or.inl ⟨rfl, (Option.some.inj h).symm⟩
  · rw [Function.update_of_ne hid] at h
    exact Or.inr ⟨hid, h⟩

/-- Completing an accept that was told of the connection libuv holds. -/
theorem Inv.awaitResume {past : List (Action α)} {w : World α} {id : Nat} {a : AcceptAwaiter}
    (sound : w.fault = false)
    (order : ∃ conns, w.returned = conns.map some ∧
      arrivals past = conns ++ w.held.toList ++ w.backlog)
    (data : ∀ id, id + 1 = w.calls → w.data = some id) (held : w.held ≠ none)
    (handles : ∀ id' a', Open w id' a' → id' ≠ id → a'.handle = false)
    (told : ∀ id' a', Open w id' a' → id' ≠ id → a'.ready = false) :
    Inv past (awaitResume w id a) := by
  have hother : ∀ id' a', Open (TcpListener.awaitResume w id a) id' a' →
      id' ≠ id ∧ Open w id' a' := by
    rintro id' a' ⟨haw, hcomp⟩
    rcases open_update haw with ⟨-, rfl⟩ | ⟨hid, haw⟩
    · cases hcomp
    · exact ⟨hid, haw, hcomp⟩
  obtain ⟨conns, hret, harr⟩ := order
  -- the connection held becomes the last one returned
  obtain ⟨c, hc⟩ := Option.ne_none_iff_exists'.mp held
  refine ⟨sound, ⟨conns ++ [c], ?_, ?_⟩, data, ?_, ?_, ?_⟩
  · show w.returned ++ [w.held] = _
    rw [hret, hc, List.map_append]
    rfl
  · rw [harr, hc]
    show _ = conns ++ [c] ++ [] ++ w.backlog
    rw [List.append_nil]
    rfl
  · intro id' hrunning
    cases hrunning
  · intro id' a' hopen hhandle
    obtain ⟨hid, hopen⟩ := hother id' a' hopen
    rw [handles id' a' hopen hid] at hhandle
    cases hhandle
  · intro id' a' hopen hready
    obtain ⟨hid, hopen⟩ := hother id' a' hopen
    rw [told id' a' hopen hid] at hready
    cases hready

theorem arrivals_snoc (past : List (Action α)) (action : Action α) :
    arrivals (past ++ [action]) = arrivals past ++ arrivals [action] := by
  unfold arrivals
  rw [List.filterMap_append]

/-- What libuv holds moved from the backlog is still to be returned. -/
theorem arrivals_report {past : List (Action α)} {w : World α} (h : Inv past w) {c : α}
    {rest : List α} (hheld : w.held = none) (hback : w.backlog = c :: rest) :
    ∃ conns, w.returned = conns.map some ∧ arrivals past = conns ++ (some c).toList ++ rest := by
  obtain ⟨conns, hret, harr⟩ := h.order
  refine ⟨conns, hret, ?_⟩
  rw [harr, hheld, hback]
  show conns ++ [] ++ c :: rest = conns ++ [c] ++ rest
  rw [List.append_nil, List.append_assoc]
  rfl

/-- A connection reported to an accept nobody waits in leaves it ready. -/
theorem Inv.tell {past : List (Action α)} {w : World α} (h : Inv past w) {id : Nat}
    {a : AcceptAwaiter} (hopen : Open w id a) (hhandle : ¬ a.handle = true)
    (honly : ∀ id', w.server = .suspended id' → id' = id)
    (hready : ∀ id' a', Open w id' a' → a'.ready = false) {c : α} {rest : List α}
    (order : ∃ conns, w.returned = conns.map some ∧
      arrivals past = conns ++ (some c).toList ++ rest) :
    Inv past { w with
      held := some c
      backlog := rest
      awaiters := Function.update w.awaiters id (some { a with ready := true }) } := by
  have hself : ∀ id' a', Open { w with
        held := some c
        backlog := rest
        awaiters := Function.update w.awaiters id (some { a with ready := true }) } id' a' →
      a'.ready = true → id' = id := by
    rintro id' a' ⟨haw, hcomp⟩ hr
    rcases open_update haw with ⟨rfl, -⟩ | ⟨-, haw⟩
    · rfl
    · rw [hready id' a' ⟨haw, hcomp⟩] at hr
      cases hr
  refine ⟨h.sound, order, h.data, ?_, ?_, ?_⟩
  · -- the coroutine is not suspended: it would be in this accept
    intro id' hserver
    exfalso
    obtain rfl := honly id' hserver
    obtain ⟨-, a', ⟨haw, -⟩, hh, -⟩ := h.suspended id' hserver
    rw [hopen.1] at haw
    cases haw
    exact hhandle hh
  · rintro id' a' ⟨haw, hcomp⟩ hh
    rcases open_update haw with ⟨rfl, rfl⟩ | ⟨-, haw⟩
    · exact absurd hh hhandle
    · exact h.handles id' a' ⟨haw, hcomp⟩ hh
  · intro id' a' hopen' hr
    refine ⟨Option.some_ne_none c, fun id'' a'' hopen'' hr'' => ?_⟩
    rw [hself id'' a'' hopen'' hr'', hself id' a' hopen' hr]

/-- **A timely report** reaches the last accept: it resumes the coroutine with the
connection if it waits there, and leaves the accept ready otherwise. -/
theorem Inv.report {past : List (Action α)} {w : World α} (h : Inv past w)
    (ht : Timely w (.report : Action α)) {c : α} {rest : List α} (hheld : w.held = none)
    (hback : w.backlog = c :: rest) :
    Inv past (onConnection { w with held := some c, backlog := rest }) := by
  obtain ⟨id, ⟨hid, a, haw, hcomp⟩, honly⟩ := ht
  have hdata := h.data id hid
  have horder := arrivals_report h hheld hback
  -- libuv held nothing, so no accept has been told of anything
  have hready : ∀ id' a', Open w id' a' → a'.ready = false := by
    intro id' a' hopen
    by_contra hr
    exact (h.told id' a' hopen (by simpa using hr)).1 hheld
  unfold onConnection
  split
  next hnone =>
    rw [hdata] at hnone
    cases hnone
  next id' hid' =>
    obtain rfl : id = id' := Option.some.inj (hdata.symm.trans hid')
    dsimp only
    rw [haw]
    dsimp only
    by_cases hhandle : a.handle = true
    · -- the coroutine waits in this accept, and takes the connection at once
      have hserver := h.handles id a ⟨haw, hcomp⟩ hhandle
      rw [if_pos hhandle, if_pos hserver]
      refine Inv.awaitResume h.sound horder h.data (Option.some_ne_none c) ?_ ?_
      · rintro id' a' ⟨haw', hcomp'⟩ hne
        rcases open_update haw' with ⟨rfl, -⟩ | ⟨-, haw'⟩
        · exact absurd rfl hne
        · by_contra hh
          have := h.handles id' a' ⟨haw', hcomp'⟩ (by simpa using hh)
          rw [hserver] at this
          cases this
          exact hne rfl
      · rintro id' a' ⟨haw', hcomp'⟩ hne
        rcases open_update haw' with ⟨rfl, -⟩ | ⟨-, haw'⟩
        · exact absurd rfl hne
        · exact hready id' a' ⟨haw', hcomp'⟩
    · rw [if_neg hhandle]
      exact h.tell ⟨haw, hcomp⟩ hhandle honly hready horder

/-- While the coroutine is not suspended in an accept, no open accept has a handle. -/
theorem Inv.no_handle {past : List (Action α)} {w : World α} (h : Inv past w)
    (hserver : ∀ id, w.server ≠ .suspended id) {id : Nat} {a : AcceptAwaiter} (ha : Open w id a) :
    a.handle = false := by
  by_contra hh
  exact hserver id (h.handles id a ha (by simpa using hh))

/-- The coroutine goes from one thing to another, neither of them an accept. -/
theorem Inv.moveOn {past : List (Action α)} {w : World α} {server : Server} (h : Inv past w)
    (hfrom : ∀ id, w.server ≠ .suspended id) (hto : ∀ id, server ≠ .suspended id) :
    Inv past { w with server := server } where
  sound := h.sound
  order := h.order
  data := h.data
  suspended := fun id hid => absurd hid (hto id)
  handles := fun id a ha hh => by
    rw [h.no_handle hfrom ha] at hh
    cases hh
  told := h.told

/-- Awaiting an accept while libuv holds no connection, or the one it was told of. -/
theorem Inv.await {past : List (Action α)} {w w' : World α} (h : Inv past w) {id : Nat}
    (ht : Timely w (.await id : Action α)) (hstep : act w (.await id) = some w') :
    Inv past w' := by
  simp only [act] at hstep
  cases haw : w.awaiters id with
  | none =>
    rw [haw] at hstep
    cases hstep
  | some a =>
    rw [haw] at hstep
    dsimp only at hstep
    split at hstep
    next hcond =>
      obtain ⟨hrun, hcomp⟩ := hcond
      have hserver : ∀ id, w.server ≠ .suspended id := fun id => by
        rw [hrun]
        exact fun hc => nomatch hc
      split at hstep
      next hready =>
        -- `await_ready`: the connection is fetched without suspending
        cases hstep
        obtain ⟨hheld, huniq⟩ := h.told id a ⟨haw, hcomp⟩ hready
        refine Inv.awaitResume h.sound h.order h.data hheld
          (fun id' a' hopen _ => h.no_handle hserver hopen) fun id' a' hopen hne => ?_
        by_contra hr
        exact hne (huniq id' a' hopen (by simpa using hr))
      next hready =>
        cases hstep
        -- it suspends, and being timely it was not told of a connection held
        have hready' : a.ready = false := by simpa using hready
        have hheld : w.held = none := by
          rcases ht with hheld | ⟨a', haw', hr⟩
          · exact hheld
          · rw [haw] at haw'
            cases haw'
            exact absurd hr hready
        refine ⟨h.sound, h.order, h.data, ?_, ?_, ?_⟩
        · rintro id' hid
          cases hid
          exact ⟨hheld, _, ⟨Function.update_self .., hcomp⟩, rfl, hready'⟩
        · rintro id' a' ⟨haw', hcomp'⟩ hh
          rcases open_update haw' with ⟨rfl, -⟩ | ⟨-, haw'⟩
          · rfl
          · rw [h.no_handle hserver ⟨haw', hcomp'⟩] at hh
            cases hh
        · rintro id' a' ⟨haw', hcomp'⟩ hr
          exfalso
          rcases open_update haw' with ⟨-, rfl⟩ | ⟨-, haw'⟩
          · exact hready hr
          · exact (h.told id' a' ⟨haw', hcomp'⟩ hr).1 hheld
    next => cases hstep

/-- A new accept is neither ready nor waited in. -/
theorem Inv.accept {past : List (Action α)} {w : World α} (h : Inv past w)
    (hrun : w.server = .running) :
    Inv past { w with
      data := some w.calls
      awaiters := Function.update w.awaiters w.calls (some ⟨false, false, false⟩)
      calls := w.calls + 1 } := by
  refine ⟨h.sound, h.order, ?_, ?_, ?_, ?_⟩
  · -- `listen_socket_.data` is the awaiter just made
    intro id hid
    exact congrArg some (Nat.succ.inj hid).symm
  · intro id hid
    rw [hrun] at hid
    cases hid
  · rintro id a ⟨haw, hcomp⟩ hh
    rcases open_update haw with ⟨-, rfl⟩ | ⟨-, haw⟩
    · cases hh
    · exact h.handles id a ⟨haw, hcomp⟩ hh
  · rintro id a ⟨haw, hcomp⟩ hr
    rcases open_update haw with ⟨-, rfl⟩ | ⟨-, haw⟩
    · cases hr
    · obtain ⟨hheld, huniq⟩ := h.told id a ⟨haw, hcomp⟩ hr
      refine ⟨hheld, ?_⟩
      rintro id' a' ⟨haw', hcomp'⟩ hr'
      rcases open_update haw' with ⟨-, rfl⟩ | ⟨-, haw'⟩
      · cases hr'
      · exact huniq id' a' ⟨haw', hcomp'⟩ hr'

/-- The end of an awaiter. It may leave `data` dangling: the invariant only speaks of
open accepts. -/
theorem Inv.release {past : List (Action α)} {w : World α} (h : Inv past w)
    (hrun : w.server = .running) (id : Nat) :
    Inv past { w with awaiters := Function.update w.awaiters id none } := by
  have hold : ∀ id' a', Open { w with awaiters := Function.update w.awaiters id none } id' a' →
      Open w id' a' := by
    rintro id' a' ⟨haw, hcomp⟩
    by_cases hid : id' = id
    · subst hid
      cases (Function.update_self id' none w.awaiters).symm.trans haw
    · exact ⟨(Function.update_of_ne hid ..).symm.trans haw, hcomp⟩
  refine ⟨h.sound, h.order, h.data, ?_, ?_, ?_⟩
  · intro id' hid
    rw [hrun] at hid
    cases hid
  · intro id' a' hopen
    exact h.handles id' a' (hold id' a' hopen)
  · intro id' a' hopen hr
    obtain ⟨hheld, huniq⟩ := h.told id' a' (hold id' a' hopen) hr
    exact ⟨hheld, fun id'' a'' hopen' => huniq id'' a'' (hold id'' a'' hopen')⟩

/-- **Timely steps keep the invariant.** -/
theorem Inv.step {past : List (Action α)} {w w' : World α} {action : Action α} (h : Inv past w)
    (ht : Timely w action) (hstep : TcpListener.step w action = some w') :
    Inv (past ++ [action]) w' := by
  rw [TcpListener.step, h.sound, if_neg (by decide)] at hstep
  -- only an arrival adds to the arrivals
  have hquiet : arrivals [action] = [] → Inv past w' → Inv (past ++ [action]) w' := by
    intro hnone hinv
    have harr : arrivals (past ++ [action]) = arrivals past := by
      rw [arrivals_snoc, hnone, List.append_nil]
    exact { hinv with order := harr ▸ hinv.order }
  cases action with
  | arrive c =>
    simp only [act] at hstep
    cases hstep
    obtain ⟨conns, hret, harr⟩ := h.order
    refine { h with order := ⟨conns, hret, ?_⟩ }
    rw [arrivals_snoc, harr, List.append_assoc _ _ (arrivals _)]
    rfl
  | report =>
    refine hquiet rfl ?_
    simp only [act] at hstep
    split at hstep
    next c rest hheld hback =>
      split at hstep
      next => cases hstep
      next =>
        cases hstep
        exact h.report ht hheld hback
    next => cases hstep
  | accept =>
    refine hquiet rfl ?_
    simp only [act] at hstep
    split at hstep
    next hrun =>
      cases hstep
      exact h.accept hrun
    next => cases hstep
  | await id => exact hquiet rfl (h.await ht hstep)
  | release id =>
    refine hquiet rfl ?_
    simp only [act] at hstep
    split at hstep
    next hrun =>
      cases hstep
      exact h.release hrun id
    next => cases hstep
  | awaitElse =>
    refine hquiet rfl ?_
    simp only [act] at hstep
    split at hstep
    next hrun =>
      cases hstep
      exact h.moveOn (fun id hc => nomatch hrun.symm.trans hc) fun id hc => nomatch hc
    next => cases hstep
  | elseDone =>
    refine hquiet rfl ?_
    simp only [act] at hstep
    split at hstep
    next helse =>
      cases hstep
      exact h.moveOn (fun id hc => nomatch helse.symm.trans hc) fun id hc => nomatch hc
    next => cases hstep

/-! ## Runs -/

/-- **Timely runs are good**: if every connection is reported while the last
`accept()` is outstanding, then in every state reached no callback went through a
bad address, every connection that arrived was returned once and in order or is
still to be returned, and no accept is suspended while libuv holds a connection. -/
theorem run_good {past : List (Action α)} {w : World α}
    (h : Run step Timely init past w) : Good past w :=
  (h.invariant Inv inv_init fun _ _ _ _ hinv ht hstep => hinv.step ht hstep).good

/-- A coroutine that waits in `accept()` gets the connection that arrives. -/
theorem run_good_waiting : ∃ w : World Nat,
    Good [.accept, .await 0, .arrive 7, .report] w ∧ w.returned = [some 7] := by
  have h₁ : Run step Timely (init : World Nat) [.accept] _ := Run.nil.snoc trivial rfl
  have h₂ : Run step Timely init [.accept, .await 0] _ := h₁.snoc (Or.inl rfl) rfl
  have h₃ : Run step Timely init [.accept, .await 0, .arrive 7] _ := h₂.snoc trivial rfl
  have h₄ : Run step Timely init [.accept, .await 0, .arrive 7, .report] _ :=
    h₃.snoc ⟨0, ⟨rfl, _, rfl, rfl⟩, fun _ h => (Server.suspended.inj h).symm⟩ rfl
  exact ⟨_, run_good h₄, rfl⟩

/-- A connection that arrives while the coroutine serves the one before: the
callback goes through the address of an awaiter that is gone. -/
theorem not_good_between_accepts :
    ¬ ∀ (past : List (Action Nat)) (w : World Nat),
      Run step (fun _ _ => True) init past w → Good past w := by
  intro h
  have hrun : Run step (fun _ _ => True) (init : World Nat)
      [.accept, .await 0, .arrive 1, .report, .release 0, .awaitElse, .arrive 2, .report] _ :=
    (((((((Run.nil.snoc trivial rfl).snoc trivial rfl).snoc trivial rfl).snoc trivial rfl).snoc
      trivial rfl).snoc trivial rfl).snoc trivial rfl).snoc trivial rfl
  cases (h _ _ hrun).sound

end Uvio.Net.TcpListener
