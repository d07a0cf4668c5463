import Uvio.Coroutine.Task
import Mathlib

/-!
# `co_await` as a call

What coroutines that await each other compute. A coroutine is written as if a
`co_await` of a `Task` were a call; what runs is a set of frames, each with the
`caller_` its promise was told, a `Task` that owns it, and a `value_`.

- `Code`: the bodies of the coroutines of a program, as steps between suspensions.
- `Calls`: the program as it is written. Each coroutine that `spawn` or `block_on`
  started is one activity with a stack of calls.
- `Machine`: the program as it runs, on the frames and tasks of `World`.
- `Seen`: what a run shows, of either.

`spawn` lets the new coroutine run until it suspends, and then goes on. An event
comes only when no coroutine runs: there is one thread.
-/

namespace Uvio.Coroutine

open Program Holders

variable {L Q R V : Type}

/-- What the body of a coroutine does next, from where it is. `Q` are the requests that
awaiters make, `R` what they give, and `V` what coroutines return. -/
inductive Move (L Q R V : Type) where
  | go (l : L)
  /-- `co_await` of a coroutine that is called. -/
  | coAwait (callee : L) (k : V → L)
  /-- `co_await` of an awaiter that an event completes. -/
  | wait (request : Q) (k : R → L)
  | spawn (callee k : L)
  | coReturn (value : V)

/-- The bodies of the coroutines of a program. -/
abbrev Code (L Q R V : Type) := L → Move L Q R V

inductive Input (R : Type) where
  /-- The coroutine that runs goes one step. -/
  | run
  /-- It awaits an awaiter that is ready. -/
  | ready (response : R)
  /-- The event that the `i`-th of those that wait is waiting for. -/
  | event (i : Nat) (response : R)
deriving DecidableEq, Repr

/-- The activities: those that run, each started by the next one, and those that wait,
the latest first. An activity has what its innermost call does and what its callers do
with a value. -/
structure Calls (L Q R V : Type) where
  active : List (L × List (V → L))
  waiting : List ((R → L) × List (V → L))
  requests : List Q
  results : List V

namespace Calls

def start (main : L) : Calls L Q R V := ⟨[(main, [])], [], [], []⟩

def step (code : Code L Q R V) (d : Calls L Q R V) : Input R → Option (Calls L Q R V)
  | .run =>
    match d.active with
    | [] => none
    | (l, ks) :: rest =>
      match code l with
      | .go l' => some { d with active := (l', ks) :: rest }
      | .coAwait callee k => some { d with active := (callee, k :: ks) :: rest }
      | .wait request k => some { d with
          active := rest
          waiting := (k, ks) :: d.waiting
          requests := d.requests ++ [request] }
      | .spawn callee k => some { d with active := (callee, []) :: (k, ks) :: rest }
      | .coReturn value =>
        match ks with
        | [] => some { d with active := rest, results := d.results ++ [value] }
        | k :: ks => some { d with active := (k value, ks) :: rest }
  | .ready response =>
    match d.active with
    | [] => none
    | (l, ks) :: rest =>
      match code l with
      | .wait request k => some { d with
          active := (k response, ks) :: rest
          requests := d.requests ++ [request] }
      | _ => none
  | .event i response =>
    match d.active, d.waiting[i]? with
    | [], some (k, ks) => some { d with
        active := [(k response, ks)]
        waiting := d.waiting.eraseIdx i }
    | _, _ => none

/-- The calls of all activities. -/
def depth (d : Calls L Q R V) : Nat :=
  (d.active.map fun a => a.2.length + 1).sum + (d.waiting.map fun a => a.2.length + 1).sum

end Calls

/-! ## As it runs -/

/-- Where the body of a coroutine is. -/
inductive Point (L R V : Type) where
  | at (l : L)
  /-- In the `co_await` of a call, whose `Task` is `t`. -/
  | inCall (t : Nat) (k : V → L)
  | onEvent (k : R → L)

/-- Frames and tasks, with where each body is and the `value_` of each promise. The
coroutines of `native` run: the first one, and below it those whose call of `spawn` has
not returned. -/
structure Machine (L Q R V : Type) where
  world : World
  points : Nat → Option (Point L R V)
  values : Nat → Option V
  native : List Nat
  requests : List Q
  results : List V
  /-- No assertion has failed. -/
  asserted : Bool

namespace Machine

def setPoint (m : Machine L Q R V) (c : Nat) (p : Point L R V) : Machine L Q R V :=
  { m with points := Function.update m.points c (some p) }

/-- A coroutine is called: its frame, which is the next one, is made. -/
def create (m : Machine L Q R V) (l : L) : Option (Machine L Q R V) :=
  (Coroutine.step m.world .create).map fun world =>
    { m with world := world }.setPoint m.world.nextFrame (.at l)

/-- `co_await` of a call: the callee runs in place of its caller. -/
def coAwait (m : Machine L Q R V) (c : Nat) (callee : L) (k : V → L) :
    Option (Machine L Q R V) := do
  let m' ← m.create callee
  let world ← Coroutine.step m'.world (.coAwait c m.world.nextTask)
  return { m' with
    world := world
    native := m.world.nextFrame :: m.native.tail }.setPoint c (.inCall m.world.nextTask k)

/-- `spawn` and `block_on`: the frame is taken from its `Task` and resumed. -/
def spawn (m : Machine L Q R V) (callee : L) : Option (Machine L Q R V) := do
  let m' ← m.create callee
  let world ← Coroutine.step m'.world (.spawn m.world.nextTask)
  return { m' with world := world, native := m.world.nextFrame :: m.native }

/-- `await_suspend` of an awaiter returns to who resumed the coroutine. -/
def wait (m : Machine L Q R V) (c : Nat) (request : Q) (k : R → L) :
    Option (Machine L Q R V) := do
  let world ← Coroutine.step m.world (.suspend c)
  return { m with
    world := world
    native := m.native.tail
    requests := m.requests ++ [request] }.setPoint c (.onEvent k)

/-- `await_resume` of the `co_await` of a call, and `~Task`: the value is what the promise
of the frame holds that the task owns. -/
def awaitResume (m : Machine L Q R V) (c t : Nat) (k : V → L) : Option (Machine L Q R V) :=
  match (m.world.tasks t).join.bind m.values with
  | none => some { m with asserted := false }
  | some value => do
    let world ← Coroutine.step m.world (.destroy t)
    return { m with world := world }.setPoint c (.at (k value))

/-- `return_value` and the final suspend: the caller runs in place of the coroutine, or who
resumed it goes on. -/
def coReturn (m : Machine L Q R V) (c : Nat) (value : V) : Option (Machine L Q R V) := do
  let world ← Coroutine.step m.world (.finish c)
  let m' := { m with
    world := world
    values := Function.update m.values c (some value) }
  match (m.world.frames c).bind (·.caller) with
  | none => return { m' with native := m.native.tail, results := m.results ++ [value] }
  | some caller =>
    match m.points caller with
    | some (.inCall t k) =>
      awaitResume { m' with native := caller :: m.native.tail } caller t k
    | _ => none

/-- An event resumes the coroutine that waits for it. -/
def event (m : Machine L Q R V) (c : Nat) (response : R) : Option (Machine L Q R V) :=
  match m.points c with
  | some (.onEvent k) => do
    let world ← Coroutine.step m.world (.event c)
    return { m with world := world, native := [c] }.setPoint c (.at (k response))
  | _ => none

def step (code : Code L Q R V) (m : Machine L Q R V) : Input R → Option (Machine L Q R V)
  | .run =>
    match m.native with
    | [] => none
    | c :: _ =>
      match m.points c with
      | some (.at l) =>
        match code l with
        | .go l' => some (m.setPoint c (.at l'))
        | .coAwait callee k => m.coAwait c callee k
        | .wait request k => m.wait c request k
        | .spawn callee k => (m.setPoint c (.at k)).spawn callee
        | .coReturn value => m.coReturn c value
      | _ => none
  | .ready response =>
    match m.native with
    | [] => none
    | c :: _ =>
      match m.points c with
      | some (.at l) =>
        match code l with
        | .wait request k =>
          some ({ m with requests := m.requests ++ [request] }.setPoint c (.at (k response)))
        | _ => none
      | _ => none
  | .event i response =>
    match m.native, m.world.waiting[i]? with
    | [], some c => m.event c response
    | _, _ => none

def init : Machine L Q R V :=
  ⟨Coroutine.init, fun _ => none, fun _ => none, [], [], [], true⟩

/-- `block_on` of the coroutine `main`, and then what comes in. -/
def run (code : Code L Q R V) (main : L) (inputs : List (Input R)) : Option (Machine L Q R V) :=
  (init.spawn main).bind (inputs.foldlM (step code))

end Machine

end Uvio.Coroutine
