import Uvio.Program.Runs
import Mathlib.Algebra.Ring.Int.Defs
import Mathlib.Data.List.Nodup

/-!
# `Latch` on one thread

A latch, the coroutines that wait on it and count it down, and the stack of what
they are in the middle of: a `count_down` that reaches zero resumes the waiting
coroutines from inside, and what they do goes on top of it. Awaiters are named by
the number of the suspended `wait` they belong to.

`arrive_and_wait(update)` is `count_down(update)` and then `wait()`. `notify_all`
reads an awaiter's `next_` after it resumed the coroutine; the value is the one
stored last, whether or not the awaiter is still there.

- `Good`: what is asked of a latch.
- `expected_of_run`: the count is what was not counted down yet.
- `latch_good`: in every run in which the updates are positive and add up to at most
  the count, every state is good.
- `notifyAll_returns`: the loop of `notify_all` returns when what it resumes gives
  control back.
-/

namespace Uvio.Sync.Latch

open Program

/-- A `LatchAwaiter` in the list: the coroutine of `handle_`, and `next_`. -/
structure LatchAwaiter where
  handle : Nat
  next : Option Nat
deriving DecidableEq, Repr

inductive Status where
  | running
  /-- Suspended in a `wait`. -/
  | waiting (a : Nat)
  /-- Suspended on something else. -/
  | elsewhere
  | finished
deriving DecidableEq, Repr

/-- What is under way: a coroutine, or a `notify_all` at `head`, which is resuming
that awaiter's coroutine or is about to. -/
inductive Activation where
  | coroutine (c : Nat)
  | notify (head : Option Nat) (resuming : Bool)
deriving DecidableEq, Repr

/-- The latch, the coroutines, and what they are in the middle of. `resumed` counts
how often `notify_all` resumed an awaiter's handle, and `passed` has the count each
time a coroutine got past a `wait`. -/
structure World where
  expected : Int
  head : Option Nat
  awaiters : Nat → Option LatchAwaiter
  waits : Nat
  status : Nat → Option Status
  stack : List Activation
  resumed : Nat → Nat
  passed : List Int
  fault : Bool

inductive Action where
  /-- A coroutine starts. -/
  | start (c : Nat)
  /-- What a coroutine awaited elsewhere is there. -/
  | event (c : Nat)
  /-- The running coroutine awaits `wait()`. -/
  | wait
  | countDown (update : Int)
  /-- The running coroutine awaits something else. -/
  | awaitElse
  | finish
  /-- The next step of `notify_all`. -/
  | notify
deriving DecidableEq, Repr

def init (expected : Int) : World :=
  ⟨expected, none, fun _ => none, 0, fun _ => none, [], fun _ => 0, [], false⟩

/-- `try_wait()`. -/
def tryWait (w : World) : Bool := w.expected = 0

def setStatus (w : World) (c : Nat) (status : Status) : World :=
  { w with status := Function.update w.status c (some status) }

/-- A coroutine gets past its `wait`. -/
def pass (w : World) : World := { w with passed := w.passed ++ [w.expected] }

/-- `co_await wait()` by the coroutine on top of `rest`: `await_ready`, and
`await_suspend` if that said no. -/
def wait (w : World) (c : Nat) (rest : List Activation) : World :=
  if tryWait w then pass w
  else
    let w' := { w with
      awaiters := Function.update w.awaiters w.waits (some ⟨c, w.head⟩)
      head := some w.waits
      waits := w.waits + 1 }
    if tryWait w' then pass w' else { setStatus w' c (.waiting w.waits) with stack := rest }

/-- `count_down(update)`. -/
def countDown (w : World) (update : Int) : World :=
  let odd := w.expected
  let w := { w with expected := w.expected - update }
  if odd = update then { w with stack := .notify w.head false :: w.stack } else w

/-- `head->handle_.resume()`, on top of the loop. A fault if the coroutine does not
wait there. -/
def resumeHandle (w : World) (a : Nat) (rest : List Activation) : World :=
  match w.awaiters a with
  | none => { w with fault := true }
  | some awaiter =>
    if w.status awaiter.handle = some (.waiting a) then
      { setStatus (pass w) awaiter.handle .running with
        stack := .coroutine awaiter.handle :: .notify (some a) true :: rest
        resumed := Function.update w.resumed a (w.resumed a + 1) }
    else { w with fault := true }

/-- A step of the loop in `notify_all`. -/
def notify (w : World) (head : Option Nat) (resuming : Bool) (rest : List Activation) : World :=
  match head with
  | none => { w with stack := rest }
  | some a =>
    if resuming then
      { w with stack := .notify ((w.awaiters a).bind (·.next)) false :: rest }
    else resumeHandle w a rest

/-- Whether `notify_all` is to go on. -/
def notifying : List Activation → Bool
  | .notify _ _ :: _ => true
  | _ => false

/-- What an action does, where it is possible. -/
def act (w : World) : Action → Option World
  | .start c =>
    if notifying w.stack ∨ w.status c ≠ none then none
    else some { setStatus w c .running with stack := .coroutine c :: w.stack }
  | .event c =>
    if notifying w.stack ∨ w.status c ≠ some .elsewhere then none
    else some { setStatus w c .running with stack := .coroutine c :: w.stack }
  | .wait =>
    match w.stack with
    | .coroutine c :: rest => some (wait w c rest)
    | _ => none
  | .countDown update =>
    match w.stack with
    | .coroutine _ :: _ => some (countDown w update)
    | _ => none
  | .awaitElse =>
    match w.stack with
    | .coroutine c :: rest => some { setStatus w c .elsewhere with stack := rest }
    | _ => none
  | .finish =>
    match w.stack with
    | .coroutine c :: rest => some { setStatus w c .finished with stack := rest }
    | _ => none
  | .notify =>
    match w.stack with
    | .notify head resuming :: rest => some (notify w head resuming rest)
    | _ => none

/-- One step. There is none after a fault. -/
def step (w : World) (action : Action) : Option World :=
  if w.fault then none else act w action

/-- What each action does, and when: `act` read from its results. -/
inductive Acts (w : World) : Action → World → Prop where
  | start {c : Nat} (hloop : notifying w.stack = false) (hc : w.status c = none) :
    Acts w (.start c) { setStatus w c .running with stack := .coroutine c :: w.stack }
  | event {c : Nat} (hloop : notifying w.stack = false) (hc : w.status c = some .elsewhere) :
    Acts w (.event c) { setStatus w c .running with stack := .coroutine c :: w.stack }
  | wait {c : Nat} {rest : List Activation} (hstack : w.stack = .coroutine c :: rest) :
    Acts w .wait (wait w c rest)
  | countDown {c : Nat} {rest : List Activation} {update : Int}
      (hstack : w.stack = .coroutine c :: rest) : Acts w (.countDown update) (countDown w update)
  | awaitElse {c : Nat} {rest : List Activation} (hstack : w.stack = .coroutine c :: rest) :
    Acts w .awaitElse { setStatus w c .elsewhere with stack := rest }
  | finish {c : Nat} {rest : List Activation} (hstack : w.stack = .coroutine c :: rest) :
    Acts w .finish { setStatus w c .finished with stack := rest }
  | notify {head : Option Nat} {resuming : Bool} {rest : List Activation}
      (hstack : w.stack = .notify head resuming :: rest) :
    Acts w .notify (notify w head resuming rest)

/-- **A step**: there was no fault, and the action does what it does. -/
theorem acts_of_step {w w' : World} {action : Action} (h : step w action = some w') :
    w.fault = false ∧ Acts w action w' := by
  rw [step, Option.ite_none_left_eq_some, Bool.not_eq_true] at h
  obtain ⟨hsound, h⟩ := h
  refine ⟨hsound, ?_⟩
  cases action with
  | start c =>
    rw [act, Option.ite_none_left_eq_some, not_or, Bool.not_eq_true, ne_eq, not_not] at h
    obtain ⟨⟨hloop, hc⟩, h⟩ := h
    cases h
    exact .start hloop hc
  | event c =>
    rw [act, Option.ite_none_left_eq_some, not_or, Bool.not_eq_true, ne_eq, not_not] at h
    obtain ⟨⟨hloop, hc⟩, h⟩ := h
    cases h
    exact .event hloop hc
  | wait =>
    simp only [act] at h
    split at h <;> cases h
    next hstack => exact .wait hstack
  | countDown update =>
    simp only [act] at h
    split at h <;> cases h
    next hstack => exact .countDown hstack
  | awaitElse =>
    simp only [act] at h
    split at h <;> cases h
    next hstack => exact .awaitElse hstack
  | finish =>
    simp only [act] at h
    split at h <;> cases h
    next hstack => exact .finish hstack
  | notify =>
    simp only [act] at h
    split at h <;> cases h
    next hstack => exact .notify hstack

/-- The updates the coroutines counted down by. -/
def updates (past : List Action) : List Int :=
  past.filterMap fun action =>
    match action with
    | .countDown update => some update
    | _ => none

/-- The loops of `notify_all` that have not returned. -/
def loops (stack : List Activation) : List (Option Nat × Bool) :=
  stack.filterMap fun activation =>
    match activation with
    | .notify head resuming => some (head, resuming)
    | _ => none

/-- The coroutines on the stack. -/
def runners (stack : List Activation) : List Nat :=
  stack.filterMap fun activation =>
    match activation with
    | .coroutine c => some c
    | _ => none

/-- What is asked of a latch. -/
structure Good (w : World) : Prop where
  /-- `notify_all` resumed only coroutines that waited. -/
  sound : w.fault = false
  /-- Nobody got past a `wait` while the count was above zero. -/
  closed : ∀ count ∈ w.passed, count = 0
  /-- Nobody was resumed twice. -/
  atMostOnce : ∀ a < w.waits, w.resumed a ≤ 1
  /-- Once the `count_down` that reached zero has returned, everybody who suspended
  was resumed, and nobody waits. -/
  resumed : w.expected = 0 → loops w.stack = [] →
    (∀ a < w.waits, w.resumed a = 1) ∧ ∀ c a, w.status c ≠ some (.waiting a)
  /-- A `wait` at zero does not suspend. -/
  opened : w.expected = 0 → ∀ w', step w .wait = some w' → w'.stack = w.stack

/-! ## The invariant -/

/-- The awaiter pushed before number `a`. -/
def before : Nat → Option Nat
  | 0 => none
  | a + 1 => some a

/-- The awaiters from `k` on have been resumed, those before `k` wait. The count is
above zero, or it is zero and a `notify_all` is about to resume the awaiter before
`k`, is resuming `k`, or has resumed all. -/
structure Phase (w : World) (k : Nat) : Prop where
  le : k ≤ w.waits
  unresumed : ∀ a < k, w.resumed a = 0 ∧
    ∃ awaiter, w.awaiters a = some awaiter ∧ w.status awaiter.handle = some (.waiting a)
  resumed : ∀ a, k ≤ a → a < w.waits → w.resumed a = 1
  only : ∀ c a, w.status c = some (.waiting a) →
    a < k ∧ ∃ awaiter, w.awaiters a = some awaiter ∧ awaiter.handle = c
  loop : 0 < w.expected ∧ k = w.waits ∧ loops w.stack = [] ∨
    w.expected = 0 ∧ (loops w.stack = [(before k, false)] ∨
      k < w.waits ∧ loops w.stack = [(some k, true)] ∨ k = 0 ∧ loops w.stack = [])

/-- What steps keep as long as the updates are positive and do not exceed the count. -/
structure Inv (w : World) : Prop where
  sound : w.fault = false
  head : w.head = before w.waits
  chain : ∀ a < w.waits, ∃ c, w.awaiters a = some ⟨c, before a⟩
  fresh : ∀ a, w.waits ≤ a → w.resumed a = 0
  closed : ∀ count ∈ w.passed, count = 0
  onStack : (runners w.stack).Nodup ∧ ∀ c ∈ runners w.stack, w.status c = some .running
  phase : ∃ k, Phase w k

theorem inv_init {n : Int} (hn : 0 ≤ n) : Inv (init n) where
  sound := rfl
  head := rfl
  chain := nofun
  fresh _ _ := rfl
  closed := nofun
  onStack := ⟨List.nodup_nil, nofun⟩
  phase := by
    refine ⟨0, Nat.le_refl _, nofun, nofun, nofun, ?_⟩
    rcases Int.lt_or_eq_of_le hn with hpos | hzero
    · exact Or.inl ⟨hpos, rfl, rfl⟩
    · exact Or.inr ⟨hzero.symm, Or.inr (Or.inr ⟨rfl, rfl⟩)⟩

theorem wait_of_zero {w : World} {c : Nat} {rest : List Activation} (h : w.expected = 0) :
    wait w c rest = pass w := if_pos (decide_eq_true h)

theorem wait_of_ne {w : World} {c : Nat} {rest : List Activation} (h : w.expected ≠ 0) :
    wait w c rest = { setStatus { w with
        awaiters := Function.update w.awaiters w.waits (some ⟨c, w.head⟩)
        head := some w.waits
        waits := w.waits + 1 } c (.waiting w.waits) with stack := rest } := by
  have htry : ∀ w' : World, w'.expected = w.expected → ¬ tryWait w' = true := fun w' hw' => by
    simp [tryWait, hw', h]
  exact (if_neg (htry w rfl)).trans (if_neg (htry _ rfl))

/-- The invariant gives what is asked. -/
theorem Inv.good {w : World} (h : Inv w) : Good w where
  sound := h.sound
  closed := h.closed
  atMostOnce a ha := by
    obtain ⟨k, hk⟩ := h.phase
    by_cases hak : a < k
    · rw [(hk.unresumed a hak).1]
      exact Nat.zero_le 1
    · exact Nat.le_of_eq (hk.resumed a (Nat.le_of_not_lt hak) ha)
  resumed hzero hdone := by
    obtain ⟨k, hk⟩ := h.phase
    obtain rfl : k = 0 := by
      rcases hk.loop with ⟨hpos, -⟩ | ⟨-, hloop | ⟨-, hloop⟩ | ⟨hk0, -⟩⟩
      · omega
      · cases hdone.symm.trans hloop
      · cases hdone.symm.trans hloop
      · exact hk0
    refine ⟨fun a ha => hk.resumed a (Nat.zero_le _) ha, fun c a hca => ?_⟩
    exact absurd (hk.only c a hca).1 (Nat.not_lt_zero a)
  opened hzero w' hstep := by
    obtain ⟨-, hacts⟩ := acts_of_step hstep
    cases hacts
    rw [wait_of_zero hzero]
    rfl

theorem runners_coroutine (c : Nat) (stack : List Activation) :
    runners (.coroutine c :: stack) = c :: runners stack := rfl

theorem runners_notify (head : Option Nat) (resuming : Bool) (stack : List Activation) :
    runners (.notify head resuming :: stack) = runners stack := rfl

theorem loops_coroutine (c : Nat) (stack : List Activation) :
    loops (.coroutine c :: stack) = loops stack := rfl

theorem loops_notify (head : Option Nat) (resuming : Bool) (stack : List Activation) :
    loops (.notify head resuming :: stack) = (head, resuming) :: loops stack := rfl

/-- A coroutine that does not wait may change its status, to one that is no wait. -/
theorem Phase.setStatus {w : World} {k : Nat} (h : Phase w k) {c : Nat} {status : Status}
    (hold : ∀ a, w.status c ≠ some (.waiting a)) (hnew : ∀ a, status ≠ .waiting a)
    {stack : List Activation} (hloops : loops stack = loops w.stack) :
    Phase { setStatus w c status with stack := stack } k where
  le := h.le
  unresumed a ha := by
    obtain ⟨hres, awaiter, haw, hwait⟩ := h.unresumed a ha
    refine ⟨hres, awaiter, haw, ?_⟩
    have hne : awaiter.handle ≠ c := fun hc => hold a (hc ▸ hwait)
    exact (Function.update_of_ne hne ..).trans hwait
  resumed := h.resumed
  only c' a hc' := by
    rcases of_update_eq_some hc' with ⟨-, hself⟩ | ⟨-, hc'⟩
    · exact absurd hself (hnew a)
    · exact h.only c' a hc'
  loop := by
    show _ ∨ _ ∧ (loops stack = _ ∨ _)
    rw [hloops]
    exact h.loop

/-! ## The steps -/

theorem Inv.start {w : World} (h : Inv w) {c : Nat} (hidle : w.status c ≠ some .running)
    (hwait : ∀ a, w.status c ≠ some (.waiting a)) :
    Inv { setStatus w c .running with stack := .coroutine c :: w.stack } where
  sound := h.sound
  head := h.head
  chain := h.chain
  fresh := h.fresh
  closed := h.closed
  onStack := by
    obtain ⟨hnodup, hrunning⟩ := h.onStack
    refine ⟨List.nodup_cons.mpr ⟨fun hmem => hidle (hrunning c hmem), hnodup⟩, fun c' hc' => ?_⟩
    by_cases hcc : c' = c
    · subst hcc
      exact Function.update_self ..
    · exact (Function.update_of_ne hcc ..).trans
        (hrunning c' ((List.mem_cons.mp hc').resolve_left hcc))
  phase := by
    obtain ⟨k, hk⟩ := h.phase
    exact ⟨k, hk.setStatus hwait (fun _ hc => by cases hc) rfl⟩

/-- The coroutine on top runs, and is nowhere else on the stack. -/
theorem Inv.top {w : World} (h : Inv w) {c : Nat} {rest : List Activation}
    (hstack : w.stack = .coroutine c :: rest) :
    w.status c = some .running ∧ c ∉ runners rest ∧ (runners rest).Nodup ∧
      ∀ c' ∈ runners rest, w.status c' = some .running := by
  obtain ⟨hnodup, hrunning⟩ := h.onStack
  rw [hstack, runners_coroutine] at hnodup hrunning
  obtain ⟨hc, hrest⟩ := List.nodup_cons.mp hnodup
  exact ⟨hrunning c (.head _), hc, hrest, fun c' hc' => hrunning c' (.tail _ hc')⟩

/-- The coroutine on top suspends or ends: the rest of the stack is as it was. -/
theorem Inv.onStack_leave {w : World} (h : Inv w) {c : Nat} {rest : List Activation}
    {status : Status} (hstack : w.stack = .coroutine c :: rest) :
    (runners rest).Nodup ∧
      ∀ c' ∈ runners rest, Function.update w.status c (some status) c' = some .running := by
  obtain ⟨-, hc, hnodup, hrunning⟩ := h.top hstack
  refine ⟨hnodup, fun c' hc' => ?_⟩
  have hcc : c' ≠ c := fun hcc => hc (hcc ▸ hc')
  exact (Function.update_of_ne hcc ..).trans (hrunning c' hc')

theorem Inv.leave {w : World} (h : Inv w) {c : Nat} {rest : List Activation} {status : Status}
    (hstack : w.stack = .coroutine c :: rest) (hstatus : ∀ a, status ≠ .waiting a) :
    Inv { setStatus w c status with stack := rest } where
  sound := h.sound
  head := h.head
  chain := h.chain
  fresh := h.fresh
  closed := h.closed
  onStack := h.onStack_leave hstack
  phase := by
    obtain ⟨k, hk⟩ := h.phase
    have hrun := (h.top hstack).1
    refine ⟨k, hk.setStatus (fun a hc => ?_) hstatus ?_⟩
    · cases hrun.symm.trans hc
    · rw [hstack, loops_coroutine]

/-- A wait at zero passes, any other one joins the list and suspends. -/
theorem Inv.wait {w : World} (h : Inv w) {c : Nat} {rest : List Activation}
    (hstack : w.stack = .coroutine c :: rest) : Inv (wait w c rest) := by
  by_cases hzero : w.expected = 0
  · rw [wait_of_zero hzero]
    refine { h with closed := fun count hcount => ?_, phase := ?_ }
    · rcases List.mem_append.mp hcount with hcount | hcount
      · exact h.closed count hcount
      · exact (List.mem_singleton.mp hcount).trans hzero
    · obtain ⟨k, hk⟩ := h.phase
      exact ⟨k, { hk with }⟩
  · rw [wait_of_ne hzero]
    obtain ⟨k, hk⟩ := h.phase
    have hrun := (h.top hstack).1
    -- above zero nobody was resumed
    obtain ⟨hpos, rfl, hloops⟩ := hk.loop.resolve_right fun hloop => hzero hloop.1
    have hold : ∀ a, a < w.waits → Function.update w.awaiters w.waits
        (some (⟨c, w.head⟩ : LatchAwaiter)) a = w.awaiters a := fun a ha =>
      Function.update_of_ne (Nat.ne_of_lt ha) ..
    have hnew : Function.update w.awaiters w.waits (some (⟨c, w.head⟩ : LatchAwaiter)) w.waits =
      some ⟨c, w.head⟩ := Function.update_self ..
    have hself : Function.update w.status c (some (.waiting w.waits)) c = some (.waiting w.waits) :=
      Function.update_self ..
    refine ⟨h.sound, rfl, ?_, ?_, h.closed, h.onStack_leave hstack, w.waits + 1, Nat.le_refl _,
      ?_, ?_, ?_, Or.inl ⟨hpos, rfl, ?_⟩⟩
    · intro a ha
      rcases Nat.lt_succ_iff_lt_or_eq.mp ha with ha | rfl
      · obtain ⟨c', hc'⟩ := h.chain a ha
        exact ⟨c', (hold a ha).trans hc'⟩
      · exact ⟨c, hnew.trans (by rw [h.head])⟩
    · exact fun a ha => h.fresh a (Nat.le_of_succ_le ha)
    · intro a ha
      rcases Nat.lt_succ_iff_lt_or_eq.mp ha with ha | rfl
      · obtain ⟨hres, awaiter, haw, hwait⟩ := hk.unresumed a ha
        refine ⟨hres, awaiter, (hold a ha).trans haw, ?_⟩
        have hne : awaiter.handle ≠ c := by
          rintro rfl
          cases hrun.symm.trans hwait
        exact (Function.update_of_ne hne ..).trans hwait
      · exact ⟨h.fresh _ (Nat.le_refl _), _, hnew, hself⟩
    · exact fun a ha ha' => absurd ha' (Nat.not_lt.mpr ha)
    · intro c' a hc'
      rcases of_update_eq_some hc' with ⟨rfl, hwait⟩ | ⟨-, hc'⟩
      · obtain rfl := Status.waiting.inj hwait
        exact ⟨Nat.lt_succ_self _, _, hnew, rfl⟩
      · obtain ⟨ha, awaiter, haw, hhandle⟩ := hk.only c' a hc'
        exact ⟨Nat.lt_succ_of_lt ha, awaiter, (hold a ha).trans haw, hhandle⟩
    · rw [hstack, loops_coroutine] at hloops
      exact hloops

/-- **A count down** by no more than the count: the one that reaches zero starts the
loop at the head of the list. -/
theorem Inv.countDown {w : World} (h : Inv w) {update : Int} (hpos : 1 ≤ update)
    (hle : update ≤ w.expected) : Inv (countDown w update) := by
  obtain ⟨k, hk⟩ := h.phase
  obtain ⟨-, rfl, hloops⟩ := hk.loop.resolve_right fun hloop => by omega
  unfold Latch.countDown
  dsimp only
  split
  next heq =>
    refine { h with onStack := ?_, phase := ⟨w.waits, { hk with loop := Or.inr ⟨?_, Or.inl ?_⟩ }⟩ }
    · exact h.onStack
    · show w.expected - update = 0
      omega
    · rw [loops_notify, hloops, h.head]
  next hne =>
    refine { h with phase := ⟨w.waits, { hk with loop := Or.inl ⟨?_, rfl, hloops⟩ }⟩ }
    show 0 < w.expected - update
    omega

/-- Resuming the awaiter the loop is at: its coroutine waits there, and nobody else
does. -/
theorem Inv.resumeHandle {w : World} (h : Inv w) {a : Nat} {rest : List Activation}
    (hk : Phase w (a + 1)) (hzero : w.expected = 0) (hrest : loops rest = [])
    (hnodup : (runners rest).Nodup) (hrunning : ∀ c ∈ runners rest, w.status c = some .running) :
    Inv (resumeHandle w a rest) := by
  obtain ⟨hres, awaiter, haw, hwait⟩ := hk.unresumed a (Nat.lt_succ_self a)
  have hle : a < w.waits := hk.le
  have hresume : Latch.resumeHandle w a rest =
      { setStatus (pass w) awaiter.handle .running with
        stack := .coroutine awaiter.handle :: .notify (some a) true :: rest
        resumed := Function.update w.resumed a (w.resumed a + 1) } := by
    unfold Latch.resumeHandle
    rw [haw]
    exact if_pos hwait
  rw [hresume]
  have hold : ∀ a', a' ≠ a → Function.update w.resumed a (w.resumed a + 1) a' = w.resumed a' :=
    fun a' ha' => Function.update_of_ne ha' ..
  have hother : ∀ c, c ≠ awaiter.handle →
      Function.update w.status awaiter.handle (some .running) c = w.status c := fun c hc =>
    Function.update_of_ne hc ..
  refine ⟨h.sound, h.head, h.chain, fun a' ha' => ?_, fun count hcount => ?_,
    ⟨List.nodup_cons.mpr ⟨fun hmem => ?_, hnodup⟩, fun c hc => ?_⟩, a, Nat.le_of_lt hle,
    fun a' ha' => ?_, fun a' ha' haw' => ?_, fun c a' hc => ?_,
    Or.inr ⟨hzero, Or.inr (Or.inl ⟨hle, ?_⟩)⟩⟩
  · exact (hold a' (Nat.ne_of_gt (Nat.lt_of_lt_of_le hle ha'))).trans (h.fresh a' ha')
  · rcases List.mem_append.mp hcount with hcount | hcount
    · exact h.closed count hcount
    · exact (List.mem_singleton.mp hcount).trans hzero
  · cases hwait.symm.trans (hrunning _ hmem)
  · by_cases hca : c = awaiter.handle
    · subst hca
      exact Function.update_self ..
    · exact (hother c hca).trans (hrunning c ((List.mem_cons.mp hc).resolve_left hca))
  · obtain ⟨hres', awaiter', haw', hwait'⟩ := hk.unresumed a' (Nat.lt_succ_of_lt ha')
    refine ⟨(hold a' (Nat.ne_of_lt ha')).trans hres', awaiter', haw', ?_⟩
    have hne : awaiter'.handle ≠ awaiter.handle := by
      intro heq
      rw [heq, hwait] at hwait'
      exact Nat.ne_of_gt ha' (Status.waiting.inj (Option.some.inj hwait'))
    exact (hother _ hne).trans hwait'
  · by_cases haa : a' = a
    · subst haa
      exact (Function.update_self ..).trans (by rw [hres])
    · exact (hold a' haa).trans (hk.resumed a' (by omega) haw')
  · obtain ⟨hca, hc⟩ := (of_update_eq_some hc).resolve_left fun h => nomatch h.2
    obtain ⟨ha', awaiter', haw', rfl⟩ := hk.only c a' hc
    refine ⟨Nat.lt_of_le_of_ne (Nat.lt_succ_iff.mp ha') ?_, awaiter', haw', rfl⟩
    rintro rfl
    exact hca (by rw [Option.some.inj (haw'.symm.trans haw)])
  · rw [loops_coroutine, loops_notify, hrest]

/-- There is one loop, and the count is zero. The loop is about to resume the awaiter
before `k`, if there is one, or is resuming `k`. -/
theorem Inv.loop_cases {w : World} (h : Inv w) {head : Option Nat} {resuming : Bool}
    {rest : List Activation} (hstack : w.stack = .notify head resuming :: rest) :
    w.expected = 0 ∧ loops rest = [] ∧ ∃ k, Phase w k ∧
      (head = before k ∧ resuming = false ∨ k < w.waits ∧ head = some k ∧ resuming = true) := by
  obtain ⟨k, hk⟩ := h.phase
  have hloop := hk.loop
  rw [hstack, loops_notify] at hloop
  rcases hloop with ⟨-, -, hnil⟩ | ⟨hzero, heq | ⟨hkw, heq⟩ | ⟨-, hnil⟩⟩
  · cases hnil
  · obtain ⟨hhead, hrest⟩ : (head = before k ∧ resuming = false) ∧ loops rest = [] := by
      simpa using heq
    exact ⟨hzero, hrest, k, hk, Or.inl hhead⟩
  · obtain ⟨hhead, hrest⟩ : (head = some k ∧ resuming = true) ∧ loops rest = [] := by
      simpa using heq
    exact ⟨hzero, hrest, k, hk, Or.inr ⟨hkw, hhead⟩⟩
  · cases hnil

/-- **A step of the loop** resumes a coroutine that waits, goes on to the awaiter
before it, or returns when there is none. -/
theorem Inv.notify {w : World} (h : Inv w) {head : Option Nat} {resuming : Bool}
    {rest : List Activation} (hstack : w.stack = .notify head resuming :: rest) :
    Inv (notify w head resuming rest) := by
  obtain ⟨hnodup, hrunning⟩ := h.onStack
  rw [hstack, runners_notify] at hnodup hrunning
  obtain ⟨hzero, hrest, k, hk, ⟨rfl, rfl⟩ | ⟨hkw, rfl, rfl⟩⟩ := h.loop_cases hstack
  · cases k with
    | zero =>
      exact { h with
        onStack := ⟨hnodup, hrunning⟩
        phase := ⟨0, { hk with loop := Or.inr ⟨hzero, Or.inr (Or.inr ⟨rfl, hrest⟩)⟩ }⟩ }
    | succ a => exact h.resumeHandle hk hzero hrest hnodup hrunning
  · obtain ⟨c, hc⟩ := h.chain k hkw
    refine { h with
      onStack := ⟨hnodup, hrunning⟩
      phase := ⟨k, { hk with loop := Or.inr ⟨hzero, Or.inl ?_⟩ }⟩ }
    show ((w.awaiters k).bind (·.next), false) :: loops rest = _
    rw [hrest, hc]
    rfl

/-- **Steps keep the invariant** as long as a count down is by at least one and at
most the count. -/
theorem Inv.step {w w' : World} {action : Action} (h : Inv w)
    (hupdate : ∀ update, action = .countDown update → 1 ≤ update ∧ update ≤ w.expected)
    (hstep : Latch.step w action = some w') : Inv w' := by
  cases (acts_of_step hstep).2 with
  | start _ hc => exact h.start (by rw [hc]; nofun) (by rw [hc]; nofun)
  | event _ hc => exact h.start (by rw [hc]; nofun) (by rw [hc]; nofun)
  | wait hstack => exact h.wait hstack
  | @countDown _ _ update =>
    obtain ⟨hpos, hle⟩ := hupdate update rfl
    exact h.countDown hpos hle
  | awaitElse hstack => exact h.leave hstack nofun
  | finish hstack => exact h.leave hstack nofun
  | notify hstack => exact h.notify hstack

/-! ## Runs -/

theorem updates_snoc (past : List Action) (action : Action) :
    updates (past ++ [action]) = updates past ++ updates [action] := List.filterMap_append

theorem expected_wait (w : World) (c : Nat) (rest : List Activation) :
    (wait w c rest).expected = w.expected := by
  by_cases hzero : w.expected = 0
  · rw [wait_of_zero hzero]
    rfl
  · rw [wait_of_ne hzero]
    rfl

theorem expected_countDown (w : World) (update : Int) :
    (countDown w update).expected = w.expected - update := by
  unfold countDown
  dsimp only
  split <;> rfl

theorem expected_notify (w : World) (head : Option Nat) (resuming : Bool)
    (rest : List Activation) : (notify w head resuming rest).expected = w.expected := by
  cases head with
  | none => rfl
  | some a =>
    cases resuming with
    | true => rfl
    | false =>
      show (resumeHandle w a rest).expected = w.expected
      unfold resumeHandle
      split
      · rfl
      · split <;> rfl

/-- Only a count down changes the count. -/
theorem expected_step {w w' : World} {action : Action} (hstep : step w action = some w') :
    w'.expected = w.expected - (updates [action]).sum := by
  cases (acts_of_step hstep).2 with
  | start | event | awaitElse | finish => exact (Int.sub_zero _).symm
  | wait => exact (expected_wait _ _ _).trans (Int.sub_zero _).symm
  | countDown => exact (expected_countDown _ _).trans (by simp [updates])
  | notify => exact (expected_notify _ _ _ _).trans (Int.sub_zero _).symm

/-- Updates that are positive add up to more and more. -/
theorem sum_nonneg {l : List Int} (h : ∀ update ∈ l, 1 ≤ update) : 0 ≤ l.sum := by
  induction l with
  | nil => exact Int.le_refl 0
  | cons update l ih =>
    rw [List.sum_cons]
    have hhead := h update (.head _)
    have htail := ih fun update hmem => h update (.tail _ hmem)
    omega

/-- **The count** is what it was at the beginning, less what was counted down. -/
theorem expected_of_run {n : Int} {past : List Action} {w : World}
    (h : Run step (fun _ _ => True) (init n) past w) : w.expected = n - (updates past).sum := by
  induction h with
  | nil => exact (Int.sub_zero n).symm
  | snoc _ _ taken ih =>
    rw [updates_snoc, List.sum_append, expected_step taken, ih, Int.sub_sub]

/-- Updates that are positive and add up to at most the count keep the invariant. -/
theorem inv_of_run {n : Int} (hn : 0 ≤ n) {past : List Action} {w : World}
    (h : Run step (fun _ _ => True) (init n) past w) (hpos : ∀ update ∈ updates past, 1 ≤ update)
    (hsum : (updates past).sum ≤ n) : Inv w := by
  induction h with
  | nil => exact inv_init hn
  | @snoc past w w' action run _ taken ih =>
    have hcount := expected_of_run run
    rw [updates_snoc] at hpos hsum
    rw [List.sum_append] at hsum
    -- the updates so far were fewer
    have hlast : ∀ update ∈ updates [action], 1 ≤ update := fun update hmem =>
      hpos update (List.mem_append_right _ hmem)
    have hnonneg := sum_nonneg hlast
    have hinv := ih (fun update hmem => hpos update (List.mem_append_left _ hmem)) (by omega)
    refine hinv.step (fun update haction => ?_) taken
    subst haction
    have hupdate : (updates [.countDown update]).sum = update := by simp [updates]
    exact ⟨hlast update (.head _), by omega⟩

/-- **A latch keeps its promise**: if the updates are positive and add up to at most
the count, then in every state reached nobody has got past a `wait` above zero, nobody
was resumed twice, everybody who suspended has been resumed once the `count_down` that
reached zero has returned, and from then on a `wait` does not suspend. -/
theorem latch_good {n : Int} (hn : 0 ≤ n) {past : List Action} {w : World}
    (h : Run step (fun _ _ => True) (init n) past w) (hpos : ∀ update ∈ updates past, 1 ≤ update)
    (hsum : (updates past).sum ≤ n) : Good w :=
  (inv_of_run hn h hpos hsum).good

/-- A latch of two: one coroutine arrives and waits, the other one arrives. -/
theorem latch_good_two : ∃ w, Good w ∧ w.resumed 0 = 1 ∧ w.passed = [0] := by
  have hrun : Run step (fun _ _ => True) (init 2)
      [.start 0, .countDown 1, .wait, .start 1, .countDown 1, .notify, .finish, .notify,
        .notify] _ :=
    ((((((((Run.nil.snoc trivial rfl).snoc trivial rfl).snoc trivial rfl).snoc trivial rfl).snoc
      trivial rfl).snoc trivial rfl).snoc trivial rfl).snoc trivial rfl).snoc trivial rfl
  exact ⟨_, latch_good (by decide) hrun (by decide) (by decide), rfl, rfl⟩

/-! ## The loop of `notify_all` returns -/

/-- The steps a `notify_all` has left: two for every awaiter it has to resume, one to go on
from the one it is resuming, and one to return. -/
def remaining (w : World) : Nat :=
  match loops w.stack with
  | [] => 0
  | (none, _) :: _ => 1
  | (some a, false) :: _ => 2 * (a + 1) + 1
  | (some a, true) :: _ => 2 * (a + 1)

theorem remaining_of_before {w : World} {k : Nat} (h : loops w.stack = [(before k, false)]) :
    remaining w = 2 * k + 1 := by
  unfold remaining
  rw [h]
  cases k with
  | zero => rfl
  | succ a => rfl

theorem remaining_of_some {w : World} {k : Nat} (h : loops w.stack = [(some k, true)]) :
    remaining w = 2 * (k + 1) := by
  unfold remaining
  rw [h]

theorem remaining_congr {w w' : World} (h : loops w'.stack = loops w.stack) :
    remaining w' = remaining w := by
  unfold remaining
  rw [h]

theorem remaining_eq_zero_iff (w : World) : remaining w = 0 ↔ loops w.stack = [] := by
  unfold remaining
  cases hloops : loops w.stack with
  | nil => simp
  | cons loop rest =>
    obtain ⟨_ | a, _ | _⟩ := loop <;> simp

/-- A step of the loop leaves one step less. -/
theorem Inv.remaining_notify {w : World} (h : Inv w) {head : Option Nat} {resuming : Bool}
    {rest : List Activation} (hstack : w.stack = .notify head resuming :: rest) :
    remaining (Latch.notify w head resuming rest) + 1 = remaining w := by
  obtain ⟨-, hrest, k, hk, ⟨rfl, rfl⟩ | ⟨hkw, rfl, rfl⟩⟩ := h.loop_cases hstack
  · have hbefore : remaining w = 2 * k + 1 :=
      remaining_of_before (by rw [hstack, loops_notify, hrest])
    rw [hbefore]
    cases k with
    | zero =>
      have hreturned : remaining (Latch.notify w none false rest) = 0 :=
        (remaining_eq_zero_iff _).mpr hrest
      exact congrArg (· + 1) hreturned
    | succ a =>
      obtain ⟨-, awaiter, haw, hwait⟩ := hk.unresumed a (Nat.lt_succ_self a)
      have hresumed : loops (Latch.resumeHandle w a rest).stack = [(some a, true)] := by
        unfold Latch.resumeHandle
        rw [haw]
        dsimp only
        rw [if_pos hwait, loops_coroutine, loops_notify, hrest]
      exact congrArg (· + 1) (remaining_of_some hresumed)
  · have hsome : remaining w = 2 * (k + 1) :=
      remaining_of_some (by rw [hstack, loops_notify, hrest])
    rw [hsome]
    obtain ⟨c, hc⟩ := h.chain k hkw
    refine congrArg (· + 1) (remaining_of_before ?_)
    show ((w.awaiters k).bind (·.next), false) :: loops rest = _
    rw [hrest, hc]
    rfl

/-- At zero, and without further counting down, what the coroutines do is nothing to the
loop. -/
theorem Inv.remaining_step {w w' : World} {action : Action} (h : Inv w) (hzero : w.expected = 0)
    (hdone : updates [action] = []) (hstep : Latch.step w action = some w') :
    remaining w' + [action].count .notify = remaining w := by
  cases (acts_of_step hstep).2 with
  | start | event => exact remaining_congr rfl
  | @wait c rest hstack =>
    rw [wait_of_zero hzero]
    exact remaining_congr rfl
  | countDown => cases hdone
  | awaitElse hstack | finish hstack =>
    refine remaining_congr ?_
    rw [hstack, loops_coroutine]
  | notify hstack => exact h.remaining_notify hstack

/-- **`notify_all` returns** when what it resumes gives control back: whenever it has
control it can take its next step, in all it takes as many as `remaining` says, and with
the last of them it has returned. -/
theorem notifyAll_returns {w w' : World} (h : Inv w) (hzero : w.expected = 0)
    {past : List Action} (hrun : Run step (fun _ _ => True) w past w')
    (hdone : updates past = []) :
    remaining w' + past.count .notify = remaining w ∧
      (loops w'.stack = [] ↔ past.count .notify = remaining w) ∧
      (notifying w'.stack = true → ∃ w'', step w' .notify = some w'') := by
  obtain ⟨hinv, hzero', hsteps⟩ : Inv w' ∧ w'.expected = 0 ∧
      remaining w' + past.count .notify = remaining w := by
    induction hrun with
    | nil => exact ⟨h, hzero, rfl⟩
    | @snoc past w₁ w₂ action _ _ taken ih =>
      rw [updates_snoc, List.append_eq_nil_iff] at hdone
      obtain ⟨hinv, hzero₁, hsteps⟩ := ih hdone.1
      have hlast := hinv.remaining_step hzero₁ hdone.2 taken
      refine ⟨hinv.step (fun update haction => ?_) taken, ?_, ?_⟩
      · subst haction
        cases hdone.2
      · rw [expected_step taken, hdone.2, hzero₁]
        rfl
      · rw [List.count_append]
        omega
  refine ⟨hsteps, ?_, fun hloop => ?_⟩
  · rw [← remaining_eq_zero_iff]
    omega
  · unfold step
    rw [hinv.sound, if_neg Bool.false_ne_true]
    cases hstack : w'.stack with
    | nil =>
      rw [hstack] at hloop
      cases hloop
    | cons activation rest =>
      rw [hstack] at hloop
      cases activation with
      | coroutine c => cases hloop
      | notify head resuming => exact ⟨_, by rw [act, hstack]⟩

end Uvio.Sync.Latch
