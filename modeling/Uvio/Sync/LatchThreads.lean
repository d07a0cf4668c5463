import Uvio.Program.Runs
import Mathlib.Data.List.Nodup

/-!
# `Latch` on many threads

Any number of threads in the middle of a `wait` or a `count_down`, which take turns:
each access to `expected_` or `head_` is one step, and so is one round of the loop in
`notify_all`. Awaiters and calls of `count_down` are named by numbers. A resumption
is a message to the coroutine.

- `Good`: no coroutine is resumed twice for one `wait`.
- `Timely`: what has to be true when a `notify_all` loads `head_`.
- `resumed_once`: runs all of whose steps are timely are good.
-/

namespace Uvio.Sync.LatchThreads

open Program

/-- Where a `wait` is. -/
inductive Waiter where
  /-- Before the load in `await_ready`. -/
  | ready
  /-- Before the load of `head_` in `await_suspend`. -/
  | load
  /-- Before a `compare_exchange_weak`. -/
  | exchange
  /-- Before the last `try_wait`. -/
  | check
  /-- `await_ready` said yes. -/
  | passed
  /-- `await_suspend` returned false. -/
  | selfResumed
  /-- `await_suspend` returned true. -/
  | suspended
deriving DecidableEq, Repr

/-- Where a `count_down` is. -/
inductive Counter where
  /-- Before the `fetch_sub`. -/
  | sub (update : Int)
  /-- Before the load of `head_` in `notify_all`. -/
  | load
  /-- In the loop. -/
  | loop (head : Option Nat)
  | returned
deriving DecidableEq, Repr

/-- The latch, the `next_` of the awaiters, and the calls under way. `pushed` are the
awaiters in the list, the last one first, and `resumed` counts how often `notify_all`
resumed an awaiter's handle. -/
structure World where
  expected : Int
  head : Option Nat
  next : Nat → Option Nat
  waiters : Nat → Option Waiter
  counters : Nat → Option Counter
  pushed : List Nat
  resumed : Nat → Nat

inductive Action where
  /-- A coroutine awaits `wait()`. -/
  | wait (a : Nat)
  /-- The next access of a `wait`. -/
  | waiter (a : Nat)
  /-- A `compare_exchange_weak` that fails though it need not. -/
  | spurious (a : Nat)
  /-- A thread calls `count_down(update)`. -/
  | countDown (d : Nat) (update : Int)
  /-- The next access of a `count_down`, or the next round of its loop. -/
  | counter (d : Nat)
deriving DecidableEq, Repr

def init (expected : Int) : World :=
  ⟨expected, none, fun _ => none, fun _ => none, fun _ => none, [], fun _ => 0⟩

def setWaiter (w : World) (a : Nat) (waiter : Waiter) : World :=
  { w with waiters := Function.update w.waiters a (some waiter) }

def setCounter (w : World) (d : Nat) (counter : Counter) : World :=
  { w with counters := Function.update w.counters d (some counter) }

/-- `next_` becomes what `head_` is. -/
def loadNext (w : World) (a : Nat) : World :=
  { w with next := Function.update w.next a w.head }

/-- The next access of a `wait`. -/
def stepWaiter (w : World) (a : Nat) : Waiter → Option World
  | .ready => some (setWaiter w a (if w.expected = 0 then .passed else .load))
  | .load => some (setWaiter (loadNext w a) a .exchange)
  | .exchange =>
    if w.head = w.next a then
      some (setWaiter { w with head := some a, pushed := a :: w.pushed } a .check)
    else some (loadNext w a)
  | .check => some (setWaiter w a (if w.expected = 0 then .selfResumed else .suspended))
  | .passed | .selfResumed | .suspended => none

/-- The next access of a `count_down`, or the next round of its loop. -/
def stepCounter (w : World) (d : Nat) : Counter → Option World
  | .sub update =>
    some (setCounter { w with expected := w.expected - update } d
      (if w.expected = update then .load else .returned))
  | .load => some (setCounter w d (.loop w.head))
  | .loop none => some (setCounter w d .returned)
  | .loop (some a) =>
    some (setCounter { w with resumed := Function.update w.resumed a (w.resumed a + 1) } d
      (.loop (w.next a)))
  | .returned => none

/-- One step. -/
def step (w : World) : Action → Option World
  | .wait a => if w.waiters a = none then some (setWaiter w a .ready) else none
  | .waiter a => (w.waiters a).bind (stepWaiter w a)
  | .spurious a => if w.waiters a = some .exchange then some (loadNext w a) else none
  | .countDown d update =>
    if w.counters d = none then some (setCounter w d (.sub update)) else none
  | .counter d => (w.counters d).bind (stepCounter w d)

/-- How often the coroutine of a `wait` went on after it had joined the list. -/
def wakeups (w : World) (a : Nat) : Nat :=
  w.resumed a + if w.waiters a = some .selfResumed then 1 else 0

/-- No coroutine is resumed twice: not by its own `await_suspend` and a `notify_all`,
and not by two of these. -/
def Good (w : World) : Prop := ∀ a, wakeups w a ≤ 1

/-- When a `notify_all` loads `head_`, every awaiter in the list has suspended and was
not resumed, and no other `notify_all` has awaiters left to resume. -/
def Timely (w : World) : Action → Prop
  | .counter d => w.counters d = some .load →
    (∀ a ∈ w.pushed, w.waiters a = some .suspended ∧ w.resumed a = 0) ∧
      ∀ d' a, w.counters d' ≠ some (.loop (some a))
  | _ => True

/-! ## The invariant -/

/-- The awaiters of the list whose `next_` is what follows them. -/
def Linked (next : Nat → Option Nat) : List Nat → Prop
  | [] => True
  | a :: rest => next a = rest.head? ∧ Linked next rest

/-- What timely steps keep. -/
structure Inv (w : World) : Prop where
  head : w.head = w.pushed.head?
  linked : Linked w.next w.pushed
  nodup : w.pushed.Nodup
  /-- The awaiters in the list have done their exchange. -/
  joined : ∀ a ∈ w.pushed, w.waiters a = some .check ∨ w.waiters a = some .selfResumed ∨
    w.waiters a = some .suspended
  /-- `notify_all` resumes only coroutines that have suspended, and once. -/
  once : ∀ a, w.resumed a = 0 ∨ w.resumed a = 1 ∧ w.waiters a = some .suspended
  /-- What a loop has left is the end of the list; these have suspended, and were not
  resumed. -/
  left : ∀ d a, w.counters d = some (.loop (some a)) → ∃ rest, a :: rest <:+ w.pushed ∧
    ∀ b ∈ a :: rest, w.waiters b = some .suspended ∧ w.resumed b = 0
  /-- One loop at most has awaiters left. -/
  single : ∀ d d' a a', w.counters d = some (.loop (some a)) →
    w.counters d' = some (.loop (some a')) → d = d'

theorem inv_init (expected : Int) : Inv (init expected) where
  head := rfl
  linked := trivial
  nodup := List.nodup_nil
  joined := nofun
  once _ := Or.inl rfl
  left := nofun
  single := nofun

/-- The invariant gives what is asked. -/
theorem Inv.good {w : World} (h : Inv w) : Good w := by
  intro a
  unfold wakeups
  rcases h.once a with hzero | ⟨hone, hsuspended⟩
  · rw [hzero]
    split <;> omega
  · rw [hone, hsuspended]
    exact Nat.le_refl 1

theorem Linked.congr {next next' : Nat → Option Nat} {l : List Nat} (h : Linked next l)
    (heq : ∀ a ∈ l, next' a = next a) : Linked next' l := by
  induction l with
  | nil => trivial
  | cons a rest ih =>
    exact ⟨(heq a (.head _)).trans h.1, ih h.2 fun b hb => heq b (.tail _ hb)⟩

/-- In the end of a linked list an awaiter's `next_` is what follows it. -/
theorem Linked.next_eq {next : Nat → Option Nat} {l rest : List Nat} {a : Nat}
    (h : Linked next l) (hsuffix : a :: rest <:+ l) : next a = rest.head? := by
  induction l with
  | nil => cases List.suffix_nil.mp hsuffix
  | cons b l ih =>
    rcases List.suffix_cons_iff.mp hsuffix with heq | hsuffix
    · obtain ⟨rfl, rfl⟩ := List.cons.inj heq
      exact h.1
    · exact ih h.2 hsuffix

/-! ## The steps -/

/-- Another `wait` moves on. -/
theorem Inv.joined_update {w : World} (h : Inv w) {a b : Nat} (hb : b ∈ w.pushed) (hba : b ≠ a)
    (waiter : Waiter) : Function.update w.waiters a (some waiter) b = some .check ∨
      Function.update w.waiters a (some waiter) b = some .selfResumed ∨
      Function.update w.waiters a (some waiter) b = some .suspended := by
  rw [Function.update_of_ne hba]
  exact h.joined b hb

/-- A `wait` that was not resumed moves on. -/
theorem Inv.once_update {w : World} (h : Inv w) {a : Nat} (hres : w.resumed a = 0)
    (waiter : Waiter) (b : Nat) : w.resumed b = 0 ∨
      w.resumed b = 1 ∧ Function.update w.waiters a (some waiter) b = some .suspended := by
  by_cases hba : b = a
  · exact Or.inl (hba ▸ hres)
  · exact (h.once b).imp_right fun hb => ⟨hb.1, (Function.update_of_ne hba ..).trans hb.2⟩

/-- A `wait` that has not suspended moves on: no loop has it left. -/
theorem Inv.left_update {w : World} (h : Inv w) {a : Nat}
    (ha : ∀ b ∈ w.pushed, w.waiters b = some .suspended → b ≠ a) (waiter : Waiter)
    {pushed : List Nat} (hpushed : w.pushed <:+ pushed) {d b : Nat}
    (hd : w.counters d = some (.loop (some b))) : ∃ rest, b :: rest <:+ pushed ∧
      ∀ c ∈ b :: rest,
        Function.update w.waiters a (some waiter) c = some .suspended ∧ w.resumed c = 0 := by
  obtain ⟨rest, hsuffix, hleft⟩ := h.left d b hd
  refine ⟨rest, hsuffix.trans hpushed, fun c hc => ⟨?_, (hleft c hc).2⟩⟩
  have hca : c ≠ a := ha c (hsuffix.subset hc) (hleft c hc).1
  exact (Function.update_of_ne hca ..).trans (hleft c hc).1

/-- A `wait` that is not in the list may move on, and change its own `next_`. -/
theorem Inv.outside {w : World} (h : Inv w) {a : Nat} (ha : a ∉ w.pushed)
    (hres : w.resumed a = 0) (waiter : Waiter) (next : Option Nat) :
    Inv { w with
      waiters := Function.update w.waiters a (some waiter)
      next := Function.update w.next a next } := by
  have hne : ∀ b ∈ w.pushed, b ≠ a := fun b hb => ne_of_mem_of_not_mem hb ha
  refine ⟨h.head, ?_, h.nodup, fun b hb => h.joined_update hb (hne b hb) waiter,
    h.once_update hres waiter,
    fun d b => h.left_update (fun c hc _ => hne c hc) waiter (List.suffix_refl _), h.single⟩
  exact h.linked.congr fun b hb => Function.update_of_ne (hne b hb) ..

/-- A `wait` that is not through its exchange is not in the list, and was not
resumed. -/
theorem Inv.not_joined {w : World} (h : Inv w) {a : Nat} {waiter : Option Waiter}
    (ha : w.waiters a = waiter)
    (hwaiter : waiter ≠ some .check ∧ waiter ≠ some .selfResumed ∧ waiter ≠ some .suspended) :
    a ∉ w.pushed ∧ w.resumed a = 0 := by
  subst ha
  refine ⟨fun hmem => ?_, ?_⟩
  · rcases h.joined a hmem with hc | hc | hc
    · exact hwaiter.1 hc
    · exact hwaiter.2.1 hc
    · exact hwaiter.2.2 hc
  · exact (h.once a).resolve_right fun hc => hwaiter.2.2 hc.2

/-- A `wait` outside the list moves on. -/
theorem Inv.setWaiter {w : World} (h : Inv w) {a : Nat} (ha : a ∉ w.pushed ∧ w.resumed a = 0)
    (waiter : Waiter) : Inv (setWaiter w a waiter) := by
  have hinv := h.outside ha.1 ha.2 waiter (w.next a)
  rwa [Function.update_eq_self] at hinv

/-- An exchange that fails. -/
theorem Inv.loadNext {w : World} (h : Inv w) {a : Nat} (ha : w.waiters a = some .exchange) :
    Inv (loadNext w a) := by
  obtain ⟨hmem, hres⟩ := h.not_joined ha ⟨nofun, nofun, nofun⟩
  have hinv := h.outside hmem hres .exchange w.head
  rwa [← ha, Function.update_eq_self] at hinv

/-- An exchange that succeeds puts the awaiter in front of the list its `next_` is. -/
theorem Inv.push {w : World} (h : Inv w) {a : Nat} (ha : w.waiters a = some .exchange)
    (hnext : w.head = w.next a) :
    Inv (LatchThreads.setWaiter { w with head := some a, pushed := a :: w.pushed } a .check) := by
  obtain ⟨hmem, hres⟩ := h.not_joined ha ⟨nofun, nofun, nofun⟩
  have hne : ∀ b ∈ w.pushed, b ≠ a := fun b hb => ne_of_mem_of_not_mem hb hmem
  refine ⟨rfl, ⟨hnext.symm.trans h.head, h.linked⟩, List.nodup_cons.mpr ⟨hmem, h.nodup⟩,
    fun b hb => ?_, h.once_update hres .check,
    fun d b => h.left_update (fun c hc _ => hne c hc) .check (List.suffix_cons a w.pushed),
    h.single⟩
  rcases List.mem_cons.mp hb with rfl | hb
  · exact Or.inl (Function.update_self ..)
  · exact h.joined_update hb (hne b hb) .check

/-- The last `try_wait`: no loop has this awaiter left, and none has resumed it. -/
theorem Inv.check {w : World} (h : Inv w) {a : Nat} (ha : w.waiters a = some .check)
    {waiter : Waiter} (hwaiter : waiter = .selfResumed ∨ waiter = .suspended) :
    Inv (LatchThreads.setWaiter w a waiter) := by
  have hres : w.resumed a = 0 := (h.once a).resolve_right fun hc => by cases ha.symm.trans hc.2
  have hne : ∀ b ∈ w.pushed, w.waiters b = some .suspended → b ≠ a := by
    rintro b - hb rfl
    cases ha.symm.trans hb
  refine ⟨h.head, h.linked, h.nodup, fun b hb => ?_, h.once_update hres waiter,
    fun d b => h.left_update hne waiter (List.suffix_refl _), h.single⟩
  by_cases hba : b = a
  · subst hba
    have hself : Function.update w.waiters b (some waiter) b = some waiter :=
      Function.update_self ..
    exact Or.inr (hwaiter.imp (hself.trans <| congrArg some ·) (hself.trans <| congrArg some ·))
  · exact h.joined_update hb hba waiter

/-- A `count_down` that is in no loop, or at the end of one, moves on. -/
theorem Inv.setCounter {w : World} (h : Inv w) (d : Nat) {counter : Counter} {expected : Int}
    (hcounter : ∀ a, counter ≠ .loop (some a)) :
    Inv (setCounter { w with expected := expected } d counter) := by
  have hold : ∀ d' a, Function.update w.counters d (some counter) d' = some (.loop (some a)) →
      w.counters d' = some (.loop (some a)) := by
    intro d' a hd'
    rcases of_update_eq_some hd' with ⟨-, hloop⟩ | ⟨-, hd'⟩
    · exact absurd hloop (hcounter a)
    · exact hd'
  exact { h with
    left := fun d' a hd' => h.left d' a (hold d' a hd')
    single := fun d' d'' a a' hd' hd'' =>
      h.single d' d'' a a' (hold d' a hd') (hold d'' a' hd'') }

/-- **A timely load of `head_`** starts a loop over awaiters that have suspended. -/
theorem Inv.load {w : World} (h : Inv w) {d : Nat}
    (hlist : ∀ a ∈ w.pushed, w.waiters a = some .suspended ∧ w.resumed a = 0)
    (hother : ∀ d' a, w.counters d' ≠ some (.loop (some a))) :
    Inv (LatchThreads.setCounter w d (.loop w.head)) := by
  have honly : ∀ d' a, Function.update w.counters d (some (.loop w.head)) d' =
      some (.loop (some a)) → d' = d ∧ w.head = some a := by
    intro d' a hd'
    rcases of_update_eq_some hd' with ⟨hdd, hloop⟩ | ⟨-, hd'⟩
    · exact ⟨hdd, Counter.loop.inj hloop⟩
    · exact absurd hd' (hother d' a)
  refine { h with left := fun d' a hd' => ?_, single := fun d' d'' a a' hd' hd'' => ?_ }
  · obtain ⟨-, hhead⟩ := honly d' a hd'
    cases hpushed : w.pushed with
    | nil =>
      rw [h.head, hpushed] at hhead
      cases hhead
    | cons b rest =>
      rw [h.head, hpushed] at hhead
      obtain rfl := Option.some.inj hhead
      exact ⟨rest, by rw [← hpushed]; exact List.suffix_refl _, hpushed ▸ hlist⟩
  · exact (honly d' a hd').1.trans (honly d'' a' hd'').1.symm

/-- **A round of the loop** resumes an awaiter that has suspended, and goes on to the
one behind it. -/
theorem Inv.advance {w : World} (h : Inv w) {d a : Nat}
    (hd : w.counters d = some (.loop (some a))) :
    Inv (LatchThreads.setCounter
      { w with resumed := Function.update w.resumed a (w.resumed a + 1) } d
      (.loop (w.next a))) := by
  obtain ⟨rest, hsuffix, hleft⟩ := h.left d a hd
  obtain ⟨hsuspended, hzero⟩ := hleft a (.head _)
  have hnext := h.linked.next_eq hsuffix
  have hnodup : a ∉ rest := (List.nodup_cons.mp (hsuffix.sublist.nodup h.nodup)).1
  have hresumed : ∀ b, b ≠ a → Function.update w.resumed a (w.resumed a + 1) b = w.resumed b :=
    fun b hb => Function.update_of_ne hb ..
  -- this loop is the only one that has awaiters left
  have honly : ∀ d' b, Function.update w.counters d (some (.loop (w.next a))) d' =
      some (.loop (some b)) → d' = d ∧ rest.head? = some b := by
    intro d' b hd'
    rcases of_update_eq_some hd' with ⟨hdd, hloop⟩ | ⟨hdd, hd'⟩
    · exact ⟨hdd, hnext ▸ Counter.loop.inj hloop⟩
    · exact absurd (h.single d' d b a hd' hd) hdd
  refine { h with
    once := fun b => ?_, left := fun d' b hd' => ?_, single := fun d' d'' b b' hd' hd'' => ?_ }
  · by_cases hba : b = a
    · subst hba
      exact Or.inr ⟨(Function.update_self ..).trans (by rw [hzero]), hsuspended⟩
    · exact (h.once b).imp (hresumed b hba).trans fun hb => ⟨(hresumed b hba).trans hb.1, hb.2⟩
  · obtain ⟨-, hhead⟩ := honly d' b hd'
    cases rest with
    | nil => cases hhead
    | cons c rest =>
      obtain rfl := Option.some.inj hhead
      refine ⟨rest, (List.suffix_cons a _).trans hsuffix, fun b hb => ?_⟩
      obtain ⟨hb₁, hb₂⟩ := hleft b (.tail _ hb)
      exact ⟨hb₁, (hresumed b (ne_of_mem_of_not_mem hb hnodup)).trans hb₂⟩
  · exact (honly d' b hd').1.trans (honly d'' b' hd'').1.symm

/-- **Timely steps keep the invariant.** -/
theorem Inv.step {w w' : World} {action : Action} (h : Inv w) (ht : Timely w action)
    (hstep : LatchThreads.step w action = some w') : Inv w' := by
  cases action with
  | wait a =>
    simp only [LatchThreads.step] at hstep
    split at hstep <;> cases hstep
    next ha => exact h.setWaiter (h.not_joined ha ⟨nofun, nofun, nofun⟩) _
  | waiter a =>
    obtain ⟨waiter, ha, hact⟩ := Option.bind_eq_some_iff.mp hstep
    cases waiter with
    | ready =>
      obtain rfl := Option.some.inj hact
      exact h.setWaiter (h.not_joined ha ⟨nofun, nofun, nofun⟩) _
    | load =>
      obtain rfl := Option.some.inj hact
      obtain ⟨hmem, hres⟩ := h.not_joined ha ⟨nofun, nofun, nofun⟩
      exact h.outside hmem hres .exchange w.head
    | exchange =>
      simp only [stepWaiter] at hact
      split at hact <;> cases hact
      next hnext => exact h.push ha hnext
      next => exact h.loadNext ha
    | check =>
      obtain rfl := Option.some.inj hact
      refine h.check ha ?_
      split
      · exact Or.inl rfl
      · exact Or.inr rfl
    | passed | selfResumed | suspended => cases hact
  | spurious a =>
    simp only [LatchThreads.step] at hstep
    split at hstep <;> cases hstep
    next ha => exact h.loadNext ha
  | countDown d update =>
    simp only [LatchThreads.step] at hstep
    split at hstep <;> cases hstep
    exact h.setCounter d nofun
  | counter d =>
    obtain ⟨counter, hd, hact⟩ := Option.bind_eq_some_iff.mp hstep
    cases counter with
    | sub update =>
      obtain rfl := Option.some.inj hact
      refine h.setCounter d fun a => ?_
      split <;> nofun
    | load =>
      obtain rfl := Option.some.inj hact
      obtain ⟨hlist, hother⟩ := ht hd
      exact h.load hlist hother
    | loop head =>
      cases head with
      | none =>
        obtain rfl := Option.some.inj hact
        exact h.setCounter d nofun
      | some a =>
        obtain rfl := Option.some.inj hact
        exact h.advance hd
    | returned => cases hact

/-! ## Runs -/

/-- **Timely runs resume once**: if whenever a `notify_all` loads `head_` every awaiter
in the list has suspended and was not resumed, and no other `notify_all` is under way
in the list, then in every state reached no coroutine was resumed twice for one
`wait`. -/
theorem resumed_once {expected : Int} {past : List Action} {w : World}
    (h : Run step Timely (init expected) past w) : Good w :=
  (h.invariant (fun _ => Inv) (inv_init expected) fun _ _ _ _ hinv ht hstep =>
    hinv.step ht hstep).good

/-- One coroutine has suspended when the only `count_down` comes. -/
theorem resumed_once_suspended : ∃ w, Good w ∧ wakeups w 0 = 1 := by
  have h₁ : Run step Timely (init 1) [.wait 0, .waiter 0, .waiter 0, .waiter 0, .waiter 0,
      .countDown 0 1] _ :=
    (((((Run.nil.snoc trivial rfl).snoc trivial rfl).snoc trivial rfl).snoc trivial rfl).snoc
      trivial rfl).snoc trivial rfl
  have h₂ : Run step Timely (init 1) [.wait 0, .waiter 0, .waiter 0, .waiter 0, .waiter 0,
      .countDown 0 1, .counter 0] _ := h₁.snoc nofun rfl
  have h₃ : Run step Timely (init 1) [.wait 0, .waiter 0, .waiter 0, .waiter 0, .waiter 0,
      .countDown 0 1, .counter 0, .counter 0] _ :=
    h₂.snoc (fun _ => ⟨fun a ha => by
      obtain rfl := List.mem_singleton.mp ha
      exact ⟨rfl, rfl⟩, fun d a hd => by
      rcases of_update_eq_some hd with ⟨-, hload⟩ | ⟨hd₁, hd⟩
      · cases hload
      · rcases of_update_eq_some hd with ⟨hd₀, -⟩ | ⟨-, hnone⟩
        · exact hd₁ hd₀
        · cases hnone⟩) rfl
  have h₄ : Run step Timely (init 1) [.wait 0, .waiter 0, .waiter 0, .waiter 0, .waiter 0,
      .countDown 0 1, .counter 0, .counter 0, .counter 0] _ := h₃.snoc nofun rfl
  exact ⟨_, resumed_once h₄, rfl⟩

/-- The awaiter is in the list, but has not looked at the count again, when it reaches
zero and `head_` is loaded. -/
theorem not_resumed_once :
    ¬ ∀ (expected : Int) (past : List Action) (w : World),
      Run step (fun _ _ => True) (init expected) past w → Good w := by
  intro h
  have hrun : Run step (fun _ _ => True) (init 1)
      [.wait 0, .waiter 0, .waiter 0, .waiter 0, .countDown 0 1, .counter 0, .counter 0,
        .waiter 0, .counter 0] _ :=
    ((((((((Run.nil.snoc trivial rfl).snoc trivial rfl).snoc trivial rfl).snoc trivial rfl).snoc
      trivial rfl).snoc trivial rfl).snoc trivial rfl).snoc trivial rfl).snoc trivial rfl
  exact absurd (h _ _ _ hrun 0) (by decide)

end Uvio.Sync.LatchThreads
