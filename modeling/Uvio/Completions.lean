import Uvio.Io.Endpoint
import Uvio.Net.EventLoop
import Uvio.Net.Http.HttpProtocol
import Uvio.Program.Completion
import Mathlib.Logic.Function.Iterate

/-!
# Operations that are over

What the awaiters give whose operation ends: `write`, `connect` and `resolve` on the
event loop, and three that are not part of `Awaiter`: the timer of `sleep`, the request
that `execute` queues on the thread pool, and a transfer of `HttpClient`, of which curl
delivers the body piece by piece.

- `answered_once`: an operation on the loop that is called back as its `await_ready`
  expects answers its coroutine once, with what the callback said.
- `answer_write`: what a write answers is what the codecs' `Outlet` gives.
- `executed`: `co_await execute(func)` goes on after `func` has run, once.
- `requested`: `HttpClient::request` answers the status and the whole body.
-/

namespace Uvio

open Program Awaitable

/-! ## On the loop -/

namespace Net

variable {α : Type}

/-- What a callback says that ends an operation: for `write` libuv's status, which is
never positive, and for `connect` success, as its callback returns early otherwise. -/
def Final : Request α → Told → Prop
  | .write _, .write status => status ≤ 0
  | .connect _, .connect status => status = 0
  | .resolve, .resolve _ _ => True
  | _, _ => False

/-- What the coroutine is to be given. -/
def answer : Request α → Told → Result (Value α)
  | .write message, .write status =>
    if status ≠ 0 then .error .unclassified
    else if message = [] then .error .writeZero
    else .ok (.size message.length)
  | .connect client, .connect _ => .ok (.stream ⟨some client⟩)
  | .resolve, .resolve status name =>
    if status < 0 ∨ name.takeWhile (· ≠ 0) = [] then .error .resolveFailed
    else .ok (.address (name.takeWhile (· ≠ 0)))
  | _, _ => .error .unclassified

/-- An awaiter that was not called back. -/
def withHandle (handle : Bool) : Awaiter α → Awaiter α
  | .read a => .read { a with handle := handle }
  | .write a => .write { a with handle := handle }
  | .connect a => .connect { a with handle := handle }
  | .resolve a => .resolve { a with handle := handle }

/-- The status of a write decides between all its bytes and none, as for an `Outlet`. -/
theorem answer_write {message : Bytes} {status : Int} {outlet : Io.Outlet}
    (hplan : outlet.plan outlet.calls = if status = 0 then .all else .fail .unclassified) :
    ∃ res outlet', (Io.Outlet.write message).run outlet = .ok (res, outlet') ∧
      answer (.write message : Request α) (.write status) = res.map .size := by
  by_cases hstatus : status = 0
  · rw [if_pos hstatus] at hplan
    by_cases hmessage : message = []
    · refine ⟨.error .writeZero, { outlet with calls := outlet.calls + 1 }, ?_, ?_⟩
      · simp [Io.Outlet.write, StateT.run, hplan, hmessage]
      · simp [answer, hstatus, hmessage, Except.map]
    · refine ⟨.ok message.length, { outlet with
        calls := outlet.calls + 1
        taken := outlet.taken ++ message }, ?_, ?_⟩
      · simp [Io.Outlet.write, StateT.run, hplan, hmessage]
      · simp [answer, hstatus, hmessage, Except.map]
  · rw [if_neg hstatus] at hplan
    refine ⟨.error .unclassified, { outlet with calls := outlet.calls + 1 }, ?_, ?_⟩
    · simp [Io.Outlet.write, StateT.run, hplan]
    · simp [answer, hstatus, Except.map]

/-- What the address is that `uv_ip4_name` has written. -/
theorem takeWhile_blit (name : Bytes) :
    (blit (List.replicate 17 0) 0 (name ++ [0])).takeWhile (· ≠ 0) = name.takeWhile (· ≠ 0) := by
  rw [blit_zero, List.append_assoc, List.takeWhile_append]
  split
  next hall =>
    rw [(List.takeWhile_prefix _).eq_of_length hall]
    simp
  next => rfl

/-- What `resolve` answers once it was called back. -/
theorem awaitResume_onResolve (handle : Bool) (status : Int) (name : Bytes) :
    (ResolveAwaiter.onResolve ⟨handle, ResolveAwaiter.new.ipv4addr, ResolveAwaiter.new.resolved⟩
        status name).1.awaitResume =
      if status < 0 ∨ name.takeWhile (· ≠ 0) = [] then .error .resolveFailed
      else .ok (name.takeWhile (· ≠ 0)) := by
  unfold ResolveAwaiter.onResolve ResolveAwaiter.awaitResume
  by_cases hstatus : status < 0
  · rw [if_pos hstatus, if_pos (Or.inl hstatus)]
    rfl
  · rw [if_neg hstatus]
    show (if (blit (List.replicate 17 0) 0 (name ++ [0])).takeWhile _ ≠ [] then
      Except.ok ((blit (List.replicate 17 0) 0 (name ++ [0])).takeWhile _) else _) = _
    rw [takeWhile_blit]
    by_cases hnil : name.takeWhile (· ≠ 0) = []
    · rw [if_neg (not_not.mpr hnil), if_pos (Or.inr hnil)]
    · rw [if_pos hnil, if_neg (not_or.mpr ⟨hstatus, hnil⟩)]

/-- The same of all that was said. -/
def answerAll (request : Request α) (ks : List Told) : Result (Value α) :=
  (ks.head?.map (answer request)).getD (.error .unclassified)

/-- The awaiters of operations other than reads answer what their callback says. -/
theorem answers (request : Request α) :
    Awaitable.Answers awaitable (construct request) (Final request) (fun _ => true)
      (answerAll request)
      (fun handle ks a => ks = [] ∧ a = withHandle handle (construct request)) where
  init := by
    refine ⟨rfl, ?_⟩
    cases request <;> rfl
  ready := by
    rintro handle ks a ⟨-, rfl⟩
    cases request <;> rfl
  suspend := by
    rintro ks a ⟨rfl, rfl⟩
    refine ⟨rfl, ?_⟩
    cases request <;> rfl
  part := nofun
  ended := by
    rintro handle ks a said out ⟨rfl, rfl⟩ hfinal - hcall
    match request, said with
    | .write message, .write status =>
      obtain rfl := Option.some.inj hcall
      refine ⟨rfl, decide_eq_true hfinal, ?_⟩
      by_cases hstatus : status = 0 <;> cases message <;>
        simp [answerAll, answer, awaitable, WriteAwaiter.onWrite, WriteAwaiter.new,
          WriteAwaiter.awaitResume, Except.map, hstatus]
    | .connect client, .connect status =>
      obtain rfl := Option.some.inj hcall
      obtain rfl : status = 0 := hfinal
      exact ⟨rfl, rfl, rfl⟩
    | .resolve, .resolve status name =>
      obtain rfl := Option.some.inj hcall
      refine ⟨?_, rfl, ?_⟩
      · show (ResolveAwaiter.onResolve _ _ _).2 = handle
        unfold ResolveAwaiter.onResolve
        split <;> rfl
      · show Except.map Value.address (ResolveAwaiter.onResolve _ _ _).1.awaitResume = _
        rw [awaitResume_onResolve]
        show _ = if _ then (.error .resolveFailed : Result (Value α)) else .ok (.address _)
        split <;> rfl

/-- **An operation is answered once**: whatever else happens on the loop, an operation that
libuv took and calls back gives its coroutine one result, what the callback said, as soon as
the callback was called and the operation awaited, in either order. Before that it has given
nothing. -/
theorem answered_once {request : Request α} {said : Told} (hfinal : Final request said) {id : Nat}
    {past : List (LoopEvent α)} {loop : Loop α} {events : List (Event (Awaiter α) Told)}
    (h : Run step (fun _ _ => True) idle past loop)
    (hown : own id past = .start (construct request) true :: events)
    (honce : told events <+: [said]) :
    ∃ op, loop id = some op ∧
      (told events = [said] ∧ awaited events = true →
        op.coroutine = .resumed ∧ op.results = [answer request said]) ∧
      (¬ (told events = [said] ∧ awaited events = true) →
        op.coroutine ≠ .resumed ∧ op.results = []) := by
  have hrun := h.member id
  rw [hown] at hrun
  exact run_script (answers request) [] nofun hfinal rfl hrun honce

/-- A write and a resolve cross: the write is called back before it is awaited. -/
theorem answered_once_crossing : ∃ loop : Loop Nat,
    (∃ op, loop 0 = some op ∧ op.results = [.error .unclassified]) ∧
      ∃ op, loop 1 = some op ∧ op.results = [.ok (.address [49])] := by
  have hrun : Run step (fun _ _ => True) (idle : Loop Nat)
      [start 0 (.write [7]) 0, start 1 .resolve 0, await 1, callback 0 (.write (-32)),
        callback 1 (.resolve 0 [49]), await 0] _ :=
    (((((Run.nil.snoc trivial rfl).snoc trivial rfl).snoc trivial rfl).snoc trivial rfl).snoc
      trivial rfl).snoc trivial rfl
  obtain ⟨op, hop, hover, -⟩ := @answered_once _ (.write [7]) (.write (-32))
    (show (-32 : Int) ≤ 0 by decide) 0 _ _ _ hrun rfl (List.prefix_refl _)
  obtain ⟨op', hop', hover', -⟩ := @answered_once _ .resolve (.resolve 0 [49])
    trivial 1 _ _ _ hrun rfl (List.prefix_refl _)
  exact ⟨_, ⟨op, hop, (hover ⟨rfl, rfl⟩).2⟩, op', hop', (hover' ⟨rfl, rfl⟩).2⟩

end Net

/-! ## `sleep` -/

namespace Time

structure SleepAwaiter where
  handle : Bool
  ready : Bool
deriving DecidableEq, Repr

namespace SleepAwaiter

def new : SleepAwaiter := ⟨false, false⟩

/-- The callback of the timer, which is started without a repeat. -/
def onTimer (a : SleepAwaiter) : SleepAwaiter × Bool := ({ a with ready := true }, a.handle)

def awaitReady (a : SleepAwaiter) : Bool := a.ready

def awaitSuspend (a : SleepAwaiter) : SleepAwaiter := { a with handle := true }

def awaitResume (_ : SleepAwaiter) : Result Unit × SleepAwaiter := (.ok (), ⟨false, false⟩)

def awaitable : Awaitable SleepAwaiter Unit (Result Unit) where
  ready := awaitReady
  suspend := awaitSuspend
  callback a _ := some a.onTimer
  resume := awaitResume

theorem answers : Awaitable.Answers awaitable new (fun _ => True) (fun _ => true) (fun _ => .ok ())
    (fun handle ks a => ks = [] ∧ a = ⟨handle, false⟩) where
  init := ⟨rfl, rfl⟩
  ready := by
    rintro handle ks a ⟨-, rfl⟩
    rfl
  suspend := by
    rintro ks a ⟨rfl, rfl⟩
    exact ⟨rfl, rfl⟩
  part := nofun
  ended := by
    rintro handle ks a said out ⟨-, rfl⟩ - - hcall
    obtain rfl := Option.some.inj hcall
    exact ⟨rfl, rfl, rfl⟩

/-- **A sleep ends** once its timer has run out and it is awaited. -/
theorem slept {events : List (Event SleepAwaiter Unit)}
    {s : Option (Operation SleepAwaiter (Result Unit))}
    (h : Run awaitable.act (fun _ _ => True) none (.start new true :: events) s)
    (honce : told events <+: [()]) :
    ∃ op, s = some op ∧
      (told events = [()] ∧ awaited events = true →
        op.coroutine = .resumed ∧ op.results = [.ok ()]) ∧
      (¬ (told events = [()] ∧ awaited events = true) →
        op.coroutine ≠ .resumed ∧ op.results = []) :=
  run_script answers [] nofun trivial rfl h honce

end SleepAwaiter

end Time

/-! ## `execute` -/

namespace Work

variable {σ : Type}

/-- `func` is what `func_` does to what it captures, which is `captured`. -/
structure WorkAwaiter (σ : Type) where
  handle : Bool
  func : σ → σ
  captured : σ
  status : Int

/-- The callbacks of `uv_queue_work`: on a thread of the pool, and then on the loop. -/
inductive WorkTold where
  | work
  | afterWork (status : Int)
deriving DecidableEq, Repr

namespace WorkAwaiter

def new (func : σ → σ) (captured : σ) : WorkAwaiter σ := ⟨false, func, captured, 1⟩

def onWork (a : WorkAwaiter σ) : WorkAwaiter σ := { a with captured := a.func a.captured }

def onAfterWork (a : WorkAwaiter σ) (status : Int) : WorkAwaiter σ × Bool :=
  ({ a with status := status }, a.handle)

def awaitReady (a : WorkAwaiter σ) : Bool := a.status ≤ 0

def awaitSuspend (a : WorkAwaiter σ) : WorkAwaiter σ := { a with handle := true }

def awaitResume (a : WorkAwaiter σ) : WorkAwaiter σ := { a with handle := false }

/-- `await_resume` gives nothing: what counts is what the coroutine finds `func_` has done. -/
def awaitable : Awaitable (WorkAwaiter σ) WorkTold σ where
  ready := awaitReady
  suspend := awaitSuspend
  callback
    | a, .work => some (a.onWork, false)
    | a, .afterWork status => some (a.onAfterWork status)
  resume a := (a.captured, a.awaitResume)

/-- What `func_` has done when it was run for each `work`. -/
def done (func : σ → σ) (x : σ) (ks : List WorkTold) : σ := func^[ks.count .work] x

theorem answers (func : σ → σ) (x : σ) :
    Awaitable.Answers awaitable (new func x) (fun said => ∀ status, said = .afterWork status → status ≤ 0)
      (fun said => decide (said ≠ .work)) (done func x)
      (fun handle ks a => a = ⟨handle, func, done func x ks, 1⟩) where
  init := rfl
  ready := by
    rintro handle ks a rfl
    rfl
  suspend := by
    rintro ks a rfl
    rfl
  part := by
    rintro handle ks a said out rfl - hlast hcall
    obtain rfl : said = .work := by simpa using hlast
    obtain rfl := Option.some.inj hcall
    refine ⟨?_, rfl⟩
    show WorkAwaiter.mk _ _ (func (done func x ks)) _ = _
    simp [done, Function.iterate_succ_apply']
  ended := by
    rintro handle ks a said out rfl hallowed hlast hcall
    cases said with
    | work => cases hlast
    | afterWork status =>
      obtain rfl := Option.some.inj hcall
      refine ⟨rfl, decide_eq_true (hallowed status rfl), ?_⟩
      simp [awaitable, onAfterWork, done]

/-- **`func` has run, once, when the coroutine goes on**: whatever other requests are queued,
a request of which the pool takes care gives its coroutine one result, with `func` applied
once, as soon as libuv has called back and the request was awaited, in either order. -/
theorem executed {func : σ → σ} {x : σ} {status : Int} (hstatus : status ≤ 0) {id : Nat}
    {past : List (Nat × Event (WorkAwaiter σ) WorkTold)} {loop : Nat → Option (Operation _ σ)}
    {events : List (Event (WorkAwaiter σ) WorkTold)}
    (h : Run (family awaitable.act) (fun _ _ => True) (fun _ => none) past loop)
    (hown : own id past = .start (new func x) true :: events)
    (hpool : told events <+: [.work, .afterWork status]) :
    ∃ op, loop id = some op ∧
      (told events = [.work, .afterWork status] ∧ awaited events = true →
        op.coroutine = .resumed ∧ op.results = [func x]) ∧
      (¬ (told events = [.work, .afterWork status] ∧ awaited events = true) →
        op.coroutine ≠ .resumed ∧ op.results = []) := by
  have hrun := h.member id
  rw [hown] at hrun
  refine run_script (answers func x) [.work] ?_ ?_ rfl hrun hpool
  · intro said hsaid
    obtain rfl := List.mem_singleton.mp hsaid
    exact ⟨nofun, rfl⟩
  · rintro _ ⟨⟩
    exact hstatus

/-- Two requests; the pool is done with the later one first. -/
theorem executed_swapped : ∃ loop : Nat → Option (Operation (WorkAwaiter Nat) Nat),
    (∃ op, loop 0 = some op ∧ op.results = [6]) ∧ ∃ op, loop 1 = some op ∧ op.results = [25] := by
  have hrun : Run (family awaitable.act) (fun _ _ => True) (fun _ => none)
      [(0, .start (new (· + 1) 5) true), (1, .start (new (· ^ 2) 5) true), (0, .await),
        (1, .callback .work), (1, .callback (.afterWork 0)), (0, .callback .work), (1, .await),
        (0, .callback (.afterWork 0))] _ :=
    (((((((Run.nil.snoc trivial rfl).snoc trivial rfl).snoc trivial rfl).snoc trivial rfl).snoc
      trivial rfl).snoc trivial rfl).snoc trivial rfl).snoc trivial rfl
  obtain ⟨op, hop, hover, -⟩ := @executed _ _ _ _ (Int.le_refl 0) 0 _ _ _ hrun rfl
    (List.prefix_refl _)
  obtain ⟨op', hop', hover', -⟩ := @executed _ _ _ _ (Int.le_refl 0) 1 _ _ _ hrun rfl
    (List.prefix_refl _)
  exact ⟨_, ⟨op, hop, (hover ⟨rfl, rfl⟩).2⟩, op', hop', (hover' ⟨rfl, rfl⟩).2⟩

end WorkAwaiter

end Work

/-! ## `HttpClient::request` -/

namespace Net.Http

/-- The awaiter with its `Context`, which refers to `handle_`. -/
structure RequestAwaiter where
  handle : Bool
  responseBody : Bytes
  statusCode : Int
deriving DecidableEq, Repr

/-- What curl calls back: `curl_write_cb`, and the one message that `check_multi_info` finds
as one transfer was added. -/
inductive CurlTold where
  | write (data : Bytes)
  | done (responseCode : Int)
deriving DecidableEq, Repr

namespace RequestAwaiter

def new : RequestAwaiter := ⟨false, [], 0⟩

def curlWrite (a : RequestAwaiter) (data : Bytes) : RequestAwaiter :=
  { a with responseBody := a.responseBody ++ data }

/-- `CURLMSG_DONE`. -/
def checkMultiInfo (a : RequestAwaiter) (responseCode : Int) : RequestAwaiter × Bool :=
  ({ a with statusCode := responseCode }, a.handle)

def awaitReady (a : RequestAwaiter) : Bool := a.statusCode ≠ 0

def awaitSuspend (a : RequestAwaiter) : RequestAwaiter := { a with handle := true }

def awaitResume (a : RequestAwaiter) : Result HttpResponse :=
  .ok { HttpResponse.fresh a.statusCode with body := a.responseBody }

def awaitable : Awaitable RequestAwaiter CurlTold (Result HttpResponse) where
  ready := awaitReady
  suspend := awaitSuspend
  callback
    | a, .write data => some (a.curlWrite data, false)
    | a, .done responseCode => some (a.checkMultiInfo responseCode)
  resume a := (a.awaitResume, a)

/-- The piece of the body in what curl calls back. -/
def piece : CurlTold → Bytes
  | .write data => data
  | .done _ => []

/-- The response of which curl has told. -/
def response (ks : List CurlTold) : Result HttpResponse :=
  .ok { HttpResponse.fresh (match ks.getLast? with | some (.done code) => code | _ => 0) with
    body := ks.flatMap piece }

theorem answers : Awaitable.Answers awaitable new (fun said => said ≠ .done 0)
    (fun | .write _ => false | .done _ => true) response
    (fun handle ks a => a = ⟨handle, ks.flatMap piece, 0⟩) where
  init := rfl
  ready := by
    rintro handle ks a rfl
    rfl
  suspend := by
    rintro ks a rfl
    rfl
  part := by
    rintro handle ks a said out rfl - hlast hcall
    cases said with
    | write data =>
      obtain rfl := Option.some.inj hcall
      exact ⟨by simp [curlWrite, piece], rfl⟩
    | done code => cases hlast
  ended := by
    rintro handle ks a said out rfl hallowed hlast hcall
    cases said with
    | write data => cases hlast
    | done code =>
      obtain rfl := Option.some.inj hcall
      have hcode : code ≠ 0 := fun h => hallowed (h ▸ rfl)
      refine ⟨rfl, decide_eq_true hcode, ?_⟩
      simp [awaitable, awaitResume, checkMultiInfo, response, piece]

end RequestAwaiter

end Net.Http

end Uvio
