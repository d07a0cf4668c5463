import Uvio.Net.Awaiters
import Uvio.Program.Awaitable

/-!
# Operations on one event loop

Any number of reads, writes, connects and resolves, each with the coroutine that
awaits it, and the loop that calls their callbacks in any order. An operation
whose libuv call returns a non-zero code was not taken: no callback is owed to it.

- `suspended_of_failed_start`: the coroutine that awaits an operation that was not
  taken stays suspended, whatever else happens on the loop.
- `connect_resumed_iff`: a connect gives its coroutine what the status says exactly
  when the status is zero.
-/

namespace Uvio.Net

open Program Awaitable

variable {α : Type}

/-- The arguments of an operation; a connect has made its `uv_tcp_t`. -/
inductive Request (α : Type) where
  | read (buf : Bytes)
  | write (message : Bytes)
  | connect (client : α)
  | resolve

inductive Awaiter (α : Type) where
  | read (a : ReadAwaiter)
  | write (a : WriteAwaiter)
  | connect (a : ConnectAwaiter α)
  | resolve (a : ResolveAwaiter)
deriving DecidableEq

/-- What a callback is called with. -/
inductive Told where
  | read (data : Bytes) (nread : Int)
  | write (status : Int)
  | connect (status : Int)
  | resolve (status : Int) (name : Bytes)
deriving DecidableEq

/-- What an operation gives when all goes well. -/
inductive Value (α : Type) where
  | size (n : Nat)
  | stream (s : TcpStream α)
  | address (ip : Bytes)
deriving DecidableEq

/-- The constructors. -/
def construct : Request α → Awaiter α
  | .read buf => .read (.new buf)
  | .write message => .write (.new message)
  | .connect client => .connect (.new client)
  | .resolve => .resolve .new

/-- The four awaiters as one awaitable. -/
def awaitable : Awaitable (Awaiter α) Told (Result (Value α)) where
  ready
    | .read a => a.awaitReady
    | .write a => a.awaitReady
    | .connect a => a.awaitReady
    | .resolve a => a.awaitReady
  suspend
    | .read a => .read a.awaitSuspend
    | .write a => .write a.awaitSuspend
    | .connect a => .connect a.awaitSuspend
    | .resolve a => .resolve a.awaitSuspend
  callback
    | .read a, .read data nread => some ((a.onRead data nread).map .read id)
    | .write a, .write status => some ((a.onWrite status).map .write id)
    | .connect a, .connect status => some ((a.onConnect status).map .connect id)
    | .resolve a, .resolve status name => some ((a.onResolve status name).map .resolve id)
    | _, _ => none
  resume
    | .read a =>
      let (res, a, _) := a.awaitResume ⟨none, true⟩
      (res.map .size, .read a)
    | .write a =>
      let (res, a) := a.awaitResume
      (res.map .size, .write a)
    | .connect a =>
      let (res, a) := a.awaitResume
      (res.map .stream, .connect a)
    | .resolve a => (a.awaitResume.map .address, .resolve a)

/-- The operations on the loop. -/
abbrev Loop (α : Type) := Nat → Option (Operation (Awaiter α) (Result (Value α)))

/-- What happens on the loop: something happens to one of the operations. -/
abbrev LoopEvent (α : Type) := Nat × Event (Awaiter α) Told

/-- One step of the loop. -/
def step : Loop α → LoopEvent α → Option (Loop α) := family awaitable.act

/-- Before any operation. -/
def idle : Loop α := fun _ => none

/-- An operation is started, and the libuv call returns `code`. -/
def start (id : Nat) (request : Request α) (code : Int) : LoopEvent α :=
  (id, .start (construct request) (code = 0))

/-- The coroutine awaits an operation. -/
def await (id : Nat) : LoopEvent α := (id, .await)

/-- libuv calls an operation's callback. -/
def callback (id : Nat) (told : Told) : LoopEvent α := (id, .callback told)

/-! ## Failed starts -/

/-- A coroutine is suspended on an operation and has been given nothing. -/
def SuspendedOn (loop : Loop α) (id : Nat) : Prop :=
  ∃ op, loop id = some op ∧ op.coroutine = .suspended ∧ op.results = []

/-- The `co_await` of an operation completed, with an error. -/
def FailedOn (loop : Loop α) (id : Nat) : Prop :=
  ∃ op, loop id = some op ∧ op.coroutine = .resumed ∧ ∃ e, op.results = [.error e]

/-- No awaiter is ready from the start. -/
theorem ready_construct (request : Request α) : awaitable.ready (construct request) = false := by
  cases request <;> rfl

theorem mem_own {id : Nat} {event : Event (Awaiter α) Told} {past : List (LoopEvent α)}
    (h : (id, event) ∈ past) : event ∈ own id past :=
  List.mem_filterMap.mpr ⟨(id, event), h, if_pos rfl⟩

/-- **An operation that was not taken is never heard of again**: in every run of the
loop, once it was awaited its coroutine is suspended on it. -/
theorem suspended_of_failed_start [DecidableEq α] {request : Request α} {code : Int}
    (hcode : code ≠ 0) {id : Nat} {past : List (LoopEvent α)} {loop : Loop α}
    (h : Run step (fun _ _ => True) idle past loop) (hstart : start id request code ∈ past)
    (hawait : await id ∈ past) : SuspendedOn loop id := by
  have hown : .start (construct request) false ∈ own id past := by
    have hmem := mem_own hstart
    rwa [decide_eq_false hcode] at hmem
  have hop := run_refused (ready_construct request) (h.member id) hown
  rw [decide_eq_true (mem_own hawait)] at hop
  exact ⟨_, hop, rfl, rfl⟩

/-- A write that was refused, while a read on the same loop is served. -/
theorem suspended_of_failed_start_write : ∃ loop : Loop Nat,
    SuspendedOn loop 0 ∧ ∃ op, loop 1 = some op ∧ op.results = [.ok (.size 1)] := by
  have hrun : Run step (fun _ _ => True) (idle : Loop Nat)
      [start 0 (.write [7]) (-32), start 1 (.read [0]) 0, await 1, await 0,
        callback 1 (.read [9] 1)] _ :=
    ((((Run.nil.snoc trivial rfl).snoc trivial rfl).snoc trivial rfl).snoc trivial rfl).snoc
      trivial rfl
  exact ⟨_, suspended_of_failed_start (by decide) hrun (.head _) (.tail _ (.tail _ (.tail _
    (.head _)))), _, rfl, rfl⟩

/-- A read that libuv did not start is not answered with an error. -/
theorem not_failed_of_failed_start :
    ¬ ∀ (request : Request Nat) (code : Int) (id : Nat) (past : List (LoopEvent Nat))
      (loop : Loop Nat), code ≠ 0 → Run step (fun _ _ => True) idle past loop →
      start id request code ∈ past → await id ∈ past → FailedOn loop id := by
  intro h
  have hrun : Run step (fun _ _ => True) (idle : Loop Nat)
      [start 0 (.read [0]) (-22), await 0] _ :=
    (Run.nil.snoc trivial rfl).snoc trivial rfl
  obtain ⟨op, hop, hco, -⟩ := h _ _ 0 _ _ (by decide) hrun (.head _) (.tail _ (.head _))
  cases hop
  cases hco

/-! ## Connecting -/

/-- The coroutine was let go on once, with what the status says. -/
def ResumedWith (client : α) (status : Int) (loop : Loop α) (id : Nat) : Prop :=
  ∃ op, loop id = some op ∧
    if status = 0 then op.results = [.ok (.stream ⟨some client⟩)]
    else ∃ e, op.results = [.error e]

/-- What happens to a connect that libuv takes, in one of the two orders. -/
def connectEvents (client : α) (status : Int) (toldFirst : Bool) : List (Event (Awaiter α) Told) :=
  .start (construct (.connect client)) true ::
    if toldFirst then [.callback (.connect status), .await]
    else [.await, .callback (.connect status)]

/-- What a started connect has given once its callback was called with `status` and
it was awaited. -/
def connectResults (client : α) (status : Int) (toldFirst : Bool) : List (Result (Value α)) :=
  if status = 0 ∨ toldFirst = true ∧ status < 0 then [.ok (.stream ⟨some client⟩)] else []

/-- **What a connect gives**: with the callback first, a stream for every status
that is not positive; with the `co_await` first, a stream for zero and nothing
otherwise. -/
theorem connect_results {client : α} {status : Int} {id : Nat} {past : List (LoopEvent α)}
    {loop : Loop α} (h : Run step (fun _ _ => True) idle past loop) (toldFirst : Bool)
    (hown : own id past = connectEvents client status toldFirst) :
    ∃ op, loop id = some op ∧ op.results = connectResults client status toldFirst := by
  have hrun := h.member id
  rw [hown] at hrun
  cases toldFirst with
  | true =>
    obtain ⟨_, hcall, hop⟩ := run_told_then_awaited hrun
    obtain rfl := Option.some.inj hcall
    refine ⟨_, hop, ?_⟩
    rcases Int.lt_trichotomy status 0 with hs | rfl | hs
    · have hready : status ≤ 0 := by omega
      have hne : status ≠ 0 := by omega
      simp [connectResults, afterAwait, afterCallback, awaitable, complete,
        ConnectAwaiter.onConnect, ConnectAwaiter.awaitReady, ConnectAwaiter.awaitResume,
        ConnectAwaiter.new, Except.map, hs, hready, hne]
    · rfl
    · have hready : ¬ status ≤ 0 := by omega
      have hne : status ≠ 0 := by omega
      have hlt : ¬ status < 0 := by omega
      simp [connectResults, afterAwait, afterCallback, awaitable, ConnectAwaiter.onConnect,
        ConnectAwaiter.awaitReady, ConnectAwaiter.new, hready, hne, hlt]
  | false =>
    obtain ⟨_, hcall, hop⟩ := run_awaited_then_told hrun
    obtain rfl := Option.some.inj hcall
    refine ⟨_, hop, ?_⟩
    by_cases hs : status = 0
    · subst hs
      rfl
    · simp [connectResults, construct, afterAwait, afterCallback, awaitable,
        ConnectAwaiter.onConnect, ConnectAwaiter.awaitReady, ConnectAwaiter.awaitSuspend,
        ConnectAwaiter.new, hs]

/-- **A connect answers its status** iff the status is zero, whether the callback
or the `co_await` comes first. -/
theorem connect_resumed_iff {client : α} {status : Int} {id : Nat} {past : List (LoopEvent α)}
    {loop : Loop α} (h : Run step (fun _ _ => True) idle past loop) (toldFirst : Bool)
    (hown : own id past = connectEvents client status toldFirst) :
    ResumedWith client status loop id ↔ status = 0 := by
  obtain ⟨op, hop, hres⟩ := connect_results h toldFirst hown
  constructor
  · rintro ⟨op', hop', hwith⟩
    obtain rfl := Option.some.inj (hop.symm.trans hop')
    by_contra hs
    rw [if_neg hs, hres, connectResults] at hwith
    obtain ⟨e, he⟩ := hwith
    split at he <;> cases he
  · rintro rfl
    exact ⟨op, hop, by rw [if_pos rfl, hres, connectResults, if_pos (Or.inl rfl)]⟩

/-- A connect that succeeds while it is awaited. -/
theorem connect_resumed_iff_zero : ∃ loop : Loop Nat, ResumedWith 7 0 loop 0 := by
  have hrun : Run step (fun _ _ => True) (idle : Loop Nat)
      [start 0 (.connect 7) 0, await 0, callback 0 (.connect 0)] _ :=
    ((Run.nil.snoc trivial rfl).snoc trivial rfl).snoc trivial rfl
  exact ⟨_, (connect_resumed_iff hrun false rfl).mpr rfl⟩

/-- A connect that is refused after it was awaited: the coroutine is not resumed. -/
theorem not_connect_resumed :
    ¬ ∀ (client status : Int) (id : Nat) (past : List (LoopEvent Int)) (loop : Loop Int)
      (toldFirst : Bool), Run step (fun _ _ => True) idle past loop →
      own id past = connectEvents client status toldFirst → ResumedWith client status loop id := by
  intro h
  have hrun : Run step (fun _ _ => True) (idle : Loop Int)
      [start 0 (.connect 7) 0, await 0, callback 0 (.connect (-111))] _ :=
    ((Run.nil.snoc trivial rfl).snoc trivial rfl).snoc trivial rfl
  obtain ⟨op, hop, hwith⟩ := h 7 (-111) 0 _ _ false hrun rfl
  cases hop
  rw [if_neg (by decide)] at hwith
  obtain ⟨e, he⟩ := hwith
  cases he

end Uvio.Net
