import Uvio.Net.Awaiters
import Uvio.Program.Runs

/-!
# Reading from a `TcpStream`

One socket and the one coroutine that reads from it, one `ReadAwaiter` at a time.
The constructor stores the awaiter's address in `socket_->data` and starts reading,
the callback follows that address, and `await_resume` stops reading when the read
succeeded.

libuv calls back as long as the socket is being read; an end of file and an error
end that by themselves, a buffer without room does not. It runs only while the
coroutine is suspended.

- `Good`: the reads return what was delivered, in order; no read is suspended on
  something that was delivered already; while the socket is being read, its `data`
  is the live awaiter.
- `Timely`: what has to be true at a callback, at a `co_await` and at the end of an
  awaiter.
- `timely_reads_good`: runs all of whose steps are timely are good.
-/

namespace Uvio.Net.TcpRead

open Program

/-- `UV_ENOBUFS`. -/
def uvEnobufs : Int := -105

/-- What libuv may report. -/
inductive Report where
  | data (bs : Bytes)
  /-- `nread` is zero: nothing to read after all. -/
  | again
  | eof
  | error (code : Int)
  /-- The buffer has no room. -/
  | noBuffer
deriving DecidableEq, Repr

namespace Report

def nread : Report → Int
  | data bs => bs.length
  | again => 0
  | eof => uvEof
  | error code => code
  | noBuffer => uvEnobufs

/-- What libuv has written to the buffer. -/
def bytes : Report → Bytes
  | data bs => bs
  | _ => []

/-- Whether libuv reads on afterwards. -/
def goesOn : Report → Bool
  | eof | error _ => false
  | _ => true

/-- What libuv can report for a buffer. -/
def Possible (buf : Bytes) : Report → Prop
  | data bs => bs ≠ [] ∧ bs.length ≤ buf.length
  | again => buf ≠ []
  | eof => True
  | error code => code < 0 ∧ code ≠ uvEof
  | noBuffer => buf = []

instance (buf : Bytes) (report : Report) : Decidable (report.Possible buf) := by
  cases report <;> unfold Possible <;> infer_instance

/-- What the reader is to be given. -/
def outcome : Report → Option (Result Bytes)
  | data bs => some (.ok bs)
  | again => none
  | eof => some (.error .unexpectedEOF)
  | error _ | noBuffer => some (.error .unclassified)

end Report

/-- The awaiter that is alive, by the number of the `read()` that made it. -/
structure Live where
  id : Nat
  awaiter : ReadAwaiter
  completed : Bool
deriving DecidableEq, Repr

inductive Coroutine where
  | running
  | suspended
  | elsewhere
deriving DecidableEq, Repr

/-- The socket, the awaiter, and the coroutine with what its reads returned. -/
structure World where
  socket : Socket
  live : Option Live
  calls : Nat
  coroutine : Coroutine
  returned : List (Result Bytes)
  fault : Bool

inductive Action where
  /-- The coroutine calls `read(buf)`. -/
  | construct (buf : Bytes)
  /-- The coroutine awaits the read. -/
  | await
  /-- The lifetime of the awaiter ends. -/
  | finish
  /-- libuv calls the read callback. -/
  | report (report : Report)
  /-- The coroutine awaits something else. -/
  | awaitElse
  /-- What the coroutine awaited elsewhere is there. -/
  | elseDone
deriving DecidableEq, Repr

def init : World := ⟨⟨none, false⟩, none, 0, .running, [], false⟩

/-- `await_resume()`: what it returns is what the buffer begins with. -/
def awaitResume (w : World) (l : Live) : World :=
  let out := l.awaiter.awaitResume w.socket
  { w with
    socket := out.2.2
    live := some { l with awaiter := out.2.1, completed := true }
    coroutine := .running
    returned := w.returned ++ [out.1.map l.awaiter.buf.take] }

/-- The read callback. A null or dangling address is a fault, and so is a handle
whose coroutine is suspended somewhere else by now. -/
def onRead (w : World) (report : Report) : Option World :=
  match w.live with
  | none => some { w with fault := true }
  | some l =>
    if w.socket.data ≠ some l.id then some { w with fault := true }
    else if report.Possible l.awaiter.buf then
      let out := l.awaiter.onRead report.bytes report.nread
      let l := { l with awaiter := out.1 }
      let w := { w with
        socket := { w.socket with reading := report.goesOn }
        live := some l }
      if out.2 then
        if w.coroutine = .suspended ∧ l.completed = false then some (awaitResume w l)
        else some { w with fault := true }
      else some w
    else none

/-- What an action does, where it is possible. -/
def act (w : World) : Action → Option World
  | .construct buf =>
    if w.coroutine = .running ∧ w.live = none then
      some { w with
        socket := ⟨some w.calls, true⟩
        live := some ⟨w.calls, .new buf, false⟩
        calls := w.calls + 1 }
    else none
  | .await =>
    match w.live with
    | some l =>
      if w.coroutine = .running ∧ l.completed = false then
        if l.awaiter.awaitReady then some (awaitResume w l)
        else some { w with
          live := some { l with awaiter := l.awaiter.awaitSuspend }
          coroutine := .suspended }
      else none
    | none => none
  | .finish => if w.coroutine = .running then some { w with live := none } else none
  | .report report =>
    if w.coroutine ≠ .running ∧ w.socket.reading then onRead w report else none
  | .awaitElse => if w.coroutine = .running then some { w with coroutine := .elsewhere } else none
  | .elseDone => if w.coroutine = .elsewhere then some { w with coroutine := .running } else none

/-- One step. There is none after a fault. -/
def step (w : World) (action : Action) : Option World :=
  if w.fault then none else act w action

/-- What was delivered, in order. -/
def delivered (past : List Action) : List (Result Bytes) :=
  past.filterMap fun action =>
    match action with
    | .report report => report.outcome
    | _ => none

/-- What an awaiter has been told of. -/
def pending (a : ReadAwaiter) : Option (Result Bytes) :=
  if a.nread < 0 then some (.error (if a.nread = uvEof then .unexpectedEOF else .unclassified))
  else if a.nread = 0 then none
  else some (.ok (a.buf.take a.nread.toNat))

/-- What was delivered to the read that is going on and not returned by it yet. -/
def held (w : World) : Option (Result Bytes) :=
  match w.live with
  | some l => if l.completed then none else pending l.awaiter
  | none => none

/-- What the reads returned, but for those that returned no bytes. -/
def received (w : World) : List (Result Bytes) := w.returned.filter fun res => res ≠ .ok []

/-- What is asked of reading. -/
structure Good (past : List Action) (w : World) : Prop where
  /-- Every callback found a live awaiter. -/
  sound : w.fault = false
  /-- What was returned, and what is held for the read going on, is what was
  delivered, each once and in order. -/
  order : received w ++ (held w).toList = delivered past
  /-- No read is suspended on something that was delivered. -/
  awake : w.coroutine = .suspended → held w = none
  /-- While the socket is being read its `data` is the live awaiter. -/
  data : w.socket.reading = true → ∃ l, w.live = some l ∧ w.socket.data = some l.id

/-- A callback comes while the awaiter holds nothing; a read is awaited that holds
no error; an awaiter ends when its `co_await` has completed and the socket is not
being read any more. -/
def Timely (w : World) : Action → Prop
  | .report _ => ∀ l, w.live = some l → l.awaiter.nread = 0
  | .await => ∀ l, w.live = some l → 0 ≤ l.awaiter.nread
  | .finish => w.socket.reading = false ∧ ∀ l, w.live = some l → l.completed = true
  | _ => True

/-! ## What an awaiter holds -/

theorem pending_of_zero {a : ReadAwaiter} (h : a.nread = 0) : pending a = none := by
  simp [pending, h]

/-- The callback leaves in the awaiter what it reports. -/
theorem pending_onRead {a : ReadAwaiter} {report : Report} (h : report.Possible a.buf) :
    pending (a.onRead report.bytes report.nread).1 = report.outcome := by
  cases report with
  | data bs =>
    have hpos : ¬ (bs.length : Int) < 0 := by omega
    have htake : (blit a.buf 0 bs).take bs.length = bs := by
      rw [blit_zero, List.take_left]
    simp [pending, ReadAwaiter.onRead, Report.nread, Report.outcome, Report.bytes, hpos, htake, h.1]
  | again => rfl
  | eof => rfl
  | error code =>
    simp [pending, ReadAwaiter.onRead, Report.nread, Report.outcome, h.1, h.2]
  | noBuffer => rfl

/-- The callback reports no more than the buffer has room for. -/
theorem onRead_room {a : ReadAwaiter} {report : Report} (h : report.Possible a.buf) :
    (a.onRead report.bytes report.nread).1.nread ≤
      ((a.onRead report.bytes report.nread).1.buf.length : Int) := by
  have hneg : ∀ code : Int, code ≤ 0 → code ≤ ((blit a.buf 0 []).length : Int) := fun code hcode =>
    Int.le_trans hcode (Int.natCast_nonneg _)
  cases report with
  | data bs =>
    show (bs.length : Int) ≤ ((blit a.buf 0 bs).length : Int)
    rw [blit_zero, List.length_append]
    omega
  | again => exact hneg 0 (Int.le_refl 0)
  | eof => exact hneg uvEof (by decide)
  | error code => exact hneg code (Int.le_of_lt h.1)
  | noBuffer => exact hneg uvEnobufs (by decide)

/-- `await_resume` returns what the awaiter holds, or no bytes. A read that failed
leaves awaiter and socket as they are, one that succeeded stops the reading. -/
theorem awaitResume_spec {a : ReadAwaiter} {socket : Socket}
    {out : Result Nat × ReadAwaiter × Socket} (hout : a.awaitResume socket = out)
    (room : a.nread ≤ a.buf.length) :
    [out.1.map a.buf.take].filter (fun res => res ≠ .ok []) = (pending a).toList ∧
      (out.2.2.reading = true → out.2 = (a, socket) ∧ a.nread < 0) ∧
      out.2.1.nread ≤ out.2.1.buf.length := by
  subst hout
  unfold ReadAwaiter.awaitResume pending
  rcases Int.lt_trichotomy a.nread 0 with hneg | hzero | hpos
  · rw [if_pos hneg, if_pos hneg]
    split <;> exact ⟨by simp [Except.map], fun _ => ⟨rfl, hneg⟩, room⟩
  · simp [hzero, Except.map]
  · have hneg : ¬ a.nread < 0 := by omega
    have hzero : a.nread ≠ 0 := by omega
    have htake : a.buf.take a.nread.toNat ≠ [] := by
      intro hnil
      have hlen := congrArg List.length hnil
      rw [List.length_take, List.length_nil] at hlen
      omega
    simp [hneg, hzero, htake, Except.map]

/-! ## The invariant -/

/-- What timely steps keep. -/
structure Inv (past : List Action) (w : World) : Prop where
  sound : w.fault = false
  order : received w ++ (held w).toList = delivered past
  /-- While the socket is being read its `data` is the live awaiter, and a read that
  is over has failed. -/
  reading : w.socket.reading = true → ∃ l, w.live = some l ∧ w.socket.data = some l.id ∧
    (l.completed = true → l.awaiter.nread < 0)
  /-- A suspended coroutine waits in a read that was told of nothing. -/
  suspended : w.coroutine = .suspended → ∃ l, w.live = some l ∧ l.completed = false ∧
    l.awaiter.handle = true ∧ l.awaiter.nread = 0
  /-- The handle of a read that is going on is the suspended coroutine's. -/
  handle : ∀ l, w.live = some l → l.completed = false → l.awaiter.handle = true →
    w.coroutine = .suspended
  /-- An awaiter was told of no more than its buffer has room for. -/
  room : ∀ l, w.live = some l → l.awaiter.nread ≤ l.awaiter.buf.length

theorem inv_init : Inv [] init where
  sound := rfl
  order := rfl
  reading := nofun
  suspended := nofun
  handle := nofun
  room := nofun

/-- The invariant gives what is asked of reading. -/
theorem Inv.good {past : List Action} {w : World} (h : Inv past w) : Good past w where
  sound := h.sound
  order := h.order
  awake hw := by
    obtain ⟨l, hlive, hcomp, -, hzero⟩ := h.suspended hw
    simp [held, hlive, hcomp, pending_of_zero hzero]
  data hw := by
    obtain ⟨l, hlive, hdata, -⟩ := h.reading hw
    exact ⟨l, hlive, hdata⟩

/-- Completing a read returns what it was told of. -/
theorem Inv.awaitResume {past : List Action} {w : World} {l : Live} (sound : w.fault = false)
    (order : received w ++ (pending l.awaiter).toList = delivered past)
    (reading : w.socket.reading = true → w.socket.data = some l.id)
    (room : l.awaiter.nread ≤ l.awaiter.buf.length) : Inv past (awaitResume w l) := by
  unfold TcpRead.awaitResume
  generalize hout : l.awaiter.awaitResume w.socket = out
  dsimp only
  obtain ⟨hres, hstop, hroom⟩ := awaitResume_spec hout room
  refine ⟨sound, ?_, ?_, nofun, ?_, ?_⟩
  · show List.filter _ (w.returned ++ [_]) ++ [] = _
    rw [List.append_nil, List.filter_append, hres]
    exact order
  · intro hreading
    obtain ⟨hsame, hneg⟩ := hstop hreading
    rw [hsame] at hreading ⊢
    exact ⟨_, rfl, reading hreading, fun _ => hneg⟩
  · rintro _ ⟨⟩ ⟨⟩
  · rintro _ ⟨⟩
    exact hroom

theorem delivered_snoc (past : List Action) (action : Action) :
    delivered (past ++ [action]) = delivered past ++ delivered [action] :=
  List.filterMap_append

/-- What holds of the actions so far holds with one more that delivers nothing. -/
theorem Inv.quiet {past : List Action} {w : World} {action : Action}
    (hquiet : delivered [action] = []) (h : Inv past w) : Inv (past ++ [action]) w where
  sound := h.sound
  order := by rw [delivered_snoc, hquiet, List.append_nil, h.order]
  reading := h.reading
  suspended := h.suspended
  handle := h.handle
  room := h.room

/-- **A timely callback** reaches the live awaiter: it resumes the coroutine with
what it reports if it waits there, and leaves it in the awaiter otherwise. -/
theorem Inv.report {past : List Action} {w w' : World} {report : Report} (h : Inv past w)
    (ht : Timely w (.report report)) (hreading : w.socket.reading = true)
    (hstep : onRead w report = some w') : Inv (past ++ [.report report]) w' := by
  obtain ⟨l, hlive, hdata, hover⟩ := h.reading hreading
  have hzero := ht l hlive
  have hcomp : l.completed = false := by
    by_contra hcomp
    exact absurd (hover (by simpa using hcomp)) (by omega)
  -- the awaiter held nothing, so what is reported comes right after what was returned
  have horder : received w ++ report.outcome.toList = delivered (past ++ [.report report]) := by
    have hheld : held w = none := by simp [held, hlive, hcomp, pending_of_zero hzero]
    have hpast := h.order
    rw [hheld] at hpast
    rw [delivered_snoc, ← hpast]
    show _ = received w ++ [] ++ List.filterMap _ [_]
    rw [List.append_nil]
    cases hout : report.outcome <;> simp [hout]
  unfold onRead at hstep
  rw [hlive] at hstep
  simp only [hdata, ne_eq, not_true_eq_false, if_false] at hstep
  split at hstep
  next hposs =>
    have hpend := pending_onRead hposs
    have hroom := onRead_room hposs
    split at hstep
    next hhandle =>
      -- the handle is that of the coroutine, which waits in this read
      have hco := h.handle l hlive hcomp hhandle
      rw [if_pos ⟨hco, hcomp⟩] at hstep
      obtain rfl := Option.some.inj hstep
      refine Inv.awaitResume h.sound ?_ (fun _ => rfl) hroom
      rw [← horder, ← hpend]
      rfl
    next hhandle =>
      obtain rfl := Option.some.inj hstep
      refine ⟨h.sound, ?_, fun _ => ⟨_, rfl, rfl, ?_⟩, ?_, ?_, ?_⟩
      · rw [← horder, ← hpend]
        simp [held, hcomp, received]
      · intro hcomp'
        cases hcomp.symm.trans hcomp'
      · -- the coroutine is not suspended in this read: it would have left its handle
        intro hco
        obtain ⟨l', hlive', -, hhandle', -⟩ := h.suspended hco
        obtain rfl := Option.some.inj (hlive.symm.trans hlive')
        exact absurd hhandle' hhandle
      · rintro _ ⟨⟩ - hhandle'
        exact absurd hhandle' hhandle
      · rintro _ ⟨⟩
        exact hroom
  next => cases hstep

/-- A read begins where there was none. -/
theorem Inv.construct {past : List Action} {w : World} (h : Inv past w)
    (hrun : w.coroutine = .running) (hnone : w.live = none) (buf : Bytes) :
    Inv past { w with
      socket := ⟨some w.calls, true⟩
      live := some ⟨w.calls, .new buf, false⟩
      calls := w.calls + 1 } := by
  have horder := h.order
  rw [held, hnone] at horder
  refine ⟨h.sound, horder, fun _ => ⟨_, rfl, rfl, nofun⟩, ?_, ?_, ?_⟩
  · intro hco
    cases hrun.symm.trans hco
  · rintro _ ⟨⟩ - ⟨⟩
  · rintro _ ⟨⟩
    exact Int.natCast_nonneg _

/-- A read is awaited that was told of no error. -/
theorem Inv.await {past : List Action} {w : World} {l : Live} (h : Inv past w)
    (hlive : w.live = some l) (hcomp : l.completed = false) (ht : 0 ≤ l.awaiter.nread) :
    Inv past (if l.awaiter.awaitReady then TcpRead.awaitResume w l
      else { w with
        live := some { l with awaiter := l.awaiter.awaitSuspend }
        coroutine := .suspended }) := by
  have horder := h.order
  simp only [held, hlive, hcomp] at horder
  have hdata : w.socket.reading = true → w.socket.data = some l.id := by
    intro hreading
    obtain ⟨l', hlive', hdata, -⟩ := h.reading hreading
    obtain rfl := Option.some.inj (hlive.symm.trans hlive')
    exact hdata
  split
  next => exact Inv.awaitResume h.sound horder hdata (h.room l hlive)
  next hready =>
    -- nothing was reported yet: no error, as the step is timely, and no data
    have hzero : l.awaiter.nread = 0 := by
      simp only [ReadAwaiter.awaitReady, decide_eq_true_eq] at hready
      omega
    refine ⟨h.sound, ?_, fun hreading => ⟨_, rfl, hdata hreading, ?_⟩, ?_, ?_, ?_⟩
    · rw [← horder, hcomp]
      rfl
    · intro hcomp'
      cases hcomp.symm.trans hcomp'
    · exact fun _ => ⟨_, rfl, hcomp, rfl, hzero⟩
    · exact fun _ _ _ _ => rfl
    · rintro _ ⟨⟩
      exact h.room l hlive

/-- An awaiter ends whose read is over, while the socket is not being read. -/
theorem Inv.finish {past : List Action} {w : World} (h : Inv past w)
    (hrun : w.coroutine = .running) (ht : Timely w .finish) :
    Inv past { w with live := none } := by
  obtain ⟨hreading, hcomp⟩ := ht
  have hheld : held w = none := by
    unfold held
    split
    next l hlive => rw [if_pos (hcomp l hlive)]
    next => rfl
  have horder := h.order
  rw [hheld] at horder
  refine ⟨h.sound, horder, ?_, ?_, nofun, nofun⟩
  · intro hreading'
    cases hreading.symm.trans hreading'
  · intro hco
    cases hrun.symm.trans hco

/-- A coroutine that is not suspended in a read goes elsewhere, or comes back from there. -/
theorem Inv.setCoroutine {past : List Action} {w : World} {status : Coroutine} (h : Inv past w)
    (hold : w.coroutine ≠ .suspended) (hnew : status ≠ .suspended) :
    Inv past { w with coroutine := status } :=
  { h with
    suspended := fun hco => absurd hco hnew
    handle := fun l hlive hcomp hhandle => absurd (h.handle l hlive hcomp hhandle) hold }

/-- **Timely steps keep the invariant.** -/
theorem Inv.step {past : List Action} {w w' : World} {action : Action} (h : Inv past w)
    (ht : Timely w action) (hstep : TcpRead.step w action = some w') :
    Inv (past ++ [action]) w' := by
  rw [TcpRead.step, h.sound, if_neg (by decide)] at hstep
  cases action with
  | construct buf =>
    rw [act, Option.ite_none_right_eq_some] at hstep
    obtain ⟨⟨hrun, hnone⟩, hstep⟩ := hstep
    cases hstep
    exact .quiet rfl (h.construct hrun hnone buf)
  | await =>
    simp only [act] at hstep
    split at hstep
    next l hlive =>
      rw [Option.ite_none_right_eq_some] at hstep
      obtain ⟨⟨-, hcomp⟩, hstep⟩ := hstep
      rw [← apply_ite some] at hstep
      cases hstep
      exact .quiet rfl (h.await hlive hcomp (ht l hlive))
    next => cases hstep
  | finish =>
    rw [act, Option.ite_none_right_eq_some] at hstep
    obtain ⟨hrun, hstep⟩ := hstep
    cases hstep
    exact .quiet rfl (h.finish hrun ht)
  | report report =>
    rw [act, Option.ite_none_right_eq_some] at hstep
    obtain ⟨⟨-, hreading⟩, hstep⟩ := hstep
    exact h.report ht hreading hstep
  | awaitElse =>
    rw [act, Option.ite_none_right_eq_some] at hstep
    obtain ⟨hrun, hstep⟩ := hstep
    cases hstep
    exact .quiet rfl (h.setCoroutine (by rw [hrun]; nofun) nofun)
  | elseDone =>
    rw [act, Option.ite_none_right_eq_some] at hstep
    obtain ⟨helse, hstep⟩ := hstep
    cases hstep
    exact .quiet rfl (h.setCoroutine (by rw [helse]; nofun) nofun)

/-! ## Runs -/

/-- **Timely runs are good**: if every callback comes while the awaiter holds
nothing, no read is awaited that was told of an error already, and an awaiter ends
only when its read is over and the socket is not being read any more, then in every
state reached the reads have returned what was delivered, in order, and nothing was
delivered to a dead awaiter or past a suspended read. -/
theorem timely_reads_good {past : List Action} {w : World} (h : Run step Timely init past w) :
    Good past w :=
  (h.invariant Inv inv_init fun _ _ _ _ hinv ht hstep => hinv.step ht hstep).good

/-- A read that waits for two bytes. -/
theorem timely_reads_good_two_bytes : ∃ w, Good
    [.construct [0, 0], .await, .report (.data [5, 6]), .finish] w ∧
      w.returned = [.ok [5, 6]] := by
  have h₁ : Run step Timely init [.construct [0, 0]] _ := Run.nil.snoc trivial rfl
  have h₂ : Run step Timely init [.construct [0, 0], .await] _ :=
    h₁.snoc (fun _ h => by cases h; decide) rfl
  have h₃ : Run step Timely init [.construct [0, 0], .await, .report (.data [5, 6])] _ :=
    h₂.snoc (fun _ h => by cases h; rfl) rfl
  have h₄ : Run step Timely init [.construct [0, 0], .await, .report (.data [5, 6]), .finish] _ :=
    h₃.snoc ⟨rfl, fun _ h => by cases h; rfl⟩ rfl
  exact ⟨_, timely_reads_good h₄, rfl⟩

/-- The end of the file is reported before the read is awaited: the read suspends
for ever. -/
theorem not_good_early_eof :
    ¬ ∀ (past : List Action) (w : World), Run step (fun _ _ => True) init past w → Good past w := by
  intro h
  have hrun : Run step (fun _ _ => True) init
      [.construct [0], .awaitElse, .report .eof, .elseDone, .await] _ :=
    ((((Run.nil.snoc trivial rfl).snoc trivial rfl).snoc trivial rfl).snoc trivial rfl).snoc
      trivial rfl
  cases (h _ _ hrun).awake rfl

end Uvio.Net.TcpRead
