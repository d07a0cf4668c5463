import Uvio.Io.Endpoint
import Uvio.Net.TcpRead

/-!
# A socket that is read from is an `Inlet`

The buffered classes are modelled over `Inlet`, a schedule of read events. Here the reads
of a `TcpStream`, with their awaiters and callbacks, are shown to be reads of an `Inlet`:
of the one whose events are what libuv reported.

- `Direct`: the coroutine awaits each read in the expression that calls `read`, with room
  for a byte, as `read`, `read_exact` and the buffered classes do.
- `Phase`: no read is going on, or one that was told of nothing.
- `reads_as_inlet`: what the reads have returned is what the `Inlet` gives.

Nothing is asked of the order of callbacks, of their number, or of what they report.
-/

namespace Uvio.Net.TcpRead

open Program Io

/-- Steps of a coroutine that calls and awaits a read in one expression. -/
def Direct (w : World) : Action → Prop
  | .construct buf => buf ≠ []
  | .finish => ∀ l, w.live = some l → l.completed = true
  | .awaitElse => w.live = none
  | _ => True

/-- A report, as an `Inlet` has it. -/
def Report.event : Report → ReadEvent
  | .data bs => .data bs
  | .again => .data []
  | .eof => .fail .unexpectedEOF
  | .error _ | .noBuffer => .fail .unclassified

/-- The sizes of the reads. -/
def sizes (past : List Action) : List Nat :=
  past.filterMap fun
    | .construct buf => some buf.length
    | _ => none

/-- The reports, in order. -/
def schedule (past : List Action) : List ReadEvent :=
  past.filterMap fun
    | .report report => some report.event
    | _ => none

/-- Whether a read is going on. -/
def going (w : World) : Bool := w.live.any fun l => !l.completed

/-- The reads of the sizes `ns` of what was reported are those that have returned. -/
def Answered (ns : List Nat) (events : List ReadEvent) (w : World) : Prop :=
  (ns.mapM Inlet.read).run ⟨events⟩ = .ok (w.returned, ⟨[]⟩)

/-! ## Reads of an `Inlet` -/

/-- What is to come later does not change a read that returned. -/
theorem read_append {n : Nat} {events rest more : List ReadEvent} {res : Result Bytes}
    (h : (Inlet.read n).run ⟨events⟩ = .ok (res, ⟨rest⟩)) :
    (Inlet.read n).run ⟨events ++ more⟩ = .ok (res, ⟨rest ++ more⟩) := by
  cases events with
  | nil => cases h
  | cons event events =>
    cases event with
    | fail e =>
      cases h
      rfl
    | data bs =>
      by_cases hlen : bs.length ≤ n
      · have hrun : (Inlet.read n).run ⟨.data bs :: events⟩ = .ok (.ok bs, ⟨events⟩) := if_pos hlen
        cases hrun.symm.trans h
        exact if_pos hlen
      · have hrun : (Inlet.read n).run ⟨.data bs :: events⟩
            = .ok (.ok (bs.take n), ⟨.data (bs.drop n) :: events⟩) := if_neg hlen
        cases hrun.symm.trans h
        exact if_neg hlen

theorem mapM_read_append {ns : List Nat} {events rest more : List ReadEvent}
    {results : List (Result Bytes)}
    (h : (ns.mapM Inlet.read).run ⟨events⟩ = .ok (results, ⟨rest⟩)) :
    (ns.mapM Inlet.read).run ⟨events ++ more⟩ = .ok (results, ⟨rest ++ more⟩) := by
  induction ns generalizing events results with
  | nil =>
    cases h
    rfl
  | cons n ns ih =>
    rw [List.mapM_cons] at h ⊢
    obtain ⟨res, ⟨events'⟩, hread, h⟩ := Prog.run_bind_eq_ok.mp h
    obtain ⟨results', ⟨rest'⟩, hreads, h⟩ := Prog.run_bind_eq_ok.mp h
    cases h
    rw [Prog.run_bind_of_ok (read_append hread), Prog.run_bind_of_ok (ih hreads)]
    rfl

/-- One more read. -/
theorem mapM_read_snoc {ns : List Nat} {n : Nat} {events : List ReadEvent}
    {results : List (Result Bytes)}
    (h : (ns.mapM Inlet.read).run ⟨events⟩ = .ok (results, ⟨[]⟩)) (more : List ReadEvent) :
    ((ns ++ [n]).mapM Inlet.read).run ⟨events ++ more⟩ =
      ((fun res => results ++ [res]) <$> Inlet.read n).run ⟨more⟩ := by
  rw [List.mapM_append, Prog.run_bind_of_ok (mapM_read_append h), List.nil_append]
  simp [List.mapM_cons]

/-! ## The two phases -/

/-- No read is going on, or one that was told of nothing. -/
inductive Phase (past : List Action) (w : World) : Prop where
  | between (sound : w.fault = false) (answered : Answered (sizes past) (schedule past) w)
      (quiet : w.socket.reading = false) (awake : w.coroutine ≠ .suspended)
      (ended : ∀ l, w.live = some l → l.completed = true)
  | within (ns : List Nat) (l : Live) (sound : w.fault = false)
      (answered : Answered ns (schedule past) w)
      (sizes : sizes past = ns ++ [l.awaiter.buf.length]) (room : l.awaiter.buf ≠ [])
      (live : w.live = some l) (unfinished : l.completed = false) (fresh : l.awaiter.nread = 0)
      (data : w.socket.data = some l.id)
      (co : w.coroutine = .running ∧ l.awaiter.handle = false ∨
        w.coroutine = .suspended ∧ l.awaiter.handle = true)

theorem phase_init : Phase [] init := .between rfl rfl rfl nofun nofun

theorem sizes_snoc (past : List Action) (action : Action) :
    sizes (past ++ [action]) = sizes past ++ sizes [action] := List.filterMap_append

theorem schedule_snoc (past : List Action) (action : Action) :
    schedule (past ++ [action]) = schedule past ++ schedule [action] := List.filterMap_append

/-- **A callback and `await_resume`** are a read of an `Inlet` with what is reported, and
the socket is not read from afterwards. -/
theorem awaitResume_onRead {a : ReadAwaiter} {report : Report} (socket : Socket)
    {out : Result Nat × ReadAwaiter × Socket} (hposs : report.Possible a.buf) (hroom : a.buf ≠ [])
    (hsocket : socket.reading = report.goesOn)
    (hout : (a.onRead report.bytes report.nread).1.awaitResume socket = out) :
    (Inlet.read a.buf.length).run ⟨[report.event]⟩ =
        .ok (out.1.map (a.onRead report.bytes report.nread).1.buf.take, ⟨[]⟩) ∧
      out.2.2.reading = false := by
  subst hout
  cases report with
  | data bs =>
    have hpos : 0 < bs.length := List.length_pos_iff.mpr hposs.1
    have hneg : ¬ (bs.length : Int) < 0 := by omega
    have htake : (blit a.buf 0 bs).take bs.length = bs := by
      rw [blit_zero, List.take_left]
    refine ⟨?_, ?_⟩
    · have hrun : (Inlet.read a.buf.length).run ⟨[.data bs]⟩ = .ok (.ok bs, ⟨[]⟩) := if_pos hposs.2
      simp [Report.event, Report.nread, Report.bytes, ReadAwaiter.onRead, ReadAwaiter.awaitResume,
        hneg, hrun, Except.map, htake]
    · simp [Report.nread, ReadAwaiter.onRead, ReadAwaiter.awaitResume, hneg]
  | again =>
    have hrun : (Inlet.read a.buf.length).run ⟨[.data []]⟩ = .ok (.ok [], ⟨[]⟩) := by
      simp [Inlet.read, StateT.run]
    exact ⟨hrun, rfl⟩
  | eof => exact ⟨rfl, hsocket⟩
  | error code =>
    obtain ⟨hneg, heof⟩ := hposs
    have hout : (a.onRead [] code).1.awaitResume socket =
        (.error .unclassified, (a.onRead [] code).1, socket) := by
      simp [ReadAwaiter.onRead, ReadAwaiter.awaitResume, hneg, heof]
    refine ⟨?_, ?_⟩
    · show _ = Except.ok (((a.onRead [] code).1.awaitResume socket).1.map _, _)
      rw [hout]
      rfl
    · show ((a.onRead [] code).1.awaitResume socket).2.2.reading = false
      rw [hout]
      exact hsocket
  | noBuffer => exact absurd hposs hroom

/-- A read that is told something returns it. -/
theorem Phase.report {past : List Action} {w w' : World} {report : Report} {ns : List Nat}
    {l : Live} (sound : w.fault = false) (answered : Answered ns (schedule past) w)
    (hsizes : sizes past = ns ++ [l.awaiter.buf.length]) (room : l.awaiter.buf ≠ [])
    (live : w.live = some l) (unfinished : l.completed = false) (data : w.socket.data = some l.id)
    (co : w.coroutine = .suspended) (handle : l.awaiter.handle = true)
    (hstep : onRead w report = some w') : Phase (past ++ [.report report]) w' := by
  unfold onRead at hstep
  rw [live] at hstep
  simp only [data, ne_eq, not_true_eq_false, if_false] at hstep
  split at hstep
  next hposs =>
    rw [if_pos (show (ReadAwaiter.onRead _ _ _).2 = true from handle),
      if_pos ⟨co, unfinished⟩] at hstep
    obtain rfl := Option.some.inj hstep
    obtain ⟨hread, hquiet⟩ := awaitResume_onRead ⟨some l.id, report.goesOn⟩ hposs room rfl rfl
    refine .between sound ?_ hquiet nofun ?_
    · rw [sizes_snoc, schedule_snoc, hsizes]
      show ((ns ++ [l.awaiter.buf.length] ++ []).mapM Inlet.read).run
        ⟨schedule past ++ [report.event]⟩ = _
      rw [List.append_nil, mapM_read_snoc answered, StateT.run_map, hread]
      rfl
    · rintro _ ⟨⟩
      rfl
  next => cases hstep

/-- What neither begins a read nor reports anything leaves what is answered. -/
theorem answered_quiet {ns : List Nat} {past : List Action} {w : World} {action : Action}
    (h : Answered ns (schedule past) w) (hquiet : schedule [action] = []) :
    Answered ns (schedule (past ++ [action])) w := by
  rw [schedule_snoc, hquiet, List.append_nil]
  exact h

/-- **Direct steps go from phase to phase.** -/
theorem Phase.step {past : List Action} {w w' : World} {action : Action} (h : Phase past w)
    (hdirect : Direct w action) (hstep : TcpRead.step w action = some w') :
    Phase (past ++ [action]) w' := by
  have hsound : w.fault = false := by cases h <;> assumption
  rw [TcpRead.step, hsound, if_neg (by decide)] at hstep
  cases h with
  | between _ answered quiet awake ended =>
    -- an action that keeps the socket and begins no read
    have hsame : sizes [action] = [] → schedule [action] = [] →
        Answered (sizes (past ++ [action])) (schedule (past ++ [action])) w := by
      intro hsizes hschedule
      rw [sizes_snoc, hsizes, List.append_nil]
      exact answered_quiet answered hschedule
    cases action with
    | construct buf =>
      rw [act, Option.ite_none_right_eq_some] at hstep
      obtain ⟨⟨hrun, -⟩, hstep⟩ := hstep
      cases hstep
      exact .within (sizes past) ⟨w.calls, .new buf, false⟩ hsound (answered_quiet answered rfl)
        (sizes_snoc ..) hdirect rfl rfl rfl rfl (Or.inl ⟨hrun, rfl⟩)
    | await =>
      simp only [act] at hstep
      split at hstep
      next l hlive =>
        rw [ended l hlive, if_neg (by simp)] at hstep
        cases hstep
      next => cases hstep
    | finish =>
      rw [act, Option.ite_none_right_eq_some] at hstep
      obtain ⟨-, hstep⟩ := hstep
      cases hstep
      exact .between hsound (hsame rfl rfl) quiet awake (by rintro _ ⟨⟩)
    | report report =>
      rw [act, quiet, if_neg (by simp)] at hstep
      cases hstep
    | awaitElse =>
      rw [act, Option.ite_none_right_eq_some] at hstep
      obtain ⟨-, hstep⟩ := hstep
      cases hstep
      exact .between hsound (hsame rfl rfl) quiet (by rintro ⟨⟩) ended
    | elseDone =>
      rw [act, Option.ite_none_right_eq_some] at hstep
      obtain ⟨-, hstep⟩ := hstep
      cases hstep
      exact .between hsound (hsame rfl rfl) quiet (by rintro ⟨⟩) ended
  | within ns l _ answered hsizes room live unfinished fresh data co =>
    cases action with
    | construct buf =>
      rw [act, live, if_neg (by simp)] at hstep
      cases hstep
    | await =>
      rw [act, live] at hstep
      dsimp only at hstep
      rw [Option.ite_none_right_eq_some] at hstep
      obtain ⟨⟨hrun, -⟩, hstep⟩ := hstep
      have hready : l.awaiter.awaitReady = false := by simp [ReadAwaiter.awaitReady, fresh]
      rw [hready, if_neg (by decide)] at hstep
      cases hstep
      refine .within ns { l with awaiter := l.awaiter.awaitSuspend } hsound
        (answered_quiet answered rfl) ?_ room rfl unfinished fresh data (Or.inr ⟨rfl, rfl⟩)
      rw [sizes_snoc, hsizes]
      exact List.append_nil _
    | finish => cases unfinished.symm.trans (hdirect l live)
    | report report =>
      rw [act, Option.ite_none_right_eq_some] at hstep
      obtain ⟨⟨hnot, -⟩, hstep⟩ := hstep
      obtain ⟨hrun, -⟩ | ⟨hco, hhandle⟩ := co
      · exact absurd hrun hnot
      · exact .report hsound answered hsizes room live unfinished data hco hhandle hstep
    | awaitElse => cases live.symm.trans hdirect
    | elseDone =>
      rw [act, Option.ite_none_right_eq_some] at hstep
      obtain ⟨helse, -⟩ := hstep
      obtain ⟨hrun, -⟩ | ⟨hco, -⟩ := co
      · cases hrun.symm.trans helse
      · cases hco.symm.trans helse

end Uvio.Net.TcpRead
