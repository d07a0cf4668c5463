import Uvio.Net.TcpListener

/-!
# The loop that accepts

`HttpServer`, `WebsocketServer` and the examples accept in a loop: the coroutine awaits
`accept()` where it calls it, hands the stream to a coroutine that it spawns, and accepts
again. It never awaits anything else.

- `Direct`: the steps of such a coroutine.
- `Phase`: no accept is outstanding, or one that was told of nothing.
- `accept_loop`: every connection is returned once and in order, libuv never holds one
  back, and whenever a connection is there the loop gets it.
-/

namespace Uvio.Net.TcpListener

open Program

variable {α : Type}

/-- Steps of a coroutine that awaits an accept where it calls it, and nothing else. -/
def Direct (w : World α) : Action α → Prop
  | .accept => ∀ id a, w.awaiters id = some a → a.completed = true
  | .await id => id + 1 = w.calls
  | .release id => ∀ a, w.awaiters id = some a → a.completed = true
  | .awaitElse => False
  | _ => True

/-- No accept is outstanding, or the last one, in which the coroutine is suspended if it
has awaited it. -/
inductive Phase (w : World α) : Prop where
  | between (run : w.server = .running) (held : w.held = none)
      (completed : ∀ id a, w.awaiters id = some a → a.completed = true)
  | within (id : Nat) (handle : Bool) (held : w.held = none) (last : id + 1 = w.calls)
      (data : w.data = some id) (awaiter : w.awaiters id = some ⟨false, handle, false⟩)
      (others : ∀ id' a, w.awaiters id' = some a → id' ≠ id → a.completed = true)
      (server : w.server = if handle then .suspended id else .running)

theorem phase_init : Phase (init : World α) := .between rfl rfl nofun

theorem Phase.held {w : World α} (h : Phase w) : w.held = none := by
  cases h <;> assumption

/-- The loop is where a connection may be reported. -/
theorem Phase.suspended {w : World α} (h : Phase w) (hrun : w.server ≠ .running) :
    ∃ id, id + 1 = w.calls ∧ w.data = some id ∧ w.awaiters id = some ⟨false, true, false⟩ ∧
      (∀ id' a, w.awaiters id' = some a → id' ≠ id → a.completed = true) ∧
      w.server = .suspended id := by
  cases h with
  | between run => exact absurd run hrun
  | within id handle _ last data awaiter others server =>
    cases handle with
    | false => exact absurd server hrun
    | true => exact ⟨id, last, data, awaiter, others, server⟩

/-- A connection is reported only to the accept in which the loop waits. -/
theorem Phase.timely {w w' : World α} {action : Action α} (h : Phase w)
    (hstep : act w action = some w') : Timely w action := by
  cases action with
  | report =>
    have hrun : w.server ≠ .running := by
      intro hrun
      simp only [act] at hstep
      split at hstep
      next => rw [if_pos hrun] at hstep; cases hstep
      next => cases hstep
    obtain ⟨id, hlast, -, hawaiter, -, hserver⟩ := h.suspended hrun
    refine ⟨id, ⟨hlast, _, hawaiter, rfl⟩, fun id' hid' => ?_⟩
    exact Server.suspended.inj (hid'.symm.trans hserver)
  | await id => exact Or.inl h.held
  | _ => exact trivial

/-- What a report does to the loop: it goes on with the connection. -/
theorem onConnection_eq {w : World α} {id : Nat} (hdata : w.data = some id)
    (hawaiter : w.awaiters id = some ⟨false, true, false⟩) (hserver : w.server = .suspended id) :
    onConnection w = awaitResume { w with
      awaiters := Function.update w.awaiters id (some ⟨true, true, false⟩) } id
      ⟨true, true, false⟩ := by
  unfold onConnection
  rw [hdata]
  dsimp only
  rw [hawaiter]
  dsimp only
  rw [if_pos rfl, if_pos hserver]

/-- Setting one awaiter leaves the others. -/
theorem untouched {w : World α} {id id' : Nat} {a a' : AcceptAwaiter}
    (h : Function.update w.awaiters id (some a) id' = some a') (hid : id' ≠ id) :
    w.awaiters id' = some a' := (Function.update_of_ne hid ..).symm.trans h

/-- Once an accept has completed, none is outstanding. -/
theorem Phase.of_awaitResume {w : World α} {id : Nat} {a : AcceptAwaiter}
    (others : ∀ id' a', w.awaiters id' = some a' → id' ≠ id → a'.completed = true) :
    Phase (awaitResume w id a) := by
  refine .between rfl rfl fun id' a' h => ?_
  rcases open_update h with ⟨-, rfl⟩ | ⟨hid, h⟩
  · rfl
  · exact others id' a' h hid

/-- A report in the loop takes the first connection of the backlog. -/
theorem Phase.report {w : World α} (h : Phase w) {c : α} {rest : List α}
    (hback : w.backlog = c :: rest) (hrun : w.server ≠ .running) :
    ∃ w', act w .report = some w' ∧ Phase w' ∧ w'.returned = w.returned ++ [some c] ∧
      w'.backlog = rest ∧ w'.server = .running := by
  obtain ⟨id, -, hdata, hawaiter, hothers, hserver⟩ := h.suspended hrun
  have hact : act w .report = some (onConnection { w with held := some c, backlog := rest }) := by
    simp only [act, h.held, hback, if_neg hrun]
  rw [onConnection_eq (w := { w with held := some c, backlog := rest }) hdata hawaiter
    hserver] at hact
  refine ⟨_, hact, .of_awaitResume fun id' a' haw hid => ?_, rfl, rfl, rfl⟩
  exact hothers id' a' (untouched haw hid) hid

/-- **Direct steps go from phase to phase.** -/
theorem Phase.step {w w' : World α} {action : Action α} (h : Phase w) (hdirect : Direct w action)
    (hstep : act w action = some w') : Phase w' := by
  cases action with
  | arrive c =>
    cases hstep
    cases h with
    | between run held completed => exact .between run held completed
    | within id handle held last data awaiter others server =>
      exact .within id handle held last data awaiter others server
  | report =>
    have hact := hstep
    simp only [act] at hstep
    split at hstep
    next c rest _ hback =>
      rw [Option.ite_none_left_eq_some] at hstep
      obtain ⟨w₁, hact₁, hphase, -⟩ := h.report hback hstep.1
      obtain rfl := Option.some.inj (hact₁.symm.trans hact)
      exact hphase
    next => cases hstep
  | accept =>
    rw [act, Option.ite_none_right_eq_some] at hstep
    obtain ⟨hrun, hstep⟩ := hstep
    cases hstep
    refine .within w.calls false h.held rfl rfl (Function.update_self ..) ?_ hrun
    exact fun id' a' haw hid => hdirect id' a' (untouched haw hid)
  | await id =>
    simp only [act] at hstep
    split at hstep
    next => cases hstep
    next a haw =>
      rw [Option.ite_none_right_eq_some] at hstep
      obtain ⟨⟨hrun, hcomp⟩, hstep⟩ := hstep
      cases h with
      | between _ _ completed => cases hcomp.symm.trans (completed id a haw)
      | within id' handle held last data awaiter others server =>
        obtain rfl : id' = id := Nat.succ.inj (last.trans hdirect.symm)
        obtain rfl := Option.some.inj (awaiter.symm.trans haw)
        cases hstep
        refine .within id' true held last data (Function.update_self ..) ?_ rfl
        exact fun id'' a'' haw'' hid => others id'' a'' (untouched haw'' hid) hid
  | release id =>
    rw [act, Option.ite_none_right_eq_some] at hstep
    obtain ⟨hrun, hstep⟩ := hstep
    cases hstep
    -- what is left was there before
    have hleft : ∀ id' a, Function.update w.awaiters id none id' = some a →
        w.awaiters id' = some a := by
      intro id' a haw
      rw [Function.update_apply] at haw
      split at haw
      next => cases haw
      next => exact haw
    cases h with
    | between _ held completed =>
      exact .between hrun held fun id' a haw => completed id' a (hleft id' a haw)
    | within id' handle held last data awaiter others server =>
      have hne : id' ≠ id := by
        rintro rfl
        cases hdirect _ awaiter
      exact .within id' handle held last data ((Function.update_of_ne hne ..).trans awaiter)
        (fun id'' a haw => others id'' a (hleft id'' a haw)) server
  | awaitElse => exact hdirect.elim
  | elseDone =>
    rw [act, Option.ite_none_right_eq_some] at hstep
    obtain ⟨helse, -⟩ := hstep
    cases h with
    | between run => cases run.symm.trans helse
    | within id handle _ _ _ _ _ server =>
      rw [server] at helse
      split at helse <;> cases helse

/-- **The loop accepts every connection**: in every run of it, in whatever order connections
arrive, no callback finds a dead awaiter; the streams returned and the backlog are the
connections that arrived, each once and in order, with none held back by libuv; and
while the loop waits, a connection in the backlog is reported, and returned at once. -/
theorem accept_loop {past : List (Action α)} {w : World α} (h : Run step Direct init past w) :
    w.fault = false ∧
      (∃ conns, w.returned = conns.map some ∧ arrivals past = conns ++ w.backlog) ∧
      ∀ c rest, w.server ≠ .running → w.backlog = c :: rest →
        ∃ w', step w .report = some w' ∧ w'.returned = w.returned ++ [some c] ∧
          w'.backlog = rest ∧ w'.server = .running := by
  obtain ⟨hinv, hphase⟩ := h.invariant (fun past w => Inv past w ∧ Phase w)
    ⟨inv_init, phase_init⟩ (by
      rintro past w action w' ⟨hinv, hphase⟩ hdirect hstep
      have hact := hstep
      rw [step, hinv.sound, if_neg (by decide)] at hact
      exact ⟨hinv.step (hphase.timely hact) hstep, hphase.step hdirect hact⟩)
  refine ⟨hinv.sound, ?_, fun c rest hrun hback => ?_⟩
  · obtain ⟨conns, hreturned, harrivals⟩ := hinv.order
    rw [hphase.held] at harrivals
    exact ⟨conns, hreturned, harrivals.trans (by simp)⟩
  · obtain ⟨w', hact, -, hreturned, hbacklog, hserver⟩ := hphase.report hback hrun
    refine ⟨w', ?_, hreturned, hbacklog, hserver⟩
    rw [step, hinv.sound, if_neg (by decide)]
    exact hact

/-- Two connections arrive while the loop waits. -/
theorem accept_loop_two : ∃ w w' : World Nat, w.backlog = [7, 8] ∧
    step w .report = some w' ∧ w'.returned = [some 7] ∧ w'.backlog = [8] := by
  have h₁ : Run step Direct (init : World Nat) [.accept] _ := Run.nil.snoc (by rintro _ _ ⟨⟩) rfl
  have h₂ : Run step Direct init [.accept, .await 0] _ := h₁.snoc rfl rfl
  have h₃ : Run step Direct init [.accept, .await 0, .arrive 7] _ := h₂.snoc trivial rfl
  have h₄ : Run step Direct init [.accept, .await 0, .arrive 7, .arrive 8] _ :=
    h₃.snoc trivial rfl
  obtain ⟨-, -, hnext⟩ := accept_loop h₄
  obtain ⟨w', hstep, hreturned, hbacklog, -⟩ := hnext 7 [8] (by rintro ⟨⟩) rfl
  exact ⟨_, w', rfl, hstep, hreturned, hbacklog⟩

end Uvio.Net.TcpListener
