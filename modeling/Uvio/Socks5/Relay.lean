import Uvio.Io.Fetching
import Uvio.Net.TcpOwnership

/-!
# The relay

`connect` leaves two coroutines behind, each of which reads from one socket and writes to
the other. They go on independently of each other, and each destroys its two halves when
it ends. A read here never comes back with 0 bytes, on which `forward` would end with
`WriteZero`, and a write takes all it is given or fails.

- `relayed`: in every run, each socket has taken a front of what the other delivered, and
  all of it once its coroutine cannot go on, if no write failed.
- `closed_iff_both_ended`: a socket is closed exactly if both coroutines have ended.
-/

namespace Uvio.Socks5

open Program Io Net

/-- `BUFSIZE`. -/
def bufSize : Nat := 16 * 1024

/-- What `forward` is given: the socket it reads from and the one it writes to. -/
structure Pipe where
  reader : Inlet
  writer : Outlet

/-- Where `forward` is. -/
inductive Phase where
  | reading
  | writing (message : Bytes)
  | ended
  | aborted
deriving DecidableEq, Repr

/-- A coroutine that runs `forward`. -/
structure Forward where
  pipe : Pipe
  phase : Phase

namespace Forward

def start (pipe : Pipe) : Forward := ⟨pipe, .reading⟩

/-- `forward(reader, writer)` from one `co_await` to the next, or nothing while what it
awaits has not come. -/
def step (ndebug : Bool) (f : Forward) : Option Forward :=
  match f.phase with
  | .reading =>
    match (Inlet.read bufSize).run f.pipe.reader with
    | .ok (.ok message, reader) => some ⟨{ f.pipe with reader := reader }, .writing message⟩
    | .ok (.error _, reader) => some ⟨{ f.pipe with reader := reader }, .ended⟩
    | .error _ => none
  | .writing message =>
    match (Outlet.write message).run f.pipe.writer with
    | .ok (.ok n, writer) => some ⟨{ f.pipe with writer := writer },
        if ndebug || message.length == n then .reading else .aborted⟩
    | .ok (.error _, writer) => some ⟨{ f.pipe with writer := writer }, .ended⟩
    | .error _ => none
  | .ended | .aborted => none

/-- What was read and is still to be written. -/
def inFlight (f : Forward) : Bytes :=
  match f.phase with
  | .writing message => message
  | _ => []

/-- A coroutine that reads `chunks` and then errors, and writes to `writer`: it has written
what it has not read, but for what is in flight or was lost when a write failed. -/
structure Relays (chunks : List Bytes) (writer : Outlet) (f : Forward) : Prop where
  plan : f.pipe.writer.plan = writer.plan
  reader : ∃ rest k e, f.pipe.reader = .closing rest k e ∧ (∀ x ∈ rest, x ≠ [])
  moved : ∃ lost, writer.taken ++ chunks.flatten =
    f.pipe.writer.taken ++ (lost ++ (f.inFlight ++ f.pipe.reader.undelivered)) ∧
      (lost ≠ [] → f.phase = .ended ∧ ¬ writer.Willing)
  message : ∀ message, f.phase = .writing message → message ≠ []
  asserted : f.phase ≠ .aborted
  ended : f.phase = .ended → f.pipe.reader.undelivered = [] ∨ ¬ writer.Willing

section Relays

variable {ndebug : Bool} {chunks : List Bytes} {writer : Outlet} {f f' : Forward}

theorem relays_start {k : Nat} {e : Error} (hne : ∀ x ∈ chunks, x ≠ []) :
    Relays chunks writer (start ⟨.closing chunks k e, writer⟩) where
  plan := rfl
  reader := ⟨chunks, k, e, rfl, hne⟩
  moved := ⟨[], by rw [start, Inlet.undelivered_closing]; rfl, fun h => absurd rfl h⟩
  message _ h := by cases h
  asserted h := by cases h
  ended h := by cases h

/-- **One step** of a coroutine. -/
theorem Relays.step (h : Relays chunks writer f) (hwriter : writer.AllOrNothing)
    (hstep : f.step ndebug = some f') : Relays chunks writer f' := by
  obtain ⟨⟨reader, out⟩, phase⟩ := f
  obtain ⟨rest, k, e, hreader, hne⟩ := h.reader
  obtain ⟨lost, hmoved, hlost⟩ := h.moved
  dsimp only at hreader
  subst hreader
  cases phase with
  | reading =>
    have hread := Inlet.read_closing_meets (n := bufSize) (k := k) (e := e) hne (by decide)
    obtain rfl : lost = [] := by
      by_contra hne
      cases (hlost hne).1
    unfold Forward.step at hstep
    dsimp only at hstep
    split at hstep
    next message reader' hrun =>
      cases hstep
      obtain ⟨bs, rest', hbs, hpos, hflat, hne', rfl⟩ | ⟨hret, -⟩ := hread.of_ok hrun
      · cases hbs
        refine ⟨h.plan, ⟨rest', k, e, rfl, hne'⟩, ⟨[], ?_, fun h => absurd rfl h⟩, ?_, nofun, nofun⟩
        · rw [Inlet.undelivered_closing, hflat] at hmoved
          rw [hmoved, Inlet.undelivered_closing]
          rfl
        · intro message hmessage
          cases hmessage
          exact hpos
      · cases hret
    next reader' hrun =>
      cases hstep
      obtain ⟨bs, rest', hbs, -⟩ | ⟨-, rfl, rfl⟩ := hread.of_ok hrun
      · cases hbs
      · refine ⟨h.plan, ⟨[], _, e, rfl, hne⟩, ⟨[], ?_, fun h => absurd rfl h⟩, nofun, nofun,
          fun _ => Or.inl (Inlet.undelivered_closing ..)⟩
        rw [Inlet.undelivered_closing] at hmoved
        rw [hmoved, Inlet.undelivered_closing]
        rfl
    next => cases hstep
  | writing message =>
    have hwrite := Outlet.write_meets (hwriter.of_plan h.plan) (h.message message rfl)
    obtain rfl : lost = [] := by
      by_contra hne
      cases (hlost hne).1
    unfold Forward.step at hstep
    dsimp only at hstep
    split at hstep
    next n out' hrun =>
      cases hstep
      obtain ⟨hplan, ⟨hn, htaken⟩ | ⟨⟨e', hret⟩, -⟩⟩ := hwrite.of_ok hrun
      · cases hn
        have hlen : (ndebug || message.length == message.length) = true := by simp
        rw [if_pos hlen]
        refine ⟨hplan.trans h.plan, ⟨rest, k, e, rfl, hne⟩, ⟨[], ?_, fun h => absurd rfl h⟩, nofun,
          nofun, nofun⟩
        rw [hmoved]
        dsimp only
        rw [htaken, List.append_assoc]
        rfl
      · cases hret
    next out' hrun =>
      cases hstep
      obtain ⟨hplan, ⟨hn, -⟩ | ⟨-, htaken, hwilling⟩⟩ := hwrite.of_ok hrun
      · cases hn
      · have hnot : ¬ writer.Willing := fun hw => hwilling (hw.of_plan h.plan)
        refine ⟨hplan.trans h.plan, ⟨rest, k, e, rfl, hne⟩, ⟨message, ?_, fun _ => ⟨rfl, hnot⟩⟩,
          nofun, nofun, fun _ => Or.inr hnot⟩
        rw [hmoved]
        dsimp only
        rw [htaken]
        rfl
    next => cases hstep
  | ended => cases hstep
  | aborted => cases hstep

/-- A coroutine that cannot go on has written everything, if no write failed. -/
theorem Relays.taken_of_stuck (h : Relays chunks writer f) (hwriter : writer.Willing)
    (hstuck : f.step ndebug = none) : f.pipe.writer.taken = writer.taken ++ chunks.flatten := by
  obtain ⟨⟨reader, out⟩, phase⟩ := f
  obtain ⟨rest, k, e, hreader, hne⟩ := h.reader
  obtain ⟨lost, hmoved, hlost⟩ := h.moved
  dsimp only at hreader
  subst hreader
  obtain rfl : lost = [] := by
    by_contra hne
    exact (hlost hne).2 hwriter
  cases phase with
  | reading =>
    have hread := Inlet.read_closing_meets (n := bufSize) (k := k) (e := e) hne (by decide)
    unfold Forward.step at hstuck
    dsimp only at hstuck
    split at hstuck
    next => cases hstuck
    next => cases hstuck
    next stop hrun =>
      obtain ⟨-, rfl, -⟩ := (meets_of_error hrun).mp hread
      rw [hmoved, Inlet.undelivered_closing]
      simp [inFlight]
  | writing message =>
    have hwrite := Outlet.write_meets (fun i => Or.inl ((hwriter.of_plan h.plan) i))
      (h.message message rfl)
    unfold Forward.step at hstuck
    dsimp only at hstuck
    split at hstuck
    next => cases hstuck
    next => cases hstuck
    next stop hrun => exact ((meets_of_error hrun).mp hwrite).elim
  | ended =>
    have hnil := (h.ended rfl).resolve_right fun hnot => hnot hwriter
    dsimp only at hnil hmoved
    rw [hmoved, hnil]
    simp [inFlight]
  | aborted => exact absurd rfl h.asserted

/-- It has written a front of what was delivered. -/
theorem Relays.taken_prefix (h : Relays chunks writer f) :
    f.pipe.writer.taken <+: writer.taken ++ chunks.flatten := by
  obtain ⟨lost, hmoved, -⟩ := h.moved
  exact ⟨_, hmoved.symm⟩

end Relays

end Forward

/-! ## Both directions -/

/-- The coroutines and the halves they own. -/
structure Relay where
  outbound : Forward
  inbound : Forward
  lReader : Nat
  lWriter : Nat
  rReader : Nat
  rWriter : Nat
  world : TcpOwnership.World

/-- Whose turn it is. -/
inductive Direction where
  | outbound
  | inbound
deriving DecidableEq, Repr

def Direction.other : Direction → Direction
  | .outbound => .inbound
  | .inbound => .outbound

namespace Relay

open TcpOwnership

/-- The halves that the two coroutines are given: `l_reader` and `r_writer`, `r_reader` and
`l_writer`. -/
def readHalf (r : Relay) : Direction → Nat
  | .outbound => r.lReader
  | .inbound => r.rReader

def writeHalf (r : Relay) : Direction → Nat
  | .outbound => r.rWriter
  | .inbound => r.lWriter

def forward (r : Relay) : Direction → Forward
  | .outbound => r.outbound
  | .inbound => r.inbound

def setForward (r : Relay) (d : Direction) (f : Forward) : Relay :=
  match d with
  | .outbound => { r with outbound := f }
  | .inbound => { r with inbound := f }

/-- The halves a coroutine owns are destroyed with its frame. -/
def dropHalves (r : Relay) (d : Direction) : Option Relay := do
  let w ← TcpOwnership.step r.world (.destroyHalf .write (r.writeHalf d))
  let w ← TcpOwnership.step w (.destroyHalf .read (r.readHalf d))
  pure { r with world := w }

/-- One of the coroutines goes on. None does once an assertion has failed. -/
def step (ndebug : Bool) (r : Relay) (d : Direction) : Option Relay :=
  if r.outbound.phase = .aborted ∨ r.inbound.phase = .aborted then none
  else do
    let f ← (r.forward d).step ndebug
    let r := r.setForward d f
    if f.phase = .ended then r.dropHalves d else pure r

/-- `connect` splits the two streams and spawns the coroutines. A half keeps its name when
it is moved into a frame. -/
def start (w : World) (near far : Nat) (outbound inbound : Pipe) : Relay :=
  let w' := intoSplit w near
  { outbound := .start outbound
    inbound := .start inbound
    lReader := w.next + 1
    lWriter := w.next + 2
    rReader := w'.next + 1
    rWriter := w'.next + 2
    world := intoSplit w' far }

/-! ### What a step does -/

/-- A step of one direction. -/
structure StepOf (ndebug : Bool) (r r' : Relay) (d : Direction) : Prop where
  forward : (r.forward d).step ndebug = some (r'.forward d)
  other : r'.forward d.other = r.forward d.other
  readHalf : r'.readHalf = r.readHalf
  writeHalf : r'.writeHalf = r.writeHalf
  world : (r'.forward d).phase ≠ .ended ∧ r'.world = r.world ∨
    (r'.forward d).phase = .ended ∧ ∃ w,
      TcpOwnership.step r.world (.destroyHalf .write (r.writeHalf d)) = some w ∧
      TcpOwnership.step w (.destroyHalf .read (r.readHalf d)) = some r'.world

section Steps

variable {ndebug : Bool} {r r' : Relay} {d : Direction}

theorem StepOf.of_step (h : Relay.step ndebug r d = some r') : StepOf ndebug r r' d := by
  unfold Relay.step at h
  split at h
  next => cases h
  next =>
    obtain ⟨f, hf, h⟩ := Option.bind_eq_some_iff.mp h
    dsimp only at h
    split at h
    next hended =>
      obtain ⟨w, hw, h⟩ := Option.bind_eq_some_iff.mp h
      obtain ⟨w', hw', h⟩ := Option.bind_eq_some_iff.mp h
      cases h
      cases d <;> exact ⟨hf, rfl, rfl, rfl, Or.inr ⟨hended, w, hw, hw'⟩⟩
    next hgoes =>
      cases h
      cases d <;> exact ⟨hf, rfl, rfl, rfl, Or.inl ⟨hgoes, rfl⟩⟩

/-- Only a coroutine that has not ended takes a step. -/
theorem StepOf.not_ended (h : StepOf ndebug r r' d) : (r.forward d).phase ≠ .ended := by
  intro hended
  have hstep := h.forward
  unfold Forward.step at hstep
  rw [hended] at hstep
  cases hstep

/-! ### What is relayed -/

variable {near far : List Bytes} {outbound inbound : Outlet}

/-- What the coroutine of a direction is about. -/
def Carries (near far : List Bytes) (outbound inbound : Outlet) (r : Relay) : Prop :=
  (r.forward .outbound).Relays near outbound ∧ (r.forward .inbound).Relays far inbound

theorem Carries.step (h : Carries near far outbound inbound r) (hout : outbound.AllOrNothing)
    (hin : inbound.AllOrNothing) (hstep : StepOf ndebug r r' d) :
    Carries near far outbound inbound r' := by
  have hother := hstep.other
  cases d with
  | outbound => exact ⟨h.1.step hout hstep.forward, hother ▸ h.2⟩
  | inbound => exact ⟨hother ▸ h.1, h.2.step hin hstep.forward⟩

theorem carries_of_run {world : World} {i j k l : Nat} {e e' : Error} (hnear : ∀ x ∈ near, x ≠ [])
    (hfar : ∀ x ∈ far, x ≠ []) (hout : outbound.AllOrNothing) (hin : inbound.AllOrNothing)
    {turns : List Direction}
    (h : Run (Relay.step ndebug) (fun _ _ => True)
      (start world i j ⟨.closing near k e, outbound⟩ ⟨.closing far l e', inbound⟩) turns r) :
    Carries near far outbound inbound r :=
  h.invariant (fun _ r => Carries near far outbound inbound r)
    ⟨Forward.relays_start hnear, Forward.relays_start hfar⟩
    fun _ _ _ _ hr _ hstep => hr.step hout hin (.of_step hstep)

/-- **What each side receives**, whichever coroutine goes on when: no assertion fails, a
front of what the other side delivered was written, and all of it once nothing can go on,
if no write fails. No piece is empty, so there are no reads of 0 bytes, and a write takes
all or fails. -/
theorem relayed {world : World} {i j k l : Nat} {e e' : Error} (hnear : ∀ x ∈ near, x ≠ [])
    (hfar : ∀ x ∈ far, x ≠ []) (hout : outbound.AllOrNothing) (hin : inbound.AllOrNothing)
    {turns : List Direction}
    (h : Run (Relay.step ndebug) (fun _ _ => True)
      (start world i j ⟨.closing near k e, outbound⟩ ⟨.closing far l e', inbound⟩) turns r) :
    (∀ d, (r.forward d).phase ≠ .aborted) ∧
      r.outbound.pipe.writer.taken <+: outbound.taken ++ near.flatten ∧
      r.inbound.pipe.writer.taken <+: inbound.taken ++ far.flatten ∧
      (outbound.Willing → r.outbound.step ndebug = none →
        r.outbound.pipe.writer.taken = outbound.taken ++ near.flatten) ∧
      (inbound.Willing → r.inbound.step ndebug = none →
        r.inbound.pipe.writer.taken = inbound.taken ++ far.flatten) := by
  obtain ⟨houtbound, hinbound⟩ := carries_of_run hnear hfar hout hin h
  refine ⟨?_, houtbound.taken_prefix, hinbound.taken_prefix, houtbound.taken_of_stuck,
    hinbound.taken_of_stuck⟩
  rintro (_ | _)
  · exact houtbound.asserted
  · exact hinbound.asserted

/-- A byte goes through to the far side, from which nothing comes. -/
theorem relayed_byte : ∃ r : Relay, ((∀ d, (r.forward d).phase ≠ .aborted) ∧
    r.outbound.pipe.writer.taken <+: Outlet.steady.taken ++ [[7]].flatten ∧
    r.inbound.pipe.writer.taken <+: Outlet.steady.taken ++ [].flatten ∧
    (Outlet.steady.Willing → r.outbound.step false = none →
      r.outbound.pipe.writer.taken = Outlet.steady.taken ++ [[7]].flatten) ∧
    (Outlet.steady.Willing → r.inbound.step false = none →
      r.inbound.pipe.writer.taken = Outlet.steady.taken ++ [].flatten)) ∧
    r.outbound.pipe.writer.taken = [7] := by
  have hsteady : Outlet.steady.AllOrNothing := fun _ => Or.inl rfl
  have h : Run (Relay.step false) (fun _ _ => True) (start init 0 1
      ⟨.closing [[7]] 0 .unexpectedEOF, .steady⟩ ⟨.closing [] 0 .unexpectedEOF, .steady⟩)
      [.outbound, .outbound] _ := (Run.nil.snoc trivial rfl).snoc trivial rfl
  exact ⟨_, relayed (by decide) (by decide) hsteady hsteady h, rfl⟩

end Steps

/-! ### The sockets -/

section Sockets

variable {ndebug : Bool} {r r' : Relay} {d : Direction} {s k : Nat}

/-- The coroutine of a direction has not ended. -/
def Runs (r : Relay) (d : Direction) : Prop := (r.forward d).phase ≠ .ended

/-- The stream that direction `d` reads from and the other one writes to, and the handle
it owned. -/
structure Socket (r : Relay) (d : Direction) (s k : Nat) : Prop where
  shared : ∀ key, (key, some s) ∈ r.world.halves ↔
    key = (.read, r.readHalf d) ∧ r.Runs d ∨
      key = (.write, r.writeHalf d.other) ∧ r.Runs d.other
  kept : Kept s k r.world

/-- The halves have names of their own. -/
structure Apart (r : Relay) : Prop where
  inv : Inv r.world
  keyed : Keyed r.world
  readHalf : ∀ d, r.readHalf d ≠ r.readHalf d.other
  writeHalf : ∀ d, r.writeHalf d ≠ r.writeHalf d.other

theorem Apart.step (h : Apart r) (hstep : StepOf ndebug r r' d) : Apart r' := by
  have hreads := hstep.readHalf
  have hwrites := hstep.writeHalf
  rcases hstep.world with ⟨-, hworld⟩ | ⟨-, w, hw, hw'⟩
  · exact ⟨hworld ▸ h.inv, hworld ▸ h.keyed, hreads ▸ h.readHalf, hwrites ▸ h.writeHalf⟩
  · have htimely : ∀ w side a, Timely w (.destroyHalf side a) := fun _ _ _ => trivial
    exact ⟨(h.inv.step (htimely ..) hw).step (htimely ..) hw', (h.keyed.step hw).step hw',
      hreads ▸ h.readHalf, hwrites ▸ h.writeHalf⟩

theorem other_ne (d : Direction) : d.other ≠ d := by cases d <;> exact fun h => by cases h

theorem eq_or_eq_other (d d' : Direction) : d = d' ∨ d = d'.other := by
  cases d <;> cases d' <;> simp [Direction.other]

/-- A direction that did not take the step runs as before, and the other one did run. -/
theorem StepOf.runs_iff (h : StepOf ndebug r r' d) {d' : Direction} (hd : d' ≠ d) :
    r'.Runs d' ↔ r.Runs d' := by
  obtain rfl : d' = d.other := (eq_or_eq_other d' d).resolve_left hd
  unfold Runs
  rw [h.other]

theorem Socket.step (h : Socket r d s k) (hapart : Apart r) {d' : Direction}
    (hstep : StepOf ndebug r r' d') : Socket r' d s k := by
  have hreads := hstep.readHalf
  have hwrites := hstep.writeHalf
  have hran : r.Runs d' := hstep.not_ended
  rcases hstep.world with ⟨hgoes, hworld⟩ | ⟨hended, w, hw, hw'⟩
  · -- nothing has ended, and no half is destroyed
    have hruns : ∀ d, r'.Runs d ↔ r.Runs d := by
      intro d
      by_cases hd : d = d'
      · subst hd
        exact iff_of_true hgoes hran
      · exact hstep.runs_iff hd
    refine ⟨fun key => ?_, hworld ▸ h.kept⟩
    rw [hworld, h.shared, hreads, hwrites, hruns, hruns]
  · refine ⟨fun key => ?_, (h.kept.destroyHalf hapart.keyed hw).destroyHalf
      (hapart.keyed.step hw) hw'⟩
    have hnot : ¬ r'.Runs d' := not_not.mpr hended
    rw [halves_destroyHalf hw', halves_destroyHalf hw, List.mem_filter, List.mem_filter,
      decide_eq_true_iff, decide_eq_true_iff, h.shared, hreads, hwrites]
    have hread := hapart.readHalf d
    have hwrite := hapart.writeHalf d
    rcases eq_or_eq_other d' d with rfl | rfl
    · have hrest := hstep.runs_iff (other_ne d')
      constructor
      · rintro ⟨⟨⟨rfl, -⟩ | ⟨rfl, hother⟩, -⟩, hne⟩
        · exact absurd rfl hne
        · exact Or.inr ⟨rfl, hrest.mpr hother⟩
      · rintro (⟨-, hrun⟩ | ⟨rfl, hother⟩)
        · exact absurd hrun hnot
        · refine ⟨⟨Or.inr ⟨rfl, hrest.mp hother⟩, fun heq => ?_⟩, fun heq => by cases heq⟩
          exact hwrite (Prod.mk.inj heq).2.symm
    · have hrest : r'.Runs d ↔ r.Runs d := hstep.runs_iff (other_ne d).symm
      constructor
      · rintro ⟨⟨⟨rfl, hrun⟩ | ⟨rfl, -⟩, hne⟩, -⟩
        · exact Or.inl ⟨rfl, hrest.mpr hrun⟩
        · exact absurd rfl hne
      · rintro (⟨rfl, hrun⟩ | ⟨-, hother⟩)
        · refine ⟨⟨Or.inl ⟨rfl, hrest.mp hrun⟩, fun heq => by cases heq⟩, fun heq => ?_⟩
          exact hread (Prod.mk.inj heq).2
        · exact absurd hother hnot

/-- A socket is closed exactly if neither coroutine runs. -/
theorem Socket.closed_iff (h : Socket r d s k) (hapart : Apart r) :
    k ∈ closedHandles r.world ↔ ¬ r.Runs d ∧ ¬ r.Runs d.other := by
  have hheld : s ∈ held r.world ↔ r.Runs d ∨ r.Runs d.other := by
    rw [mem_held]
    constructor
    · rintro ⟨key, hmem⟩
      exact ((h.shared key).mp hmem).imp And.right And.right
    · rintro (hrun | hrun)
      · exact ⟨_, (h.shared _).mpr (Or.inl ⟨rfl, hrun⟩)⟩
      · exact ⟨_, (h.shared _).mpr (Or.inr ⟨rfl, hrun⟩)⟩
  rw [← not_or, ← hheld]
  constructor
  · intro hclosed hs
    exact (hapart.inv.owned s k (h.kept.1 hs)).2 hclosed
  · exact h.kept.2

/-! ### From `connect` on -/

variable {w : World} {near far nearHandle farHandle : Nat} {outbound inbound : Pipe}

theorem apart_start (hinv : Inv w) (hkeyed : Keyed w) (hnear : w.streams near ≠ none)
    (hfar : (intoSplit w near).streams far ≠ none) :
    Apart (start w near far outbound inbound) := by
  have hsplit : TcpOwnership.step w (.intoSplit near) = some (intoSplit w near) := if_neg hnear
  have hsplit' : TcpOwnership.step (intoSplit w near) (.intoSplit far) =
      some (intoSplit (intoSplit w near) far) := if_neg hfar
  refine ⟨(hinv.intoSplit hnear).intoSplit hfar, (hkeyed.step hsplit).step hsplit', ?_, ?_⟩
  · intro d
    have hlt : w.next + 1 ≠ w.next + 4 := by omega
    cases d
    · exact hlt
    · exact hlt.symm
  · intro d
    have hlt : w.next + 5 ≠ w.next + 2 := by omega
    cases d
    · exact hlt
    · exact hlt.symm

/-- No half refers to a stream that is not there yet. -/
theorem not_mem_halves (hinv : Inv w) {s : Nat} (hs : w.next ≤ s) (key : Side × Nat) :
    (key, some s) ∉ w.halves := fun hmem =>
  hinv.live s (mem_held.mpr ⟨key, hmem⟩) (hinv.fresh s hs)

theorem mem_halves_start {key : Side × Nat} {v : Option Nat} :
    (key, v) ∈ (start w near far outbound inbound).world.halves ↔ (key, v) ∈ w.halves ∨
      v = some w.next ∧ (key = (.read, w.next + 1) ∨ key = (.write, w.next + 2)) ∨
      v = some (w.next + 3) ∧ (key = (.read, w.next + 4) ∨ key = (.write, w.next + 5)) := by
  have hhalves : (start w near far outbound inbound).world.halves = w.halves ++
      [((.read, w.next + 1), some w.next), ((.write, w.next + 2), some w.next)] ++
      [((.read, w.next + 4), some (w.next + 3)), ((.write, w.next + 5), some (w.next + 3))] := rfl
  rw [hhalves]
  simp only [List.mem_append, List.mem_cons, List.not_mem_nil, or_false, Prod.mk.injEq]
  tauto

theorem runs_start (d : Direction) : (start w near far outbound inbound).Runs d := by
  intro hended
  cases d <;> cases hended

theorem socket_near (hinv : Inv w) (hnear : w.streams.Holds near nearHandle)
    (hfar : w.streams far ≠ none) :
    Socket (start w near far outbound inbound) .outbound w.next nearHandle := by
  have hinv' := hinv.intoSplit (i := near) (by rw [hnear]; nofun)
  have hkept := holds_intoSplit hinv hnear
  have hnext : w.next ≠ far := by
    rintro rfl
    exact hfar (hinv.fresh _ (Nat.le_refl _))
  refine ⟨fun key => ?_, ⟨fun _ => ?_, fun hs => absurd ?_ hs⟩⟩
  · have hold := not_mem_halves hinv (Nat.le_refl w.next) key
    have hread : (start w near far outbound inbound).readHalf .outbound = w.next + 1 := rfl
    have hwrite : (start w near far outbound inbound).writeHalf .inbound = w.next + 2 := rfl
    rw [mem_halves_start, hread, Direction.other, hwrite]
    simp [hold, runs_start]
  · exact (streams_intoSplit hinv' hnext (by rw [hkept]; nofun)).trans hkept
  · refine mem_held.mpr ⟨(.read, w.next + 1), List.mem_append_left _ (List.mem_append_right _ ?_)⟩
    exact .head _

theorem socket_far (hinv : Inv w) (hne : near ≠ far) (hnear : w.streams near ≠ none)
    (hfar : w.streams.Holds far farHandle) :
    Socket (start w near far outbound inbound) .inbound (w.next + 3) farHandle := by
  have hinv' := hinv.intoSplit hnear
  have hfar' : (intoSplit w near).streams.Holds far farHandle :=
    (streams_intoSplit hinv hne.symm (by rw [hfar]; nofun)).trans hfar
  refine ⟨fun key => ?_, ⟨fun _ => holds_intoSplit hinv' hfar', fun hs => absurd ?_ hs⟩⟩
  · have hold := not_mem_halves hinv (Nat.le_add_right w.next 3) key
    have hread : (start w near far outbound inbound).readHalf .inbound = w.next + 4 := rfl
    have hwrite : (start w near far outbound inbound).writeHalf .outbound = w.next + 5 := rfl
    rw [mem_halves_start, hread, Direction.other, hwrite]
    simp [hold, runs_start]
  · exact mem_held.mpr ⟨(.read, w.next + 4), List.mem_append_right _ (.head _)⟩

/-- **The sockets of a proxied connection** are closed when both coroutines have ended, and
not before, whichever of them goes on when. -/
theorem closed_iff_both_ended {past : List Action} (h : Run TcpOwnership.step Timely init past w)
    (hne : near ≠ far) (hnear : w.streams.Holds near nearHandle)
    (hfar : w.streams.Holds far farHandle) {turns : List Direction}
    (hrun : Run (Relay.step ndebug) (fun _ _ => True) (start w near far outbound inbound) turns
      r) :
    (nearHandle ∈ closedHandles r.world ↔
      r.outbound.phase = .ended ∧ r.inbound.phase = .ended) ∧
    (farHandle ∈ closedHandles r.world ↔
      r.outbound.phase = .ended ∧ r.inbound.phase = .ended) := by
  obtain ⟨hinv, hkeyed⟩ : Inv w ∧ Keyed w :=
    h.invariant (fun _ w => Inv w ∧ Keyed w) ⟨inv_init, keyed_init⟩
      fun _ _ _ _ hw ht hstep => ⟨hw.1.step ht hstep, hw.2.step hstep⟩
  have hnear' : w.streams near ≠ none := by rw [hnear]; nofun
  have hfar' : w.streams far ≠ none := by rw [hfar]; nofun
  have hfar'' : (intoSplit w near).streams far ≠ none :=
    (streams_intoSplit hinv hne.symm hfar').symm ▸ hfar'
  obtain ⟨hapart, hsocket, hsocket'⟩ : Apart r ∧ Socket r .outbound w.next nearHandle ∧
      Socket r .inbound (w.next + 3) farHandle :=
    hrun.invariant (fun _ r => Apart r ∧ Socket r .outbound w.next nearHandle ∧
      Socket r .inbound (w.next + 3) farHandle)
      ⟨apart_start hinv hkeyed hnear' hfar'', socket_near hinv hnear hfar',
        socket_far hinv hne hnear' hfar⟩
      fun _ _ _ _ hr _ hstep => ⟨hr.1.step (.of_step hstep), hr.2.1.step hr.1 (.of_step hstep),
        hr.2.2.step hr.1 (.of_step hstep)⟩
  rw [hsocket.closed_iff hapart, hsocket'.closed_iff hapart]
  simp [Runs, Relay.forward, Direction.other, and_comm]

/-- The far side hangs up; the near one stays open. -/
theorem closed_iff_both_ended_far : ∃ r : Relay,
    ((0 ∈ closedHandles r.world ↔ r.outbound.phase = .ended ∧ r.inbound.phase = .ended) ∧
      (1 ∈ closedHandles r.world ↔ r.outbound.phase = .ended ∧ r.inbound.phase = .ended)) ∧
    r.inbound.phase = .ended := by
  let w : World := ⟨(init.streams.put 0 (some 0)).put 1 (some 1), [], 2, 2, []⟩
  have h : Run TcpOwnership.step Timely init [.construct false, .construct false] w :=
    (Run.nil.snoc trivial rfl).snoc trivial rfl
  have hrun : Run (Relay.step false) (fun _ _ => True) (start w 0 1
      ⟨.closing [] 0 .unexpectedEOF, .steady⟩ ⟨.closing [] 1 .unexpectedEOF, .steady⟩)
      [.inbound] _ := Run.nil.snoc trivial rfl
  have hnear : w.streams.Holds 0 0 := rfl
  have hfar : w.streams.Holds 1 1 := rfl
  exact ⟨_, closed_iff_both_ended h (by decide) hnear hfar hrun, rfl⟩

end Sockets

end Relay

end Uvio.Socks5
