import Uvio.Codec.Ends
import Uvio.Program.Runs

/-!
# Conversations in frames

Two peers over one connection, each with a buffered reader and a buffered writer, that
send and receive messages whenever they like, while the socket delivers what it took in
any pieces.

- `Framing`: a codec, as those use it who send and receive. `Framing.Lawful` says what is
  asked of it: frames go out whole, come back as the message, and are waited for.
- `Line`, `Line.step`: one direction of a connection.
- `Talk`: both directions, in any order of steps.
- `Framing.arrives`: messages arrive once each, in order, and none stays behind.

A `recv` is one step that happens once all of its message is there: the reader has no
other user, so it makes no difference when a `recv` that waits began.
-/

namespace Uvio.Codec

open Program Io

/-- A codec, on buffered ends: how messages `M` are sent and received, what they hold, and
what they look like on the wire. -/
structure Framing (M : Type) where
  send : M → Task BufWriter (Result Unit)
  recv : Task BufReader (Result Bytes)
  content : M → Bytes
  frame : M → Bytes

/-- A frame is written and flushed. -/
def Framing.Sends {M : Type} (F : Framing M) : Prop :=
  ∀ m (w : BufWriter) (s : Record), Backs w s → ∃ w', (F.send m).run w = .ok (.ok (), w') ∧
    Backs w' ⟨s.written ++ F.frame m, s.written ++ F.frame m⟩

/-- What a conversation needs of a codec. -/
structure Framing.Lawful {M : Type} (F : Framing M) : Prop where
  some : Nonempty M
  ne_nil : ∀ m, F.frame m ≠ []
  send : F.Sends
  /-- A frame that is there comes back, and nothing behind it is touched. -/
  recv : ∀ m (r : BufReader) rest, r.Sound → r.unread = F.frame m ++ rest →
    ∃ r', F.recv.run r = .ok (.ok (F.content m), r') ∧ r'.Sound ∧ r'.unread = rest
  /-- A part of a frame is waited on. -/
  waits : ∀ m (r : BufReader) q, r.Sound → q ≠ [] → F.frame m = r.unread ++ q →
    F.recv.run r = .error .pending

/-- It is enough to know how frames are written on an ideal end. -/
theorem Framing.sends_of_ideal {M : Type} {F : Framing M} {z : M → Task Record (Result Unit)}
    (hsend : ∀ m, Simulates Backs Eq (F.send m) (z m))
    (hwrite : ∀ m s, (z m).run s =
      .ok (.ok (), ⟨s.written ++ F.frame m, s.written ++ F.frame m⟩)) : F.Sends := by
  intro m w s hw
  obtain ⟨_, w', hrun, rfl, hw'⟩ := hsend m w s hw _ _ (hwrite m s)
  exact ⟨w', hrun, hw'⟩

/-- And how they are read, if a reader with less waits or reads the same. -/
theorem Framing.lawful_of_ideal {M : Type} {F : Framing M} (hsome : Nonempty M)
    (hne : ∀ m, F.frame m ≠ []) (hsends : F.Sends) {y : Task Feed (Result Bytes)}
    (hrecv : Bisimilar (fun _ => False) Serves Serves Eq F.recv y)
    (hmore : ∀ q, Bisimilar (· = .pending) (Longer q) (Longer q) Eq y y)
    (hread : ∀ m rest, y.run ⟨F.frame m ++ rest, none⟩ =
      .ok (.ok (F.content m), ⟨rest, none⟩)) : F.Lawful where
  some := hsome
  ne_nil := hne
  send := hsends
  recv m r rest hr hun := by
    have hrun := hread m rest
    rw [← hun] at hrun
    rcases (hrecv r ⟨r.unread, none⟩ ⟨hr, rfl, rfl⟩).cases with
      ⟨a, r', b, s', hx, hy, rfl, hserves⟩ | ⟨e, -, hy⟩ | ⟨e, -, hfalse⟩
    · cases hrun.symm.trans hy
      exact ⟨r', hx, hserves.sound, hserves.unread⟩
    · cases hrun.symm.trans hy
    · exact False.elim hfalse
  waits m r q hr hq hframe := by
    have hrun := hread m []
    rw [List.append_nil] at hrun
    exact waits_of_prefix hrecv hmore hrun hr hq hframe

/-- One direction of a connection: the writer of one peer, what the socket has taken and not
delivered, and the reader of the other one; what was sent and received, and whether a call
has reported an error. -/
structure Line (M : Type) where
  writer : BufWriter
  wire : Bytes
  reader : BufReader
  sent : List M
  got : List Bytes
  failed : Bool

inductive LineAction (M : Type) where
  | send (m : M)
  /-- The socket delivers `n` bytes at once. -/
  | deliver (n : Nat)
  | recv

namespace Line

variable {M : Type}

/-- Nothing sent yet. -/
def new (wsize rsize : Nat) (io : Outlet) : Line M :=
  ⟨BufWriter.new io wsize, [], BufReader.new ⟨[]⟩ rsize, [], [], false⟩

/-- The bytes come as one more chunk. -/
def arrive (r : BufReader) (chunk : Bytes) : BufReader :=
  { r with io := ⟨r.io.events ++ [.data chunk]⟩ }

/-- What an action does, where it is possible. A `recv` that has to wait is not. -/
def step (F : Framing M) (s : Line M) : LineAction M → Option (Line M)
  | .send m =>
    match (F.send m).run s.writer with
    | .error _ => none
    | .ok (ret, w) => some { s with
        writer := w
        wire := s.wire ++ w.io.taken.drop s.writer.io.taken.length
        sent := s.sent ++ [m]
        failed := s.failed || !ret.isOk }
  | .deliver n =>
    if 0 < n ∧ n ≤ s.wire.length then some { s with
      wire := s.wire.drop n
      reader := arrive s.reader (s.wire.take n) }
    else none
  | .recv =>
    match F.recv.run s.reader with
    | .error _ => none
    | .ok (.error _, r) => some { s with reader := r, failed := true }
    | .ok (.ok content, r) => some { s with reader := r, got := s.got ++ [content] }

end Line

/-- Both directions of a connection. -/
abbrev Talk (M : Type) := Bool → Line M

/-- An action in one direction. The directions share nothing. -/
def Talk.step {M : Type} (F : Bool → Framing M) (s : Talk M) (a : Bool × LineAction M) :
    Option (Talk M) :=
  (Line.step (F a.1) (s a.1) a.2).map (Function.update s a.1)

/-! ## What is kept in each direction -/

namespace Line

variable {M : Type} {F : Framing M} {s s' : Line M}

/-- What was not received is in the reader or on the wire, as frames. -/
structure Inv (F : Framing M) (s : Line M) : Prop where
  writer : Backs s.writer ⟨s.sent.flatMap F.frame, s.sent.flatMap F.frame⟩
  reader : s.reader.Sound
  left : ∃ front rest, s.sent = front ++ rest ∧ s.got = front.map F.content ∧
    s.reader.unread ++ s.wire = rest.flatMap F.frame
  ok : s.failed = false

theorem inv_new {wsize rsize : Nat} {io : Outlet} (hw : wsize ≤ intMax) (hr : rsize ≤ intMax)
    (hio : io.Willing) (htaken : io.taken = []) : Inv F (new wsize rsize io) where
  writer := backs_new hw hio htaken
  reader := BufReader.sound_new (fun ev hev => absurd hev List.not_mem_nil) hr
  left := by
    refine ⟨[], [], rfl, rfl, ?_⟩
    show (BufReader.new ⟨[]⟩ rsize).unread ++ [] = []
    rw [BufReader.unread_new hr]
    rfl
  ok := rfl

theorem unread_arrive (r : BufReader) (chunk : Bytes) :
    (arrive r chunk).unread = r.unread ++ chunk := by
  show r.rStream.rSlice ++ (r.io.events ++ [ReadEvent.data chunk]).flatMap ReadEvent.payload = _
  rw [List.flatMap_append, List.flatMap_singleton, ← List.append_assoc]
  rfl

theorem sound_arrive {r : BufReader} (h : r.Sound) {chunk : Bytes} (hchunk : chunk ≠ []) :
    (arrive r chunk).Sound where
  laid := h.laid
  flowing ev hev := by
    rcases List.mem_append.mp hev with hev | hev
    · exact h.flowing ev hev
    · exact ⟨chunk, List.mem_singleton.mp hev, hchunk⟩

/-- A message is sent: its frame is on the wire. -/
theorem Inv.send (hF : F.Sends) (h : Inv F s) (m : M) :
    ∃ s', step F s (.send m) = some s' ∧ Inv F s' ∧ s'.wire = s.wire ++ F.frame m ∧
      s'.reader = s.reader ∧ s'.sent = s.sent ++ [m] ∧ s'.got = s.got := by
  obtain ⟨w, hrun, hbacks⟩ := hF m s.writer _ h.writer
  have hold : s.writer.io.taken = s.sent.flatMap F.frame := h.writer.taken_eq rfl
  have hnew : w.io.taken = s.sent.flatMap F.frame ++ F.frame m := hbacks.taken_eq rfl
  have hwire : s.wire ++ w.io.taken.drop s.writer.io.taken.length = s.wire ++ F.frame m := by
    rw [hnew, hold, List.drop_left]
  have hframes : (s.sent ++ [m]).flatMap F.frame = s.sent.flatMap F.frame ++ F.frame m := by
    rw [List.flatMap_append, List.flatMap_singleton]
  have hstep : step F s (.send m) = some { s with
      writer := w
      wire := s.wire ++ w.io.taken.drop s.writer.io.taken.length
      sent := s.sent ++ [m]
      failed := s.failed || !(.ok () : Result Unit).isOk } := by rw [step, hrun]
  refine ⟨_, hstep, ⟨?_, h.reader, ?_, ?_⟩, hwire, rfl, rfl, rfl⟩
  · rw [← hframes] at hbacks
    exact hbacks
  · obtain ⟨front, rest, hsent, hgot, hrest⟩ := h.left
    refine ⟨front, rest ++ [m], ?_, hgot, ?_⟩
    · rw [← List.append_assoc, ← hsent]
    · dsimp only
      rw [hwire, ← List.append_assoc, hrest, List.flatMap_append, List.flatMap_singleton]
  · show (s.failed || !(.ok () : Result Unit).isOk) = false
    rw [h.ok]
    rfl

theorem Inv.deliver (h : Inv F s) {n : Nat} (hstep : step F s (.deliver n) = some s') :
    Inv F s' := by
  rw [step, Option.ite_none_right_eq_some] at hstep
  obtain ⟨⟨hpos, hle⟩, hstep⟩ := hstep
  cases hstep
  have hchunk : s.wire.take n ≠ [] := by
    intro hnil
    have hlen := congrArg List.length hnil
    rw [List.length_take_of_le hle] at hlen
    exact absurd hlen (Nat.ne_of_gt hpos)
  refine ⟨h.writer, sound_arrive h.reader hchunk, ?_, h.ok⟩
  obtain ⟨front, rest, hsent, hgot, hrest⟩ := h.left
  refine ⟨front, rest, hsent, hgot, ?_⟩
  rw [unread_arrive, List.append_assoc, List.take_append_drop, hrest]

/-- A message is sent and all of it delivered. -/
theorem Inv.carry (hF : F.Sends) (h : Inv F s) (hsent : s.sent = []) {m : M}
    (hne : F.frame m ≠ []) :
    ∃ s₁ n s₂, step F s (.send m) = some s₁ ∧ step F s₁ (.deliver n) = some s₂ ∧ Inv F s₂ ∧
      s₂.sent = [m] ∧ s₂.got = [] ∧ s₂.wire = [] ∧ s₂.reader.unread = F.frame m := by
  obtain ⟨front, rest, hall, hgot, hrest⟩ := h.left
  obtain ⟨rfl, rfl⟩ := List.append_eq_nil_iff.mp (hall.symm.trans hsent)
  obtain ⟨hun, hwire⟩ := List.append_eq_nil_iff.mp hrest
  obtain ⟨s₁, hs₁, hinv₁, hwire₁, hreader₁, hsent₁, hgot₁⟩ := h.send hF m
  rw [hwire, List.nil_append] at hwire₁
  have hpos : 0 < s₁.wire.length := List.length_pos_iff.mpr (hwire₁ ▸ hne)
  have hs₂ : step F s₁ (.deliver s₁.wire.length) = some _ := if_pos ⟨hpos, le_rfl⟩
  refine ⟨s₁, _, _, hs₁, hs₂, hinv₁.deliver hs₂, ?_, ?_, List.drop_length, ?_⟩
  · rw [hsent₁, hsent]
    rfl
  · rw [hgot₁, hgot]
    rfl
  · rw [unread_arrive, hreader₁, hun, List.take_length, hwire₁]
    rfl

/-- What a `recv` does: it waits, as its message is not all there, or it gives the next one
that was not received. -/
theorem Inv.recv_cases (hF : F.Lawful) (h : Inv F s) :
    (F.recv.run s.reader = .error .pending ∧
        (s.wire = [] → s.got = s.sent.map F.content)) ∨
      ∃ front m rest r, F.recv.run s.reader = .ok (.ok (F.content m), r) ∧ r.Sound ∧
        s.sent = front ++ m :: rest ∧ s.got = front.map F.content ∧
        r.unread ++ s.wire = rest.flatMap F.frame := by
  obtain ⟨front, rest, hsent, hgot, hrest⟩ := h.left
  cases rest with
  | nil =>
    -- nothing is left, and a `recv` waits for any message
    obtain ⟨hun, hwire⟩ := List.append_eq_nil_iff.mp hrest
    obtain ⟨m⟩ := hF.some
    refine Or.inl ⟨hF.waits m s.reader (F.frame m) h.reader (hF.ne_nil m) ?_, fun _ => ?_⟩
    · rw [hun, List.nil_append]
    · rw [hsent, List.append_nil, hgot]
  | cons m rest =>
    rw [List.flatMap_cons] at hrest
    rcases List.append_eq_append_iff.mp hrest with ⟨q, hframe, hwire⟩ | ⟨q, hun, hwire⟩
    · by_cases hq : q = []
      · subst hq
        rw [List.append_nil] at hframe
        obtain ⟨r, hrun, hr, hr'⟩ := hF.recv m s.reader [] h.reader
          (by rw [List.append_nil, hframe])
        exact Or.inr ⟨front, m, rest, r, hrun, hr, hsent, hgot, by rw [hr']; exact hwire⟩
      · refine Or.inl ⟨hF.waits m s.reader q h.reader hq hframe, fun hnil => absurd ?_ hq⟩
        rw [hnil] at hwire
        exact (List.append_eq_nil_iff.mp hwire.symm).1
    · obtain ⟨r, hrun, hr, hr'⟩ := hF.recv m s.reader q h.reader hun
      exact Or.inr ⟨front, m, rest, r, hrun, hr, hsent, hgot, by rw [hr', hwire]⟩

/-- **Every step keeps it.** -/
theorem Inv.step (hF : F.Lawful) (h : Inv F s) {a : LineAction M}
    (hstep : Line.step F s a = some s') : Inv F s' := by
  cases a with
  | send m =>
    obtain ⟨s₁, hs₁, hinv, -⟩ := h.send hF.send m
    cases hstep.symm.trans hs₁
    exact hinv
  | deliver n => exact h.deliver hstep
  | recv =>
    rcases h.recv_cases hF with ⟨hrun, -⟩ | ⟨front, m, rest, r, hrun, hr, hsent, hgot, hrest⟩
    · rw [Line.step, hrun] at hstep
      cases hstep
    · rw [Line.step, hrun] at hstep
      cases hstep
      refine ⟨h.writer, hr, ⟨front ++ [m], rest, ?_, ?_, hrest⟩, h.ok⟩
      · exact hsent.trans (List.append_cons front m rest)
      · rw [hgot, List.map_append]
        rfl

/-- What is asked of one direction. -/
structure Arrives (F : Framing M) (s : Line M) : Prop where
  /-- No call has reported an error. -/
  ok : s.failed = false
  /-- Messages come once each and in order. -/
  order : s.got <+: s.sent.map F.content
  /-- It can always be sent. -/
  sends : ∀ m, Line.step F s (.send m) ≠ none
  /-- A `recv` that does not come back waits for bytes. -/
  waits : Line.step F s .recv = none → F.recv.run s.reader = .error .pending
  /-- None stays behind. -/
  complete : s.wire = [] → Line.step F s .recv = none → s.got = s.sent.map F.content

theorem Inv.arrives (hF : F.Lawful) (h : Inv F s) : Arrives F s where
  ok := h.ok
  order := by
    obtain ⟨front, rest, hsent, hgot, -⟩ := h.left
    rw [hgot, hsent]
    exact (List.prefix_append front rest).map F.content
  sends m hnone := by
    obtain ⟨s', hs', -⟩ := h.send hF.send m
    cases hnone.symm.trans hs'
  waits hnone := by
    rcases h.recv_cases hF with ⟨hrun, -⟩ | ⟨_, _, _, r, hrun, -⟩
    · exact hrun
    · rw [Line.step, hrun] at hnone
      cases hnone
  complete hwire hnone := by
    rcases h.recv_cases hF with ⟨-, hall⟩ | ⟨_, _, _, r, hrun, -⟩
    · exact hall hwire
    · rw [Line.step, hrun] at hnone
      cases hnone

/-- What has been delivered whole is received, if messages still arrive behind it. -/
theorem Arrives.comes (h : Arrives F s)
    (hnext : ∀ s', Line.step F s .recv = some s' → Arrives F s') {m : M} (hsent : s.sent = [m])
    (hgot : s.got = []) (hwire : s.wire = []) :
    ∃ r, F.recv.run s.reader = .ok (.ok (F.content m), r) := by
  cases hrun : F.recv.run s.reader with
  | error e =>
    have hall := h.complete hwire (by rw [Line.step, hrun])
    rw [hgot, hsent] at hall
    cases hall
  | ok p =>
    obtain ⟨e | content, r⟩ := p
    · have hfailed := (hnext { s with reader := r, failed := true } (by rw [Line.step, hrun])).ok
      cases hfailed
    · have horder := (hnext { s with reader := r, got := s.got ++ [content] }
        (by rw [Line.step, hrun])).order
      dsimp only at horder
      rw [hgot, hsent] at horder
      obtain ⟨hhead, -⟩ := List.cons_prefix_cons.mp horder
      exact ⟨r, by rw [hhead]⟩

end Line

/-! ## Both directions -/

/-- A connection with nothing sent yet. -/
def Talk.start {M : Type} (wsize rsize : Nat) (io : Bool → Outlet) : Talk M := fun side =>
  Line.new wsize rsize (io side)

/-- **Messages arrive**, in every run of sends, deliveries and receives in both directions. -/
theorem Framing.arrives {M : Type} {F : Bool → Framing M} (hF : ∀ side, (F side).Lawful)
    {wsize rsize : Nat} (hw : wsize ≤ intMax) (hr : rsize ≤ intMax) {io : Bool → Outlet}
    (hio : ∀ side, (io side).Willing) (htaken : ∀ side, (io side).taken = [])
    {past : List (Bool × LineAction M)} {s : Talk M}
    (h : Run (Talk.step F) (fun _ _ => True) (Talk.start wsize rsize io) past s) (side : Bool) :
    Line.Arrives (F side) (s side) := by
  refine Line.Inv.arrives (hF side) ?_
  refine h.invariant (fun _ s => ∀ side, Line.Inv (F side) (s side))
    (fun side => Line.inv_new hw hr (hio side) (htaken side)) ?_ side
  rintro past s ⟨moved, a⟩ s' hinv - hstep other
  obtain ⟨l, hl, rfl⟩ := Option.map_eq_some_iff.mp hstep
  by_cases hother : other = moved
  · subst hother
    rw [Function.update_self]
    exact (hinv other).step (hF other) hl
  · rw [Function.update_of_ne hother]
    exact hinv other

theorem Talk.step_of {M : Type} {F : Bool → Framing M} {s : Talk M} {side : Bool}
    {a : LineAction M} {l : Line M} (h : Line.step (F side) (s side) a = some l) :
    Talk.step F s (side, a) = some (Function.update s side l) := by
  rw [Talk.step, h]
  rfl

/-- Where messages arrive in every run, a frame that is all there comes back. -/
theorem Framing.comes_of_arrives {M : Type} {F : Bool → Framing M} {wsize rsize : Nat}
    (hw : wsize ≤ intMax) (hr : rsize ≤ intMax) {io : Bool → Outlet}
    (hio : ∀ side, (io side).Willing) (htaken : ∀ side, (io side).taken = []) {side : Bool}
    (hsends : (F side).Sends)
    (h : ∀ past s, Run (Talk.step F) (fun _ _ => True) (Talk.start wsize rsize io) past s →
      Line.Arrives (F side) (s side)) {m : M} (hne : (F side).frame m ≠ []) :
    ∃ r r', BufReader.Sound r ∧ r.unread = (F side).frame m ∧
      (F side).recv.run r = .ok (.ok ((F side).content m), r') := by
  obtain ⟨l₁, n, l₂, hl₁, hl₂, hinv, hsent, hgot, hwire, hun⟩ :=
    (Line.inv_new hw hr (hio side) (htaken side)).carry hsends rfl hne
  have hrun₁ : Run (Talk.step F) (fun _ _ => True) (Talk.start wsize rsize io) _ _ :=
    Run.nil.snoc trivial (Talk.step_of hl₁)
  have hrun₂ := hrun₁.snoc (a := (side, .deliver n)) trivial
    (Talk.step_of (l := l₂) (by rw [Function.update_self]; exact hl₂))
  have harrives := h _ _ hrun₂
  rw [Function.update_self] at harrives
  obtain ⟨r', hrun⟩ := harrives.comes (fun l₃ hl₃ => by
    have harrives₃ := h _ _ (hrun₂.snoc (a := (side, .recv)) trivial
      (Talk.step_of (l := l₃) (by rw [Function.update_self]; exact hl₃)))
    rwa [Function.update_self] at harrives₃) hsent hgot hwire
  exact ⟨_, r', hinv.reader, hun, hrun⟩

end Uvio.Codec
