import Uvio.Socks5.Requests

/-!
# The exchange with a client

`handle_proxy` from the greeting to `connect`.

- `handleProxy_congr`: it cannot tell a read or a write that failed from one that did not.
- `accepts_ended_iff`: so a stream that ends behind the first four bytes of a request is
  taken for a request, through any buffer that holds what is read at once.
- `served_or_deadlocked`: a client that asks for a connection and waits for the server's
  answers is served exactly if it waits for no more than what the server sends.
-/

namespace Uvio.Socks5

open Program Io Codec Net

/-! ## What is reported makes no difference -/

section Reported

variable {σ : Type}

/-- Two reads that differ in no more than the result they report. -/
def SameButReported (x y : Task σ (Bytes × Result Unit)) : Prop :=
  (fun p => p.1) <$> x = (fun p => p.1) <$> y

/-- What follows two such reads and does not look at the result. -/
theorem SameButReported.bind {γ : Type} {x y : Task σ (Bytes × Result Unit)}
    (h : SameButReported x y) {f g : Bytes × Result Unit → Task σ γ}
    (hf : ∀ a ret ret', f (a, ret) = g (a, ret')) : x >>= f = y >>= g := by
  have hbind := congrArg (· >>= fun a => g (a, .ok ())) h
  simp only [bind_map_left] at hbind
  have hx : f = fun p => g (p.1, .ok ()) := funext fun p => hf p.1 p.2 _
  have hy : g = fun p => g (p.1, .ok ()) := funext fun p =>
    (hf p.1 (.ok ()) p.2).symm.trans (hf p.1 (.ok ()) (.ok ()))
  rw [hx, hbind, ← hy]

/-- Two computations of which only the effect on the state counts. -/
def SameEffect {α β : Type} (x : Task σ α) (y : Task σ β) : Prop :=
  (fun _ => ()) <$> x = (fun _ => ()) <$> y

theorem SameEffect.bind {α β γ : Type} {x : Task σ α} {y : Task σ β} (h : SameEffect x y)
    (f : Task σ γ) : (x >>= fun _ => f) = y >>= fun _ => f := by
  have hbind := congrArg (· >>= fun _ => f) h
  simpa only [bind_map_left] using hbind

variable {rd rd' : Reader σ} {wr wr' : Writer σ}

theorem readPort_congr (hread : ∀ buf, SameButReported (rd.readExact buf) (rd'.readExact buf))
    (order : ByteOrder) (cmd : Cmd) (addr : Bytes) :
    @readPort σ rd order cmd addr = @readPort σ rd' order cmd addr :=
  (hread _).bind fun _ _ _ => rfl

theorem readRequest_congr (hread : ∀ buf, SameButReported (rd.readExact buf) (rd'.readExact buf))
    (ndebug : Bool) (order : ByteOrder) :
    @readRequest σ rd ndebug order = @readRequest σ rd' ndebug order := by
  refine (hread _).bind fun bytes4 _ _ => ?_
  dsimp only
  split
  · rfl
  · split
    · rfl
    · refine congrArg _ (funext fun _ => ?_)
      unfold readAddress
      split
      · exact (hread _).bind fun _ _ _ => readPort_congr hread order _ _
      · split
        · refine (hread _).bind fun _ _ _ => ?_
          dsimp only
          refine congrArg _ (funext fun _ => ?_)
          exact (hread _).bind fun _ _ _ => readPort_congr hread order _ _
        · split
          · exact (hread _).bind fun _ _ _ => readPort_congr hread order _ _
          · rfl

theorem authMethods_congr (hread : ∀ buf, SameButReported (rd.readExact buf) (rd'.readExact buf))
    (hwrite : ∀ buf, SameEffect (wr.write buf) (wr'.write buf))
    (hflush : SameEffect wr.flush wr'.flush) :
    @authMethods σ rd wr = @authMethods σ rd' wr' := by
  refine (hread _).bind fun bytes2 _ _ => ?_
  dsimp only
  split
  · rfl
  · refine congrArg _ (funext fun _ => ?_)
    refine (hread _).bind fun _ _ _ => ?_
    exact ((hwrite _).bind _).trans (congrArg _ (funext fun _ => hflush.bind _))

theorem writeReply_congr (hwrite : ∀ buf, SameEffect (wr.write buf) (wr'.write buf))
    (hflush : SameEffect wr.flush wr'.flush) (order : ByteOrder) :
    @writeReply σ wr order = @writeReply σ wr' order := by
  refine ((hwrite _).bind _).trans (congrArg _ (funext fun _ => ?_))
  refine ((hwrite _).bind _).trans (congrArg _ (funext fun _ => ?_))
  exact ((hwrite _).bind _).trans (congrArg _ (funext fun _ => hflush.bind _))

/-- **No failure of a read or a write is noticed**: whatever `read_exact`, `write` and
`flush` report, the proxy does the same. -/
theorem handleProxy_congr
    (hread : ∀ buf, SameButReported (rd.readExact buf) (rd'.readExact buf))
    (hwrite : ∀ buf, SameEffect (wr.write buf) (wr'.write buf))
    (hflush : SameEffect wr.flush wr'.flush) (ndebug : Bool) (order : ByteOrder)
    (connect : Request → Task σ (Result Unit)) :
    @handleProxy σ rd wr ndebug order connect = @handleProxy σ rd' wr' ndebug order connect := by
  unfold handleProxy
  rw [authMethods_congr hread hwrite hflush, readRequest_congr hread,
    writeReply_congr hwrite hflush]

/-- A reader that hands over what there is, and says what it likes. The state is what is
still to come and what was written. -/
abbrev handing (ret : Result Unit) : Reader (Bytes × Bytes) where
  readExact buf := modifyGet fun s =>
    ((blit buf 0 (s.1.take buf.length), ret), (s.1.drop buf.length, s.2))
  readUntil buf _ := pure (buf, .error .unclassified)

/-- A writer that takes everything, and says what it likes. -/
abbrev taking (ret : Result Nat) : Writer (Bytes × Bytes) where
  write buf := modifyGet fun s => (ret, (s.1, s.2 ++ buf))
  flush := pure (ret.map fun _ => ())

/-- A client that offers one method and asks for `127.0.0.1:80` gets both answers, although
every read and every write says that it failed. -/
theorem handleProxy_congr_failing :
    (@handleProxy _ (handing (.error .unclassified)) (taking (.error .unclassified)) false
        .littleEndian fun _ => pure (.ok ())).run
      ([5, 1, 0] ++ [5, 1, 0, 1, 127, 0, 0, 1, 0, 80], []) =
        .ok ((), ([], [5, 0] ++ [5, 0, 0, 1, 127, 0, 0, 1, 0, 0])) := by
  have hcongr : @handleProxy _ (handing (.error .unclassified)) (taking (.error .unclassified))
      false .littleEndian (fun _ => pure (.ok ())) =
        @handleProxy _ (handing (.ok ())) (taking (.ok 0)) false .littleEndian
          fun _ => pure (.ok ()) :=
    handleProxy_congr (fun _ => rfl) (fun _ => rfl) rfl _ _ _
  rw [hcongr]
  rfl

end Reported

/-! ## Streams that end -/

section Ended

variable {bs : Bytes} {e : Error} {ndebug : Bool} {order : ByteOrder} {cmd : Cmd}

/-- A read of a stream that ends comes back. -/
theorem run_readExact_ended (buf bs : Bytes) (e : Error) : ∃ out bs',
    (Reader.readExact buf : Task Feed _).run ⟨bs, some e⟩ = .ok (out, ⟨bs', some e⟩) := by
  by_cases h : buf.length ≤ bs.length
  · exact ⟨_, _, Feed.run_readExact_of_le h⟩
  · exact ⟨_, _, Feed.run_readExact_of_lt (Nat.lt_of_not_le h)⟩

theorem run_readPort_ended (addr : Bytes) :
    ∃ req s, (readPort order cmd addr).run (⟨bs, some e⟩ : Feed) = .ok (.ok req, s) := by
  obtain ⟨out, bs', hrun⟩ := run_readExact_ended [0, 0] bs e
  exact ⟨_, _, Prog.run_bind_of_ok hrun⟩

/-- A read, and then the port. -/
theorem run_readThenPort_ended (buf : Bytes) (f : Bytes × Result Unit → Bytes) :
    ∃ req s, (do
      let out ← Reader.readExact buf
      readPort order cmd (f out) : Task Feed _).run ⟨bs, some e⟩ = .ok (.ok req, s) := by
  obtain ⟨out, bs', hrun⟩ := run_readExact_ended buf bs e
  rw [Prog.run_bind_of_ok hrun]
  exact run_readPort_ended _

/-- The first length byte behind the head, if it has come, is not negative. -/
def ShortName : Bytes → Prop
  | [] => True
  | n :: _ => n.toNat < 128

/-- An address type that is known; of the address no more than the length of a name
counts. -/
def KnownType (type : Byte) (rest : Bytes) : Prop :=
  type = 1 ∨ type = 3 ∧ ShortName rest ∨ type = 4

theorem run_readName_ended :
    (∃ req s, (do
      let (byte, _) ← Reader.readExact [0]
      let buf ← charVector (byte.getD 0 0)
      let (buf, _) ← Reader.readExact buf
      readPort order cmd buf : Task Feed _).run ⟨bs, some e⟩ = .ok (.ok req, s)) ↔
        ShortName bs := by
  cases bs with
  | nil =>
    have hread : (Reader.readExact [0] : Task Feed _).run ⟨[], some e⟩ =
        .ok (([0], .error e), ⟨[], some e⟩) := rfl
    rw [Prog.run_bind_of_ok hread]
    dsimp only
    rw [List.getD_cons_zero, Prog.run_bind_of_ok (run_charVector 0 _)]
    exact iff_of_true (run_readThenPort_ended _ _) trivial
  | cons n bs =>
    have hread : (Reader.readExact [0] : Task Feed _).run ⟨n :: bs, some e⟩ =
        .ok (([n], .ok ()), ⟨bs, some e⟩) := Feed.run_readExact_of_le (Nat.succ_pos _)
    rw [Prog.run_bind_of_ok hread]
    dsimp only
    rw [List.getD_cons_zero]
    by_cases hn : n.toNat < 128
    · rw [Prog.run_bind_of_ok ((run_charVector n _).trans (if_pos hn))]
      exact iff_of_true (run_readThenPort_ended _ _) hn
    · rw [Prog.run_bind_of_error ((run_charVector n _).trans (if_neg hn))]
      refine iff_of_false ?_ hn
      rintro ⟨req, s, hrun⟩
      cases hrun

theorem run_readAddress_ended (bytes4 : Bytes) :
    (∃ req s, (readAddress order cmd bytes4).run (⟨bs, some e⟩ : Feed) = .ok (.ok req, s)) ↔
      KnownType (bytes4.getD 3 0) bs := by
  unfold readAddress KnownType
  generalize bytes4.getD 3 0 = type
  split_ifs with h1 h3 h6
  · exact iff_of_true (run_readThenPort_ended _ _) (Or.inl h1)
  · rw [run_readName_ended]
    simp [h3]
  · exact iff_of_true (run_readThenPort_ended _ _) (Or.inr (Or.inr h6))
  · refine iff_of_false ?_ ?_
    · rintro ⟨req, s, hrun⟩
      cases hrun
    · rintro (h | ⟨h, -⟩ | h)
      · exact h1 h
      · exact h3 h
      · exact h6 h

/-- The first four bytes of a request that is let through. -/
def HeadAccepted (ndebug : Bool) : Bytes → Prop
  | version :: c :: reserved :: type :: rest =>
    version = 5 ∧ (∃ cmd, Cmd.ofByte c = some cmd) ∧ (ndebug = true ∨ reserved = 0) ∧
      KnownType type rest
  | _ => False

theorem HeadAccepted.exists_head (h : HeadAccepted ndebug bs) :
    ∃ version c reserved type rest, bs = version :: c :: reserved :: type :: rest := by
  unfold HeadAccepted at h
  split at h
  · exact ⟨_, _, _, _, _, rfl⟩
  · cases h

/-- A program that gives an error gives no request. -/
theorem not_accepts_error {s : Feed} :
    ¬ ∃ req s', (pure (.error .unclassified) : Task Feed (Result Request)).run s =
      .ok (.ok req, s') := by
  rintro ⟨req, s', hrun⟩
  cases hrun

theorem run_readRequest_ended_iff :
    (∃ req s, (readRequest ndebug order).run (⟨bs, some e⟩ : Feed) = .ok (.ok req, s)) ↔
      HeadAccepted ndebug bs := by
  unfold readRequest
  by_cases h4 : 4 ≤ bs.length
  · obtain ⟨version, c, reserved, type, rest, rfl⟩ :
        ∃ version c reserved type rest, bs = version :: c :: reserved :: type :: rest := by
      match bs, h4 with
      | version :: c :: reserved :: type :: rest, _ => exact ⟨_, _, _, _, _, rfl⟩
    have hread : (Reader.readExact [0, 0, 0, 0] : Task Feed _).run
        ⟨version :: c :: reserved :: type :: rest, some e⟩ =
          .ok (([version, c, reserved, type], .ok ()), ⟨rest, some e⟩) :=
      Feed.run_readExact_of_le h4
    rw [Prog.run_bind_of_ok hread]
    dsimp only
    split_ifs with hversion
    · exact iff_of_false not_accepts_error fun h => hversion h.1
    · split
      next hnone =>
        refine iff_of_false not_accepts_error fun h => ?_
        obtain ⟨cmd, hsome⟩ := h.2.1
        cases hnone.symm.trans hsome
      next cmd hcmd =>
        have hcmd : Cmd.ofByte c = some cmd := hcmd
        simp only [run_assertion_bind_eq_ok_iff, exists_and_left, run_readAddress_ended]
        simpa [HeadAccepted, hcmd] using fun _ _ => hversion
  · have hread : (Reader.readExact [0, 0, 0, 0] : Task Feed _).run ⟨bs, some e⟩ =
        .ok (([0, 0, 0, 0], .error e), ⟨bs, some e⟩) :=
      Feed.run_readExact_of_lt (Nat.lt_of_not_le h4)
    rw [Prog.run_bind_of_ok hread]
    refine iff_of_false not_accepts_error fun h => ?_
    obtain ⟨version, c, reserved, type, rest, rfl⟩ := h.exists_head
    exact h4 (by simp)

/-- **A stream that ends is taken for a request** whenever it has four bytes that begin
one. Nothing behind them need have come but the length of a name. The chunks it came in make
no difference, nor does the buffer, of 256 bytes up to `INT_MAX`. -/
theorem accepts_ended_iff {chunks : List Bytes} (hne : ∀ x ∈ chunks, x ≠ []) {size k n f : Nat}
    (hsize : 256 ≤ size) (hk : 4 ≤ k) {r : BufReader} (h : r.Through chunks e size k n f) :
    (∃ req r', (readRequest ndebug order).run r = .ok (.ok req, r')) ↔
      HeadAccepted ndebug r.unread := by
  have halike : ReadsAlike BufReader Feed (fun _ => False) (Winds chunks size) :=
    ⟨fun k buf hbuf => readExact_winds hne k (by omega), fun k r s ⟨e, k', n, f, hle, hrest⟩ =>
      ⟨e, k', n, f, by omega, hrest⟩⟩
  rw [← run_readRequest_ended_iff, h.unread]
  refine exists_congr fun req => ?_
  have hreturns := (readRequest_bisimilar halike 0 ndebug order).ok_iff (P := fun _ => True)
    (Q := fun _ => True) (a := .ok req) ⟨e, k, n, f, hk, h, rfl⟩ fun _ _ _ => Iff.rfl
  simpa only [and_true] using hreturns

/-- The head of a request, and then nothing for long enough. -/
theorem accepts_ended_iff_head :
    (∃ req r', (readRequest false .littleEndian).run
      (BufReader.new (.closing [[5, 1], [0, 1]] 4 .unexpectedEOF) 256) = .ok (.ok req, r')) ↔
      HeadAccepted false (BufReader.new (.closing [[5, 1], [0, 1]] 4 .unexpectedEOF) 256).unread :=
  accepts_ended_iff (by decide) (Nat.le_refl _) (Nat.le_refl _)
    (BufReader.through_new _ _ (by decide) (by decide))

end Ended

/-! ## A client that waits for answers -/

/-- A client: each byte it has to say with the number of bytes of answers it waits for
first, and what the server has written to it and sent it. -/
structure Client where
  script : List (Nat × Byte)
  written : Bytes
  sent : Bytes
deriving Repr

namespace Client

/-- What the client has said by now. -/
def ready (c : Client) : Bytes :=
  (c.script.takeWhile fun p => p.1 ≤ c.sent.length).map Prod.snd

/-- A call on the stream of what the client has said. -/
def listen {α : Type} (x : Task Feed α) : Task Client α :=
  Prog.zoom (fun c => ⟨c.ready, none⟩)
    (fun c s => { c with script := c.script.drop (c.ready.length - s.unread.length) }) x

instance : Reader Client where
  readExact buf := listen (Reader.readExact buf)
  readUntil buf endFlag := listen (Reader.readUntil buf endFlag)

instance : Writer Client where
  write buf := fun c => .ok (.ok buf.length, { c with written := c.written ++ buf })
  flush := fun c => .ok (.ok (), { c with sent := c.written })

variable {front rest : List (Nat × Byte)} {written sent buf : Bytes}

/-- Nothing in `front` waits for more than `n` bytes. -/
def WaitsFor (n : Nat) (front : List (Nat × Byte)) : Prop := ∀ p ∈ front, p.1 ≤ n

instance (n : Nat) (front : List (Nat × Byte)) : Decidable (WaitsFor n front) :=
  inferInstanceAs (Decidable (∀ p ∈ front, p.1 ≤ n))

/-- Of what the client has to say first, it has said everything if it waits for no more
than it got, and else not everything. -/
theorem ready_append (h : WaitsFor sent.length front) :
    ready ⟨front ++ rest, written, sent⟩ = front.map Prod.snd ++ ready ⟨rest, written, sent⟩ := by
  unfold ready
  dsimp only
  rw [List.takeWhile_append_of_pos fun p hp => decide_eq_true (h p hp), List.map_append]

theorem length_ready_lt (h : ¬ WaitsFor sent.length front) :
    (ready ⟨front ++ rest, written, sent⟩).length < front.length := by
  induction front with
  | nil => exact absurd (fun _ hp => absurd hp List.not_mem_nil) h
  | cons p front ih =>
    unfold ready at ih ⊢
    by_cases hp : p.1 ≤ sent.length
    · have hfront : ¬ WaitsFor sent.length front := fun hall =>
        h (List.forall_mem_cons.mpr ⟨hp, hall⟩)
      simpa [hp] using ih hfront
    · simp [hp]

/-- It has said the beginning of what it has to say. -/
theorem ready_prefix (c : Client) : c.ready <+: c.script.map Prod.snd :=
  (List.takeWhile_prefix _).map _

theorem run_readExact_of_le {c : Client} (h : buf.length ≤ c.ready.length) :
    (Reader.readExact buf : Task Client _).run c = .ok ((c.ready.take buf.length, .ok ()),
      { c with script := c.script.drop buf.length }) := by
  have hread : (Reader.readExact buf : Task Feed _).run ⟨c.ready, none⟩ =
      .ok ((c.ready.take buf.length, .ok ()), ⟨c.ready.drop buf.length, none⟩) :=
    Feed.run_readExact_of_le h
  refine (Prog.run_zoom_of_ok (s := c) hread).trans ?_
  dsimp only
  rw [List.length_drop, Nat.sub_sub_self h]

theorem run_readExact_of_lt {c : Client} (h : c.ready.length < buf.length) :
    (Reader.readExact buf : Task Client _).run c = .error .pending :=
  Prog.run_zoom_of_error (Feed.run_readExact_of_lt h)

theorem run_readExact_of_waitsFor (hlen : front.length = buf.length)
    (h : WaitsFor sent.length front) :
    (Reader.readExact buf : Task Client _).run ⟨front ++ rest, written, sent⟩ =
      .ok ((front.map Prod.snd, .ok ()), ⟨rest, written, sent⟩) := by
  have hle : buf.length ≤ (ready ⟨front ++ rest, written, sent⟩).length := by
    rw [ready_append h, List.length_append, List.length_map]
    omega
  rw [run_readExact_of_le hle, ready_append h, ← hlen, List.take_left' (List.length_map _)]
  dsimp only
  rw [List.drop_left]

theorem run_readExact_of_not_waitsFor (hlen : front.length = buf.length)
    (h : ¬ WaitsFor sent.length front) :
    (Reader.readExact buf : Task Client _).run ⟨front ++ rest, written, sent⟩ =
      .error .pending :=
  run_readExact_of_lt (hlen ▸ length_ready_lt h)

/-- The client acts as a stream of what it has said, as long as it gets nothing. -/
def Offers (c₀ c : Client) (s : Feed) : Prop :=
  ∃ n ≤ c₀.ready.length, c = { c₀ with script := c₀.script.drop n } ∧ s = ⟨c₀.ready.drop n, none⟩

theorem offers_start (c : Client) : Offers c c ⟨c.ready, none⟩ := ⟨0, Nat.zero_le _, rfl, rfl⟩

theorem ready_drop (c : Client) {n : Nat} (hn : n ≤ c.ready.length) :
    ready { c with script := c.script.drop n } = c.ready.drop n := by
  obtain ⟨script, written, sent⟩ := c
  induction n generalizing script with
  | zero => rfl
  | succ n ih =>
    cases script with
    | nil => simp [ready]
    | cons p script =>
      by_cases hp : p.1 ≤ sent.length
      · have hn' : n ≤ (ready ⟨script, written, sent⟩).length := by
          simpa [ready, hp] using hn
        simpa [ready, hp] using ih script hn'
      · simp [ready, hp] at hn

theorem readExact_offers (c₀ : Client) (buf : Bytes) {E : Stop → Prop} :
    Bisimilar E (Offers c₀) (Offers c₀) (SameRead buf) (Reader.readExact buf : Task Client _)
      (Reader.readExact buf : Task Feed _) := by
  rintro _ _ ⟨n, hn, rfl, rfl⟩
  have hready := ready_drop c₀ hn
  by_cases hlen : buf.length ≤ (c₀.ready.drop n).length
  · rw [run_readExact_of_le (hready ▸ hlen), Feed.run_readExact_of_le hlen]
    refine ⟨⟨?_, ?_⟩, n + buf.length, ?_, ?_, ?_⟩
    · rw [hready]
    · rw [hready, List.length_take_of_le hlen]
    · rw [List.length_drop] at hlen
      omega
    · rw [List.drop_drop]
    · rw [List.drop_drop]
  · have hlt := Nat.lt_of_not_le hlen
    rw [run_readExact_of_lt (hready ▸ hlt), Feed.run_readExact_of_lt hlt]
    exact Or.inl rfl

theorem offers_readsAlike (c₀ : Client) {E : Stop → Prop} :
    ReadsAlike Client Feed E fun _ => Offers c₀ where
  read _ buf _ := readExact_offers c₀ buf
  less _ _ _ h := h

end Client

section Lockstep

variable {ndebug : Bool} {order : ByteOrder} {hello request later : List (Nat × Byte)}
  {methods written sent : Bytes} {q : Query}

/-- The second stream is the first, of which more is to come. -/
def Extends (more : Bytes) (s t : Feed) : Prop := s.ending = none ∧ t = ⟨s.unread ++ more, none⟩

theorem readExact_extends (more buf : Bytes) :
    Bisimilar (fun e => e = .pending) (Extends more) (Extends more) (SameRead buf)
      (Reader.readExact buf : Task Feed _) (Reader.readExact buf : Task Feed _) := by
  rintro ⟨bs, ending⟩ _ ⟨hending, rfl⟩
  obtain rfl : ending = none := hending
  by_cases hlen : buf.length ≤ bs.length
  · have hmore : buf.length ≤ (bs ++ more).length := by
      rw [List.length_append]
      omega
    rw [Feed.run_readExact_of_le hlen, Feed.run_readExact_of_le hmore]
    dsimp only
    rw [List.take_append_of_le_length hlen, List.drop_append_of_le_length hlen]
    exact ⟨⟨rfl, List.length_take_of_le hlen⟩, rfl, rfl⟩
  · rw [Feed.run_readExact_of_lt (Nat.lt_of_not_le hlen)]
    exact Alike.of_error (E := fun e : Stop => e = .pending) rfl _

theorem extends_readsAlike (more : Bytes) :
    ReadsAlike Feed Feed (fun e => e = .pending) fun _ => Extends more where
  read _ buf _ := readExact_extends more buf
  less _ _ _ h := h

/-- The beginning of a request makes the server wait, and nothing else. -/
theorem run_readRequest_of_lt (order : ByteOrder) {bs more rest : Bytes} (hq : q.Readable ndebug)
    (hbs : bs ++ more = q.encode ++ rest) (hlt : bs.length < q.encode.length) :
    (readRequest ndebug order).run (⟨bs, none⟩ : Feed) = .error .pending := by
  have hfull : (readRequest ndebug order).run (⟨bs ++ more, none⟩ : Feed) =
      .ok (.ok (q.asRead order), ⟨rest, none⟩) :=
    run_readRequest_eq_ok_iff.mpr ⟨q, rest, hq, hbs, rfl, rfl⟩
  rcases (readRequest_bisimilar (extends_readsAlike more) 0 ndebug order ⟨bs, none⟩
    ⟨bs ++ more, none⟩ ⟨rfl, rfl⟩).cases with ⟨_, s, _, _, hrun, hrun', rfl, -⟩ | ⟨e, -, hrun⟩ |
      ⟨e, hrun, rfl⟩
  · -- no request is the beginning of another
    rw [hfull] at hrun'
    cases hrun'
    obtain ⟨q', rest', -, rfl, -, -⟩ := run_readRequest_eq_ok_iff.mp hrun
    rw [List.append_assoc] at hbs
    obtain rfl := Query.encode_append_inj hbs
    rw [List.length_append] at hlt
    omega
  · cases hfull.symm.trans hrun
  · exact hrun

/-- What a client offers first. -/
def greeting (methods : Bytes) : Bytes := 5 :: BitVec.ofNat 8 methods.length :: methods

/-- What the server answers to that. -/
def methodReply : Bytes := [5, 0]

/-- What the server answers to a request. -/
def requestReply : Bytes := [5, 0, 0, 1, 127, 0, 0, 1, 0, 0]

theorem exists_hello (h : hello.map Prod.snd = greeting methods) :
    ∃ a b offered, hello = [a, b] ++ offered ∧ a.2 = 5 ∧
      b.2 = BitVec.ofNat 8 offered.length ∧ offered.length = methods.length := by
  obtain ⟨a, _, rfl, ha, h⟩ := List.map_eq_cons_iff.mp h
  obtain ⟨b, offered, rfl, hb, rfl⟩ := List.map_eq_cons_iff.mp h
  rw [List.length_map] at hb ⊢
  exact ⟨a, b, offered, rfl, ha, hb, rfl⟩

/-- The choice of a method, behind the first two bytes. -/
theorem run_authMethods_head {a b : Nat × Byte} {offered : List (Nat × Byte)} (ha : a.2 = 5)
    (hb : b.2 = BitVec.ofNat 8 offered.length) (hshort : offered.length < 128)
    (h : Client.WaitsFor sent.length [a, b]) :
    authMethods.run (⟨[a, b] ++ offered ++ later, written, sent⟩ : Client) = (do
      let _ ← Reader.readExact (List.replicate offered.length 0)
      let _ ← Writer.write methodReply
      let _ ← Writer.flush
      pure (.ok ()) : Task Client (Result Unit)).run ⟨offered ++ later, written, sent⟩ := by
  have hn : b.2.toNat = offered.length := by
    rw [hb, BitVec.toNat_ofNat, Nat.mod_eq_of_lt (by omega)]
  have hread : (Reader.readExact [0, 0] : Task Client _).run
      ⟨[a, b] ++ (offered ++ later), written, sent⟩ =
        .ok (([a.2, b.2], .ok ()), ⟨offered ++ later, written, sent⟩) :=
    Client.run_readExact_of_waitsFor rfl h
  unfold authMethods
  rw [List.append_assoc, Prog.run_bind_of_ok hread]
  dsimp only
  rw [List.getD_cons_zero, if_neg (not_not.mpr ha), List.getD_cons_succ, List.getD_cons_zero,
    Prog.run_bind_of_ok ((run_charVector _ _).trans (if_pos (by omega))), hn]
  rfl

/-- The choice of a method, if the client offers without waiting for more than it got. -/
theorem run_authMethods_of_waitsFor (hmethods : methods.length < 128)
    (hhello : hello.map Prod.snd = greeting methods) (h : Client.WaitsFor sent.length hello) :
    authMethods.run (⟨hello ++ later, written, sent⟩ : Client) =
      .ok (.ok (), ⟨later, written ++ methodReply, written ++ methodReply⟩) := by
  obtain ⟨a, b, offered, rfl, ha, hb, hlen⟩ := exists_hello hhello
  have hhead : Client.WaitsFor sent.length [a, b] := fun p hp => h p (List.mem_append_left _ hp)
  have hoffered : Client.WaitsFor sent.length offered := fun p hp =>
    h p (List.mem_append_right _ hp)
  rw [run_authMethods_head ha hb (hlen ▸ hmethods) hhead,
    Prog.run_bind_of_ok (Client.run_readExact_of_waitsFor (List.length_replicate ..).symm hoffered)]
  rfl

/-- Else both wait. -/
theorem run_authMethods_of_not_waitsFor (hmethods : methods.length < 128)
    (hhello : hello.map Prod.snd = greeting methods) (h : ¬ Client.WaitsFor sent.length hello) :
    authMethods.run (⟨hello ++ later, written, sent⟩ : Client) = .error .pending := by
  obtain ⟨a, b, offered, rfl, ha, hb, hlen⟩ := exists_hello hhello
  by_cases hhead : Client.WaitsFor sent.length [a, b]
  · have hoffered : ¬ Client.WaitsFor sent.length offered := fun hall =>
      h fun p hp => (List.mem_append.mp hp).elim (hhead p) (hall p)
    rw [run_authMethods_head ha hb (hlen ▸ hmethods) hhead, Prog.run_bind_of_error
      (Client.run_readExact_of_not_waitsFor (List.length_replicate ..).symm hoffered)]
  · have hread : (Reader.readExact [0, 0] : Task Client _).run
        ⟨[a, b] ++ (offered ++ later), written, sent⟩ = .error .pending :=
      Client.run_readExact_of_not_waitsFor rfl hhead
    unfold authMethods
    rw [List.append_assoc, Prog.run_bind_of_error hread]

/-- The request, if the client has said it. -/
theorem run_readRequest_of_waitsFor (hq : q.Readable ndebug)
    (hrequest : request.map Prod.snd = q.encode) (h : Client.WaitsFor sent.length request) :
    (readRequest ndebug order).run (⟨request ++ later, written, sent⟩ : Client) =
      .ok (.ok (q.asRead order), ⟨later, written, sent⟩) := by
  have hready : Client.ready ⟨request ++ later, written, sent⟩ =
      q.encode ++ Client.ready ⟨later, written, sent⟩ := by
    rw [Client.ready_append h, hrequest]
  have hlen : request.length = q.encode.length := by rw [← hrequest, List.length_map]
  have hfeed : (readRequest ndebug order).run
      (⟨Client.ready ⟨request ++ later, written, sent⟩, none⟩ : Feed) =
        .ok (.ok (q.asRead order), ⟨Client.ready ⟨later, written, sent⟩, none⟩) :=
    run_readRequest_eq_ok_iff.mpr ⟨q, _, hq, hready, rfl, rfl⟩
  rcases (readRequest_bisimilar (E := fun _ => False) (Client.offers_readsAlike _) 0
    ndebug order _ _ (Client.offers_start ⟨request ++ later, written, sent⟩)).cases with
      ⟨_, _, _, _, hrun, hrun', rfl, n, hn, rfl, rfl⟩ | ⟨e, -, hrun⟩ | ⟨e, -, he⟩
  · rw [hfeed] at hrun'
    obtain ⟨hret, hs⟩ := Prod.mk.inj (Except.ok.inj hrun')
    -- what is left of the feed says how far the script was read
    have hleft := congrArg (fun s : Feed => s.unread.length) hs
    dsimp only at hleft
    rw [List.length_drop, hready, List.length_append] at hleft
    rw [hready, List.length_append] at hn
    obtain rfl : n = request.length := by omega
    rw [hrun, ← hret]
    dsimp only
    rw [List.drop_left]
  · cases hfeed.symm.trans hrun
  · cases he

/-- Else both wait. -/
theorem run_readRequest_of_not_waitsFor (hq : q.Readable ndebug)
    (hrequest : request.map Prod.snd = q.encode) (h : ¬ Client.WaitsFor sent.length request) :
    (readRequest ndebug order).run (⟨request ++ later, written, sent⟩ : Client) =
      .error .pending := by
  have hlen : request.length = q.encode.length := by rw [← hrequest, List.length_map]
  obtain ⟨more, hmore⟩ := Client.ready_prefix ⟨request ++ later, written, sent⟩
  dsimp only at hmore
  rw [List.map_append, hrequest] at hmore
  have hfeed := run_readRequest_of_lt order hq hmore
    (hlen ▸ Client.length_ready_lt h)
  rcases (readRequest_bisimilar (E := fun _ => False) (Client.offers_readsAlike _) 0
    ndebug order _ _ (Client.offers_start ⟨request ++ later, written, sent⟩)).cases with
      ⟨_, _, _, _, -, hrun, -⟩ | ⟨e, hrun, hrun'⟩ | ⟨e, -, he⟩
  · cases hfeed.symm.trans hrun
  · cases hfeed.symm.trans hrun'
    exact hrun
  · cases he

/-- **The server and a client that waits for its answers** reach `connect`, with all
answers sent, if the client offers its methods without waiting and asks once the method is
chosen. Else each of them waits for the other. The client offers less than 128 methods, and
its request is to connect and can be read. -/
theorem served_or_deadlocked (hmethods : methods.length < 128) (hq : q.Readable ndebug)
    (hconnect : q.cmd = .connect) (hhello : hello.map Prod.snd = greeting methods)
    (hrequest : request.map Prod.snd = q.encode)
    (connect : Request → Task Client (Result Unit)) :
    (handleProxy ndebug order connect).run ⟨hello ++ (request ++ later), [], []⟩ =
      if Client.WaitsFor 0 hello ∧ Client.WaitsFor 2 request then
        (connect (q.asRead order) >>= fun _ => pure ()).run
          ⟨later, methodReply ++ requestReply, methodReply ++ requestReply⟩
      else .error .pending := by
  unfold handleProxy
  by_cases hwaits : Client.WaitsFor 0 hello
  · have hauth : authMethods.run (⟨hello ++ (request ++ later), [], []⟩ : Client) =
        .ok (.ok (), ⟨request ++ later, methodReply, methodReply⟩) :=
      run_authMethods_of_waitsFor hmethods hhello hwaits
    rw [Prog.run_bind_of_ok hauth]
    dsimp only
    by_cases hasks : Client.WaitsFor 2 request
    · have hread : (readRequest ndebug order).run (⟨request ++ later, methodReply, methodReply⟩ :
          Client) = .ok (.ok (q.asRead order), ⟨later, methodReply, methodReply⟩) :=
        run_readRequest_of_waitsFor hq hrequest hasks
      have hreply : (writeReply order).run (⟨later, methodReply, methodReply⟩ : Client) =
          .ok (.ok (), ⟨later, methodReply ++ requestReply, methodReply ++ requestReply⟩) := by
        cases order <;> rfl
      rw [if_pos ⟨hwaits, hasks⟩, Prog.run_bind_of_ok hread]
      dsimp only
      rw [Prog.run_bind_of_ok hreply]
      dsimp only
      rw [show (q.asRead order).cmd = .connect from hconnect]
    · have hread : (readRequest ndebug order).run (⟨request ++ later, methodReply, methodReply⟩ :
          Client) = .error .pending := run_readRequest_of_not_waitsFor hq hrequest hasks
      rw [if_neg fun h => hasks h.2, Prog.run_bind_of_error hread]
  · have hauth : authMethods.run (⟨hello ++ (request ++ later), [], []⟩ : Client) =
        .error .pending := run_authMethods_of_not_waitsFor hmethods hhello hwaits
    rw [if_neg fun h => hwaits h.1, Prog.run_bind_of_error hauth]

/-- A client that asks for `localhost:80` as soon as it is told the method. -/
theorem served_or_deadlocked_localhost :
    (handleProxy false .littleEndian fun _ => pure (.ok ())).run
      (⟨[(0, 5), (0, 1), (0, 0)] ++
        ([(2, 5), (2, 1), (2, 0), (2, 1), (2, 127), (2, 0), (2, 0), (2, 1), (2, 0), (2, 80)] ++
          [(12, 71)]), [], []⟩ : Client) =
      if Client.WaitsFor 0 [(0, 5), (0, 1), (0, 0)] ∧ Client.WaitsFor 2
          [(2, 5), (2, 1), (2, 0), (2, 1), (2, 127), (2, 0), (2, 0), (2, 1), (2, 0), (2, 80)] then
        ((pure (.ok ()) : Task Client (Result Unit)) >>= fun _ => pure ()).run
          ⟨[(12, 71)], methodReply ++ requestReply, methodReply ++ requestReply⟩
      else .error .pending :=
  served_or_deadlocked (q := ⟨.connect, 0, .ipv4 127 0 0 1, 80⟩)
    (show ([0] : Bytes).length < 128 by decide) ⟨Or.inr rfl, trivial⟩ rfl rfl rfl
    fun _ => pure (.ok ())

end Lockstep

end Uvio.Socks5
