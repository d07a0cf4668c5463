import Uvio.Socks5.Exchange
import Uvio.Socks5.Relay

/-!
# From the exchange to the relay

`connect` takes the halves out of the buffered reader and the buffered writer. What the
reader has fetched beyond the request stays in its buffer, and the buffer goes with the
frame of `handle_proxy`.

- `handover_iff`: nothing of what the client has sent behind its request is lost exactly if
  one of the chunks the server received ended with the request.
- `proxied_iff`: what the two sides receive in the end, if there are no reads of 0 bytes and a
  write takes all it is given.
-/

namespace Uvio.Socks5

open Program Io Codec Net

/-! ## The code -/

/-- A `TcpStream`: its two directions. -/
structure Stream where
  reader : Inlet
  writer : Outlet

/-- `DNS::resolve` and `TcpStream::connect`. -/
structure Network where
  resolve : Bytes → Bytes → Result Bytes
  connect : Bytes → Nat → Result Stream

/-- A connection that is served, and the coroutines spawned for it. -/
structure Server where
  framed : Socks5Framed BufReader BufWriter
  spawned : List Pipe

namespace Server

/-- `Socks5Framed{std::move(stream)}`. -/
def accept (stream : Stream) : Server :=
  ⟨⟨.new stream.reader bufSize, .new stream.writer bufSize⟩, []⟩

/-- A call on `buffered_reader_`. -/
def onReader {α : Type} (x : Task BufReader α) : Task Server α :=
  Prog.zoom (fun s => s.framed.bufferedReader)
    (fun s r => { s with framed := { s.framed with bufferedReader := r } }) x

/-- A call on `buffered_writer_`. -/
def onWriter {α : Type} (x : Task BufWriter α) : Task Server α :=
  Prog.zoom (fun s => s.framed.bufferedWriter)
    (fun s w => { s with framed := { s.framed with bufferedWriter := w } }) x

instance : Reader Server where
  readExact buf := onReader (Reader.readExact buf)
  readUntil buf endFlag := onReader (Reader.readUntil buf endFlag)

instance : Writer Server where
  write buf := onWriter (Writer.write buf)
  flush := onWriter Writer.flush

/-- `connect(req)`. The halves are those of one stream, so `reunite` gives it back; what the
buffers hold stays behind. -/
def connect (net : Network) (req : Request) : Task Server (Result Unit) :=
  match net.resolve req.addr (Http.decimal req.port) with
  | .error e => pure (.error e)
  | .ok addr =>
    match net.connect addr req.port with
    | .error e => pure (.error e)
    | .ok remote => do
      modify fun s => { s with spawned := s.spawned ++
        [⟨s.framed.bufferedReader.io, remote.writer⟩, ⟨remote.reader, s.framed.bufferedWriter.io⟩] }
      pure (.ok ())

end Server

/-! ## How far the reader is -/

/-- The reader has handed over `n` bytes, and has not fetched a chunk behind the first `m`
bytes for them. -/
def Tracks (chunks : List Bytes) (e : Error) (k m n : Nat) (r : BufReader) : Prop :=
  ∃ f, r.Through chunks e bufSize k n f ∧ ∀ i, Edge chunks i → m ≤ i → f ≤ i

section Tracks

variable {chunks : List Bytes} {e : Error} {k m n : Nat} {r : BufReader} {buf : Bytes}

theorem Tracks.run_readExact (h : Tracks chunks e k m n r) (hne : ∀ x ∈ chunks, x ≠ [])
    (hm : m ≤ chunks.flatten.length) (hbuf : buf.length ≤ bufSize) (hle : n + buf.length ≤ m) :
    ∃ r', (Reader.readExact buf : Task BufReader _).run r =
      .ok (((chunks.flatten.drop n).take buf.length, .ok ()), r') ∧
        Tracks chunks e k m (n + buf.length) r' := by
  obtain ⟨f, hthrough, hearly⟩ := h
  have hmeets := hthrough.readExact_meets hne hbuf
  cases hrun : (BufReader.readExact buf).run r with
  | error stop =>
    obtain ⟨-, -, hlt⟩ := (meets_of_error hrun).mp hmeets
    omega
  | ok p =>
    obtain ⟨out, r'⟩ := p
    rcases (meets_of_ok hrun).mp hmeets with ⟨-, rfl, f', h', hnext⟩ | ⟨hlt, -⟩
    · refine ⟨r', rfl, f', h', fun i hi hmi => hnext i hi (by omega) (hearly i hi hmi)⟩
    · omega

end Tracks

/-! ## How the writer is -/

/-- The writer has taken what was written, as long as no write to the socket fails. -/
structure Takes (outlet : Outlet) (w : BufWriter) (s : Record) : Prop where
  sound : w.Sound
  backs : outlet.Willing → Backs w s

section Takes

variable {outlet : Outlet} {w : BufWriter} {s : Record} {buf : Bytes}

theorem takes_new (h : outlet.AllOrNothing) :
    Takes outlet (.new outlet bufSize) ⟨outlet.taken, outlet.taken⟩ := by
  have hsound := BufWriter.sound_new h (show bufSize ≤ intMax by decide)
  refine ⟨hsound, fun hwilling => ⟨hsound, hwilling, ?_, List.prefix_rfl⟩⟩
  rw [BufWriter.out_of_laid (StreamBuffer.laid_new (show bufSize ≤ intMax by decide)),
    List.append_nil]
  rfl

theorem Takes.run_write (h : Takes outlet w s) (hbuf : buf.length ≤ intMax) :
    ∃ ret w', (Writer.write buf : Task BufWriter _).run w = .ok (ret, w') ∧
      Takes outlet w' { s with written := s.written ++ buf } := by
  obtain ⟨ret, w', hrun, hsound, -⟩ := (BufWriter.write_meets h.sound hbuf).returns
  refine ⟨ret, w', hrun, hsound, fun hwilling => ?_⟩
  obtain ⟨ret', w'', hrun', -, hbacks⟩ :=
    write_simulates hbuf w s (h.backs hwilling) _ _ (Record.run_write buf s)
  obtain ⟨-, rfl⟩ := Prod.mk.inj (Except.ok.inj (hrun.symm.trans hrun'))
  exact hbacks

theorem Takes.run_flush (h : Takes outlet w s) :
    ∃ ret w', (Writer.flush : Task BufWriter _).run w = .ok (ret, w') ∧
      Takes outlet w' { s with flushed := s.written } := by
  obtain ⟨ret, w', hrun, hsound, -⟩ := (BufWriter.flush_meets h.sound).returns
  refine ⟨ret, w', hrun, hsound, fun hwilling => ?_⟩
  obtain ⟨ret', w'', hrun', -, hbacks⟩ :=
    flush_simulates w s (h.backs hwilling) _ _ (Record.run_flush s)
  obtain ⟨-, rfl⟩ := Prod.mk.inj (Except.ok.inj (hrun.symm.trans hrun'))
  exact hbacks

end Takes

/-! ## How the server is -/

/-- The server has read `n` bytes and written what the record says. -/
structure Serving (chunks : List Bytes) (e : Error) (k m : Nat) (outlet : Outlet) (n : Nat)
    (record : Record) (s : Server) : Prop where
  reader : Tracks chunks e k m n s.framed.bufferedReader
  writer : Takes outlet s.framed.bufferedWriter record
  spawned : s.spawned = []

section Serving

variable {chunks : List Bytes} {e : Error} {k m n : Nat} {outlet : Outlet} {record : Record}
  {s : Server}

theorem Serving.run_readExact (h : Serving chunks e k m outlet n record s)
    (buf : Bytes) (hne : ∀ x ∈ chunks, x ≠ []) (hm : m ≤ chunks.flatten.length)
    (hbuf : buf.length ≤ bufSize) (hle : n + buf.length ≤ m) :
    ∃ s', (Reader.readExact buf : Task Server _).run s =
      .ok (((chunks.flatten.drop n).take buf.length, .ok ()), s') ∧
        Serving chunks e k m outlet (n + buf.length) record s' := by
  obtain ⟨r', hrun, htracks⟩ := h.reader.run_readExact hne hm hbuf hle
  exact ⟨_, Prog.run_zoom_of_ok hrun, htracks, h.writer, h.spawned⟩

theorem Serving.run_write (h : Serving chunks e k m outlet n record s) (buf : Bytes)
    (hbuf : buf.length ≤ intMax) :
    ∃ ret s', (Writer.write buf : Task Server _).run s = .ok (ret, s') ∧
      Serving chunks e k m outlet n { record with written := record.written ++ buf } s' := by
  obtain ⟨ret, w', hrun, htakes⟩ := h.writer.run_write hbuf
  exact ⟨ret, _, Prog.run_zoom_of_ok hrun, h.reader, htakes, h.spawned⟩

theorem Serving.run_flush (h : Serving chunks e k m outlet n record s) :
    ∃ ret s', (Writer.flush : Task Server _).run s = .ok (ret, s') ∧
      Serving chunks e k m outlet n { record with flushed := record.written } s' := by
  obtain ⟨ret, w', hrun, htakes⟩ := h.writer.run_flush
  exact ⟨ret, _, Prog.run_zoom_of_ok hrun, h.reader, htakes, h.spawned⟩

/-- The choice of a method. -/
theorem Serving.run_authMethods (h : Serving chunks e k m outlet n record s)
    (hne : ∀ x ∈ chunks, x ≠ []) (hm : m ≤ chunks.flatten.length) {methods rest : Bytes}
    (hmethods : methods.length < 128) (hbytes : chunks.flatten.drop n = greeting methods ++ rest)
    (hle : n + (greeting methods).length ≤ m) :
    ∃ s', authMethods.run s = .ok (.ok (), s') ∧
      Serving chunks e k m outlet (n + (greeting methods).length)
        ⟨record.written ++ methodReply, record.written ++ methodReply⟩ s' := by
  have hn : (BitVec.ofNat 8 methods.length).toNat = methods.length := by
    rw [BitVec.toNat_ofNat, Nat.mod_eq_of_lt (by omega)]
  have hlen : (greeting methods).length = 2 + methods.length := by
    simp only [greeting, List.length_cons]
    omega
  rw [hlen] at hle ⊢
  obtain ⟨s₁, hhead, h₁⟩ := h.run_readExact [0, 0] hne hm (by decide) (by
    simp only [List.length_cons, List.length_nil]
    omega)
  obtain ⟨s₂, hoffered, h₂⟩ := h₁.run_readExact (List.replicate methods.length 0) hne hm
    (by rw [List.length_replicate]; exact Nat.le_trans hmethods.le (by decide)) (by
      simp only [List.length_cons, List.length_nil, List.length_replicate]
      omega)
  obtain ⟨ret₃, s₃, hwrite, h₃⟩ := h₂.run_write methodReply (by decide)
  obtain ⟨ret₄, s₄, hflush, h₄⟩ := h₃.run_flush
  have htake : (chunks.flatten.drop n).take [(0 : Byte), 0].length =
      [5, BitVec.ofNat 8 methods.length] := by
    rw [hbytes]
    rfl
  rw [htake] at hhead
  refine ⟨s₄, ?_, ?_⟩
  · unfold authMethods
    rw [Prog.run_bind_of_ok hhead]
    dsimp only
    rw [List.getD_cons_zero, if_neg (not_not.mpr rfl), List.getD_cons_succ, List.getD_cons_zero,
      Prog.run_bind_of_ok ((run_charVector _ _).trans (if_pos (by omega))), hn,
      Prog.run_bind_of_ok hoffered]
    exact (Prog.run_bind_of_ok hwrite).trans (Prog.run_bind_of_ok hflush)
  · rw [List.length_replicate] at h₄
    exact (Nat.add_assoc n 2 methods.length).symm ▸ h₄

/-- The reply. -/
theorem Serving.run_writeReply (h : Serving chunks e k m outlet n record s) (order : ByteOrder) :
    ∃ s', (writeReply order).run s = .ok (.ok (), s') ∧
      Serving chunks e k m outlet n
        ⟨record.written ++ requestReply, record.written ++ requestReply⟩ s' := by
  obtain ⟨ret₁, s₁, hrun₁, h₁⟩ := h.run_write [5, 0, 0, 1] (by decide)
  obtain ⟨ret₂, s₂, hrun₂, h₂⟩ := h₁.run_write [127, 0, 0, 1] (by decide)
  obtain ⟨ret₃, s₃, hrun₃, h₃⟩ := h₂.run_write [0, 0] (by decide)
  obtain ⟨ret₄, s₄, hrun₄, h₄⟩ := h₃.run_flush
  refine ⟨s₄, ?_, ?_⟩
  · refine (Prog.run_bind_of_ok hrun₁).trans ((Prog.run_bind_of_ok hrun₂).trans ?_)
    have hport : [toChar (order.hton16 0 &&& 0xFF), toChar ((order.hton16 0 >>> 8) &&& 0xFF)] =
        ([0, 0] : Bytes) := by
      cases order <;> rfl
    dsimp only
    rw [hport]
    exact (Prog.run_bind_of_ok hrun₃).trans (Prog.run_bind_of_ok hrun₄)
  · simp only [List.append_assoc] at h₄
    exact h₄

/-- The server acts as the stream of the first `m` bytes, as long as nobody asks for more. -/
def Bounded (chunks : List Bytes) (e : Error) (k m : Nat) (outlet : Outlet) (record : Record)
    (f : Feed) (s : Server) : Prop :=
  ∃ n ≤ m, f = ⟨(chunks.flatten.take m).drop n, none⟩ ∧ Serving chunks e k m outlet n record s

theorem bounded_readsAlike (hne : ∀ x ∈ chunks, x ≠ []) (hm : m ≤ chunks.flatten.length) :
    ReadsAlike Feed Server (fun e => e = .pending)
      fun _ => Bounded chunks e k m outlet record where
  read _ buf hbuf := by
    rintro _ s ⟨n, hn, rfl, h⟩
    have hlen : ((chunks.flatten.take m).drop n).length = m - n := by
      rw [List.length_drop, List.length_take_of_le hm]
    rcases Nat.lt_or_ge (m - n) buf.length with hlt | hge
    · rw [Feed.run_readExact_of_lt (by rwa [hlen])]
      exact Alike.of_error (E := fun e : Stop => e = .pending) rfl _
    · obtain ⟨s', hrun, h'⟩ := h.run_readExact buf hne hm
        (Nat.le_trans hbuf.le (by decide : 256 ≤ bufSize)) (by omega)
      have htake : ((chunks.flatten.take m).drop n).take buf.length =
          (chunks.flatten.drop n).take buf.length := by
        rw [List.drop_take, List.take_take, Nat.min_eq_left hge]
      rw [Feed.run_readExact_of_le (by rwa [hlen]), hrun]
      refine ⟨⟨?_, ?_⟩, n + buf.length, by omega, ?_, h'⟩
      · rw [htake]
      · exact List.length_take_of_le (by rwa [hlen])
      · rw [List.drop_drop]
  less _ _ _ h := h

/-- The request. -/
theorem Serving.run_readRequest (h : Serving chunks e k m outlet n record s) (order : ByteOrder)
    (hne : ∀ x ∈ chunks, x ≠ []) (hm : m ≤ chunks.flatten.length) {ndebug : Bool} {q : Query}
    (hq : q.Readable ndebug)
    (hbytes : (chunks.flatten.take m).drop n = q.encode) (hn : n ≤ m) :
    ∃ s', (readRequest ndebug order).run s = .ok (.ok (q.asRead order), s') ∧
      Serving chunks e k m outlet m record s' := by
  have hfeed : (readRequest ndebug order).run
      (⟨(chunks.flatten.take m).drop n, none⟩ : Feed) = .ok (.ok (q.asRead order), ⟨[], none⟩) :=
    run_readRequest_eq_ok_iff.mpr ⟨q, [], hq, by rw [hbytes, List.append_nil], rfl, rfl⟩
  rcases (readRequest_bisimilar (bounded_readsAlike hne hm) 0 ndebug order _ _
    ⟨n, hn, rfl, h⟩).cases with ⟨_, _, _, s', hrun, hrun', rfl, n', hn', rfl, h'⟩ |
      ⟨stop, hrun, -⟩ | ⟨stop, hrun, -⟩
  · obtain ⟨rfl, hleft⟩ := Prod.mk.inj (Except.ok.inj (hfeed.symm.trans hrun))
    refine ⟨s', hrun', ?_⟩
    have hlen := congrArg (fun f : Feed => f.unread.length) hleft
    dsimp only at hlen
    rw [List.length_nil, List.length_drop, List.length_take_of_le hm] at hlen
    obtain rfl : n' = m := by omega
    exact h'
  · cases hfeed.symm.trans hrun
  · cases hfeed.symm.trans hrun

end Serving

/-! ## What is handed over -/

section Handover

variable {chunks : List Bytes} {e : Error} {k : Nat} {outlet : Outlet} {methods data : Bytes}
  {q : Query} {ndebug : Bool} {order : ByteOrder} {net : Network} {addr : Bytes} {remote : Stream}

/-- How much the server reads for the exchange. -/
def asked (methods : Bytes) (q : Query) : Nat := (greeting methods ++ q.encode).length

theorem length_encode_le {address : Address} (h : address.Readable) :
    address.encode.length ≤ 128 := by
  cases address with
  | ipv4 a b c d => exact (by decide : 4 ≤ 128)
  | domain name short =>
    have hlt : name.length < 128 := h
    exact hlt
  | ipv6 bytes =>
    rw [Address.encode, Vector.length_toList]
    decide

theorem asked_lt (hmethods : methods.length < 128) (hq : q.Readable ndebug) :
    asked methods q < bufSize := by
  have haddress := length_encode_le hq.2
  have hport : (portBytes q.port).length = 2 := rfl
  have hasked : asked methods q = 2 + methods.length + (4 + (q.address.encode.length + 2)) := by
    simp only [asked, greeting, Query.encode, List.length_append, List.length_cons, hport,
      List.length_nil]
    omega
  unfold bufSize
  omega

/-- The exchange through the buffers, up to what `connect` spawns. -/
theorem run_handleProxy (hne : ∀ x ∈ chunks, x ≠ []) (hout : outlet.AllOrNothing)
    (hmethods : methods.length < 128) (hq : q.Readable ndebug) (hconnect : q.cmd = .connect)
    (hbytes : chunks.flatten = greeting methods ++ (q.encode ++ data))
    (hresolve : net.resolve (q.asRead order).addr (Http.decimal (q.asRead order).port) = .ok addr)
    (hremote : net.connect addr (q.asRead order).port = .ok remote) :
    ∃ s, (handleProxy ndebug order (Server.connect net)).run
        (Server.accept ⟨.closing chunks k e, outlet⟩) =
        .ok ((), { s with spawned := [⟨s.framed.bufferedReader.io, remote.writer⟩,
          ⟨remote.reader, s.framed.bufferedWriter.io⟩] }) ∧
      Serving chunks e k (asked methods q) outlet (asked methods q)
        ⟨outlet.taken ++ (methodReply ++ requestReply),
          outlet.taken ++ (methodReply ++ requestReply)⟩ s := by
  have hm : asked methods q ≤ chunks.flatten.length := by
    rw [hbytes, ← List.append_assoc, List.length_append]
    exact Nat.le_add_right _ _
  have hgreeting : (greeting methods).length ≤ asked methods q := by
    rw [asked, List.length_append]
    exact Nat.le_add_right _ _
  have h₀ : Serving chunks e k (asked methods q) outlet 0 ⟨outlet.taken, outlet.taken⟩
      (Server.accept ⟨.closing chunks k e, outlet⟩) :=
    ⟨⟨0, BufReader.through_new e k (by decide) hne, fun _ _ _ => Nat.zero_le _⟩, takes_new hout,
      rfl⟩
  obtain ⟨s₁, hauth, h₁⟩ := h₀.run_authMethods hne hm hmethods hbytes (by omega)
  rw [Nat.zero_add] at h₁
  have hrequest : (chunks.flatten.take (asked methods q)).drop (greeting methods).length =
      q.encode := by
    rw [hbytes, ← List.append_assoc, asked, List.take_left, List.drop_left]
  obtain ⟨s₂, hread, h₂⟩ := h₁.run_readRequest order hne hm hq hrequest hgreeting
  obtain ⟨s₃, hreply, h₃⟩ := h₂.run_writeReply order
  have hspawn : (Server.connect net (q.asRead order)).run s₃ = .ok (.ok (),
      { s₃ with spawned := [⟨s₃.framed.bufferedReader.io, remote.writer⟩,
        ⟨remote.reader, s₃.framed.bufferedWriter.io⟩] }) := by
    unfold Server.connect
    rw [hresolve]
    dsimp only
    rw [hremote]
    show Except.ok (_, { s₃ with spawned := s₃.spawned ++ _ }) = _
    rw [h₃.spawned]
    rfl
  refine ⟨s₃, ?_, by simpa only [List.append_assoc] using h₃⟩
  unfold handleProxy
  rw [Prog.run_bind_of_ok hauth]
  dsimp only
  rw [Prog.run_bind_of_ok hread]
  dsimp only
  rw [Prog.run_bind_of_ok hreply]
  dsimp only
  rw [show (q.asRead order).cmd = .connect from hconnect]
  exact Prog.run_bind_of_ok hspawn

/-- What is left for the relay, and what is not. -/
theorem Serving.left {record : Record} {s : Server}
    (h : Serving chunks e k (asked methods q) outlet (asked methods q) record s)
    (hne : ∀ x ∈ chunks, x ≠ []) (hmethods : methods.length < 128) (hq : q.Readable ndebug)
    (hbytes : chunks.flatten = greeting methods ++ (q.encode ++ data)) :
    ∃ rest, s.framed.bufferedReader.io = .closing rest k e ∧ (∀ x ∈ rest, x ≠ []) ∧
      data = s.framed.bufferedReader.rStream.rSlice ++ rest.flatten ∧
      (s.framed.bufferedReader.rStream.rSlice = [] ↔ Edge chunks (asked methods q)) := by
  obtain ⟨f, hthrough, hearly⟩ := h.reader
  refine ⟨dropPieces f chunks, hthrough.io, ne_nil_of_mem_dropPieces hne f, ?_,
    hthrough.slice_nil_iff (asked_lt hmethods hq) fun hedge => hearly _ hedge (Nat.le_refl _)⟩
  have hunread := hthrough.unread
  rw [hbytes, ← List.append_assoc, asked, List.drop_left] at hunread
  rw [← hunread, BufReader.unread, hthrough.io, Inlet.undelivered_closing]

/-- **What the client sends behind its request** is what `connect` leaves in the buffer, and
what the relay reads. Nothing is left in the buffer exactly if one of the chunks the server
received ended with the request. -/
theorem handover_iff (hne : ∀ x ∈ chunks, x ≠ []) (hout : outlet.AllOrNothing)
    (hmethods : methods.length < 128) (hq : q.Readable ndebug) (hconnect : q.cmd = .connect)
    (hbytes : chunks.flatten = greeting methods ++ (q.encode ++ data))
    (hresolve : net.resolve (q.asRead order).addr (Http.decimal (q.asRead order).port) = .ok addr)
    (hremote : net.connect addr (q.asRead order).port = .ok remote) :
    ∃ s outbound inbound, (handleProxy ndebug order (Server.connect net)).run
        (Server.accept ⟨.closing chunks k e, outlet⟩) = .ok ((), s) ∧
      s.spawned = [outbound, inbound] ∧ outbound.writer = remote.writer ∧
      inbound.reader = remote.reader ∧
      data = s.framed.bufferedReader.rStream.rSlice ++ outbound.reader.undelivered ∧
      (s.framed.bufferedReader.rStream.rSlice = [] ↔ Edge chunks (asked methods q)) := by
  obtain ⟨s, hrun, h⟩ := run_handleProxy (k := k) (e := e) hne hout hmethods hq hconnect hbytes
    hresolve hremote
  obtain ⟨rest, hio, -, hdata, hnil⟩ := h.left hne hmethods hq hbytes
  refine ⟨_, _, _, hrun, rfl, rfl, rfl, ?_, hnil⟩
  rw [hio, Inlet.undelivered_closing]
  exact hdata

/-- **From the first byte to the last**: when neither coroutine can go on any more and no
write failed, the client has got the two answers and everything the far side sent, and the
far side has got everything the client sent behind its request exactly if one of the chunks
ended with the request. No order of the coroutines' steps makes a difference. Neither side
is read 0 bytes from, and a write takes all it is given. -/
theorem proxied_iff {far : List Bytes} {l : Nat} {e' : Error} {farOutlet : Outlet}
    (hne : ∀ x ∈ chunks, x ≠ []) (hfar : ∀ x ∈ far, x ≠ []) (hout : outlet.Willing)
    (hfarOut : farOutlet.Willing) (hmethods : methods.length < 128) (hq : q.Readable ndebug)
    (hconnect : q.cmd = .connect)
    (hbytes : chunks.flatten = greeting methods ++ (q.encode ++ data))
    (hresolve : net.resolve (q.asRead order).addr (Http.decimal (q.asRead order).port) = .ok addr)
    (hremote : net.connect addr (q.asRead order).port = .ok ⟨.closing far l e', farOutlet⟩) :
    ∃ s outbound inbound, (handleProxy ndebug order (Server.connect net)).run
        (Server.accept ⟨.closing chunks k e, outlet⟩) = .ok ((), s) ∧
      s.spawned = [outbound, inbound] ∧
      ∀ (w : TcpOwnership.World) (i j : Nat) (turns : List Direction) (r : Relay),
        Run (Relay.step ndebug) (fun _ _ => True) (.start w i j outbound inbound) turns r →
        r.outbound.step ndebug = none → r.inbound.step ndebug = none →
        r.inbound.pipe.writer.taken =
            outlet.taken ++ (methodReply ++ requestReply) ++ far.flatten ∧
          (r.outbound.pipe.writer.taken = farOutlet.taken ++ data ↔
            Edge chunks (asked methods q)) := by
  have hall : ∀ {o : Outlet}, o.Willing → o.AllOrNothing := fun h i => Or.inl (h i)
  obtain ⟨s, hrun, h⟩ := run_handleProxy (k := k) (e := e) hne (hall hout) hmethods hq hconnect
    hbytes hresolve hremote
  obtain ⟨rest, hio, hrest, hdata, hnil⟩ := h.left hne hmethods hq hbytes
  refine ⟨_, _, _, hrun, rfl, ?_⟩
  intro w i j turns r hturns hstuck hstuck'
  rw [hio] at hturns
  have hbacks := h.writer.backs hout
  have htaken := hbacks.taken_eq rfl
  obtain ⟨houtbound, hinbound⟩ := Relay.carries_of_run hrest hfar (hall hfarOut)
    (hall hbacks.willing) hturns
  have hfarTaken : r.outbound.pipe.writer.taken = _ := houtbound.taken_of_stuck hfarOut hstuck
  have hnearTaken : r.inbound.pipe.writer.taken = _ :=
    hinbound.taken_of_stuck hbacks.willing hstuck'
  rw [hfarTaken, hnearTaken, htaken, ← hnil]
  refine ⟨rfl, ?_⟩
  rw [hdata, List.append_cancel_left_eq]
  constructor
  · intro heq
    have hlen := congrArg List.length heq
    rw [List.length_append] at hlen
    exact List.length_eq_zero_iff.mp (by omega)
  · intro hempty
    rw [hempty, List.nil_append]

/-! ### A client that does not wait -/

/-- A name server that knows every name, and a far side that answers with one byte. -/
def oneByte : Network where
  resolve addr _ := .ok addr
  connect _ _ := .ok ⟨.closing [[9]] 1 .unexpectedEOF, .steady⟩

/-- The request for `127.0.0.1:80`. -/
def loopback : Query := ⟨.connect, 0, .ipv4 127 0 0 1, 80⟩

/-- Its first byte of data comes with the request. -/
theorem handover_iff_eager : ∃ s outbound inbound,
    (handleProxy false .littleEndian (Server.connect oneByte)).run (Server.accept
      ⟨.closing [[5, 1, 0], [5, 1, 0, 1, 127, 0, 0, 1, 0, 80, 71]] 0 .unexpectedEOF, .steady⟩) =
        .ok ((), s) ∧
    s.spawned = [outbound, inbound] ∧ outbound.writer = Outlet.steady ∧
    inbound.reader = .closing [[9]] 1 .unexpectedEOF ∧
    ([71] : Bytes) = s.framed.bufferedReader.rStream.rSlice ++ outbound.reader.undelivered ∧
    (s.framed.bufferedReader.rStream.rSlice = [] ↔
      Edge [[5, 1, 0], [5, 1, 0, 1, 127, 0, 0, 1, 0, 80, (71 : Byte)]] (asked [0] loopback)) :=
  have hchunks : ∀ x ∈ [[5, 1, 0], [5, 1, 0, 1, 127, 0, 0, 1, 0, 80, (71 : Byte)]], x ≠ [] := by
    decide
  have hremote : oneByte.connect (ascii "127.0.0.1") (loopback.asRead .littleEndian).port =
      .ok ⟨.closing [[9]] 1 .unexpectedEOF, .steady⟩ := rfl
  handover_iff (q := loopback) hchunks (fun _ => Or.inl rfl)
    (show ([0] : Bytes).length < 128 by decide) ⟨Or.inr rfl, trivial⟩ rfl rfl rfl hremote

theorem proxied_iff_eager : ∃ s outbound inbound,
    (handleProxy false .littleEndian (Server.connect oneByte)).run (Server.accept
      ⟨.closing [[5, 1, 0], [5, 1, 0, 1, 127, 0, 0, 1, 0, 80, 71]] 0 .unexpectedEOF, .steady⟩) =
        .ok ((), s) ∧
    s.spawned = [outbound, inbound] ∧
    ∀ (w : TcpOwnership.World) (i j : Nat) (turns : List Direction) (r : Relay),
      Run (Relay.step false) (fun _ _ => True) (.start w i j outbound inbound) turns r →
      r.outbound.step false = none → r.inbound.step false = none →
      r.inbound.pipe.writer.taken =
          Outlet.steady.taken ++ (methodReply ++ requestReply) ++ [[9]].flatten ∧
        (r.outbound.pipe.writer.taken = Outlet.steady.taken ++ [71] ↔
          Edge [[5, 1, 0], [5, 1, 0, 1, 127, 0, 0, 1, 0, 80, (71 : Byte)]] (asked [0] loopback)) :=
  have hchunks : ∀ x ∈ [[5, 1, 0], [5, 1, 0, 1, 127, 0, 0, 1, 0, 80, (71 : Byte)]], x ≠ [] := by
    decide
  have hfar : ∀ x ∈ [([9] : Bytes)], x ≠ [] := by decide
  proxied_iff (q := loopback) hchunks hfar Outlet.willing_steady Outlet.willing_steady
    (show ([0] : Bytes).length < 128 by decide) ⟨Or.inr rfl, trivial⟩ rfl rfl rfl rfl

end Handover

end Uvio.Socks5
