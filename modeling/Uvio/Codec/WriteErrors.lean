import Uvio.Codec.Watched
import Uvio.Codec.Websocket
import Uvio.Codec.HttpMessage
import Uvio.Io.AnyWriter

/-!
# Messages that are not all sent

`WebsocketCodec::encode`, `HttpCodec::encode` of a request and
`HttpCodec::websocket_handshake` write a message piece by piece and look at none of
the results. The two HTTP encoders return what the flush behind the pieces returns; the
websocket encoder does not look at that either.

- `write_ready`, `flush_ready`: what becomes of one piece, and of what is buffered. A
  piece that was not taken is never made up for.
- `sends_pieces`: the same for all pieces of a message.
- `reports_iff`: when the result of an encoder tells whether the message was sent.
-/

namespace Uvio.Io.BufWriter

open Program

/-- A writer of the size of an `int` over an outlet that takes each write or fails it. -/
structure Ready (w : BufWriter) : Prop where
  valid : w.wStream.Valid
  capacity : w.wStream.capacity ≤ intMax
  allOrNothing : w.io.AllOrNothing

theorem ready_new {io : Outlet} {size : Nat} (hio : io.AllOrNothing) (h : size ≤ intMax) :
    (new io size).Ready where
  valid := (StreamBuffer.cut_new size).valid
  capacity := List.length_replicate.trans_le h
  allOrNothing := hio

/-- All of the piece is accepted: there is room for it in the buffer, or the underlying
writes succeed. -/
def Taken (piece : Bytes) (w : BufWriter) : Prop :=
  FitsIfShort piece w ∧ (w.wStream.wRemaining < castInt piece.length →
    w.io.plan w.io.calls = .all ∧
      (w.wStream.rSlice ≠ [] → w.io.plan (w.io.calls + 1) = .all))

/-- There is something to flush, and its write fails. -/
def FlushFails (w : BufWriter) : Prop :=
  w.wStream.rSlice ≠ [] ∧ ∃ e, w.io.plan w.io.calls = .fail e

variable {w : BufWriter} {pre mid post piece : Bytes}

/-- A piece that has room as an `int` only is cut off where the buffer ends. -/
theorem write_cut_off (h : w.wStream.Cut pre mid post) (hw : w.Ready)
    (hfit : castInt piece.length ≤ w.wStream.wRemaining) (hlong : post.length < piece.length) :
    ∃ k w', (write piece).run w = .ok (.ok k, w') ∧ w'.Ready ∧
      w'.out.length < w.out.length + piece.length := by
  have hrem := h.wRemaining_of_le hw.capacity
  have hroom := h.wSliceSize_of_le hw.capacity
  have hlen : (piece.take post.length).length = post.length :=
    List.length_take_of_le (Nat.le_of_lt hlong)
  have hfill := h.fill (hlen.trans_le hroom.ge)
  have hstored : (w.wStream.readFrom piece).2
      = (w.wStream.store (piece.take post.length)).wIncrease (piece.take post.length).length := by
    show (w.wStream.store (piece.take (min _ _))).wIncrease (min _ _) = _
    rw [h.castSize_wRemaining (hrem ▸ Int.natCast_nonneg _), hroom,
      Nat.min_eq_left (Nat.le_of_lt hlong), hlen]
  refine ⟨_, _, run_write_buffered hfit, ⟨?_, ?_, hw.allOrNothing⟩, ?_⟩
  · rw [hstored]
    exact hfill.valid
  · refine Nat.le_trans (Nat.le_of_eq ?_) hw.capacity
    show (w.wStream.readFrom piece).2.buf.length = w.wStream.buf.length
    rw [hstored, hfill.length, h.length]
    simp only [List.length_append, List.length_drop, hlen]
    omega
  · show (w.io.taken ++ (w.wStream.readFrom piece).2.rSlice).length < _
    rw [hstored, hfill.rSlice, out_of_cut h]
    simp only [List.length_append, hlen]
    omega

/-- **One piece**: either all of it is accepted, or the write fails, or some of it is
missing for good. -/
theorem write_ready (hw : w.Ready) (piece : Bytes) :
    ∃ ret w', (write piece).run w = .ok (ret, w') ∧ w'.Ready ∧
      w'.out.length ≤ w.out.length + piece.length ∧
      (Taken piece w → (∃ k, ret = .ok k) ∧ w'.out = w.out ++ piece) ∧
      (¬ Taken piece w → (∃ e, ret = .error e) ∨
        w'.out.length < w.out.length + piece.length) := by
  obtain ⟨pre, mid, post, h⟩ := hw.valid.cut
  have hrem := h.wRemaining_of_le hw.capacity
  have hready : ∀ {ret w'}, Accepts piece w ret w' → w'.Ready := fun hacc =>
    ⟨hacc.valid, hacc.capacity.trans_le hw.capacity, hw.allOrNothing.of_plan hacc.plan⟩
  by_cases hfit : castInt piece.length ≤ w.wStream.wRemaining
  · by_cases hlong : (piece.length : Int) ≤ w.wStream.wRemaining
    · obtain ⟨w', hrun, hacc⟩ := buffered_any h hlong
      have hout : w'.out = w.out ++ piece := hacc.appends
      refine ⟨_, w', hrun, hready hacc, ?_, fun _ => ⟨⟨_, rfl⟩, hout⟩, fun hnot => ?_⟩
      · rw [hout, List.length_append]
      · exact absurd ⟨fun _ => hlong, fun hlt => absurd hfit (Int.not_le.mpr hlt)⟩ hnot
    · obtain ⟨k, w', hrun, hready', hlt⟩ := write_cut_off h hw hfit (by omega)
      exact ⟨_, w', hrun, hready', Nat.le_of_lt hlt, fun htaken => absurd (htaken.1 hfit) hlong,
        fun _ => Or.inr hlt⟩
  · have hlt := Int.not_le.mp hfit
    obtain ⟨ret, w', hrun, hacc, hret⟩ := unbuffered_any h hw.allOrNothing hlt
    have happ := hacc.appends
    rcases hret with ⟨rfl, -, hplan, hplan'⟩ | ⟨⟨e, rfl⟩, hwhy⟩
    · have hout : w'.out = w.out ++ piece := happ
      refine ⟨_, w', hrun, hready hacc, ?_, fun _ => ⟨⟨_, rfl⟩, hout⟩, fun hnot => ?_⟩
      · rw [hout, List.length_append]
      · exact absurd ⟨fun hle => absurd hle hfit, fun _ => ⟨hplan, h.rSlice ▸ hplan'⟩⟩ hnot
    · have hout : w'.out = w.out := happ
      refine ⟨_, w', hrun, hready hacc, ?_, fun htaken => ?_, fun _ => Or.inl ⟨e, rfl⟩⟩
      · rw [hout]
        exact Nat.le_add_right _ _
      · -- a piece that does not fit is not empty, and its writes succeed
        obtain ⟨hplan, hplan'⟩ := htaken.2 hlt
        rcases hwhy with rfl | ⟨e, hfail⟩ | ⟨hmid, e, hfail⟩
        · exact absurd hlt (Int.not_lt.mpr (hrem ▸ Int.natCast_nonneg _))
        · rw [hplan] at hfail
          cases hfail
        · rw [hplan' (h.rSlice ▸ hmid)] at hfail
          cases hfail

/-- **The flush** fails, or everything that was accepted has been taken. -/
theorem flush_ready (hw : w.Ready) :
    ∃ ret w', flush.run w = .ok (ret, w') ∧
      (FlushFails w → ∃ e, ret = .error e) ∧
      (¬ FlushFails w → ret = .ok () ∧ w'.io.taken = w.out) := by
  obtain ⟨pre, mid, post, h⟩ := hw.valid.cut
  by_cases hnil : w.wStream.rSlice = []
  · refine ⟨_, _, run_flush_nil hnil, fun hfails => absurd hnil hfails.1, fun _ => ⟨rfl, ?_⟩⟩
    show w.io.taken = w.io.taken ++ w.wStream.rSlice
    rw [hnil, List.append_nil]
  · rcases hw.allOrNothing w.io.calls with hplan | ⟨e, hplan⟩
    · refine ⟨_, _, run_flush_took h hnil (Outlet.run_write_all hplan hnil), ?_,
        fun _ => ⟨rfl, rfl⟩⟩
      rintro ⟨-, e, hfail⟩
      rw [hplan] at hfail
      cases hfail
    · exact ⟨_, _, run_flush_failed hnil (Outlet.run_write_fail hplan), fun _ => ⟨e, rfl⟩,
        fun hnot => absurd ⟨hnil, e, hplan⟩ hnot⟩

end Uvio.Io.BufWriter

namespace Uvio.Codec

open Program Io BufWriter Http Net.Http

theorem applyMask_eq (ρ : Type) {data : Bytes} (mask : Bytes) (h : data.length < 2 ^ 32) :
    (Websocket.applyMask data mask : Task ρ Bytes)
      = pure (Websocket.masked mask data.length data) := by
  funext s
  exact Websocket.run_applyMask mask h s

/-! ## Messages in pieces -/

section Pieces

variable {ω : Type} [Writer ω]

/-- Write the pieces one after the other, whatever becomes of them. -/
def writePieces : List Bytes → Task ω Unit
  | [] => pure ()
  | piece :: pieces => do
    let _ ← Writer.write piece
    writePieces pieces

theorem writePieces_append (pieces pieces' : List Bytes) :
    (writePieces (pieces ++ pieces') : Task ω Unit)
      = writePieces pieces >>= fun _ => writePieces pieces' := by
  induction pieces with
  | nil => rfl
  | cons piece pieces ih =>
    rw [List.cons_append, writePieces, writePieces, ih, bind_assoc]

theorem writeHeaders_eq (entries : List (Bytes × Bytes)) :
    (writeHeaders entries : Task ω Unit) = writePieces (entries.map headerLine) := by
  induction entries with
  | nil => rfl
  | cons entry entries ih => rw [writeHeaders, List.map_cons, writePieces, ih]

theorem finishHead_eq (headers : HttpHeader) :
    (finishHead headers : Task ω _)
      = writePieces (headers.inner.map headerLine ++ [crlf]) >>= fun _ => Writer.flush := by
  unfold finishHead
  rw [writeHeaders_eq, writePieces_append, bind_assoc]
  refine bind_congr fun _ => ?_
  rw [writePieces, writePieces, bind_assoc]
  refine bind_congr fun _ => ?_
  -- the result of the flush is handed on as it is
  rw [pure_bind]
  conv_rhs => rw [← bind_pure (Writer.flush : Task ω (Result Unit))]
  refine bind_congr fun ret => ?_
  cases ret with
  | error e => rfl
  | ok u => rfl

/-- The pieces of a request, as `encode` writes them. -/
def requestPieces (req : HttpRequest) : List Bytes :=
  (requestStart req ++ crlf) :: (req.headers.inner.map headerLine ++ [crlf])

theorem encodeRequest_eq (req : HttpRequest) :
    (encodeRequest req : Task ω _) = writePieces (requestPieces req) >>= fun _ => Writer.flush := by
  unfold encodeRequest
  rw [finishHead_eq, requestPieces, writePieces, bind_assoc]
  rfl

theorem flatten_headerLines (entries : List (Bytes × Bytes)) :
    (entries.map headerLine ++ [crlf]).flatten = headerBlock entries := by
  rw [List.flatten_append, List.flatten_singleton]
  rfl

theorem flatten_requestPieces (req : HttpRequest) :
    (requestPieces req).flatten = requestWire req := by
  rw [requestPieces, List.flatten_cons, flatten_headerLines]
  rfl

/-- A handshake on the wire. -/
def handshakeWire (resp : HttpResponse) : Bytes :=
  ascii "HTTP/1.1 101 Switching Protocols" ++ crlf ++ headerBlock resp.headers.inner

/-- The pieces of a handshake, as `websocket_handshake` writes them. -/
def handshakePieces (resp : HttpResponse) : List Bytes :=
  (ascii "HTTP/1.1 101 Switching Protocols" ++ crlf) ::
    (resp.headers.inner.map headerLine ++ [crlf])

theorem websocketHandshake_eq (resp : HttpResponse) :
    (websocketHandshake resp : Task ω _)
      = writePieces (handshakePieces resp) >>= fun _ => Writer.flush := by
  unfold websocketHandshake
  rw [finishHead_eq, handshakePieces, writePieces, bind_assoc]

theorem flatten_handshakePieces (resp : HttpResponse) :
    (handshakePieces resp).flatten = handshakeWire resp := by
  rw [handshakePieces, List.flatten_cons, flatten_headerLines]
  rfl

/-- A frame on the wire. -/
def frameWire (order : Net.ByteOrder) (clientSide : Bool) (frame : Websocket.WebsocketFrame) :
    Bytes :=
  Websocket.header order clientSide frame.opcode frame.payloadLength
    ++ Websocket.body clientSide frame.message

/-- The pieces of a frame, as `encode` writes them. -/
def framePieces (order : Net.ByteOrder) (clientSide : Bool) (frame : Websocket.WebsocketFrame) :
    List Bytes :=
  Websocket.header order clientSide frame.opcode frame.payloadLength ::
    if clientSide then
      [Websocket.encodeMask,
        Websocket.masked Websocket.encodeMask frame.message.length frame.message]
    else [frame.message]

theorem flatten_framePieces (order : Net.ByteOrder) (clientSide : Bool)
    (frame : Websocket.WebsocketFrame) :
    (framePieces order clientSide frame).flatten = frameWire order clientSide frame := by
  unfold framePieces frameWire Websocket.body
  cases clientSide with
  | false => simp
  | true => simp

theorem encode_eq (ω : Type) [Writer ω] (order : Net.ByteOrder) {clientSide : Bool}
    {frame : Websocket.WebsocketFrame} (h : clientSide = true → frame.message.length < 2 ^ 32) :
    ∃ span, (Websocket.encode order clientSide frame : Task ω _)
      = writePieces (framePieces order clientSide frame) >>= fun _ =>
          Writer.flush >>= fun _ => pure (span, .ok ()) := by
  unfold Websocket.encode framePieces
  cases clientSide with
  | false =>
    refine ⟨frame.message, ?_⟩
    simp only [writePieces, bind_assoc, pure_bind, Bool.false_eq_true, if_false]
  | true =>
    refine ⟨Websocket.masked Websocket.encodeMask frame.message.length frame.message, ?_⟩
    have hmask := applyMask_eq ω Websocket.encodeMask (h rfl)
    unfold Websocket.encodeMask at hmask ⊢
    simp only [writePieces, bind_assoc, pure_bind, if_true, hmask]

/-- A client never gets through with a message of 2^32 bytes. -/
theorem encode_endless (order : Net.ByteOrder) {frame : Websocket.WebsocketFrame}
    (h : 2 ^ 32 ≤ frame.message.length) (s : ω) :
    Meets (Websocket.encode order true frame) s (fun _ _ => False) fun _ => True := by
  unfold Websocket.encode
  refine (Meets.trivial _ s).bind (fun _ he => he) ?_
  rintro - s₁ -
  rw [if_pos rfl]
  refine (Meets.trivial _ s₁).bind (fun _ he => he) ?_
  rintro - s₂ -
  exact (meets_of_error (Prog.run_bind_of_error
    (Websocket.run_applyMask_of_ge _ h s₂))).mpr True.intro

end Pieces

/-! ## What becomes of the pieces -/

section Reports

variable {w w₁ : BufWriter} {pieces : List Bytes} {fs : List Error}

/-- What the pieces come to: the writer and the failures behind the last of them. -/
structure SentOff (pieces : List Bytes) (w : BufWriter) (fs : List Error) (w₁ : BufWriter)
    (fs₁ : List Error) : Prop where
  run : (writePieces pieces).run w = .ok ((), w₁)
  watched : (writePieces pieces).run (⟨w, fs⟩ : Watched BufWriter) = .ok ((), ⟨w₁, fs₁⟩)
  ready : w₁.Ready
  failures : fs ⊆ fs₁
  length : w₁.out.length ≤ w.out.length + pieces.flatten.length
  taken : EachWrite Taken pieces w → fs₁ = fs ∧ w₁.out = w.out ++ pieces.flatten
  missing : ¬ EachWrite Taken pieces w →
    fs₁ ≠ [] ∨ w₁.out.length < w.out.length + pieces.flatten.length

/-- **All pieces are accepted, or one write failed, or bytes are missing.** -/
theorem sends_pieces (hw : w.Ready) (pieces : List Bytes) (fs : List Error) :
    ∃ w₁ fs₁, SentOff pieces w fs w₁ fs₁ := by
  induction pieces generalizing w fs with
  | nil =>
    refine ⟨w, fs, rfl, rfl, hw, List.Subset.refl _, Nat.le_refl _,
      fun _ => ⟨rfl, (List.append_nil _).symm⟩, fun hnot => absurd True.intro hnot⟩
  | cons piece pieces ih =>
    obtain ⟨ret, w', hrun, hw', hlen, htaken, hmissing⟩ := write_ready hw piece
    obtain ⟨w₁, fs₁, hsent⟩ := ih hw' (fs ++ Watched.failure ret)
    have hwatched : (Writer.write piece).run (⟨w, fs⟩ : Watched BufWriter)
        = .ok (ret, ⟨w', fs ++ Watched.failure ret⟩) := Watched.run_watch_of_ok hrun
    have hflat : (piece :: pieces).flatten.length = piece.length + pieces.flatten.length := by
      rw [List.flatten_cons, List.length_append]
    have hall := eachWrite_cons Taken pieces hrun
    refine ⟨w₁, fs₁, ?_, ?_, hsent.ready, ?_, ?_, ?_, ?_⟩
    · exact (Prog.run_bind_of_ok hrun).trans hsent.run
    · exact (Prog.run_bind_of_ok hwatched).trans hsent.watched
    · exact List.Subset.trans (List.subset_append_left _ _) hsent.failures
    · have := hsent.length
      omega
    · intro heach
      obtain ⟨htake, hrest⟩ := hall.mp heach
      obtain ⟨⟨k, rfl⟩, hout⟩ := htaken htake
      obtain ⟨hfs, hout₁⟩ := hsent.taken hrest
      refine ⟨hfs.trans (List.append_nil _), ?_⟩
      rw [hout₁, hout, List.flatten_cons, List.append_assoc]
    · intro hnot
      have hlen₁ := hsent.length
      by_cases htake : Taken piece w
      · -- this piece was accepted, so one of the others was not
        have hrest : ¬ EachWrite Taken pieces w' := fun hrest => hnot (hall.mpr ⟨htake, hrest⟩)
        refine (hsent.missing hrest).imp_right fun hlt => ?_
        omega
      · rcases hmissing htake with ⟨e, rfl⟩ | hlt
        · exact Or.inl (List.ne_nil_of_mem
            (hsent.failures (List.mem_append_right _ List.mem_cons_self)))
        · exact Or.inr (by omega)

/-- What was taken of a message is known: a failure behind `encode` is in its result, and
if that is a success all of the message has reached the underlying writer. -/
def Reports {α : Type} (result : α → Result Unit) (encode : Task (Watched BufWriter) α)
    (message : Bytes) (w : BufWriter) : Prop :=
  ∀ out w' fs, encode.run ⟨w, []⟩ = .ok (out, ⟨w', fs⟩) →
    (fs ≠ [] → ∃ e, result out = .error e) ∧
    (result out = .ok () → w'.io.taken = w.out ++ message)

/-- The flush behind the pieces fails. -/
def FlushFailsAfter (pieces : List Bytes) (w : BufWriter) : Prop :=
  ∃ w₁, (writePieces pieces).run w = .ok ((), w₁) ∧ FlushFails w₁

theorem SentOff.flushFailsAfter_iff {fs₁ : List Error} (h : SentOff pieces w fs w₁ fs₁) :
    FlushFailsAfter pieces w ↔ FlushFails w₁ := by
  unfold FlushFailsAfter
  rw [h.run]
  constructor
  · rintro ⟨_, heq, hfails⟩
    cases heq
    exact hfails
  · exact fun hfails => ⟨w₁, rfl, hfails⟩

/-- Behind the pieces and a flush that succeeded, no failure and no missing byte means
that every piece was accepted. -/
theorem SentOff.each_iff {fs₁ : List Error} (h : SentOff pieces w [] w₁ fs₁) :
    (fs₁ = [] ∧ w₁.out = w.out ++ pieces.flatten) ↔ EachWrite Taken pieces w := by
  constructor
  · rintro ⟨hfs, hout⟩
    by_contra hnot
    rcases h.missing hnot with hne | hlt
    · exact hne hfs
    · rw [hout, List.length_append] at hlt
      exact Nat.lt_irrefl _ hlt
  · exact h.taken

/-- The pieces, and the flush behind them. -/
theorem sends_off (hw : w.Ready) (pieces : List Bytes) :
    ∃ w₁ fs₁ ret w₂, SentOff pieces w [] w₁ fs₁ ∧
      (writePieces pieces >>= fun _ => Writer.flush : Task (Watched BufWriter) _).run ⟨w, []⟩
        = .ok (ret, ⟨w₂, fs₁ ++ Watched.failure ret⟩) ∧
      (FlushFails w₁ → ∃ e, ret = .error e) ∧
      (¬ FlushFails w₁ → ret = .ok () ∧ w₂.io.taken = w₁.out) := by
  obtain ⟨w₁, fs₁, hsent⟩ := sends_pieces hw pieces []
  obtain ⟨ret, w₂, hflush, hfails, hpasses⟩ := flush_ready hsent.ready
  have hwatched : (Writer.flush).run (⟨w₁, fs₁⟩ : Watched BufWriter)
      = .ok (ret, ⟨w₂, fs₁ ++ Watched.failure ret⟩) := Watched.run_watch_of_ok hflush
  exact ⟨w₁, fs₁, ret, w₂, hsent, (Prog.run_bind_of_ok hsent.watched).trans hwatched, hfails,
    hpasses⟩

/-- **Pieces and a flush whose result is returned.** -/
theorem reports_flushed_iff (hw : w.Ready) (pieces : List Bytes) :
    Reports id (writePieces pieces >>= fun _ => Writer.flush) pieces.flatten w ↔
      EachWrite Taken pieces w ∨ FlushFailsAfter pieces w := by
  obtain ⟨w₁, fs₁, ret, w₂, hsent, hrun, hfails, hpasses⟩ := sends_off hw pieces
  rw [hsent.flushFailsAfter_iff]
  unfold Reports
  rw [hrun]
  by_cases hflushed : FlushFails w₁
  · obtain ⟨e, rfl⟩ := hfails hflushed
    refine ⟨fun _ => Or.inr hflushed, fun _ out w' fs heq => ?_⟩
    cases heq
    refine ⟨fun _ => ⟨e, rfl⟩, fun hok => ?_⟩
    cases hok
  · obtain ⟨rfl, htaken⟩ := hpasses hflushed
    rw [← hsent.each_iff]
    constructor
    · intro h
      obtain ⟨hfail, hall⟩ := h _ _ _ rfl
      refine Or.inl ⟨?_, ?_⟩
      · by_contra hne
        obtain ⟨e, he⟩ := hfail (by simpa [Watched.failure] using hne)
        cases he
      · rw [← htaken]
        exact hall rfl
    · rintro (⟨rfl, hout⟩ | hnot) out w' fs heq
      · cases heq
        exact ⟨fun hne => absurd rfl hne, fun _ => htaken.trans hout⟩
      · exact absurd hnot hflushed

/-- **Pieces and a flush whose result is not looked at**: success is returned. -/
theorem reports_blind_iff (hw : w.Ready) (pieces : List Bytes) (span : Bytes) :
    Reports Prod.snd (writePieces pieces >>= fun _ => Writer.flush >>= fun _ =>
        pure (span, .ok ())) pieces.flatten w ↔
      EachWrite Taken pieces w ∧ ¬ FlushFailsAfter pieces w := by
  obtain ⟨w₁, fs₁, ret, w₂, hsent, hflush, hfails, hpasses⟩ := sends_off hw pieces
  have hrun : (writePieces pieces >>= fun _ => Writer.flush >>= fun _ =>
      pure (span, .ok ()) : Task (Watched BufWriter) (Bytes × Result Unit)).run ⟨w, []⟩
        = .ok ((span, .ok ()), ⟨w₂, fs₁ ++ Watched.failure ret⟩) := by
    rw [← bind_assoc]
    exact Prog.run_bind_of_ok hflush
  rw [hsent.flushFailsAfter_iff, ← hsent.each_iff]
  unfold Reports
  rw [hrun]
  constructor
  · intro h
    obtain ⟨hfail, hall⟩ := h _ _ _ rfl
    have hnone : fs₁ ++ Watched.failure ret = [] := by
      by_contra hne
      obtain ⟨e, he⟩ := hfail hne
      cases he
    obtain ⟨hfs, hret⟩ := List.append_eq_nil_iff.mp hnone
    have hflushed : ¬ FlushFails w₁ := fun hf => by
      obtain ⟨e, rfl⟩ := hfails hf
      cases hret
    refine ⟨⟨hfs, ?_⟩, hflushed⟩
    rw [← (hpasses hflushed).2]
    exact hall rfl
  · rintro ⟨⟨rfl, hout⟩, hflushed⟩ out w' fs heq
    obtain ⟨rfl, htaken⟩ := hpasses hflushed
    cases heq
    exact ⟨fun hne => absurd rfl hne, fun _ => htaken.trans hout⟩

/-- The pieces of a frame, behind which the result says nothing. -/
theorem reports_encode_iff (hw : w.Ready) (order : Net.ByteOrder) (clientSide : Bool)
    (frame : Websocket.WebsocketFrame) :
    Reports Prod.snd (Websocket.encode order clientSide frame)
        (frameWire order clientSide frame) w ↔
      clientSide = true ∧ 2 ^ 32 ≤ frame.message.length ∨
        EachWrite Taken (framePieces order clientSide frame) w ∧
          ¬ FlushFailsAfter (framePieces order clientSide frame) w := by
  by_cases hend : clientSide = true ∧ 2 ^ 32 ≤ frame.message.length
  · obtain ⟨rfl, hge⟩ := hend
    refine ⟨fun _ => Or.inl ⟨rfl, hge⟩, fun _ out w' fs hrun => ?_⟩
    exact ((encode_endless order hge _).of_ok hrun).elim
  · obtain ⟨span, hencode⟩ := encode_eq (Watched BufWriter) order fun hside : clientSide = true =>
      Nat.lt_of_not_le fun hge : 2 ^ 32 ≤ frame.message.length => hend ⟨hside, hge⟩
    rw [hencode, ← flatten_framePieces, reports_blind_iff hw]
    exact ⟨Or.inr, fun h => h.resolve_left hend⟩

/-- **When the result of an encoder tells whether its message was sent.** -/
theorem reports_iff (hw : w.Ready) :
    (∀ order clientSide frame, Reports Prod.snd (Websocket.encode order clientSide frame)
        (frameWire order clientSide frame) w ↔
      clientSide = true ∧ 2 ^ 32 ≤ frame.message.length ∨
        EachWrite Taken (framePieces order clientSide frame) w ∧
          ¬ FlushFailsAfter (framePieces order clientSide frame) w) ∧
    (∀ req, Reports id (encodeRequest req) (requestWire req) w ↔
      EachWrite Taken (requestPieces req) w ∨ FlushFailsAfter (requestPieces req) w) ∧
    (∀ resp, Reports id (websocketHandshake resp) (handshakeWire resp) w ↔
      EachWrite Taken (handshakePieces resp) w ∨ FlushFailsAfter (handshakePieces resp) w) := by
  refine ⟨reports_encode_iff hw, fun req => ?_, fun resp => ?_⟩
  · rw [encodeRequest_eq, ← flatten_requestPieces]
    exact reports_flushed_iff hw _
  · rw [websocketHandshake_eq, ← flatten_handshakePieces]
    exact reports_flushed_iff hw _

/-- A buffer of one byte in front of a socket that fails the first write. -/
def faulty : BufWriter := new ⟨[], 0, fun i => if i = 0 then .fail .unclassified else .all⟩ 1

theorem ready_faulty : faulty.Ready := by
  refine ready_new (fun i => ?_) (by decide)
  dsimp only
  split
  · exact Or.inr ⟨_, rfl⟩
  · exact Or.inl rfl

theorem reports_iff_faulty :
    (∀ order clientSide frame, Reports Prod.snd (Websocket.encode order clientSide frame)
        (frameWire order clientSide frame) faulty ↔
      clientSide = true ∧ 2 ^ 32 ≤ frame.message.length ∨
        EachWrite Taken (framePieces order clientSide frame) faulty ∧
          ¬ FlushFailsAfter (framePieces order clientSide frame) faulty) ∧
    (∀ req, Reports id (encodeRequest req) (requestWire req) faulty ↔
      EachWrite Taken (requestPieces req) faulty ∨ FlushFailsAfter (requestPieces req) faulty) ∧
    (∀ resp, Reports id (websocketHandshake resp) (handshakeWire resp) faulty ↔
      EachWrite Taken (handshakePieces resp) faulty ∨
        FlushFailsAfter (handshakePieces resp) faulty) :=
  reports_iff ready_faulty

/-- The header of a frame, or the first line of a request or a handshake, gets lost; the
rest is sent, and each of the three reports success. -/
theorem not_reports :
    (¬ ∀ w : BufWriter, w.Ready → ∀ order clientSide frame,
      Reports Prod.snd (Websocket.encode order clientSide frame)
        (frameWire order clientSide frame) w) ∧
    (¬ ∀ w : BufWriter, w.Ready → ∀ req, Reports id (encodeRequest req) (requestWire req) w) ∧
    (¬ ∀ w : BufWriter, w.Ready → ∀ resp,
      Reports id (websocketHandshake resp) (handshakeWire resp) w) := by
  refine ⟨fun h => ?_, fun h => ?_, fun h => ?_⟩
  · have hrun : (Websocket.encode .littleEndian false ⟨.text, [104]⟩).run
        (⟨faulty, []⟩ : Watched BufWriter) = .ok (([104], .ok ()), ⟨_, [.unclassified]⟩) := rfl
    obtain ⟨e, he⟩ := (h faulty ready_faulty _ _ _ _ _ _ hrun).1 (by decide)
    cases he
  · have hrun : (encodeRequest ⟨ascii "GET", ascii "/", .empty, []⟩).run
        (⟨faulty, []⟩ : Watched BufWriter) = .ok (.ok (), ⟨_, [.unclassified]⟩) := rfl
    obtain ⟨e, he⟩ := (h faulty ready_faulty _ _ _ _ hrun).1 (by decide)
    cases he
  · have hrun : (websocketHandshake ⟨101, [], .empty, []⟩).run
        (⟨faulty, []⟩ : Watched BufWriter) = .ok (.ok (), ⟨_, [.unclassified]⟩) := rfl
    obtain ⟨e, he⟩ := (h faulty ready_faulty _ _ _ _ hrun).1 (by decide)
    cases he

end Reports

end Uvio.Codec
