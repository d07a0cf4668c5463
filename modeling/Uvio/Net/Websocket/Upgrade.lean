import Uvio.Codec.Conversation
import Uvio.Codec.HttpCuts
import Uvio.Common.Base64Loops
import Uvio.Net.Websocket.Handshake

/-!
# An upgrade from end to end

The client's `handle_websocket` and the server's one, each with a buffered reader and a
buffered writer, over a connection that cuts what they write into any chunks. The headers
are kept in an unordered map, so they may be written in any order.

- `finishHead_simulates`: heads go out through a buffered writer as on an ideal one.
- `find_of_perm`: what `find` gives does not depend on the order.
- `serverHandleWebsocket_run`, `clientHandleWebsocket_run`: each side on its own.
- `upgraded`: both call their message handlers, with what the other one sent behind the
  upgrade still unread.
-/

namespace Uvio.Net.Websocket

open Program Io Codec Codec.Http Net.Http

/-! ## Writing heads -/

section Writing

theorem writeHeaders_simulates {entries : List (Bytes × Bytes)}
    (h : ∀ entry ∈ entries, (headerLine entry).length ≤ intMax) :
    Simulates Backs Eq (writeHeaders entries : Task BufWriter _)
      (writeHeaders entries : Task Record _) := by
  induction entries with
  | nil => exact Simulates.pure rfl
  | cons entry entries ih =>
    refine (write_simulates (h entry List.mem_cons_self)).bind fun _ _ _ => ?_
    exact ih fun e he => h e (List.mem_cons_of_mem _ he)

theorem finishHead_simulates {headers : HttpHeader}
    (h : ∀ entry ∈ headers.inner, (headerLine entry).length ≤ intMax) :
    Simulates Backs Eq (finishHead headers : Task BufWriter _)
      (finishHead headers : Task Record _) := by
  refine (writeHeaders_simulates h).bind_eq fun _ => ?_
  refine (write_simulates (by decide)).bind fun _ _ _ => ?_
  refine flush_simulates.bind_eq ?_
  rintro (e | _)
  · exact Simulates.pure rfl
  · exact Simulates.pure rfl

theorem encodeRequest_simulates {req : HttpRequest}
    (hstart : (requestStart req ++ crlf).length ≤ intMax)
    (h : ∀ entry ∈ req.headers.inner, (headerLine entry).length ≤ intMax) :
    Simulates Backs Eq (encodeRequest req : Task BufWriter _)
      (encodeRequest req : Task Record _) :=
  (write_simulates hstart).bind fun _ _ _ => finishHead_simulates h

theorem websocketHandshake_simulates {resp : HttpResponse}
    (h : ∀ entry ∈ resp.headers.inner, (headerLine entry).length ≤ intMax) :
    Simulates Backs Eq (websocketHandshake resp : Task BufWriter _)
      (websocketHandshake resp : Task Record _) :=
  (write_simulates (by decide)).bind fun _ _ _ => finishHead_simulates h

theorem run_websocketHandshake (resp : HttpResponse) :
    (websocketHandshake resp).run Record.blank =
      .ok (.ok (), ⟨switchingWire resp.headers, switchingWire resp.headers⟩) := by
  unfold websocketHandshake
  rw [Prog.run_bind_of_ok (Record.run_write _ _), run_finishHead]
  rfl

end Writing

/-! ## Headers in any order -/

/-- What `find` gives in any order, if the entries of the key have the same value. -/
theorem find_of_perm {headers reordered : HttpHeader} (h : reordered.inner.Perm headers.inner)
    {key value : Bytes} (hmem : ∃ entry ∈ headers.inner, caseInsensitiveEqual entry.1 key = true)
    (hunique : ∀ entry ∈ headers.inner, caseInsensitiveEqual entry.1 key = true →
      entry.2 = value) : reordered.find key = some value := by
  unfold HttpHeader.find
  cases hfind : reordered.inner.find? fun entry => caseInsensitiveEqual entry.1 key with
  | none =>
    obtain ⟨entry, hentry, hkey⟩ := hmem
    exact absurd hkey (List.find?_eq_none.mp hfind entry (h.symm.subset hentry))
  | some entry =>
    have hkey := List.find?_some hfind
    rw [Option.map_some, hunique entry (h.subset (List.mem_of_find?_eq_some hfind)) hkey]

/-- No header line ends at `n`: each is longer than half of it, and none is as long. -/
theorem not_boundary_of_half {entries : List (Bytes × Bytes)} {n : Nat} (hn : 0 < n)
    (h : ∀ entry ∈ entries, n < 2 * (headerLine entry).length ∧ (headerLine entry).length ≠ n) :
    ¬ Boundary entries n := by
  rintro ⟨front, hfront, hlen⟩
  match front with
  | [] => exact absurd hlen.symm (Nat.ne_of_gt hn)
  | [entry] =>
    rw [List.flatMap_singleton] at hlen
    exact (h entry (hfront.subset List.mem_cons_self)).2 hlen
  | entry :: other :: front =>
    have hentry := (h entry (hfront.subset List.mem_cons_self)).1
    have hother := (h other (hfront.subset (List.mem_cons_of_mem _ List.mem_cons_self))).1
    simp only [List.flatMap_cons, List.length_append] at hlen
    omega

instance (entry : Bytes × Bytes) : Decidable (WellFormedEntry entry) :=
  decidable_of_iff (LineFree entry.1 ∧ 58 ∉ entry.1 ∧ LineFree entry.2 ∧ Trimmed entry.1 ∧
    Trimmed entry.2)
    ⟨fun ⟨hkey, hcolon, hvalue, hkey', hvalue'⟩ => ⟨hkey, hcolon, hvalue, hkey', hvalue'⟩,
      fun h => ⟨h.key, h.noColon, h.value, h.keyTrimmed, h.valueTrimmed⟩⟩

/-- What is asked of the header lines behind a start line of `n` bytes, CRLF included. -/
def Plain (n : Nat) (entry : Bytes × Bytes) : Prop :=
  WellFormedEntry entry ∧ 0 ∉ headerLine entry ∧ (headerLine entry).length ≤ intMax ∧
    n < 2 * (headerLine entry).length ∧ (headerLine entry).length ≠ n

instance (n : Nat) (entry : Bytes × Bytes) : Decidable (Plain n entry) :=
  inferInstanceAs (Decidable (_ ∧ _))

section Plain

variable {start rest : Bytes} {headers : HttpHeader}

theorem plain_text (hstart : 0 ∉ start ++ crlf)
    (h : ∀ entry ∈ headers.inner, Plain (start.length + 2) entry) (hrest : 0 ∉ rest) :
    0 ∉ start ++ crlf ++ headerBlock headers.inner ++ rest := by
  have hlines : 0 ∉ headerBlock headers.inner := by
    simp only [headerBlock, List.mem_append, List.mem_flatMap]
    rintro (⟨entry, hentry, hmem⟩ | hmem)
    · exact (h entry hentry).2.1 hmem
    · exact absurd hmem (by decide)
  simp only [List.mem_append (s := start ++ crlf), List.mem_append (t := rest)]
  rintro ((hmem | hmem) | hmem)
  · exact hstart hmem
  · exact hlines hmem
  · exact hrest hmem

theorem plain_cutProof (hstart : LineFree start)
    (h : ∀ entry ∈ headers.inner, Plain (start.length + 2) entry) :
    CutProof (start ++ crlf ++ headerBlock headers.inner ++ rest) := by
  rw [List.append_assoc]
  refine safe_of_not_boundary hstart (fun entry hentry => (h entry hentry).1) rest ?_
  exact not_boundary_of_half (Nat.succ_pos _) fun entry hentry => (h entry hentry).2.2.2

end Plain

/-- The lines the client sends. -/
theorem plain_request : ∀ entry ∈ upgradeRequest.headers.inner,
    Plain ((requestStart upgradeRequest).length + 2) entry := by decide

/-! ## The key that is sent back -/

theorem mem_encode {message : Bytes} {c : Byte} (h : c ∈ Base64.encode message) :
    isSpace c = false ∧ c ≠ 0 := by
  have hletter : ∀ x : BitVec 6, isSpace (Base64.letter x) = false ∧ Base64.letter x ≠ 0 := by
    decide
  rw [Base64.encode_eq, TextCode.encode, List.mem_append] at h
  rcases h with h | h
  · obtain ⟨x, -, rfl⟩ := List.mem_map.mp h
    exact hletter x
  · obtain rfl := List.eq_of_mem_replicate h
    decide

/-- The key for a digest of 20 bytes. -/
theorem length_encode_digest {digest : Bytes} (h : digest.length = 20) :
    (Base64.encode digest).length = 28 := by
  have hgroups : (8 * digest.length + 6 - 1) / 6 = 27 := by rw [h]
  rw [Base64.encode_eq, TextCode.encode_eq _ hgroups, List.length_append, List.length_map,
    length_groups]
  rfl

/-- The line with the key. -/
theorem plain_accept {digest : Bytes} (h : digest.length = 20) :
    Plain (switchingStart.length + 2) (ascii "Sec-WebSocket-Accept", Base64.encode digest) := by
  have hspace : ∀ c ∈ Base64.encode digest, isSpace c = false := fun c hc => (mem_encode hc).1
  have hend : ∀ c : Byte, isSpace c = false → isLineEnd c = false := by decide
  have hline : headerLine (ascii "Sec-WebSocket-Accept", Base64.encode digest) =
      ascii "Sec-WebSocket-Accept: " ++ (Base64.encode digest ++ crlf) := by
    have hsep : ascii "Sec-WebSocket-Accept: " = ascii "Sec-WebSocket-Accept" ++ [58, 32] := by
      decide
    rw [hsep, headerLine]
    simp only [List.append_assoc]
  have hlen : (headerLine (ascii "Sec-WebSocket-Accept", Base64.encode digest)).length = 52 := by
    rw [hline, List.length_append, List.length_append, length_encode_digest h]
    rfl
  have hkey : LineFree (ascii "Sec-WebSocket-Accept") ∧ 58 ∉ ascii "Sec-WebSocket-Accept" ∧
      Trimmed (ascii "Sec-WebSocket-Accept") := by decide
  refine ⟨⟨hkey.1, hkey.2.1, fun c hc => hend c (hspace c hc), hkey.2.2,
    trimmed_of_forall hspace⟩, ?_, hlen.le.trans (by decide), ?_, ?_⟩
  · rw [hline, List.mem_append, List.mem_append]
    rintro (hc | hc | hc)
    · exact absurd hc (by decide)
    · exact (mem_encode hc).2 rfl
    · exact absurd hc (by decide)
  · rw [hlen]
    decide
  · rw [hlen]
    decide

/-! ## Each side on its own -/

/-- The chunks hold `wire`, and what the peer sent behind it. -/
structure Delivers (chunks : List Bytes) (wire rest : Bytes) (size : Nat) : Prop where
  nonempty : ∀ x ∈ chunks, x ≠ []
  bytes : chunks.flatten = wire ++ rest
  text : 0 ∉ rest
  fits : BufReader.Fits size (wire ++ rest)

/-- The headers of the answer but for the key. -/
def fixedHeaders : List (Bytes × Bytes) :=
  [(ascii "Upgrade", ascii "websocket"), (ascii "Connection", ascii "Upgrade"),
    (ascii "Sec-WebSocket-Version", ascii "13")]

theorem upgradeResponse_inner (sha1 : Bytes → Bytes) (statusCode : Int) (key : Bytes) :
    (upgradeResponse sha1 statusCode key).headers.inner =
      fixedHeaders ++ [(ascii "Sec-WebSocket-Accept", acceptOf sha1 key)] := rfl

/-- The key is found in the answer, in any order. -/
theorem find_accept {sha1 : Bytes → Bytes} {statusCode : Int} {key : Bytes} {answered : HttpHeader}
    (h : answered.inner.Perm (upgradeResponse sha1 statusCode key).headers.inner) :
    answered.find (ascii "Sec-WebSocket-Accept") = some (acceptOf sha1 key) := by
  have hother : ∀ entry ∈ fixedHeaders,
      caseInsensitiveEqual entry.1 (ascii "Sec-WebSocket-Accept") = false := by decide
  refine find_of_perm h ?_ ?_
  · rw [upgradeResponse_inner]
    exact ⟨_, List.mem_append_right _ (List.mem_singleton.mpr rfl),
      caseInsensitiveEqual_iff.mpr rfl⟩
  · intro entry hentry hkey
    rw [upgradeResponse_inner, List.mem_append, List.mem_singleton] at hentry
    rcases hentry with hentry | rfl
    · rw [hother entry hentry] at hkey
      cases hkey
    · rfl

section Sides

variable {sha1 : Bytes → Bytes} (hsha1 : ∀ message, (sha1 message).length = 20)

include hsha1

/-- The lines the server answers with. -/
theorem plain_response {statusCode : Int} {key : Bytes} :
    ∀ entry ∈ (upgradeResponse sha1 statusCode key).headers.inner,
      Plain (switchingStart.length + 2) entry := by
  have hfixed : ∀ entry ∈ fixedHeaders, Plain (switchingStart.length + 2) entry := by decide
  intro entry hentry
  rw [upgradeResponse_inner, List.mem_append, List.mem_singleton] at hentry
  rcases hentry with hentry | rfl
  · exact hfixed entry hentry
  · exact plain_accept (hsha1 _)

/-- **The server** accepts the upgrade, in whatever order the headers come. -/
theorem serverHandleWebsocket_run
    (mapHandles : HandleMap (HttpRequest → HttpResponse → HttpResponse)) (statusCode : Int)
    (handlerSet : Bool) {asked : HttpHeader}
    (hasked : asked.inner.Perm upgradeRequest.headers.inner) {chunks : List Bytes} {rest : Bytes}
    {size : Nat} (h : Delivers chunks (requestWire { upgradeRequest with headers := asked }) rest size)
    {w : BufWriter} (hw : Backs w Record.blank) :
    ∃ r w', (serverHandleWebsocket sha1 mapHandles statusCode (recorder handlerSet)).run
        ⟨BufReader.new (.thenFail chunks .unexpectedEOF) size, w, false⟩ =
          .ok ((), ⟨r, w', handlerSet⟩) ∧
      r.unread = rest ∧ r.rStream.asserted = true ∧
      w'.io.taken = switchingWire (upgradeResponse sha1 statusCode securityKey).headers := by
  have hplain : ∀ entry ∈ asked.inner, Plain ((requestStart upgradeRequest).length + 2) entry :=
    fun entry hentry => plain_request entry (hasked.subset hentry)
  -- the request comes back however it was cut
  have hwell : WellFormedRequest { upgradeRequest with headers := asked } :=
    ⟨(by decide : LineFree (ascii "GET")), (by decide : 32 ∉ ascii "GET"),
      (by decide : LineFree (ascii "/")), (by decide : 32 ∉ ascii "/"),
      fun entry hentry => (hplain entry hentry).1⟩
  have htext := plain_text (by decide) hplain h.text
  have hsafe : Safe chunks := plain_cutProof (by decide) hplain chunks h.nonempty h.bytes
  obtain ⟨r, hdecode, hun, hassert⟩ :=
    (readWhole_iff_safe hwell htext h.fits h.nonempty h.bytes).mpr hsafe
  have hrecv : recvRequest.run (BufReader.new (.thenFail chunks .unexpectedEOF) size) =
      .ok (.ok { upgradeRequest with headers := asked }, r) := Prog.run_bind_of_ok hdecode
  have hupgrade : asked.find (ascii "Upgrade") = some (ascii "websocket") :=
    find_of_perm hasked (by decide) (by decide)
  have hkey : asked.find (ascii "Sec-webSocket-Key") = some securityKey :=
    find_of_perm hasked (by decide) (by decide)
  obtain ⟨_, w', hsend, rfl, hw'⟩ := websocketHandshake_simulates
    (fun entry hentry => (plain_response hsha1 entry hentry).2.2.1) w _ hw _ _
    (run_websocketHandshake (upgradeResponse sha1 statusCode securityKey))
  refine ⟨r, w', ?_, hun, hassert, hw'.taken_eq rfl⟩
  refine (Prog.run_bind_of_ok (run_onReader.mpr ⟨r, hrecv, rfl⟩)).trans ?_
  dsimp only
  rw [hupgrade]
  dsimp only
  rw [hkey]
  refine (Prog.run_bind_of_ok (run_onWriter.mpr ⟨w', hsend, rfl⟩)).trans ?_
  rw [run_callHandler, Bool.or_false]

/-- **The client** takes the answer, in whatever order its headers come, and it is one that
accepts. -/
theorem clientHandleWebsocket_run (statusCode : Int) (handlerSet : Bool) {answered : HttpHeader}
    {code : Int} (hanswered : answered.inner.Perm
      (upgradeResponse sha1 code securityKey).headers.inner) {chunks : List Bytes} {rest : Bytes}
    {size : Nat} (h : Delivers chunks (switchingWire answered) rest size)
    {w : BufWriter} (hw : Backs w Record.blank) :
    ∃ r w', (clientHandleWebsocket statusCode (recorder handlerSet)).run
        ⟨BufReader.new (.thenFail chunks .unexpectedEOF) size, w, false⟩ =
          .ok ((), ⟨r, w', handlerSet⟩) ∧
      r.unread = rest ∧ r.rStream.asserted = true ∧ w'.io.taken = requestWire upgradeRequest ∧
      ∃ resp, Received (recvResponse statusCode)
        (BufReader.new (.thenFail chunks .unexpectedEOF) size) resp ∧ Accepts sha1 resp := by
  have hplain : ∀ entry ∈ answered.inner, Plain (switchingStart.length + 2) entry :=
    fun entry hentry => plain_response hsha1 entry (hanswered.subset hentry)
  have hsome : answered.inner ≠ [] := by
    intro hnil
    rw [hnil] at hanswered
    cases hanswered.nil_eq
  have hsafe : Safe chunks := plain_cutProof (by decide) hplain chunks h.nonempty h.bytes
  obtain ⟨r, hdecode, hun, hassert⟩ := decodeResponse_run
    (fun entry hentry => (hplain entry hentry).1) hsome (plain_text (by decide) hplain h.text)
    h.fits h.nonempty h.bytes hsafe (HttpResponse.fresh statusCode)
  have hrecv : (recvResponse statusCode).run
      (BufReader.new (.thenFail chunks .unexpectedEOF) size) =
      .ok (.ok { HttpResponse.fresh statusCode with statusCode := 101, headers := answered }, r) :=
    Prog.run_bind_of_ok hdecode
  obtain ⟨_, w', hsend, rfl, hw'⟩ := encodeRequest_simulates (by decide)
    (fun entry hentry => (plain_request entry hentry).2.2.1) w _ hw _ _
    (run_encodeRequest upgradeRequest)
  refine ⟨r, w', ?_, hun, hassert, hw'.taken_eq rfl, _, ⟨r, hrecv⟩, rfl, find_accept hanswered⟩
  refine (Prog.run_bind_of_ok (run_onWriter.mpr ⟨w', hsend, rfl⟩)).trans ?_
  dsimp only
  refine (Prog.run_bind_of_ok (run_onReader.mpr ⟨r, hrecv, rfl⟩)).trans ?_
  dsimp only
  rw [run_callHandler, Bool.or_false]

/-- **Client and server upgrade**, whatever the order of the headers and however what they
write is cut: both call their message handlers, the server after a request for WebSocket, the
client after an answer that accepts, and what the peer sent behind stays unread. -/
theorem upgraded (mapHandles : HandleMap (HttpRequest → HttpResponse → HttpResponse))
    (serverCode clientCode : Int) {asked answered : HttpHeader}
    (hasked : asked.inner.Perm upgradeRequest.headers.inner)
    (hanswered : answered.inner.Perm (upgradeResponse sha1 serverCode securityKey).headers.inner)
    {size : Nat} {requests responses : List Bytes} {rest rest' : Bytes}
    (hrequest : Delivers requests (requestWire { upgradeRequest with headers := asked }) rest size)
    (hresponse : Delivers responses (switchingWire answered) rest' size) {w v : BufWriter}
    (hw : Backs w Record.blank) (hv : Backs v Record.blank) :
    (∃ r w', (serverHandleWebsocket sha1 mapHandles serverCode (recorder true)).run
        ⟨BufReader.new (.thenFail requests .unexpectedEOF) size, w, false⟩ =
          .ok ((), ⟨r, w', true⟩) ∧
      r.unread = rest ∧ r.rStream.asserted = true ∧
      w'.io.taken = switchingWire (upgradeResponse sha1 serverCode securityKey).headers) ∧
    ∃ r v', (clientHandleWebsocket clientCode (recorder true)).run
        ⟨BufReader.new (.thenFail responses .unexpectedEOF) size, v, false⟩ =
          .ok ((), ⟨r, v', true⟩) ∧
      r.unread = rest' ∧ r.rStream.asserted = true ∧ v'.io.taken = requestWire upgradeRequest ∧
      ∃ resp, Received (recvResponse clientCode)
        (BufReader.new (.thenFail responses .unexpectedEOF) size) resp ∧ Accepts sha1 resp :=
  ⟨serverHandleWebsocket_run hsha1 mapHandles serverCode true hasked hrequest hw,
    clientHandleWebsocket_run hsha1 clientCode true hanswered hresponse hv⟩

end Sides

/-- A digest, for an example. -/
def zeroDigest : Bytes → Bytes := fun _ => List.replicate 20 0

/-- Both messages in one chunk. -/
theorem upgraded_whole : ∃ r w', (serverHandleWebsocket zeroDigest .empty 0 (recorder true)).run
    ⟨BufReader.new (.thenFail [requestWire upgradeRequest] .unexpectedEOF) 1024,
      BufWriter.new Outlet.steady 1024, false⟩ = .ok ((), ⟨r, w', true⟩) ∧ r.unread = [] := by
  have hw : Backs (BufWriter.new Outlet.steady 1024) Record.blank :=
    backs_new (by decide) Outlet.willing_steady rfl
  have hrequest : Delivers [requestWire upgradeRequest]
      (requestWire { upgradeRequest with headers := upgradeRequest.headers }) [] 1024 :=
    ⟨by decide, by rw [List.flatten_singleton, List.append_nil], by decide, by decide +kernel⟩
  have hresponse : Delivers [switchingWire (upgradeResponse zeroDigest 0 securityKey).headers]
      (switchingWire (upgradeResponse zeroDigest 0 securityKey).headers) [] 1024 :=
    ⟨by decide, by rw [List.flatten_singleton, List.append_nil], by decide, by decide +kernel⟩
  obtain ⟨⟨r, w', hrun, hun, -⟩, -⟩ := upgraded (fun _ => List.length_replicate) .empty 0 0
    (.refl _) (.refl _) hrequest hresponse hw hw
  exact ⟨r, w', hrun, hun⟩

end Uvio.Net.Websocket
