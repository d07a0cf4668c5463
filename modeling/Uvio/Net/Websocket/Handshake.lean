import Uvio.Common.Base64
import Uvio.Net.Http.HttpServer

/-!
# The WebSocket handshake

`handle_websocket` of `WebsocketClient` and of `WebsocketServer`, over any reader and
any writer. `sha1` is a parameter. Handlers that answer ordinary requests are
functions.

- `ClientUpgrades`, `ServerUpgrades`: the message handler is called only after a valid
  upgrade.
- `client_calls_iff`, `server_calls_iff`: when it is called.
- `upgrades_iff`: when it is called only after a valid upgrade.
-/

namespace Uvio.Net.Websocket

open Program Codec Codec.Http Net.Http

variable {ρ ω χ : Type}

/-! ## `WebsocketFramed` -/

section Framed

variable [Reader ρ] [Writer ω]

/-- `recv_request()`. -/
def recvRequest : Task ρ (Result HttpRequest) := do
  let (req, res) ← decodeRequest HttpRequest.fresh
  match res with
  | .error e => pure (.error e)
  | .ok () => pure (.ok req)

/-- `recv_response()`. The status code of a new `HttpResponse` is not initialized. -/
def recvResponse (statusCode : Int) : Task ρ (Result HttpResponse) := do
  let (resp, res) ← decodeResponse (HttpResponse.fresh statusCode)
  match res with
  | .error e => pure (.error e)
  | .ok () => pure (.ok resp)

/-- `send_request(req)`. -/
def sendRequest (req : HttpRequest) : Task ω (Result Unit) := encodeRequest req

/-- `send_response(resp)`. -/
def sendResponse (resp : HttpResponse) : Task ω (Result Unit) := encodeResponse resp

end Framed

/-- What is read from a connection. -/
def onReader {α : Type} (x : Task ρ α) : Task (Connection ρ ω χ) α :=
  Prog.zoom Connection.reader (fun c r => { c with reader := r }) x

/-- What is written to a connection. -/
def onWriter {α : Type} (x : Task ω α) : Task (Connection ρ ω χ) α :=
  Prog.zoom Connection.writer (fun c w => { c with writer := w }) x

/-- `if (websocket_handler_) co_await websocket_handler_(websocket_framed);`. -/
def callHandler (websocketHandler : Option (Task (Connection ρ ω χ) Unit)) :
    Task (Connection ρ ω χ) Unit :=
  match websocketHandler with
  | none => pure ()
  | some handler => handler

/-! ## The client -/

/-- The key the client sends. -/
def securityKey : Bytes := ascii "8AVhXO1zSlflZw1LfElVnw=="

/-- The request for an upgrade. -/
def upgradeRequest : HttpRequest :=
  { HttpRequest.fresh with
    method := ascii "GET"
    uri := ascii "/"
    headers := ((((HttpHeader.empty.add (ascii "Upgrade") (ascii "websocket")).add
      (ascii "Connection") (ascii "Upgrade")).add
      (ascii "Sec-WebSocket-Key") securityKey).add
      (ascii "Sec-WebSocket-Version") (ascii "13")).add
      (ascii "User-Agent") (ascii "UVIO/0.0.1") }

/-- `WebsocketClient::handle_websocket`. -/
def clientHandleWebsocket [Reader ρ] [Writer ω] (statusCode : Int)
    (websocketHandler : Option (Task (Connection ρ ω χ) Unit)) :
    Task (Connection ρ ω χ) Unit := do
  match ← onWriter (sendRequest upgradeRequest) with
  | .error _ => pure ()
  | .ok () =>
    match ← onReader (recvResponse statusCode) with
    | .error _ => pure ()
    -- the response is not looked at
    | .ok _ => callHandler websocketHandler

/-! ## The server -/

/-- What the server appends to the key. -/
def guid : Bytes := ascii "258EAFA5-E914-47DA-95CA-C5AB0DC85B11"

section Server

variable (sha1 : Bytes → Bytes)

/-- What a key is answered with. -/
def acceptOf (securityKey : Bytes) : Bytes := Base64.encode (sha1 (securityKey ++ guid))

/-- The response that accepts an upgrade. -/
def upgradeResponse (statusCode : Int) (securityKey : Bytes) : HttpResponse :=
  { HttpResponse.fresh statusCode with
    headers := (((HttpHeader.empty.add (ascii "Upgrade") (ascii "websocket")).add
      (ascii "Connection") (ascii "Upgrade")).add
      (ascii "Sec-WebSocket-Version") (ascii "13")).add
      (ascii "Sec-WebSocket-Accept") (acceptOf sha1 securityKey) }

/-- The answer to a request that asks for no upgrade. -/
def pageResponse (mapHandles : HandleMap (HttpRequest → HttpResponse → HttpResponse))
    (request : HttpRequest) (resp : HttpResponse) : HttpResponse :=
  match mapHandles.entries.find? fun entry => entry.1 == request.uri with
  | some (_, handler) => { handler request resp with statusCode := 200 }
  | none => { resp with body := ascii "Page not found", statusCode := 404 }

/-- `WebsocketServer::handle_websocket`. -/
def serverHandleWebsocket [Reader ρ] [Writer ω]
    (mapHandles : HandleMap (HttpRequest → HttpResponse → HttpResponse)) (statusCode : Int)
    (websocketHandler : Option (Task (Connection ρ ω χ) Unit)) :
    Task (Connection ρ ω χ) Unit := do
  match ← onReader recvRequest with
  | .error _ => pure ()
  | .ok request =>
    match request.headers.find (ascii "Upgrade") with
    | some _ =>
      match request.headers.find (ascii "Sec-webSocket-Key") with
      | none => pure ()
      | some securityKey => do
        -- what this returns is dropped
        let _ ← onWriter (sendResponse (upgradeResponse sha1 statusCode securityKey))
        callHandler websocketHandler
    | none => do
      -- a failure is printed
      let _ ← onWriter (sendResponse
        (pageResponse mapHandles request (HttpResponse.fresh statusCode)))
      pure ()

end Server

/-! ## When the message handler is called -/

/-- A message handler that records that it was called, if one is set. -/
def recorder (handlerSet : Bool) : Option (Task (Connection ρ ω Bool) Unit) :=
  if handlerSet then some (modify fun c => { c with app := true }) else none

/-- The message handler is called on a new connection. -/
def Calls (x : Task (Connection ρ ω Bool) Unit) (reader : ρ) (writer : ω) : Prop :=
  ∃ c, x.run ⟨reader, writer, false⟩ = .ok ((), c) ∧ c.app = true

/-- What was written arrived without an error. -/
def Written (x : Task ω (Result Unit)) (writer : ω) : Prop :=
  ∃ writer', x.run writer = .ok (.ok (), writer')

/-- What is received from this reader. -/
def Received {M : Type} (x : Task ρ (Result M)) (reader : ρ) (message : M) : Prop :=
  ∃ reader', x.run reader = .ok (.ok message, reader')

theorem run_onReader {α : Type} {x : Task ρ α} {c c' : Connection ρ ω χ} {a : α} :
    (onReader x).run c = .ok (a, c') ↔
      ∃ r, x.run c.reader = .ok (a, r) ∧ c' = { c with reader := r } :=
  Prog.run_zoom_eq_ok

theorem run_onWriter {α : Type} {x : Task ω α} {c c' : Connection ρ ω χ} {a : α} :
    (onWriter x).run c = .ok (a, c') ↔
      ∃ w, x.run c.writer = .ok (a, w) ∧ c' = { c with writer := w } :=
  Prog.run_zoom_eq_ok

theorem run_callHandler (handlerSet : Bool) (c : Connection ρ ω Bool) :
    (callHandler (recorder handlerSet)).run c = .ok ((), { c with app := handlerSet || c.app }) := by
  cases handlerSet <;> rfl

theorem Received.unique {M : Type} {reader : ρ} {x : Task ρ (Result M)}
    {m m' : M}
    (h : Received x reader m) (h' : Received x reader m') : m = m' := by
  obtain ⟨_, h⟩ := h
  obtain ⟨_, h'⟩ := h'
  cases h.symm.trans h'
  rfl

section Upgrades

variable (sha1 : Bytes → Bytes)
  (mapHandles : HandleMap (HttpRequest → HttpResponse → HttpResponse)) (statusCode : Int)
  (handlerSet : Bool)

/-- The response agrees to the upgrade the client asked for. -/
def Accepts (resp : HttpResponse) : Prop :=
  resp.statusCode = 101 ∧
    resp.headers.find (ascii "Sec-WebSocket-Accept") = some (acceptOf sha1 securityKey)

variable [Reader ρ] [Writer ω] {reader : ρ} {writer : ω}

/-- The client calls the message handler only after a response that accepts. -/
def ClientUpgrades (reader : ρ) (writer : ω) : Prop :=
  Calls (clientHandleWebsocket statusCode (recorder handlerSet)) reader writer →
    ∃ resp, Received (recvResponse statusCode) reader resp ∧ Accepts sha1 resp

/-- The server calls the message handler only if the request asks for WebSocket with a
key, and the answer was written. -/
def ServerUpgrades (reader : ρ) (writer : ω) : Prop :=
  Calls (serverHandleWebsocket sha1 mapHandles statusCode (recorder handlerSet)) reader writer →
    ∃ request upgrade key, Received recvRequest reader request ∧
      request.headers.find (ascii "Upgrade") = some upgrade ∧
      caseInsensitiveEqual upgrade (ascii "websocket") = true ∧
      request.headers.find (ascii "Sec-WebSocket-Key") = some key ∧
      Written (sendResponse (upgradeResponse sha1 statusCode key)) writer

/-- **The client calls its message handler after any response.** -/
theorem client_calls_iff :
    Calls (clientHandleWebsocket statusCode (recorder handlerSet)) reader writer ↔
      handlerSet = true ∧ Written (sendRequest upgradeRequest) writer ∧
        ∃ resp, Received (recvResponse statusCode) reader resp := by
  constructor
  · rintro ⟨c, hrun, hcalled⟩
    obtain ⟨ok, _, hsend, hrun⟩ := Prog.run_bind_eq_ok.mp hrun
    obtain ⟨w, hw, rfl⟩ := run_onWriter.mp hsend
    cases ok with
    | error e =>
      cases hrun
      cases hcalled
    | ok _ =>
      obtain ⟨ok, _, hrecv, hrun⟩ := Prog.run_bind_eq_ok.mp hrun
      obtain ⟨r, hr, rfl⟩ := run_onReader.mp hrecv
      cases ok with
      | error e =>
        cases hrun
        cases hcalled
      | ok resp =>
        cases (run_callHandler handlerSet _).symm.trans hrun
        exact ⟨by simpa using hcalled, ⟨w, hw⟩, resp, r, hr⟩
  · rintro ⟨rfl, ⟨w, hw⟩, resp, r, hr⟩
    refine ⟨_, Prog.run_bind_eq_ok.mpr ⟨_, _, run_onWriter.mpr ⟨w, hw, rfl⟩,
      Prog.run_bind_eq_ok.mpr ⟨_, _, run_onReader.mpr ⟨r, hr, rfl⟩, run_callHandler true _⟩⟩, rfl⟩

/-- The server asks for the key in a case of its own. -/
theorem sameKey :
    caseInsensitiveEqual (ascii "Sec-webSocket-Key") (ascii "Sec-WebSocket-Key") = true := by
  decide

/-- **The server calls its message handler** after any request with an `Upgrade` and a
key, whether or not the answer was written. -/
theorem server_calls_iff :
    Calls (serverHandleWebsocket sha1 mapHandles statusCode (recorder handlerSet)) reader writer ↔
      handlerSet = true ∧ ∃ request upgrade key, Received recvRequest reader request ∧
        request.headers.find (ascii "Upgrade") = some upgrade ∧
        request.headers.find (ascii "Sec-WebSocket-Key") = some key ∧
        ∃ res writer', (sendResponse (upgradeResponse sha1 statusCode key)).run writer =
          .ok (res, writer') := by
  constructor
  · rintro ⟨c, hrun, hcalled⟩
    obtain ⟨ok, _, hrecv, hrun⟩ := Prog.run_bind_eq_ok.mp hrun
    obtain ⟨r, hr, rfl⟩ := run_onReader.mp hrecv
    cases ok with
    | error e =>
      cases hrun
      cases hcalled
    | ok request =>
      dsimp only at hrun
      split at hrun
      next upgrade hupgrade =>
        split at hrun
        next =>
          cases hrun
          cases hcalled
        next key hkey =>
          obtain ⟨res, _, hsend, hrun⟩ := Prog.run_bind_eq_ok.mp hrun
          obtain ⟨w, hw, rfl⟩ := run_onWriter.mp hsend
          rw [HttpHeader.find_congr sameKey] at hkey
          cases (run_callHandler handlerSet _).symm.trans hrun
          exact ⟨by simpa using hcalled, request, upgrade, key, ⟨r, hr⟩, hupgrade, hkey, res, w, hw⟩
      next =>
        obtain ⟨res, _, hsend, hrun⟩ := Prog.run_bind_eq_ok.mp hrun
        obtain ⟨w, hw, rfl⟩ := run_onWriter.mp hsend
        cases hrun
        cases hcalled
  · rintro ⟨rfl, request, upgrade, key, ⟨r, hr⟩, hupgrade, hkey, res, w, hw⟩
    refine ⟨⟨r, w, true⟩, Prog.run_bind_eq_ok.mpr ⟨_, _, run_onReader.mpr ⟨r, hr, rfl⟩, ?_⟩, rfl⟩
    dsimp only
    rw [hupgrade, HttpHeader.find_congr sameKey, hkey]
    exact Prog.run_bind_eq_ok.mpr ⟨_, _, run_onWriter.mpr ⟨w, hw, rfl⟩, run_callHandler true _⟩

/-- **Framing starts only after a valid upgrade** exactly if, where a message handler is
set: the client cannot send its request, or gets no response but one that accepts; and
the server gets no request with an `Upgrade` and a key but one that asks for WebSocket
and whose answer can be written. -/
theorem upgrades_iff :
    (ClientUpgrades sha1 statusCode handlerSet reader writer ↔
      (handlerSet = true → Written (sendRequest upgradeRequest) writer →
        ∀ resp, Received (recvResponse statusCode) reader resp → Accepts sha1 resp)) ∧
    (ServerUpgrades sha1 mapHandles statusCode handlerSet reader writer ↔
      (handlerSet = true → ∀ request upgrade key, Received recvRequest reader request →
        request.headers.find (ascii "Upgrade") = some upgrade →
        request.headers.find (ascii "Sec-WebSocket-Key") = some key →
        ∀ res writer', (sendResponse (upgradeResponse sha1 statusCode key)).run writer =
            .ok (res, writer') →
          caseInsensitiveEqual upgrade (ascii "websocket") = true ∧ res = .ok ())) := by
  unfold ClientUpgrades ServerUpgrades
  rw [client_calls_iff, server_calls_iff]
  constructor
  · constructor
    · intro h hset hsent resp hresp
      obtain ⟨resp', hresp', haccepts⟩ := h ⟨hset, hsent, resp, hresp⟩
      exact hresp.unique hresp' ▸ haccepts
    · rintro h ⟨hset, hsent, resp, hresp⟩
      exact ⟨resp, hresp, h hset hsent resp hresp⟩
  · constructor
    · intro h hset request upgrade key hrequest hupgrade hkey res writer' hsend
      obtain ⟨request', upgrade', key', hrequest', hupgrade', hequal, hkey', writer'', hsend'⟩ :=
        h ⟨hset, request, upgrade, key, hrequest, hupgrade, hkey, res, writer', hsend⟩
      obtain rfl := hrequest.unique hrequest'
      obtain rfl := Option.some.inj (hupgrade.symm.trans hupgrade')
      obtain rfl := Option.some.inj (hkey.symm.trans hkey')
      cases hsend.symm.trans hsend'
      exact ⟨hequal, rfl⟩
    · rintro h ⟨hset, request, upgrade, key, hrequest, hupgrade, hkey, res, writer', hsend⟩
      obtain ⟨hequal, rfl⟩ := h hset request upgrade key hrequest hupgrade hkey res writer' hsend
      exact ⟨request, upgrade, key, hrequest, hupgrade, hequal, hkey, writer', hsend⟩

end Upgrades

/-- A page instead of an upgrade: the client calls its message handler. -/
theorem not_upgrades : ¬ ∀ (sha1 : Bytes → Bytes)
    (mapHandles : HandleMap (HttpRequest → HttpResponse → HttpResponse)) (statusCode : Int)
    (handlerSet : Bool) (reader : Feed) (writer : Record),
    ClientUpgrades sha1 statusCode handlerSet reader writer ∧
      ServerUpgrades sha1 mapHandles statusCode handlerSet reader writer := by
  intro h
  have hreceived : Received (recvResponse 0)
      (⟨ascii "HTTP/1.1 200 OK" ++ crlf ++ crlf, none⟩ : Feed)
      (HttpResponse.fresh 200) := ⟨⟨[], none⟩, rfl⟩
  have hsent : Written (sendRequest upgradeRequest) Record.blank := ⟨_, rfl⟩
  obtain ⟨resp, hresp, hstatus, -⟩ := (h (fun _ => []) .empty 0 true _ _).1
    ((client_calls_iff 0 true).mpr ⟨rfl, hsent, _, hreceived⟩)
  rw [← hreceived.unique hresp] at hstatus
  cases hstatus

end Uvio.Net.Websocket
