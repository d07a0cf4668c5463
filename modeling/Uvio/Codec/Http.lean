import Uvio.Codec.Base
import Uvio.Net.Http.HttpProtocol
import Mathlib.Data.List.DropRight

/-!
# `HttpCodec`

`decode` of requests and responses, `encode` of both, and the parsers between
them. A `while` loop that moves an index to the next stop character is `skipTo`;
the request line and the status line are parsed by the same three such loops.

`decode` moves the parsed headers into the message before it looks for
`Content-Length` in what it moved from.

- `decodeRequest_simulates`, `decodeResponse_simulates`: a decoder does on one
  reader what it does on another, if `read_exact` and `read_until` do.
- `decodeRequest_body`, `decodeResponse_body`: no decoder ever touches the body.
-/

namespace Uvio.Codec.Http

open Program Net.Http

variable {ρ ω : Type}

/-- `"\r\n"`. -/
def crlf : Bytes := [13, 10]

/-- `line[end] == '\r' || line[end] == '\n'`. -/
def isLineEnd (c : Byte) : Bool := c == 13 || c == 10

/-- `line[end] == ' '`. -/
def isBlank (c : Byte) : Bool := c == 32

/-- `std::isspace`, in the C locale. -/
def isSpace (c : Byte) : Bool := c == 32 || (9 ≤ c.toNat && c.toNat ≤ 13)

/-! ## Parsing the start line -/

/-- `while (end < line.size() && !stop(line[end])) ++end;`. -/
def skipTo (stop : Byte → Bool) (line : Bytes) (start : Nat) : Nat :=
  start + ((line.drop start).takeWhile (!stop ·)).length

/-- The part from `start` to the next stop character, and the position behind that
character. Reading past the end gives the NUL of the `std::string`. -/
def part (stop : Byte → Bool) (line : Bytes) (start : Nat) : Result (Bytes × Nat) :=
  let stopAt := skipTo stop line start
  if stop (line.getD stopAt 0) then .ok ((line.drop start).take (stopAt - start), stopAt + 1)
  else .error .unclassified

/-- The body of both `parse_request_line` and `parse_status_line`. -/
def parseStartLine (line : Bytes) : Result (Bytes × Bytes × Bytes) :=
  match part isBlank line 0 with
  | .error e => .error e
  | .ok (first, start) =>
    match part isBlank line start with
    | .error e => .error e
    | .ok (second, start) =>
      match part isLineEnd line start with
      | .error e => .error e
      | .ok (third, _) => .ok (first, second, third)

/-- `parse_request_line(line)`: method, uri, version. -/
def parseRequestLine (line : Bytes) : Result (Bytes × Bytes × Bytes) := parseStartLine line

/-- `parse_status_line(line)`: version, status code, status text. -/
def parseStatusLine (line : Bytes) : Result (Bytes × Bytes × Bytes) := parseStartLine line

/-! ## Parsing the headers -/

/-- `trim(str)`. -/
def trim (str : Bytes) : Bytes := (str.dropWhile isSpace).rdropWhile isSpace

/-- `str.substr(pos, stop - pos)`: if `stop` lies before `pos` the count wraps, to
more than any string has. -/
def substrTo (str : Bytes) (pos stop : Nat) : Bytes :=
  if pos ≤ stop then (str.drop pos).take (stop - pos) else str.drop pos

/-- The loop of `parse_headers`, on what is left of the text from `start` on. The
colon is looked for in all of it, not only up to `end`. -/
def parseHeadersFrom : Nat → Bytes → HttpHeader → HttpHeader
  | 0, _, header => header
  | fuel + 1, rest, header =>
    if rest.isEmpty then header
    else
      let stopAt := skipTo isLineEnd rest 0
      let header :=
        match rest.findIdx? (· == 58) with
        | some colonPos =>
          let key := substrTo rest 0 colonPos
          let value := substrTo rest (colonPos + 1) stopAt
          header.add (trim key) (trim value)
        | none => header
      parseHeadersFrom fuel ((rest.drop stopAt).dropWhile isLineEnd) header

/-- `parse_headers(headers)`. Every pass takes at least one character off. -/
def parseHeaders (headers : Bytes) : HttpHeader :=
  parseHeadersFrom headers.length headers .empty

/-! ## Numbers -/

def isDigit (c : Byte) : Bool := 48 ≤ c.toNat && c.toNat ≤ 57

/-- The number the leading digits of a text stand for, if there are any. -/
def leadingNumber (str : Bytes) : Option Nat :=
  let digits := str.takeWhile isDigit
  if digits.isEmpty then none
  else some (digits.foldl (fun n c => n * 10 + (c.toNat - 48)) 0)

/-- `std::stoi(str)`: white space, a sign, digits. `none` is one of its exceptions,
for text that is no number and for numbers that do not fit an `int`. -/
def stoi (str : Bytes) : Option Int :=
  let str := str.dropWhile isSpace
  let value :=
    match str with
    | 45 :: rest => (leadingNumber rest).map fun n => -(n : Int)
    | 43 :: rest => (leadingNumber rest).map fun n => (n : Int)
    | _ => (leadingNumber str).map fun n => (n : Int)
  value.filter fun i => -(intMax : Int) - 1 ≤ i && i ≤ intMax

/-- A value, or the exception that ends the coroutine. -/
def orTerminate {α : Type} : Option α → Task ρ α
  | some a => pure a
  | none => Prog.stop .terminate

/-- `{}` of a number in `std::format`. -/
def decimal (n : Nat) : Bytes := (Nat.toDigits 10 n).map fun c => BitVec.ofNat 8 c.toNat

/-- `{}` of an `int`. -/
def decimalInt (i : Int) : Bytes :=
  match i with
  | .ofNat n => decimal n
  | .negSucc n => 45 :: decimal (n + 1)

/-! ## Decoding -/

/-- What both decoders do with the headers, of which they have the first two bytes;
`setHeaders` and `setBody` put headers and body into the message. -/
def decodeHeaders {M : Type} [Reader ρ] (setHeaders : HttpHeader → M → M) (setBody : Bytes → M → M)
    (m : M) (requestHeaders : Bytes) : Task ρ (M × Result Unit) := do
  let (requestHeaders, ret) ← Reader.readUntil requestHeaders (crlf ++ crlf)
  match ret with
  | .error e => pure (m, .error e)
  | .ok _ =>
    let (moved, headers) := (parseHeaders requestHeaders).move
    let m := setHeaders moved m
    match headers.find (ascii "Content-Length") with
    | none => pure (m, .ok ())
    | some value => do
      let length ← orTerminate (stoi value)
      let body ← resize [] (castSize length)
      let (body, ret) ← Reader.readExact body
      match ret with
      | .error e => pure (m, .error e)
      | .ok () => pure (setBody body m, .ok ())

/-- What both decoders do behind the start line. -/
def decodeRest {M : Type} [Reader ρ] (setHeaders : HttpHeader → M → M) (setBody : Bytes → M → M)
    (m : M) : Task ρ (M × Result Unit) := do
  let (requestHeaders, ret) ← Reader.readExact [0, 0]
  match ret with
  | .error e => pure (m, .error e)
  | .ok () =>
    if requestHeaders == crlf then pure (m, .ok ())
    else decodeHeaders setHeaders setBody m requestHeaders

/-- `decode(req, reader)`. -/
def decodeRequest [Reader ρ] (req : HttpRequest) : Task ρ (HttpRequest × Result Unit) := do
  let (requestLine, ret) ← Reader.readUntil [] crlf
  match ret with
  | .error e => pure (req, .error e)
  | .ok _ =>
    match parseRequestLine requestLine with
    | .error e => pure (req, .error e)
    | .ok (method, uri, _) =>
      decodeRest (fun h m => { m with headers := h }) (fun b m => { m with body := b })
        { req with method := method, uri := uri }

/-- `decode(resp, reader)`. -/
def decodeResponse [Reader ρ] (resp : HttpResponse) : Task ρ (HttpResponse × Result Unit) := do
  let (statusLine, ret) ← Reader.readUntil [] crlf
  match ret with
  | .error e => pure (resp, .error e)
  | .ok _ =>
    match parseStatusLine statusLine with
    | .error e => pure (resp, .error e)
    | .ok (_, statusCode, _) => do
      let code ← orTerminate (stoi statusCode)
      decodeRest (fun h m => { m with headers := h }) (fun b m => { m with body := b })
        { resp with statusCode := code }

/-! ## Encoding -/

/-- `std::format("{}: {}\r\n", k, v)`. -/
def headerLine (entry : Bytes × Bytes) : Bytes := entry.1 ++ [58, 32] ++ entry.2 ++ crlf

/-- The loop that writes the headers; it ignores what the writes return. -/
def writeHeaders [Writer ω] : List (Bytes × Bytes) → Task ω Unit
  | [] => pure ()
  | entry :: entries => do
    let _ ← Writer.write (headerLine entry)
    writeHeaders entries

/-- The end of all but `http_response`: headers, blank line, flush. -/
def finishHead [Writer ω] (headers : HttpHeader) : Task ω (Result Unit) := do
  writeHeaders headers.inner
  let _ ← Writer.write crlf
  match ← Writer.flush with
  | .error e => pure (.error e)
  | .ok () => pure (.ok ())

/-- `encode(req, writer)`. -/
def encodeRequest [Writer ω] (req : HttpRequest) : Task ω (Result Unit) := do
  let _ ← Writer.write (req.method ++ ascii " " ++ req.uri ++ ascii " HTTP/1.1" ++ crlf)
  finishHead req.headers

/-- `http_response(resp, writer)`. -/
def httpResponse [Writer ω] (resp : HttpResponse) : Task ω (Result Unit) := do
  match ← Writer.write (ascii "HTTP/1.0 " ++ decimalInt resp.statusCode ++ ascii " "
      ++ resp.statusText ++ crlf ++ ascii "Content-Length: " ++ decimal resp.body.length ++ crlf
      ++ crlf ++ resp.body) with
  | .error e => pure (.error e)
  | .ok _ =>
    match ← Writer.flush with
    | .error e => pure (.error e)
    | .ok () => pure (.ok ())

/-- `websocket_handshake(resp, writer)`. -/
def websocketHandshake [Writer ω] (resp : HttpResponse) : Task ω (Result Unit) := do
  let _ ← Writer.write (ascii "HTTP/1.1 101 Switching Protocols" ++ crlf)
  finishHead resp.headers

/-- `encode(resp, writer)`. -/
def encodeResponse [Writer ω] (resp : HttpResponse) : Task ω (Result Unit) :=
  match resp.headers.find (ascii "Upgrade") with
  | none => httpResponse resp
  | some _ => websocketHandshake resp

/-! ## Decoders on different readers -/

section Simulates

variable {τ : Type} {R : ρ → τ → Prop}

theorem orTerminate_simulates {α : Type} (o : Option α) :
    Simulates R Eq (orTerminate o : Task ρ α) (orTerminate o : Task τ α) := by
  cases o with
  | none => exact Simulates.stop _
  | some a => exact Simulates.pure rfl

variable [Reader ρ] [Reader τ]
  (hexact : ∀ buf,
    Simulates R Eq (Reader.readExact buf : Task ρ _) (Reader.readExact buf : Task τ _))
  (huntil : ∀ buf endFlag, endFlag ≠ [] → Simulates R Eq (Reader.readUntil buf endFlag : Task ρ _)
    (Reader.readUntil buf endFlag : Task τ _))

include hexact huntil

theorem decodeHeaders_simulates {M : Type} (setHeaders : HttpHeader → M → M)
    (setBody : Bytes → M → M) (m : M) (requestHeaders : Bytes) :
    Simulates R Eq (decodeHeaders setHeaders setBody m requestHeaders : Task ρ _)
      (decodeHeaders setHeaders setBody m requestHeaders : Task τ _) := by
  refine (huntil _ _ (by decide)).bind_eq ?_
  rintro ⟨requestHeaders, e | _⟩
  · exact Simulates.pure rfl
  · dsimp only
    cases ((parseHeaders requestHeaders).move).2.find (ascii "Content-Length") with
    | none => exact Simulates.pure rfl
    | some value =>
      refine (orTerminate_simulates _).bind_eq fun length => ?_
      refine (resize_simulates _ _).bind_eq fun body => ?_
      refine (hexact body).bind_eq ?_
      rintro ⟨body, e | _⟩
      · exact Simulates.pure rfl
      · exact Simulates.pure rfl

theorem decodeRest_simulates {M : Type} (setHeaders : HttpHeader → M → M) (setBody : Bytes → M → M)
    (m : M) :
    Simulates R Eq (decodeRest setHeaders setBody m : Task ρ _)
      (decodeRest setHeaders setBody m : Task τ _) := by
  refine (hexact _).bind_eq ?_
  rintro ⟨requestHeaders, e | _⟩
  · exact Simulates.pure rfl
  · exact Simulates.ite (Simulates.pure rfl) (decodeHeaders_simulates hexact huntil _ _ _ _)

theorem decodeRequest_simulates (req : HttpRequest) :
    Simulates R Eq (decodeRequest req : Task ρ _) (decodeRequest req : Task τ _) := by
  refine (huntil _ _ (by decide)).bind_eq ?_
  rintro ⟨requestLine, e | _⟩
  · exact Simulates.pure rfl
  · dsimp only
    cases parseRequestLine requestLine with
    | error e => exact Simulates.pure rfl
    | ok parts => exact decodeRest_simulates hexact huntil _ _ _

theorem decodeResponse_simulates (resp : HttpResponse) :
    Simulates R Eq (decodeResponse resp : Task ρ _) (decodeResponse resp : Task τ _) := by
  refine (huntil _ _ (by decide)).bind_eq ?_
  rintro ⟨statusLine, e | _⟩
  · exact Simulates.pure rfl
  · dsimp only
    cases parseStatusLine statusLine with
    | error e => exact Simulates.pure rfl
    | ok parts =>
      exact (orTerminate_simulates _).bind_eq fun code => decodeRest_simulates hexact huntil _ _ _

end Simulates

/-! ## The body is never decoded -/

section Body

variable [Reader ρ]

/-- What the search for the blank line makes of a message. -/
def withHeaders {M : Type} (setHeaders : HttpHeader → M → M) (m : M) (requestHeaders : Bytes) :
    Result Nat → M × Result Unit
  | .error e => (m, .error e)
  | .ok _ => (setHeaders (parseHeaders requestHeaders) m, .ok ())

/-- Looking for `Content-Length` in a header that was moved from finds nothing: the
search for the blank line is the last read. -/
theorem run_decodeHeaders {M : Type} (setHeaders : HttpHeader → M → M) (setBody : Bytes → M → M)
    (m : M) {buf requestHeaders : Bytes} {ret : Result Nat} {s s' : ρ}
    (h : (Reader.readUntil buf (crlf ++ crlf)).run s = .ok ((requestHeaders, ret), s')) :
    (decodeHeaders setHeaders setBody m buf).run s
      = .ok (withHeaders setHeaders m requestHeaders ret, s') := by
  unfold decodeHeaders
  rw [Prog.run_bind_of_ok h]
  cases ret with
  | error e => rfl
  | ok n => rfl

/-- The body stays what it was. -/
theorem decodeRest_body {M : Type} {setHeaders : HttpHeader → M → M} (body : M → Bytes)
    (hbody : ∀ h m, body (setHeaders h m) = body m) (setBody : Bytes → M → M) (m : M) (s : ρ) :
    Meets (decodeRest setHeaders setBody m) s (fun out _ => body out.1 = body m)
      fun _ => True := by
  unfold decodeRest
  refine (Meets.trivial _ s).bind (fun _ h => h) ?_
  rintro ⟨requestHeaders, e | _⟩ s₁ -
  · rfl
  · dsimp only
    split
    · rfl
    · unfold decodeHeaders
      refine (Meets.trivial _ s₁).bind (fun _ h => h) ?_
      rintro ⟨requestHeaders, e | _⟩ s₂ -
      · rfl
      · exact hbody _ m

theorem decodeRequest_body (req : HttpRequest) (s : ρ) :
    Meets (decodeRequest req) s (fun out _ => out.1.body = req.body) fun _ => True := by
  unfold decodeRequest
  refine (Meets.trivial _ s).bind (fun _ h => h) ?_
  rintro ⟨requestLine, e | _⟩ s₁ -
  · rfl
  · dsimp only
    cases parseRequestLine requestLine with
    | error e => rfl
    | ok parts =>
      refine decodeRest_body HttpRequest.body ?_ _ _ s₁
      exact fun _ _ => rfl

theorem decodeResponse_body (resp : HttpResponse) (s : ρ) :
    Meets (decodeResponse resp) s (fun out _ => out.1.body = resp.body) fun _ => True := by
  unfold decodeResponse
  refine (Meets.trivial _ s).bind (fun _ h => h) ?_
  rintro ⟨statusLine, e | _⟩ s₁ -
  · rfl
  · dsimp only
    cases parseStatusLine statusLine with
    | error e => rfl
    | ok parts =>
      refine (Meets.trivial _ s₁).bind (fun _ h => h) ?_
      intro code s₂ _
      refine decodeRest_body HttpResponse.body ?_ _ _ s₂
      exact fun _ _ => rfl

end Body

end Uvio.Codec.Http
