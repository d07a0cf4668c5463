import Uvio.Codec.StartLine
import Mathlib.Data.List.Perm.Basic

/-!
# Messages on the wire

What the encoders write, read back in two ways: by a reference parser, that takes
a start line, header lines up to a blank one, and everything else as the body; and
by `decode`.

- `parseMessage_layout`: the reference parser recovers a message laid out as lines.
- `encode_carries_iff`: the messages of which nothing is lost. A request loses its
  body and a plain response its headers.
- `decodeRequest_encodeRequest`: a request without body comes back whole, and
  nothing behind it is consumed.
-/

namespace Uvio.Codec.Http

open Program Net.Http

/-! ## Well-formed messages -/

/-- No CR and no LF. -/
def LineFree (str : Bytes) : Prop := ∀ c ∈ str, isLineEnd c = false

/-- Neither the first nor the last byte is white space. -/
def Trimmed (str : Bytes) : Prop :=
  (∀ c ∈ str.head?, isSpace c = false) ∧ ∀ c ∈ str.getLast?, isSpace c = false

instance (str : Bytes) : Decidable (LineFree str) :=
  inferInstanceAs (Decidable (∀ c ∈ str, isLineEnd c = false))

instance (str : Bytes) : Decidable (Trimmed str) :=
  inferInstanceAs (Decidable ((∀ c ∈ str.head?, isSpace c = false) ∧
    ∀ c ∈ str.getLast?, isSpace c = false))

/-- A header pair that can be written on a line and told apart there. -/
structure WellFormedEntry (entry : Bytes × Bytes) : Prop where
  key : LineFree entry.1
  noColon : 58 ∉ entry.1
  value : LineFree entry.2
  keyTrimmed : Trimmed entry.1
  valueTrimmed : Trimmed entry.2

def WellFormedHeaders (headers : HttpHeader) : Prop :=
  ∀ entry ∈ headers.inner, WellFormedEntry entry

structure WellFormedRequest (req : HttpRequest) : Prop where
  method : LineFree req.method
  methodBlank : 32 ∉ req.method
  uri : LineFree req.uri
  uriBlank : 32 ∉ req.uri
  headers : WellFormedHeaders req.headers

structure WellFormedResponse (resp : HttpResponse) : Prop where
  statusText : LineFree resp.statusText
  headers : WellFormedHeaders resp.headers

theorem LineFree.append {s t : Bytes} (hs : LineFree s) (ht : LineFree t) : LineFree (s ++ t) := by
  intro c hc
  rcases List.mem_append.mp hc with hc | hc
  · exact hs c hc
  · exact ht c hc

theorem LineFree.cr_notMem {s : Bytes} (hs : LineFree s) : 13 ∉ s := fun h =>
  absurd (hs 13 h) (by decide)

theorem trimmed_of_forall {s : Bytes} (h : ∀ c ∈ s, isSpace c = false) : Trimmed s :=
  ⟨fun c hc => h c (List.mem_of_head? hc), fun c hc => h c (List.mem_of_getLast? hc)⟩

theorem trim_of_trimmed {str : Bytes} (h : Trimmed str) : trim str = str := by
  have hdrop : str.dropWhile isSpace = str := by
    cases str with
    | nil => rfl
    | cons c cs =>
      rw [List.dropWhile_cons_of_neg]
      rw [h.1 c rfl]
      decide
  unfold trim
  rw [hdrop, List.rdropWhile_eq_self_iff]
  intro hne
  rw [h.2 _ (List.getLast?_eq_some_getLast hne)]
  decide

/-- The blank a header line has before its value. -/
theorem trim_blank_cons {str : Bytes} (h : Trimmed str) : trim (32 :: str) = str := by
  have hskip : trim (32 :: str) = trim str := by
    unfold trim
    rw [List.dropWhile_cons_of_pos (by decide)]
  rw [hskip, trim_of_trimmed h]

/-! ## Lines -/

/-- A header line without its CRLF. -/
def headerText (entry : Bytes × Bytes) : Bytes := entry.1 ++ [58, 32] ++ entry.2

theorem headerText_colon (entry : Bytes × Bytes) :
    headerText entry = entry.1 ++ 58 :: (32 :: entry.2) := by
  unfold headerText
  rw [List.append_assoc]
  rfl

theorem headerLine_eq (entry : Bytes × Bytes) : headerLine entry = headerText entry ++ crlf := rfl

theorem WellFormedEntry.lineFree {entry : Bytes × Bytes} (h : WellFormedEntry entry) :
    LineFree (headerText entry) := by
  have hsep : LineFree [58, 32] := by decide
  exact (h.key.append hsep).append h.value

/-- A line ends at its CRLF. -/
theorem find_crlf {line : Bytes} (h : LineFree line) (rest : Bytes) :
    find crlf (line ++ crlf ++ rest) = some line.length := by
  rw [List.append_assoc]
  exact find_append_of_head_notMem h.cr_notMem

/-- What the encoders put behind the start line. -/
def headerBlock (entries : List (Bytes × Bytes)) : Bytes := entries.flatMap headerLine ++ crlf

theorem headerBlock_cons (entry : Bytes × Bytes) (entries : List (Bytes × Bytes)) :
    headerBlock (entry :: entries) = headerText entry ++ crlf ++ headerBlock entries := by
  unfold headerBlock
  rw [List.flatMap_cons, headerLine_eq, List.append_assoc]

theorem length_lt_headerBlock (entries : List (Bytes × Bytes)) :
    entries.length < (headerBlock entries).length := by
  induction entries with
  | nil => decide
  | cons entry entries ih =>
    have hcrlf : crlf.length = 2 := rfl
    rw [headerBlock_cons, List.length_append, List.length_append, List.length_cons, hcrlf]
    omega

/-! ## The reference parser -/

/-- A message in its parts. -/
structure Message where
  start : Bytes
  fields : List (Bytes × Bytes)
  body : Bytes
deriving DecidableEq, Repr

/-- The text up to the first CRLF, and what follows. -/
def cutLine (bs : Bytes) : Option (Bytes × Bytes) :=
  (find crlf bs).map fun pos => (bs.take pos, bs.drop (pos + crlf.length))

/-- Header lines up to a blank line, and what follows. -/
def parseFields : Nat → Bytes → Option (List (Bytes × Bytes) × Bytes)
  | 0, _ => none
  | fuel + 1, bs =>
    match cutLine bs with
    | none => none
    | some (line, rest) =>
      if line.isEmpty then some ([], rest)
      else
        match line.findIdx? (· == 58) with
        | none => none
        | some colon => (parseFields fuel rest).map fun p =>
            ((trim (line.take colon), trim (line.drop (colon + 1))) :: p.1, p.2)

/-- The reference parser. -/
def parseMessage (bs : Bytes) : Option Message :=
  match cutLine bs with
  | none => none
  | some (start, rest) => (parseFields rest.length rest).map fun p => ⟨start, p.1, p.2⟩

theorem cutLine_line {line : Bytes} (h : LineFree line) (rest : Bytes) :
    cutLine (line ++ crlf ++ rest) = some (line, rest) := by
  unfold cutLine
  rw [find_crlf h, Option.map_some, List.append_assoc, List.take_left, ← List.append_assoc,
    ← List.length_append, List.drop_left]

/-- The colon of a header line is the one behind its key. -/
theorem findIdx_colon {key : Bytes} (h : 58 ∉ key) (rest : Bytes) :
    (key ++ 58 :: rest).findIdx? (· == 58) = some key.length := by
  rw [List.findIdx?_append, List.findIdx?_eq_none_iff.mpr]
  · show some (0 + key.length) = _
    rw [Nat.zero_add]
  · intro c hc
    rw [beq_eq_false_iff_ne]
    rintro rfl
    exact h hc

theorem parseFields_headerBlock {entries : List (Bytes × Bytes)}
    (h : ∀ entry ∈ entries, WellFormedEntry entry) (body : Bytes) {fuel : Nat}
    (hfuel : entries.length < fuel) :
    parseFields fuel (headerBlock entries ++ body) = some (entries, body) := by
  induction entries generalizing fuel with
  | nil =>
    obtain ⟨fuel, rfl⟩ := Nat.exists_eq_add_one.mpr hfuel
    -- the blank line is an empty line
    have hblank : LineFree [] := by decide
    have hcut : cutLine (headerBlock [] ++ body) = some ([], body) := cutLine_line hblank body
    unfold parseFields
    rw [hcut]
    rfl
  | cons entry entries ih =>
    obtain ⟨fuel, rfl⟩ := Nat.exists_eq_add_one.mpr (Nat.lt_of_le_of_lt (Nat.zero_le _) hfuel)
    have hentry := h entry List.mem_cons_self
    have hrest := ih (fun e he => h e (List.mem_cons_of_mem _ he)) (Nat.lt_of_succ_lt_succ hfuel)
    have htext := headerText_colon entry
    unfold parseFields
    rw [headerBlock_cons, List.append_assoc, cutLine_line hentry.lineFree, htext]
    dsimp only
    rw [if_neg (by simp), findIdx_colon hentry.noColon]
    dsimp only
    rw [hrest, List.take_left, trim_of_trimmed hentry.keyTrimmed]
    have hdrop : (entry.1 ++ 58 :: 32 :: entry.2).drop (entry.1.length + 1) = 32 :: entry.2 := by
      rw [List.drop_append]
      simp
    rw [hdrop, trim_blank_cons hentry.valueTrimmed]
    rfl

/-- **The reference parser** recovers a message from its lines. -/
theorem parseMessage_layout {start : Bytes} (hstart : LineFree start)
    {entries : List (Bytes × Bytes)} (h : ∀ entry ∈ entries, WellFormedEntry entry)
    (body : Bytes) :
    parseMessage (start ++ crlf ++ (headerBlock entries ++ body))
      = some ⟨start, entries, body⟩ := by
  have hlen : entries.length < (headerBlock entries ++ body).length := by
    rw [List.length_append]
    exact Nat.lt_add_right _ (length_lt_headerBlock entries)
  unfold parseMessage
  rw [cutLine_line hstart]
  dsimp only
  rw [parseFields_headerBlock h body hlen]
  rfl

/-! ## What the encoders write -/

theorem run_writeHeaders (entries : List (Bytes × Bytes)) (s : Record) :
    (writeHeaders entries : Task Record _).run s
      = .ok ((), { s with written := s.written ++ entries.flatMap headerLine }) := by
  induction entries generalizing s with
  | nil =>
    rw [List.flatMap_nil, List.append_nil]
    rfl
  | cons entry entries ih =>
    unfold writeHeaders
    rw [Prog.run_bind_of_ok (Record.run_write _ _), ih, List.flatMap_cons, List.append_assoc]

/-- The headers and the blank line, flushed. -/
theorem run_finishHead (headers : HttpHeader) (s : Record) :
    (finishHead headers : Task Record _).run s
      = .ok (.ok (), ⟨s.written ++ headerBlock headers.inner,
          s.written ++ headerBlock headers.inner⟩) := by
  unfold finishHead
  rw [Prog.run_bind_of_ok (run_writeHeaders _ _), Prog.run_bind_of_ok (Record.run_write _ _),
    Prog.run_bind_of_ok (Record.run_flush _), List.append_assoc]
  rfl

/-- The request line without its CRLF. -/
def requestStart (req : HttpRequest) : Bytes :=
  req.method ++ ascii " " ++ req.uri ++ ascii " HTTP/1.1"

/-- The status line of a plain response without its CRLF. -/
def responseStart (resp : HttpResponse) : Bytes :=
  ascii "HTTP/1.0 " ++ decimalInt resp.statusCode ++ ascii " " ++ resp.statusText

/-- The one header of a plain response. -/
def lengthEntry (body : Bytes) : Bytes × Bytes := (ascii "Content-Length", decimal body.length)

def requestWire (req : HttpRequest) : Bytes :=
  requestStart req ++ crlf ++ headerBlock req.headers.inner

def responseWire (resp : HttpResponse) : Bytes :=
  responseStart resp ++ crlf ++ (headerBlock [lengthEntry resp.body] ++ resp.body)

theorem run_encodeRequest (req : HttpRequest) :
    (encodeRequest req).run Record.blank = .ok (.ok (), ⟨requestWire req, requestWire req⟩) := by
  unfold encodeRequest
  rw [Prog.run_bind_of_ok (Record.run_write _ _), run_finishHead]
  rfl

theorem run_httpResponse (resp : HttpResponse) :
    (httpResponse resp).run Record.blank
      = .ok (.ok (), ⟨responseWire resp, responseWire resp⟩) := by
  have hwire : (Record.blank.written ++ (ascii "HTTP/1.0 " ++ decimalInt resp.statusCode
      ++ ascii " " ++ resp.statusText ++ crlf ++ ascii "Content-Length: "
      ++ decimal resp.body.length ++ crlf ++ crlf ++ resp.body)) = responseWire resp := by
    have hsep : ascii "Content-Length: " = ascii "Content-Length" ++ [58, 32] := by decide
    unfold responseWire responseStart headerBlock lengthEntry headerLine
    rw [hsep, List.flatMap_singleton]
    simp only [Record.blank, List.nil_append, List.append_assoc]
  unfold httpResponse
  rw [Prog.run_bind_of_ok (Record.run_write _ _), hwire]
  dsimp only
  rw [Prog.run_bind_of_ok (Record.run_flush _)]
  rfl

/-! ## Numbers on a line -/

theorem isDigit_of_mem_decimal {n : Nat} {c : Byte} (h : c ∈ decimal n) : isDigit c = true := by
  obtain ⟨d, hd, rfl⟩ := List.mem_map.mp h
  have hdigit := Nat.isDigit_of_mem_toDigits (by decide) (by decide) hd
  have hrange : 48 ≤ d.toNat ∧ d.toNat ≤ 57 := by
    unfold Char.isDigit at hdigit
    rw [Bool.and_eq_true, decide_eq_true_iff, decide_eq_true_iff] at hdigit
    exact hdigit
  unfold isDigit
  rw [Bool.and_eq_true, decide_eq_true_iff, decide_eq_true_iff, BitVec.toNat_ofNat]
  omega

theorem isLineEnd_of_isDigit {c : Byte} (h : isDigit c = true) : isLineEnd c = false := by
  revert c
  decide

theorem isSpace_of_isDigit {c : Byte} (h : isDigit c = true) : isSpace c = false := by
  revert c
  decide

theorem lineFree_decimal (n : Nat) : LineFree (decimal n) := fun _ hc =>
  isLineEnd_of_isDigit (isDigit_of_mem_decimal hc)

theorem lineFree_decimalInt (i : Int) : LineFree (decimalInt i) := by
  cases i with
  | ofNat n => exact lineFree_decimal n
  | negSucc n =>
    have hsign : LineFree [45] := by decide
    exact hsign.append (lineFree_decimal (n + 1))

theorem trimmed_decimal (n : Nat) : Trimmed (decimal n) :=
  trimmed_of_forall fun _ hc => isSpace_of_isDigit (isDigit_of_mem_decimal hc)

theorem wellFormed_lengthEntry (body : Bytes) : WellFormedEntry (lengthEntry body) where
  key := show LineFree (ascii "Content-Length") by decide
  noColon := show 58 ∉ ascii "Content-Length" by decide
  value := lineFree_decimal _
  keyTrimmed := show Trimmed (ascii "Content-Length") by decide
  valueTrimmed := trimmed_decimal _

theorem lineFree_requestStart {req : HttpRequest} (h : WellFormedRequest req) :
    LineFree (requestStart req) := by
  have hblank : LineFree (ascii " ") := by decide
  have hversion : LineFree (ascii " HTTP/1.1") := by decide
  exact ((h.method.append hblank).append h.uri).append hversion

theorem lineFree_responseStart {resp : HttpResponse} (h : LineFree resp.statusText) :
    LineFree (responseStart resp) := by
  have hversion : LineFree (ascii "HTTP/1.0 ") := by decide
  have hblank : LineFree (ascii " ") := by decide
  exact ((hversion.append (lineFree_decimalInt _)).append hblank).append h

/-! ## What the messages carry -/

/-- Read by the reference parser, the bytes give back these headers, with at most a
`Content-Length` added, and this body. -/
def Carries (wire : Bytes) (headers : HttpHeader) (body : Bytes) : Prop :=
  ∃ m, parseMessage wire = some m ∧ m.body = body ∧
    (m.fields.Perm headers.inner ∨ ∃ key value,
      caseInsensitiveEqual key (ascii "Content-Length") = true ∧
      m.fields.Perm ((key, value) :: headers.inner))

/-- The encoder writes and flushes a message that carries headers and body. -/
def EncodesAll (encode : Task Record (Result Unit)) (headers : HttpHeader) (body : Bytes) : Prop :=
  ∃ wire, encode.run Record.blank = .ok (.ok (), ⟨wire, wire⟩) ∧ Carries wire headers body

theorem encodesAll_of_run {encode : Task Record (Result Unit)} {wire : Bytes}
    {headers : HttpHeader} {body : Bytes}
    (h : encode.run Record.blank = .ok (.ok (), ⟨wire, wire⟩)) :
    EncodesAll encode headers body ↔ Carries wire headers body := by
  constructor
  · rintro ⟨wire', hrun, hcarries⟩
    rw [h] at hrun
    injection hrun with hpair
    injection hpair with _ hrecord
    injection hrecord with hwire
    exact hwire ▸ hcarries
  · exact fun hcarries => ⟨wire, h, hcarries⟩

theorem carries_of_parse {wire : Bytes} {m : Message} {headers : HttpHeader} {body : Bytes}
    (h : parseMessage wire = some m) :
    Carries wire headers body ↔ m.body = body ∧
      (m.fields.Perm headers.inner ∨ ∃ key value,
        caseInsensitiveEqual key (ascii "Content-Length") = true ∧
        m.fields.Perm ((key, value) :: headers.inner)) := by
  constructor
  · rintro ⟨m', hm, hcarries⟩
    rw [h] at hm
    cases hm
    exact hcarries
  · exact fun hcarries => ⟨m, h, hcarries⟩

/-- A request is written without its body. -/
theorem encodesAll_request_iff {req : HttpRequest} (h : WellFormedRequest req) :
    EncodesAll (encodeRequest req) req.headers req.body ↔ req.body = [] := by
  have hparse := parseMessage_layout (lineFree_requestStart h) h.headers []
  rw [List.append_nil] at hparse
  rw [encodesAll_of_run (run_encodeRequest req), requestWire, carries_of_parse hparse]
  constructor
  · rintro ⟨hbody, -⟩
    exact hbody.symm
  · intro hbody
    exact ⟨hbody.symm, Or.inl (List.Perm.refl _)⟩

/-- A plain response is written with its `Content-Length` for its only header. -/
theorem encodesAll_response_iff {resp : HttpResponse} (h : LineFree resp.statusText)
    (hplain : resp.headers.find (ascii "Upgrade") = none) :
    EncodesAll (encodeResponse resp) resp.headers resp.body ↔
      resp.headers.inner = [] ∨ resp.headers.inner = [lengthEntry resp.body] := by
  have hentries : ∀ entry ∈ [lengthEntry resp.body], WellFormedEntry entry := fun entry hentry =>
    List.mem_singleton.mp hentry ▸ wellFormed_lengthEntry resp.body
  have hencode : (encodeResponse resp : Task Record _) = httpResponse resp := by
    unfold encodeResponse
    rw [hplain]
  rw [hencode, encodesAll_of_run (run_httpResponse resp), responseWire,
    carries_of_parse (parseMessage_layout (lineFree_responseStart h) hentries resp.body)]
  dsimp only
  constructor
  · rintro ⟨-, hsame | ⟨key, value, -, hadded⟩⟩
    · exact Or.inr (List.singleton_perm.mp hsame).symm
    · have hcons := List.singleton_perm.mp hadded
      injection hcons with _ hnil
      exact Or.inl hnil.symm
  · rintro (hnone | hsame)
    · refine ⟨rfl, Or.inr ⟨ascii "Content-Length", decimal resp.body.length, by decide, ?_⟩⟩
      rw [hnone]
      exact List.Perm.refl _
    · exact ⟨rfl, Or.inl (hsame ▸ List.Perm.refl _)⟩

/-- **The messages of which nothing is lost**: requests without body, and plain
responses that have no header but the `Content-Length` they are given. -/
theorem encode_carries_iff (req : HttpRequest) (resp : HttpResponse) (hreq : WellFormedRequest req)
    (hresp : WellFormedResponse resp) (hplain : resp.headers.find (ascii "Upgrade") = none) :
    (EncodesAll (encodeRequest req) req.headers req.body ↔ req.body = []) ∧
    (EncodesAll (encodeResponse resp) resp.headers resp.body ↔
      resp.headers.inner = [] ∨ resp.headers.inner = [lengthEntry resp.body]) :=
  ⟨encodesAll_request_iff hreq, encodesAll_response_iff hresp.statusText hplain⟩

/-- A request with a body, and a response with a header. -/
def putRequest : HttpRequest :=
  ⟨ascii "PUT", ascii "/a", ⟨[(ascii "Host", ascii "b")]⟩, ascii "x"⟩

def textResponse : HttpResponse :=
  ⟨200, ascii "OK", ⟨[(ascii "Content-Type", ascii "text/plain")]⟩, ascii "x"⟩

theorem wellFormed_putRequest : WellFormedRequest putRequest where
  method := by decide
  methodBlank := by decide
  uri := by decide
  uriBlank := by decide
  headers := fun entry hentry => List.mem_singleton.mp hentry ▸
    ⟨by decide, by decide, by decide, by decide, by decide⟩

theorem wellFormed_textResponse : WellFormedResponse textResponse where
  statusText := by decide
  headers := fun entry hentry => List.mem_singleton.mp hentry ▸
    ⟨by decide, by decide, by decide, by decide, by decide⟩

theorem noUpgrade_textResponse : textResponse.headers.find (ascii "Upgrade") = none := by decide

theorem encode_carries_iff_put :
    (EncodesAll (encodeRequest putRequest) putRequest.headers putRequest.body ↔ ascii "x" = []) ∧
    (EncodesAll (encodeResponse textResponse) textResponse.headers textResponse.body ↔
      textResponse.headers.inner = [] ∨ textResponse.headers.inner = [lengthEntry (ascii "x")]) :=
  encode_carries_iff putRequest textResponse wellFormed_putRequest wellFormed_textResponse
    noUpgrade_textResponse

/-- The body of that request is lost, and so is the header of that response. -/
theorem not_encode_carries :
    (WellFormedRequest putRequest ∧
      ¬ EncodesAll (encodeRequest putRequest) putRequest.headers putRequest.body) ∧
    WellFormedResponse textResponse ∧ textResponse.headers.find (ascii "Upgrade") = none ∧
      ¬ EncodesAll (encodeResponse textResponse) textResponse.headers textResponse.body := by
  have hplain := noUpgrade_textResponse
  refine ⟨⟨wellFormed_putRequest, fun hall => ?_⟩, wellFormed_textResponse, hplain, fun hall => ?_⟩
  · exact absurd ((encodesAll_request_iff wellFormed_putRequest).mp hall) (by decide)
  · exact absurd ((encodesAll_response_iff wellFormed_textResponse.statusText hplain).mp hall)
      (by decide)

/-! ## A request decoded again -/

theorem parseRequestLine_requestStart {req : HttpRequest} (h : WellFormedRequest req) :
    parseRequestLine (requestStart req ++ crlf) = .ok (req.method, req.uri, ascii "HTTP/1.1") := by
  have hline : requestStart req ++ crlf
      = req.method ++ 32 :: (req.uri ++ 32 :: (ascii "HTTP/1.1" ++ 13 :: [10])) := by
    have hblank : ascii " " = [32] := by decide
    have hversion : ascii " HTTP/1.1" = 32 :: ascii "HTTP/1.1" := by decide
    unfold requestStart crlf
    rw [hblank, hversion]
    simp only [List.append_assoc, List.cons_append, List.nil_append]
  have hversion : ∀ c ∈ ascii "HTTP/1.1", isLineEnd c = false := by decide
  rw [hline]
  exact (Shape.complete h.methodBlank h.uriBlank hversion rfl).parseStartLine_eq

/-- A line that does not end the message is passed over by the search for the blank
line. -/
theorem find_blankLine_skip {line : Bytes} {c : Byte} (hline : LineFree line)
    (hc : isLineEnd c = false) (rest : Bytes) :
    find (crlf ++ crlf) (line ++ crlf ++ c :: rest)
      = (find (crlf ++ crlf) (c :: rest)).map (· + (line ++ crlf).length) := by
  refine find_append_skip fun q hq hocc => ?_
  have hlen : (line ++ crlf).length = line.length + 2 := List.length_append
  have hget : ∀ i < 2, (line ++ crlf ++ c :: rest)[line.length + i]? = crlf[i]? := by
    intro i hi
    rw [List.append_assoc, List.getElem?_append_right (Nat.le_add_right _ _),
      Nat.add_sub_cancel_left, List.getElem?_append_left hi]
  have h0 : (line ++ crlf ++ c :: rest)[q]? = some 13 := hocc.getElem?_head
  rcases Nat.lt_trichotomy q line.length with hlt | rfl | hgt
  · -- within the line there is no CR
    rw [List.append_assoc, List.getElem?_append_left hlt] at h0
    exact hline.cr_notMem (List.mem_of_getElem? h0)
  · -- the CRLF of the line is not followed by another one
    have h2 : (line ++ crlf ++ c :: rest)[line.length + 2]? = some 13 :=
      hocc.getElem?_add (i := 2) (by decide)
    rw [← hlen, List.getElem?_append_right (Nat.le_refl _), Nat.sub_self] at h2
    cases h2
    cases hc
  · -- its LF is no CR
    obtain rfl : q = line.length + 1 := by omega
    rw [hget 1 (by decide)] at h0
    cases h0

theorem headerText_eq_cons {entry : Bytes × Bytes} (h : WellFormedEntry entry) :
    ∃ b c seg, headerText entry = b :: c :: seg ∧ isLineEnd b = false ∧ isLineEnd c = false ∧
      LineFree seg := by
  have hfree := h.lineFree
  have hlen : 2 ≤ (headerText entry).length := by
    unfold headerText
    rw [List.length_append, List.length_append, List.length_cons, List.length_singleton]
    omega
  match htext : headerText entry with
  | [] | [_] =>
    rw [htext] at hlen
    simp at hlen
  | b :: c :: seg =>
    rw [htext] at hfree
    exact ⟨b, c, seg, rfl, hfree b List.mem_cons_self,
      hfree c (List.mem_cons_of_mem _ List.mem_cons_self),
      fun d hd => hfree d (List.mem_cons_of_mem _ (List.mem_cons_of_mem _ hd))⟩

/-- The first blank line behind any part of a header line is the one that ends the
headers. -/
theorem find_blankLine {entries : List (Bytes × Bytes)}
    (h : ∀ entry ∈ entries, WellFormedEntry entry) {line : Bytes} (hline : LineFree line)
    (rest : Bytes) :
    ∃ pos, find (crlf ++ crlf) (line ++ crlf ++ headerBlock entries ++ rest) = some pos ∧
      (line ++ crlf ++ headerBlock entries).length = pos + (crlf ++ crlf).length := by
  induction entries generalizing line with
  | nil =>
    refine ⟨line.length, ?_, ?_⟩
    · have : line ++ crlf ++ headerBlock [] ++ rest = line ++ (13 :: [10, 13, 10] ++ rest) := by
        simp [headerBlock, crlf]
      rw [this]
      exact find_append_of_head_notMem hline.cr_notMem
    · rw [List.append_assoc, List.length_append]
      rfl
  | cons entry entries ih =>
    have hentry := h entry List.mem_cons_self
    obtain ⟨pos, hpos, hlen⟩ := ih (fun e he => h e (List.mem_cons_of_mem _ he)) hentry.lineFree
    obtain ⟨b, c, seg, htext, hb, -, -⟩ := headerText_eq_cons hentry
    refine ⟨pos + (line ++ crlf).length, ?_, ?_⟩
    · have hskip := find_blankLine_skip hline hb (c :: seg ++ crlf ++ headerBlock entries ++ rest)
      have hcons : line ++ crlf ++ headerBlock (entry :: entries) ++ rest
          = line ++ crlf ++ b :: (c :: seg ++ crlf ++ headerBlock entries ++ rest) := by
        rw [headerBlock_cons, htext, List.append_assoc (line ++ crlf)]
        rfl
      have htail : b :: (c :: seg ++ crlf ++ headerBlock entries ++ rest)
          = headerText entry ++ crlf ++ headerBlock entries ++ rest := by
        rw [htext]
        rfl
      rw [hcons, hskip, htail, hpos]
      rfl
    · rw [headerBlock_cons, List.length_append, hlen]
      omega

theorem dropWhile_headerBlock {entries : List (Bytes × Bytes)}
    (h : ∀ entry ∈ entries, WellFormedEntry entry) (hne : entries ≠ []) :
    (headerBlock entries).dropWhile isLineEnd = headerBlock entries := by
  obtain ⟨entry, entries, rfl⟩ := List.exists_cons_of_ne_nil hne
  obtain ⟨b, c, seg, htext, hb, -, -⟩ := headerText_eq_cons (h entry List.mem_cons_self)
  rw [headerBlock_cons, htext]
  refine List.dropWhile_cons_of_neg ?_
  rw [hb]
  decide

section FirstLine

variable {entry : Bytes × Bytes} (entries : List (Bytes × Bytes))

theorem headerBlock_colon : headerBlock (entry :: entries)
    = entry.1 ++ 58 :: (32 :: entry.2 ++ crlf ++ headerBlock entries) := by
  rw [headerBlock_cons, headerText_colon]
  simp only [List.append_assoc, List.cons_append]

/-- The first line ends where its text does. -/
theorem skipTo_headerBlock (h : WellFormedEntry entry) :
    skipTo isLineEnd (headerBlock (entry :: entries)) 0 = (headerText entry).length := by
  unfold skipTo
  rw [Nat.zero_add, List.drop_zero, headerBlock_cons, List.append_assoc,
    List.takeWhile_append_of_pos]
  · rw [crlf, List.cons_append, List.takeWhile_cons_of_neg (by decide), List.append_nil]
  · intro c hc
    rw [h.lineFree c hc]
    rfl

/-- The text in front of the colon is the key. -/
theorem substrTo_key : substrTo (headerBlock (entry :: entries)) 0 entry.1.length = entry.1 := by
  unfold substrTo
  rw [if_pos (Nat.zero_le _), headerBlock_colon, List.drop_zero, Nat.sub_zero, List.take_left]

/-- The text behind the colon is the value, with the blank the encoders write. -/
theorem substrTo_value : substrTo (headerBlock (entry :: entries)) (entry.1.length + 1)
    (headerText entry).length = 32 :: entry.2 := by
  have hlen : (headerText entry).length = entry.1.length + 1 + (32 :: entry.2).length := by
    rw [headerText_colon, List.length_append, List.length_cons]
    omega
  unfold substrTo
  rw [hlen, if_pos (Nat.le_add_right _ _), Nat.add_sub_cancel_left, headerBlock_colon,
    ← List.drop_drop, List.drop_left, List.append_assoc]
  exact List.take_left

end FirstLine

/-- The loop of `parse_headers` takes one header line at a time, and all line ends
behind it. -/
theorem parseHeadersFrom_headerBlock {entries : List (Bytes × Bytes)}
    (h : ∀ entry ∈ entries, WellFormedEntry entry) {fuel : Nat} (hfuel : entries.length ≤ fuel)
    (header : HttpHeader) :
    parseHeadersFrom fuel ((headerBlock entries).dropWhile isLineEnd) header
      = ⟨header.inner ++ entries⟩ := by
  induction entries generalizing fuel header with
  | nil =>
    rw [List.append_nil]
    cases fuel with
    | zero => rfl
    | succ fuel => rfl
  | cons entry entries ih =>
    obtain ⟨fuel, rfl⟩ := Nat.exists_eq_add_one.mpr (Nat.lt_of_lt_of_le (Nat.succ_pos _) hfuel)
    have hentry := h entry List.mem_cons_self
    have hrest := ih (fun e he => h e (List.mem_cons_of_mem _ he)) (Nat.le_of_succ_le_succ hfuel)
      (header.add entry.1 entry.2)
    have hblock : headerBlock (entry :: entries) = _ := headerBlock_colon entries
    -- the line ends skipped behind the last header include those of the blank line
    have hnext : ((headerBlock (entry :: entries)).drop (headerText entry).length).dropWhile
        isLineEnd = (headerBlock entries).dropWhile isLineEnd := by
      rw [headerBlock_cons, List.append_assoc, List.drop_left]
      rfl
    have hcolon : (headerBlock (entry :: entries)).findIdx? (· == 58) = some entry.1.length := by
      rw [hblock, findIdx_colon hentry.noColon]
    rw [dropWhile_headerBlock h (List.cons_ne_nil _ _)]
    unfold parseHeadersFrom
    dsimp only
    rw [if_neg (by simp [hblock]), skipTo_headerBlock entries hentry, hnext, hcolon]
    dsimp only
    rw [substrTo_key, substrTo_value, trim_of_trimmed hentry.keyTrimmed,
      trim_blank_cons hentry.valueTrimmed, hrest, HttpHeader.inner_add, List.append_assoc]
    rfl

/-- `parse_headers` recovers the headers of a message. -/
theorem parseHeaders_headerBlock {entries : List (Bytes × Bytes)}
    (h : ∀ entry ∈ entries, WellFormedEntry entry) (hne : entries ≠ []) :
    parseHeaders (headerBlock entries) = ⟨entries⟩ := by
  have hfrom := parseHeadersFrom_headerBlock h (Nat.le_of_lt (length_lt_headerBlock entries)) .empty
  rwa [dropWhile_headerBlock h hne] at hfrom

/-- What both decoders do with the headers of a message: they store them if there
are any, and leave everything behind the blank line alone. -/
theorem run_decodeRest {M : Type} (setHeaders : HttpHeader → M → M) (setBody : Bytes → M → M)
    (m : M) {headers : HttpHeader} (h : WellFormedHeaders headers) (rest : Bytes)
    (ending : Option Error) :
    (decodeRest setHeaders setBody m : Task Feed _).run ⟨headerBlock headers.inner ++ rest, ending⟩
      = .ok ((if headers.inner = [] then m else setHeaders headers m, .ok ()), ⟨rest, ending⟩) := by
  obtain ⟨entries⟩ := headers
  cases entries with
  | nil =>
    -- the two bytes read are the blank line
    have hexact : (Reader.readExact [0, 0] : Task Feed _).run ⟨crlf ++ rest, ending⟩
        = .ok ((crlf, .ok ()), ⟨rest, ending⟩) := Feed.run_readExact rfl
    unfold decodeRest
    exact Prog.run_bind_of_ok hexact
  | cons entry entries =>
    obtain ⟨b, c, seg, htext, hb, hc, hseg⟩ := headerText_eq_cons (h entry List.mem_cons_self)
    have hwire : headerBlock (entry :: entries) ++ rest
        = [b, c] ++ (seg ++ crlf ++ headerBlock entries ++ rest) := by
      rw [headerBlock_cons, htext]
      rfl
    -- the two bytes read begin a header, and are put in front of what follows
    have hnot : ([b, c] == crlf) = false := by
      rw [beq_eq_false_iff_ne]
      rintro heq
      cases heq
      cases hb
    have hblock : [b, c] ++ (seg ++ crlf ++ headerBlock entries)
        = headerBlock (entry :: entries) := by
      rw [headerBlock_cons, htext]
      rfl
    obtain ⟨pos, hpos, hlen⟩ :=
      find_blankLine (fun e he => h e (List.mem_cons_of_mem _ he)) hseg rest
    have hexact : (Reader.readExact [0, 0] : Task Feed _).run
        ⟨[b, c] ++ (seg ++ crlf ++ headerBlock entries ++ rest), ending⟩
        = .ok (([b, c], .ok ()), ⟨seg ++ crlf ++ headerBlock entries ++ rest, ending⟩) :=
      Feed.run_readExact rfl
    unfold decodeRest
    rw [hwire, Prog.run_bind_of_ok hexact]
    dsimp only
    rw [hnot, if_neg Bool.false_ne_true,
      run_decodeHeaders setHeaders setBody m (Feed.run_readUntil hpos hlen), withHeaders, hblock,
      parseHeaders_headerBlock h (List.cons_ne_nil _ _)]
    rfl

/-- **A request comes back** from the bytes written for it, without its body, and
the bytes behind stay where they are. -/
theorem decodeRequest_encodeRequest (req : HttpRequest) (h : WellFormedRequest req) (rest : Bytes)
    (ending : Option Error) :
    ∃ wire out, (encodeRequest req).run Record.blank = .ok (.ok (), ⟨wire, wire⟩) ∧
      (decodeRequest .fresh : Task Feed _).run ⟨wire ++ rest, ending⟩
        = .ok ((out, .ok ()), ⟨rest, ending⟩) ∧
      out.method = req.method ∧ out.uri = req.uri ∧ out.headers.inner.Perm req.headers.inner ∧
      out.body = [] := by
  refine ⟨requestWire req, ⟨req.method, req.uri, req.headers, []⟩, run_encodeRequest req, ?_, rfl,
    rfl, List.Perm.refl _, rfl⟩
  -- the request line goes up to the first CRLF, the headers follow
  have hline := find_crlf (lineFree_requestStart h) (headerBlock req.headers.inner ++ rest)
  have hparse := parseRequestLine_requestStart h
  unfold decodeRequest requestWire
  rw [List.append_assoc _ _ rest, Prog.run_bind_of_ok (Feed.run_readUntil hline List.length_append)]
  dsimp only
  rw [List.nil_append, hparse]
  dsimp only
  rw [run_decodeRest _ _ _ h.headers]
  obtain ⟨method, uri, ⟨entries⟩, body⟩ := req
  cases entries with
  | nil => rfl
  | cons entry entries => rfl

theorem decodeRequest_encodeRequest_put :
    ∃ wire out, (encodeRequest putRequest).run Record.blank = .ok (.ok (), ⟨wire, wire⟩) ∧
      (decodeRequest .fresh : Task Feed _).run ⟨wire ++ ascii "GET", none⟩
        = .ok ((out, .ok ()), ⟨ascii "GET", none⟩) ∧
      out.method = putRequest.method ∧ out.uri = putRequest.uri ∧
      out.headers.inner.Perm putRequest.headers.inner ∧ out.body = [] :=
  decodeRequest_encodeRequest putRequest wellFormed_putRequest (ascii "GET") none

end Uvio.Codec.Http
