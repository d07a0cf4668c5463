import Uvio.Codec.Http

/-!
# Bodies

A body is framed by the `Content-Length` of its head. The decoders parse the
headers, move them into the message, and then look for `Content-Length` in what
they moved from, where nothing is left: the body is not read, and its bytes stay
in front of the next message.

- `extends_readExact`, `extends_readUntil`: bytes behind what a read needs make no
  difference to it, so a decoder does with more bytes what it does with fewer.
- `reads_body_iff`: the only bodies read are the empty ones.
-/

namespace Uvio.Codec.Http

open Program Net.Http

/-! ## More bytes behind -/

/-- The first feed has `rest` behind what the second one has. -/
def Extends (rest : Bytes) (s t : Feed) : Prop :=
  s = ⟨t.unread ++ rest, none⟩ ∧ t.ending = none

theorem extends_readExact (rest buf : Bytes) :
    Simulates (Extends rest) Eq (Reader.readExact buf : Task Feed _)
      (Reader.readExact buf : Task Feed _) := by
  rintro s ⟨unread, ending⟩ ⟨rfl, rfl⟩ out t' hrun
  by_cases hlen : buf.length ≤ unread.length
  · have hmore : buf.length ≤ (unread ++ rest).length := by
      rw [List.length_append]
      omega
    rw [Feed.run_readExact_of_le hlen] at hrun
    cases hrun
    refine ⟨_, _, Feed.run_readExact_of_le hmore, ?_, ?_, rfl⟩
    · rw [List.take_append_of_le_length hlen]
    · dsimp only
      rw [List.drop_append_of_le_length hlen]
  · rw [Feed.run_readExact_of_lt (Nat.lt_of_not_le hlen)] at hrun
    cases hrun

theorem extends_readUntil (rest buf : Bytes) {endFlag : Bytes} (hflag : endFlag ≠ []) :
    Simulates (Extends rest) Eq (Reader.readUntil buf endFlag : Task Feed _)
      (Reader.readUntil buf endFlag : Task Feed _) := by
  rintro s ⟨unread, ending⟩ ⟨rfl, rfl⟩ out t' hrun
  cases hfind : find endFlag unread with
  | some pos =>
    have hlen := find_le hfind hflag
    have hmore := find_append_right hflag hfind rest
    rw [Feed.run_readUntil_of_some hfind] at hrun
    cases hrun
    refine ⟨_, _, Feed.run_readUntil_of_some hmore, ?_, ?_, rfl⟩
    · dsimp only
      rw [List.take_append_of_le_length hlen]
    · dsimp only
      rw [List.drop_append_of_le_length hlen]
  | none =>
    rw [Feed.run_readUntil_of_none hfind] at hrun
    cases hrun

/-! ## What is read as a body -/

/-- A decoder accepts a head: it returns `Ok` on it and reads all of it. -/
def Accepts {M : Type} (decode : Task Feed (M × Result Unit)) (head : Bytes) (m : M) : Prop :=
  decode.run ⟨head, none⟩ = .ok ((m, .ok ()), ⟨[], none⟩)

/-- The headers contain `Content-Length` with the decimal value `n`, which fits an
`int`. -/
def HasLength (headers : HttpHeader) (n : Nat) : Prop :=
  n ≤ intMax ∧ ∃ entry ∈ headers.inner,
    caseInsensitiveEqual entry.1 (ascii "Content-Length") = true ∧
    entry.2.all isDigit = true ∧ leadingNumber entry.2 = some n

/-- Behind the head, the next `n` bytes are read as the body. -/
def ReadsBody {M : Type} (decode : Task Feed (M × Result Unit)) (body : M → Bytes)
    (head rest : Bytes) (n : Nat) : Prop :=
  ∃ m, decode.run ⟨head ++ rest, none⟩ = .ok ((m, .ok ()), ⟨rest.drop n, none⟩) ∧
    body m = rest.take n

/-- A decoder that does not look behind the head, and leaves the body empty, reads
empty bodies only. -/
theorem readsBody_iff {M : Type} {decode : Task Feed (M × Result Unit)} {body : M → Bytes}
    {head rest : Bytes} {m : M} (hext : Simulates (Extends rest) Eq decode decode)
    (hbody : Meets decode ⟨head, none⟩ (fun out _ => body out.1 = []) fun _ => True)
    (h : Accepts decode head m) {n : Nat} (hn : n ≤ rest.length) :
    ReadsBody decode body head rest n ↔ n = 0 := by
  obtain ⟨_, s, hrun, rfl, rfl, -⟩ := hext ⟨head ++ rest, none⟩ ⟨head, none⟩ ⟨rfl, rfl⟩ _ _ h
  have hempty : body m = [] := hbody.of_ok h
  constructor
  · rintro ⟨m', hrun', -⟩
    rw [hrun] at hrun'
    have hrest : rest = rest.drop n := by
      injection hrun' with hpair
      injection hpair with _ hfeed
      injection hfeed
    have hlen := congrArg List.length hrest
    rw [List.length_drop] at hlen
    omega
  · rintro rfl
    exact ⟨m, hrun, hempty⟩

/-- **The bodies that are read** behind a head that is accepted, for requests and
for responses: those of `Content-Length: 0`. -/
theorem reads_body_iff (head rest : Bytes) (n : Nat) (hrest : n ≤ rest.length) :
    (∀ req, Accepts (decodeRequest .fresh) head req → HasLength req.headers n →
      (ReadsBody (decodeRequest .fresh) HttpRequest.body head rest n ↔ n = 0)) ∧
    ∀ code resp, Accepts (decodeResponse (.fresh code)) head resp → HasLength resp.headers n →
      (ReadsBody (decodeResponse (.fresh code)) HttpResponse.body head rest n ↔ n = 0) := by
  constructor
  · intro req h _
    exact readsBody_iff (decodeRequest_simulates (extends_readExact rest)
      (fun buf _ hflag => extends_readUntil rest buf hflag) _) (decodeRequest_body _ _) h hrest
  · intro code resp h _
    exact readsBody_iff (decodeResponse_simulates (extends_readExact rest)
      (fun buf _ hflag => extends_readUntil rest buf hflag) _) (decodeResponse_body _ _) h hrest

/-- A request with a body of one byte: its head, and what is decoded from it. -/
def postHead : Bytes := ascii "POST / HTTP/1.1\r\nContent-Length: 1\r\n\r\n"

def postRequest : HttpRequest :=
  ⟨ascii "POST", ascii "/", ⟨[(ascii "Content-Length", ascii "1")]⟩, []⟩

theorem accepts_postHead : Accepts (decodeRequest .fresh) postHead postRequest := by
  unfold Accepts
  decide

theorem hasLength_postRequest : HasLength postRequest.headers 1 :=
  ⟨by decide, (ascii "Content-Length", ascii "1"), List.mem_singleton.mpr rfl, by decide,
    by decide, by decide⟩

theorem reads_body_iff_post :
    ReadsBody (decodeRequest .fresh) HttpRequest.body postHead (ascii "A") 1 ↔ 1 = 0 :=
  (reads_body_iff postHead (ascii "A") 1 (by decide)).1 postRequest accepts_postHead
    hasLength_postRequest

/-- The body of that request is not read. -/
theorem not_reads_body_post :
    ¬ ∀ (head rest : Bytes) (n : Nat) (req : HttpRequest), n ≤ rest.length →
      Accepts (decodeRequest .fresh) head req → HasLength req.headers n →
      ReadsBody (decodeRequest .fresh) HttpRequest.body head rest n := by
  intro h
  have hreads := h postHead (ascii "A") 1 postRequest (by decide) accepts_postHead
    hasLength_postRequest
  have hiff := readsBody_iff (decodeRequest_simulates (extends_readExact (ascii "A"))
    (fun buf _ hflag => extends_readUntil (ascii "A") buf hflag) .fresh)
    (decodeRequest_body .fresh _) accepts_postHead (n := 1) (by decide)
  exact absurd (hiff.mp hreads) (by decide)

end Uvio.Codec.Http
