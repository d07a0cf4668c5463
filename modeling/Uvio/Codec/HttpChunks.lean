import Uvio.Codec.Http
import Uvio.Io.Chunks

/-!
# Requests cut into chunks

`decode` of a request through the buffered reader, on a connection that delivers
text in chunks and then ends. If a chunk ends right behind the two bytes that
follow the request line, `read_exact` takes the last byte received and resets the
positions; the search for the blank line then also sees what is left of the
request line behind the chunks that come next.

- `decode_of_safe`: unless the search finds a blank line there, the chunks are
  decoded as the undivided bytes are.
- `decode_of_not_safe`: if it does, `r_pos_` ends up beyond `w_pos_`.
- `decode_split_iff`: the cuttings that make no difference, as long as the size of the buffer,
  as an `int`, is more than what there is to read.
-/

namespace Uvio.Codec.Http

open Program Io Net.Http

/-- `decode` of a request by a fresh reader, on chunks followed by an end of file. -/
def decodeChunks (size : Nat) (chunks : List Bytes) :
    Except Stop ((HttpRequest × Result Unit) × BufReader) :=
  (decodeRequest .fresh).run (BufReader.new (.thenFail chunks .unexpectedEOF) size)

/-- The two cuttings are decoded to the same outcome, the same bytes stay unread, and
`r_pos_` never gets beyond `w_pos_`. -/
def Agree (size : Nat) (chunks₁ chunks₂ : List Bytes) : Prop :=
  ∃ out r₁ r₂, decodeChunks size chunks₁ = .ok (out, r₁) ∧
    decodeChunks size chunks₂ = .ok (out, r₂) ∧
    r₁.unread = r₂.unread ∧ r₁.rStream.asserted = true ∧ r₂.rStream.asserted = true

/-- `taken` is what `decode` takes of a stream before it looks for the blank line: a
request line that parses, and two bytes that are no CRLF. -/
def HeadTaken (stream taken : Bytes) : Prop :=
  ∃ pos, find crlf stream = some pos ∧ pos + 4 ≤ stream.length ∧ taken = stream.take (pos + 4) ∧
    (∃ parts, parseRequestLine (stream.take (pos + 2)) = .ok parts) ∧
    (stream.drop (pos + 2)).take 2 ≠ crlf

/-- If a chunk ends right behind what is taken, then at the end of no later chunk do
the bytes received since, and what they have not overwritten of `taken`, contain a
blank line that the bytes received since do not. -/
def Safe (chunks : List Bytes) : Prop :=
  ∀ front back, chunks = front ++ back → HeadTaken chunks.flatten front.flatten →
    BufReader.Within (crlf ++ crlf) [] front.flatten back

/-! ## The head of a request -/

section Head

variable {e : Error} {r : BufReader} {chunks : List Bytes}

open BufReader

/-- The first chunks with at least `n` bytes. -/
def Reaches (n : Nat) (front : List Bytes) : Prop :=
  n ≤ front.flatten.length ∧ ∀ a b, front = a ++ b → b ≠ [] → a.flatten.length < n

/-- If some chunks have exactly `n` bytes, then these are the first with at least
`n`. -/
theorem Reaches.unique {n : Nat} {front back front' back' : List Bytes}
    (hne : ∀ c ∈ chunks, c ≠ []) (h : Reaches n front) (hsplit : chunks = front ++ back)
    (hsplit' : chunks = front' ++ back') (hlen : front'.flatten.length = n) : front' = front := by
  rcases List.append_eq_append_iff.mp (hsplit'.symm.trans hsplit) with ⟨t, ht, -⟩ | ⟨t, ht, -⟩
  · by_cases htnil : t = []
    · rw [ht, htnil, List.append_nil]
    · have := h.2 front' t ht htnil
      omega
  · have ht0 : t.flatten = [] := by
      have hge := h.1
      rw [ht, List.flatten_append, List.length_append] at hlen
      rw [← List.length_eq_zero_iff]
      omega
    cases t with
    | nil => rw [ht, List.append_nil]
    | cons c t =>
      have hc : c = [] := (List.append_eq_nil_iff.mp ht0).1
      refine absurd hc (hne c ?_)
      rw [hsplit', ht]
      exact List.mem_append_left _ (List.mem_append_right _ List.mem_cons_self)

/-- Chunks received to find a flag, and more of them to get two more bytes. -/
theorem reaches_append {front₁ front₂ back : List Bytes} {line mid : Bytes} {pos : Nat}
    (hfind : find crlf (front₁ ++ front₂ ++ back).flatten = some pos)
    (hbytes : front₁.flatten = line ++ mid) (hline : line.length = pos + 2)
    (hmin₁ : ∀ a b, front₁ = a ++ b → b ≠ [] → find crlf a.flatten = none)
    (hlen : 2 ≤ (mid ++ front₂.flatten).length)
    (hmin₂ : ∀ a b, front₂ = a ++ b → b ≠ [] → (mid ++ a.flatten).length < 2) :
    Reaches (pos + 4) (front₁ ++ front₂) := by
  have hlen₁ : front₁.flatten.length = pos + 2 + mid.length := by
    rw [hbytes, List.length_append, hline]
  constructor
  · rw [List.flatten_append, List.length_append, hlen₁]
    rw [List.length_append] at hlen
    omega
  · intro a b hab hb
    have hlt : ∀ t, front₂ = t ++ b → (front₁ ++ t).flatten.length < pos + 4 := by
      intro t ht
      have := hmin₂ t b ht hb
      rw [List.length_append] at this
      rw [List.flatten_append, List.length_append, hlen₁]
      omega
    rcases List.append_eq_append_iff.mp hab with ⟨t, rfl, ht⟩ | ⟨t, ht, hbt⟩
    · exact hlt t ht
    · by_cases htnil : t = []
      · rw [htnil, List.append_nil] at ht
        rw [htnil, List.nil_append] at hbt
        have := hlt [] hbt.symm
        rwa [List.append_nil, ht] at this
      · -- before the flag is found, it has not been received
        have hnone := hmin₁ a t ht htnil
        by_contra hge
        have hsome := find_of_append (s := a.flatten) (t := b.flatten ++ back.flatten)
          (by rw [← hfind, hab]; simp) (show pos + crlf.length ≤ a.flatten.length by
            have : crlf.length = 2 := rfl
            omega)
        rw [hnone] at hsome
        cases hsome

/-- The request line is read, and no more chunks are received than that takes. -/
structure LineRead (e : Error) (r r₁ : BufReader) (pos : Nat) (line mid : Bytes)
    (front back : List Bytes) : Prop where
  bytes : front.flatten = line ++ mid
  length : line.length = pos + 2
  first : ∀ a b, front = a ++ b → b ≠ [] → find crlf a.flatten = none
  run : (readUntil [] crlf).run r = .ok ((line, .ok line.length), r₁)
  holds : Holds e r₁ line mid [] back

theorem exists_lineRead (h : Holds e r [] [] [] chunks) {pos : Nat}
    (hfind : find crlf chunks.flatten = some pos) :
    ∃ r₁ line mid front back, chunks = front ++ back ∧ LineRead e r r₁ pos line mid front back := by
  obtain ⟨r₁, front, back, line, mid, hsplit, hbytes, hline, hfirst, hrun, hr₁⟩ :=
    h.run_readUntil_of_some (by decide) within_nil hfind []
  rw [List.nil_append] at hbytes hrun hr₁
  rw [List.drop_nil] at hr₁
  exact ⟨r₁, line, mid, front, back, hsplit, hbytes, hline, hfirst, hrun, hr₁⟩

/-- Then the two bytes behind it are read, and no more chunks received than that
takes. -/
structure TwoRead (e : Error) (r₁ r₂ : BufReader) (chunks : List Bytes) (line two mid : Bytes)
    (front back : List Bytes) : Prop where
  bytes : front.flatten = line ++ two ++ mid
  length : two.length = 2
  run : (readExact [0, 0]).run r₁ = .ok ((two, .ok ()), r₂)
  left : Left e r₂ (line ++ two) mid [] back
  unique : ∀ front' back', chunks = front' ++ back' → front'.flatten.length = line.length + 2 →
    front' = front

theorem LineRead.twoRead {r₁ : BufReader} {pos : Nat} {line mid₁ : Bytes}
    {front₁ back₁ : List Bytes}
    (h : LineRead e r r₁ pos line mid₁ front₁ back₁) (hne : ∀ c ∈ chunks, c ≠ [])
    (hsplit₁ : chunks = front₁ ++ back₁) (hfind : find crlf chunks.flatten = some pos)
    (hlen : 2 ≤ (mid₁ ++ back₁.flatten).length) :
    ∃ r₂ two mid front back, chunks = front ++ back ∧
      TwoRead e r₁ r₂ chunks line two mid front back := by
  have hline := h.length
  have hcap : 2 ≤ r₁.rStream.capacity := h.holds.le_capacity (by omega)
  have hexact : Exact e ((readExact [0, 0]).run r₁) 2 _ _ _ _ :=
    h.holds.run_readExact_of_le (by decide) hcap hlen
  obtain ⟨r₂, front₂, back₂, two, mid, hsplit₂, hbytes, htwo, hfirst, hrun, hleft⟩ := hexact
  rw [List.drop_nil] at hleft
  have hsplit : chunks = front₁ ++ front₂ ++ back₂ := by
    rw [hsplit₁, hsplit₂, List.append_assoc]
  have htaken : 2 ≤ (mid₁ ++ front₂.flatten).length := by
    rw [hbytes, List.length_append]
    exact Nat.le_add_right_of_le (Nat.le_of_eq htwo.symm)
  refine ⟨r₂, two, mid, front₁ ++ front₂, back₂, hsplit, ?_, htwo, hrun, hleft, ?_⟩
  · rw [List.flatten_append, h.bytes, List.append_assoc, hbytes, List.append_assoc]
  · intro front' back' hsplit' hlen'
    rw [hsplit] at hfind
    rw [hline] at hlen'
    exact (reaches_append hfind h.bytes hline h.first htaken hfirst).unique hne hsplit hsplit' hlen'

/-! ## Decoding the chunks as the undivided bytes -/

/-- The reader and the feed return the same, and have the same left to read. -/
def Agrees {α : Type} (x : Task BufReader α) (y : Task Feed α) (r : BufReader) (s : Feed) : Prop :=
  ∃ out r' s', x.run r = .ok (out, r') ∧ y.run s = .ok (out, s') ∧ r'.unread = s'.unread ∧
    r'.rStream.asserted = true

theorem Agrees.bind {α β : Type} {x : Task BufReader α} {y : Task Feed α}
    {f : α → Task BufReader β} {g : α → Task Feed β} {r r' : BufReader} {s s' : Feed} {a : α}
    (hx : x.run r = .ok (a, r')) (hy : y.run s = .ok (a, s')) (h : Agrees (f a) (g a) r' s') :
    Agrees (x >>= f) (y >>= g) r s := by
  unfold Agrees
  rw [Prog.run_bind_of_ok hx, Prog.run_bind_of_ok hy]
  exact h

theorem Agrees.pure {α : Type} (a : α) {r : BufReader} {s : Feed} (hun : r.unread = s.unread)
    (hassert : r.rStream.asserted = true) : Agrees (Pure.pure a) (Pure.pure a) r s :=
  ⟨a, r, s, rfl, rfl, hun, hassert⟩

variable {pre mid stale : Bytes}

/-- A search that stays within the bytes received does not see the chunks. -/
theorem readUntil_agrees (h : Holds e r pre mid stale chunks) {flag : Bytes} (hflag : flag ≠ [])
    (hwithin : Within flag mid stale chunks) (buf : Bytes) :
    Agrees (Reader.readUntil buf flag) (Reader.readUntil buf flag) r
      ⟨mid ++ chunks.flatten, some e⟩ := by
  cases hfind : find flag (mid ++ chunks.flatten) with
  | none =>
    obtain ⟨r', hrun, hun, hassert⟩ := h.run_readUntil_of_none hflag hwithin hfind buf
    exact ⟨_, r', _, hrun, Feed.run_readUntil_of_none hfind, hun, hassert⟩
  | some pos =>
    obtain ⟨r', front, back, taken, mid', hsplit, hbytes, hlen, -, hrun, hr'⟩ :=
      h.run_readUntil_of_some hflag hwithin hfind buf
    have hstream : mid ++ chunks.flatten = taken ++ (mid' ++ back.flatten) := by
      rw [hsplit, List.flatten_append, ← List.append_assoc, hbytes, List.append_assoc]
    rw [hstream] at hfind ⊢
    exact ⟨_, r', _, hrun, Feed.run_readUntil hfind hlen, hr'.unread, hr'.asserted⟩

theorem decodeHeaders_agrees (h : Holds e r pre mid stale chunks)
    (hwithin : Within (crlf ++ crlf) mid stale chunks) {M : Type} (setHeaders : HttpHeader → M → M)
    (setBody : Bytes → M → M) (m : M) (buf : Bytes) :
    Agrees (decodeHeaders setHeaders setBody m buf) (decodeHeaders setHeaders setBody m buf) r
      ⟨mid ++ chunks.flatten, some e⟩ := by
  obtain ⟨⟨requestHeaders, ret⟩, r', s', hx, hy, hun, hassert⟩ :=
    readUntil_agrees h (by decide) hwithin buf
  exact ⟨_, r', s', run_decodeHeaders setHeaders setBody m hx,
    run_decodeHeaders setHeaders setBody m hy, hun, hassert⟩

theorem left_holds (h : Left e r pre mid [] chunks) :
    (mid = [] ∧ Holds e r [] mid pre chunks) ∨ (mid ≠ [] ∧ Holds e r pre mid [] chunks) := by
  by_cases hmid : mid = []
  · have hall := h.1 hmid
    rw [List.append_nil] at hall
    exact Or.inl ⟨hmid, hmid ▸ hall⟩
  · exact Or.inr ⟨hmid, h.2 hmid⟩

theorem headTaken_of_read {line two rest : Bytes} {pos : Nat}
    (hfind : find crlf (line ++ (two ++ rest)) = some pos) (hline : line.length = pos + 2)
    (htwo : two.length = 2) {parts : Bytes × Bytes × Bytes}
    (hparse : parseRequestLine line = .ok parts) (hne : two ≠ crlf) :
    HeadTaken (line ++ (two ++ rest)) (line ++ two) := by
  have hlen : (line ++ two).length = pos + 4 := by
    rw [List.length_append]
    omega
  refine ⟨pos, hfind, ?_, ?_, ⟨parts, ?_⟩, ?_⟩
  · rw [← List.append_assoc, List.length_append]
    omega
  · rw [← List.append_assoc, ← hlen, List.take_left]
  · rw [← hline, List.take_left, hparse]
  · rw [← hline, List.drop_left, ← htwo, List.take_left]
    exact hne

/-- Behind a request line that parses. -/
theorem decodeRest_of_safe {r₁ : BufReader} {pos : Nat} {line mid₁ : Bytes}
    {front₁ back₁ : List Bytes} {parts : Bytes × Bytes × Bytes} (hsafe : Safe chunks)
    (hne : ∀ c ∈ chunks, c ≠ []) (hr₁ : LineRead e r r₁ pos line mid₁ front₁ back₁)
    (hsplit₁ : chunks = front₁ ++ back₁) (hfind : find crlf chunks.flatten = some pos)
    (hparse : parseRequestLine line = .ok parts) {M : Type} (setHeaders : HttpHeader → M → M)
    (setBody : Bytes → M → M) (m : M) :
    Agrees (decodeRest setHeaders setBody m) (decodeRest setHeaders setBody m) r₁
      ⟨mid₁ ++ back₁.flatten, some e⟩ := by
  by_cases hlen : (mid₁ ++ back₁.flatten).length < 2
  · have hcap : 2 ≤ r₁.rStream.capacity := hr₁.holds.le_capacity (by have := hr₁.length; omega)
    obtain ⟨r', hrun, hun, hassert⟩ :=
      hr₁.holds.run_readExact_of_lt (show [(0 : Byte), 0].length ≤ 2 from Nat.le_refl 2) hcap hlen
    exact Agrees.bind hrun (Feed.run_readExact_of_lt hlen) (Agrees.pure _ hun hassert)
  · obtain ⟨r₂, two, mid, front, back, hsplit, hr₂⟩ :=
      hr₁.twoRead hne hsplit₁ hfind (Nat.le_of_not_lt hlen)
    have hrest : mid₁ ++ back₁.flatten = two ++ (mid ++ back.flatten) := by
      have hboth : line ++ (mid₁ ++ back₁.flatten) = line ++ (two ++ (mid ++ back.flatten)) := by
        rw [← List.append_assoc, ← hr₁.bytes, ← List.flatten_append, ← hsplit₁, hsplit,
          List.flatten_append, hr₂.bytes]
        simp only [List.append_assoc]
      exact List.append_cancel_left hboth
    have hstream : chunks.flatten = line ++ (two ++ (mid ++ back.flatten)) := by
      rw [hsplit₁, List.flatten_append, hr₁.bytes, List.append_assoc, hrest]
    have htwo : (Reader.readExact [0, 0] : Task Feed _).run ⟨mid₁ ++ back₁.flatten, some e⟩
        = .ok ((two, .ok ()), ⟨mid ++ back.flatten, some e⟩) := by
      rw [hrest]
      exact Feed.run_readExact hr₂.length
    refine Agrees.bind hr₂.run htwo ?_
    dsimp only
    by_cases hcrlf : two == crlf
    · rw [if_pos hcrlf, if_pos hcrlf]
      rcases left_holds hr₂.left with ⟨-, hh⟩ | ⟨-, hh⟩
      · exact Agrees.pure _ hh.unread hh.asserted
      · exact Agrees.pure _ hh.unread hh.asserted
    · rw [if_neg hcrlf, if_neg hcrlf]
      rcases left_holds hr₂.left with ⟨rfl, hh⟩ | ⟨-, hh⟩
      · -- the request line was left behind, and the cutting is safe
        refine decodeHeaders_agrees hh ?_ setHeaders setBody m two
        have hfront : front.flatten = line ++ two := by
          rw [hr₂.bytes, List.append_nil]
        have htaken : HeadTaken chunks.flatten front.flatten := by
          rw [hfront]
          rw [hstream] at hfind ⊢
          exact headTaken_of_read hfind hr₁.length hr₂.length hparse (by simpa using hcrlf)
        exact hfront ▸ hsafe front back hsplit htaken
      · exact decodeHeaders_agrees hh within_nil setHeaders setBody m two

/-- **A safe cutting** is decoded as the undivided bytes are. -/
theorem decode_of_safe (h : Holds e r [] [] [] chunks) (hsafe : Safe chunks) (req : HttpRequest) :
    Agrees (decodeRequest req) (decodeRequest req) r ⟨chunks.flatten, some e⟩ := by
  cases hfind : find crlf chunks.flatten with
  | none =>
    obtain ⟨r', hrun, hun, hassert⟩ := h.run_readUntil_of_none (by decide) within_nil hfind []
    exact Agrees.bind hrun (Feed.run_readUntil_of_none hfind) (Agrees.pure _ hun hassert)
  | some pos =>
    obtain ⟨r₁, line, mid₁, front₁, back₁, hsplit₁, hr₁⟩ := exists_lineRead h hfind
    have hstream₁ : chunks.flatten = line ++ (mid₁ ++ back₁.flatten) := by
      rw [hsplit₁, List.flatten_append, hr₁.bytes, List.append_assoc]
    have hline : (Reader.readUntil [] crlf : Task Feed _).run ⟨chunks.flatten, some e⟩
        = .ok ((line, .ok line.length), ⟨mid₁ ++ back₁.flatten, some e⟩) := by
      rw [hstream₁] at hfind ⊢
      exact Feed.run_readUntil hfind hr₁.length
    refine Agrees.bind hr₁.run hline ?_
    dsimp only
    cases hparse : parseRequestLine line with
    | error e => exact Agrees.pure _ hr₁.holds.unread hr₁.holds.asserted
    | ok parts => exact decodeRest_of_safe hsafe h.nonempty hr₁ hsplit₁ hfind hparse _ _ _

/-- **A cutting that is not safe** makes the search run past the bytes received. -/
theorem decode_of_not_safe (h : Holds e r [] [] [] chunks) (hsafe : ¬ Safe chunks)
    (req : HttpRequest) :
    ∃ out r', (decodeRequest req).run r = .ok (out, r') ∧ r'.rStream.asserted = false := by
  unfold Safe Within at hsafe
  push Not at hsafe
  obtain ⟨front', back', hsplit', ⟨pos, hfind, hlen, htake, ⟨parts, hparse⟩, hne⟩, later, rest,
    hback, hover⟩ := hsafe
  have hlen' : front'.flatten.length = pos + 4 := by
    rw [htake]
    exact List.length_take_of_le hlen
  obtain ⟨r₁, line, mid₁, front₁, back₁, hsplit₁, hr₁⟩ := exists_lineRead h hfind
  have hline := hr₁.length
  have hstream₁ : chunks.flatten = line ++ (mid₁ ++ back₁.flatten) := by
    rw [hsplit₁, List.flatten_append, hr₁.bytes, List.append_assoc]
  rw [hstream₁, List.length_append] at hlen
  obtain ⟨r₂, two, mid, front, back, hsplit, hr₂⟩ :=
    hr₁.twoRead h.nonempty hsplit₁ hfind (by omega)
  -- the chunk boundary is where the two bytes end
  obtain rfl : front' = front := hr₂.unique front' back' hsplit' (by omega)
  obtain rfl : back' = back := List.append_cancel_left (hsplit'.symm.trans hsplit)
  obtain rfl : mid = [] := by
    have := hr₂.bytes ▸ hlen'
    have := hr₂.length
    simp only [List.length_append] at *
    exact List.length_eq_zero_iff.mp (by omega)
  have hbytes : line ++ two = front'.flatten := by rw [hr₂.bytes, List.append_nil]
  have hheld := hr₂.left.1 rfl
  rw [List.append_nil, hbytes] at hheld
  obtain ⟨⟨requestHeaders, ret⟩, r', hrun, hassert⟩ :=
    hheld.run_readUntil_of_overruns (by decide) hback hover two
  have htwo : (two == crlf) = false := by
    have hstream : chunks.flatten = line ++ (two ++ back'.flatten) := by
      rw [hsplit, List.flatten_append, ← hbytes, List.append_assoc]
    rw [beq_eq_false_iff_ne]
    rwa [hstream, ← hline, List.drop_left, ← hr₂.length, List.take_left] at hne
  rw [hstream₁, ← hline, List.take_left] at hparse
  have hrest : ∀ (f : HttpHeader → HttpRequest → HttpRequest)
      (g : Bytes → HttpRequest → HttpRequest) m,
      (decodeRest f g m).run r₁ = .ok (withHeaders f m requestHeaders ret, r') := by
    intro f g m
    unfold decodeRest
    refine (Prog.run_bind_of_ok hr₂.run).trans ?_
    dsimp only
    rw [htwo, if_neg Bool.false_ne_true]
    exact run_decodeHeaders f g m hrun
  have hrequest : (decodeRequest req).run r = (decodeRest (fun h m => { m with headers := h })
      (fun b m => { m with body := b })
      { req with method := parts.1, uri := parts.2.1 } : Task BufReader _).run r₁ := by
    unfold decodeRequest
    refine (Prog.run_bind_of_ok hr₁.run).trans ?_
    dsimp only
    rw [hparse]
  exact ⟨_, r', hrequest.trans (hrest _ _ _), hassert⟩

theorem safe_of_asserted (h : Holds e r [] [] [] chunks) {req : HttpRequest}
    {out : HttpRequest × Result Unit} {r' : BufReader}
    (hrun : (decodeRequest req).run r = .ok (out, r')) (hassert : r'.rStream.asserted = true) :
    Safe chunks := by
  by_contra hunsafe
  obtain ⟨out', r'', hrun', hassert'⟩ := decode_of_not_safe h hunsafe req
  obtain ⟨-, rfl⟩ := Prod.mk.inj (Except.ok.inj (hrun.symm.trans hrun'))
  rw [hassert] at hassert'
  cases hassert'

end Head

/-! ## Cuttings that make no difference -/

section Cuttings

variable {size : Nat} {chunks₁ chunks₂ : List Bytes}

theorem agree_iff_of_fits (hfits : BufReader.Fits size chunks₁.flatten)
    (hsame : chunks₁.flatten = chunks₂.flatten) (hne₁ : ∀ c ∈ chunks₁, c ≠ [])
    (hne₂ : ∀ c ∈ chunks₂, c ≠ []) (htext : 0 ∉ chunks₁.flatten) :
    Agree size chunks₁ chunks₂ ↔ Safe chunks₁ ∧ Safe chunks₂ := by
  have h₁ := BufReader.holds_new .unexpectedEOF hfits hne₁ htext
  have h₂ := BufReader.holds_new .unexpectedEOF (hsame ▸ hfits) hne₂ (hsame ▸ htext)
  constructor
  · rintro ⟨out, r₁, r₂, hrun₁, hrun₂, -, hassert₁, hassert₂⟩
    exact ⟨safe_of_asserted h₁ hrun₁ hassert₁, safe_of_asserted h₂ hrun₂ hassert₂⟩
  · rintro ⟨hsafe₁, hsafe₂⟩
    obtain ⟨out, r₁, s, hrun₁, hs, hun₁, hassert₁⟩ := decode_of_safe h₁ hsafe₁ .fresh
    obtain ⟨out', r₂, s', hrun₂, hs', hun₂, hassert₂⟩ := decode_of_safe h₂ hsafe₂ .fresh
    rw [hsame, hs'] at hs
    obtain ⟨rfl, rfl⟩ := Prod.mk.inj (Except.ok.inj hs)
    exact ⟨_, r₁, r₂, hrun₁, hrun₂, hun₁.trans hun₂.symm, hassert₁, hassert₂⟩

/-- **The cuttings that make no difference** are the safe ones, where the size as an
`int` is more than the length of the stream. -/
theorem decode_split_iff (hsame : chunks₁.flatten = chunks₂.flatten) (hne₁ : ∀ c ∈ chunks₁, c ≠ [])
    (hne₂ : ∀ c ∈ chunks₂, c ≠ []) (htext : 0 ∉ chunks₁.flatten) :
    (BufReader.Fits size chunks₁.flatten ∧ Safe chunks₁ ∧ Safe chunks₂ →
        Agree size chunks₁ chunks₂) ∧
      (Agree size chunks₁ chunks₂ → BufReader.Fits size chunks₁.flatten →
        Safe chunks₁ ∧ Safe chunks₂) :=
  ⟨fun h => (agree_iff_of_fits h.1 hsame hne₁ hne₂ htext).mpr h.2,
    fun h hfits => (agree_iff_of_fits hfits hsame hne₁ hne₂ htext).mp h⟩

end Cuttings

/-- A request of two headers, whole and in three chunks. The first chunk ends two
bytes behind the request line; the second one ends where the CRLF of the request
line is left behind. -/
def wholeRequest : List Bytes := [ascii "a b c\r\nXxy:z\r\nK:V\r\n\r\n"]

def cutRequest : List Bytes := [ascii "a b c\r\nXx", ascii "y:z\r\n", ascii "K:V\r\n\r\n"]

theorem decode_split_iff_cut :
    (BufReader.Fits 64 wholeRequest.flatten ∧ Safe wholeRequest ∧ Safe cutRequest →
        Agree 64 wholeRequest cutRequest) ∧
      (Agree 64 wholeRequest cutRequest → BufReader.Fits 64 wholeRequest.flatten →
        Safe wholeRequest ∧ Safe cutRequest) :=
  decode_split_iff (by decide) (by decide) (by decide) (by decide)

theorem not_safe_cutRequest : ¬ Safe cutRequest := by
  intro hsafe
  have htaken : HeadTaken cutRequest.flatten (ascii "a b c\r\nXx") :=
    ⟨5, by decide, by decide, by decide, ⟨(ascii "a", ascii "b", ascii "c"), by decide⟩, by decide⟩
  exact hsafe [ascii "a b c\r\nXx"] [ascii "y:z\r\n", ascii "K:V\r\n\r\n"] rfl htaken
    [ascii "y:z\r\n"] [ascii "K:V\r\n\r\n"] rfl (by unfold BufReader.Overruns; decide)

/-- Cut like this, the request is not decoded as it is when it comes whole. -/
theorem not_decode_split_cut :
    ¬ ∀ (size : Nat) (chunks₁ chunks₂ : List Bytes),
      chunks₁.flatten = chunks₂.flatten → (∀ c ∈ chunks₁, c ≠ []) → (∀ c ∈ chunks₂, c ≠ []) →
      0 ∉ chunks₁.flatten → chunks₁.flatten.length < size → Agree size chunks₁ chunks₂ := by
  intro h
  obtain ⟨out, r₁, r₂, -, hrun, -, -, hassert⟩ := h 64 wholeRequest cutRequest (by decide)
    (by decide) (by decide) (by decide) (by decide)
  have hfits : BufReader.Fits 64 cutRequest.flatten := by decide
  have hholds := BufReader.holds_new .unexpectedEOF hfits (by decide) (by decide)
  exact not_safe_cutRequest (safe_of_asserted hholds hrun hassert)

/-- The second header is not seen. -/
example : (decodeChunks 64 cutRequest).map (fun p => p.1.1.headers.inner)
    = .ok [(ascii "Xxy", ascii "z")] := by
  decide

end Uvio.Codec.Http
