import Uvio.Codec.Http
import Uvio.Codec.LengthVarint
import Uvio.Codec.WebsocketErrors
import Uvio.Io.Chunks
import Uvio.Io.FirstSearch

/-!
# Exceptions on the way

`resize` throws beyond `max_size()`, and `std::stoi` on text that is no number or too large
a one. Nothing catches what a decoder throws, and the coroutine's `unhandled_exception`
ends the process. Lengths and numbers come off the wire unchecked.

The first two codecs only call `read_exact`, and what is said of them is about the ideal
reader `Feed`. What `read_until` takes for the status line depends on the buffer, and on
what a NUL in the stream hides, so the third is about the buffered reader: in any state, by
the line that was returned, and fresh, by the bytes that come.

- `LengthDelimited.decode_throws_iff`: a prefix of 2 ^ 63 or more.
- `Websocket.decode_throws_iff`: an eight-byte length with its top bit set.
- `Http.decodeResponse_throws_iff`: a status code that is no `int`, in the line that
  `read_until` returned.
- `Http.badStatus_new_iff`: which line a fresh reader returns.
- `throwFree_iff`: all three.
-/

namespace Uvio.Codec

open Program Io Net

section Throws

variable {ρ α β : Type}

/-- An exception leaves the coroutine. -/
def Throws (x : Task ρ α) (s : ρ) : Prop := x.run s = .error .terminate

/-- No exception leaves the coroutine, wherever it starts. -/
def Silent (x : Task ρ α) : Prop := ∀ s, ¬ Throws x s

theorem silent_pure (a : α) : Silent (pure a : Task ρ α) := fun _ h => nomatch h

theorem silent_get : Silent (get : Task ρ ρ) := fun _ h => nomatch h

theorem silent_ite {c : Prop} [Decidable c] {x y : Task ρ α} (hx : Silent x)
    (hy : Silent y) : Silent (if c then x else y) := by
  split
  · exact hx
  · exact hy

/-- What a silent part returns decides whether a sequence throws. -/
theorem throws_bind_iff {x : Task ρ α} (hx : Silent x) {f : α → Task ρ β} {s : ρ} :
    Throws (x >>= f) s ↔ ∃ a s', x.run s = .ok (a, s') ∧ Throws (f a) s' := by
  unfold Throws
  cases hrun : x.run s with
  | error e =>
    rw [Prog.run_bind_of_error hrun]
    refine iff_of_false (fun he => hx s ?_) ?_
    · cases he
      exact hrun
    · rintro ⟨a, s', hok, -⟩
      cases hok
  | ok p =>
    obtain ⟨a, s'⟩ := p
    rw [Prog.run_bind_of_ok hrun]
    constructor
    · exact fun h => ⟨a, s', rfl, h⟩
    · rintro ⟨_, _, hok, h⟩
      cases hok
      exact h

theorem Silent.bind {x : Task ρ α} {f : α → Task ρ β} (hx : Silent x) (hf : ∀ a, Silent (f a)) :
    Silent (x >>= f) := by
  intro s hthrows
  obtain ⟨a, s', -, h⟩ := (throws_bind_iff hx).mp hthrows
  exact hf a s' h

theorem Silent.zoom {σ : Type} {get : σ → ρ} {put : σ → ρ → σ} {x : Task ρ α} (hx : Silent x) :
    Silent (Prog.zoom get put x) := by
  intro s hthrows
  unfold Throws at hthrows
  cases hrun : x.run (get s) with
  | error e =>
    rw [Prog.run_zoom_of_error hrun] at hthrows
    cases hthrows
    exact hx _ hrun
  | ok p => cases (Prog.run_zoom_of_ok hrun).symm.trans hthrows

/-- A loop that is never left throws nothing either. -/
theorem Silent.loop {body : β → Task ρ (Pass β α)} (hbody : ∀ b, Silent (body b)) (fuel : Nat)
    (b : β) : Silent (loop .spin body fuel b) := by
  induction fuel generalizing b with
  | zero => exact fun _ h => nomatch h
  | succ fuel ih =>
    refine (hbody b).bind ?_
    rintro (b' | a)
    · exact ih b'
    · exact silent_pure a

end Throws

/-! ## The buffered reader throws nothing -/

theorem read_silent (n : Nat) : Silent (Inlet.read n) := by
  rintro ⟨_ | ⟨bs | e, events⟩⟩ hthrows
  · cases hthrows
  · unfold Throws at hthrows
    by_cases hlen : bs.length ≤ n
    · cases (show (Inlet.read n).run ⟨.data bs :: events⟩ = _ from if_pos hlen).symm.trans hthrows
    · cases (show (Inlet.read n).run ⟨.data bs :: events⟩ = _ from if_neg hlen).symm.trans hthrows
  · cases hthrows

theorem onStream_silent {α : Type} (f : StreamBuffer → α × StreamBuffer) :
    Silent (BufReader.onStream f) := fun _ h => nomatch h

theorem readSlice_silent : Silent BufReader.readSlice := by
  refine silent_get.bind fun r => (read_silent _).zoom.bind ?_
  rintro (e | bs)
  · exact silent_pure _
  · exact (onStream_silent _).bind fun _ => silent_pure _

theorem refill_silent (n : Nat) : Silent (BufReader.refill n) := by
  refine (onStream_silent _).bind fun _ => readSlice_silent.bind ?_
  rintro (e | k)
  · exact silent_pure _
  · exact (onStream_silent _).bind fun _ => silent_pure _

theorem inletReadExact_silent (buf : Bytes) : Silent (Inlet.readExact buf) := by
  refine Silent.loop ?_ _ _
  rintro ⟨done, rest⟩
  refine silent_ite (silent_pure _) ((read_silent _).bind ?_)
  rintro (e | bs)
  · exact silent_pure _
  · exact silent_ite (silent_pure _) (silent_pure _)

theorem readExactPass_silent (buf : Bytes) : Silent (BufReader.readExactPass buf ()) := by
  refine (refill_silent _).bind ?_
  rintro (e | k)
  · exact silent_pure _
  · exact silent_get.bind fun r =>
      silent_ite ((onStream_silent _).bind fun _ => silent_pure _) (silent_pure _)

theorem readExact_silent (buf : Bytes) : Silent (Reader.readExact buf : Task BufReader _) := by
  refine silent_get.bind fun r => silent_ite ?_ (silent_ite ?_ ?_)
  · refine (onStream_silent _).bind fun out => (inletReadExact_silent _).zoom.bind ?_
    rintro ⟨rest, e | _⟩
    · exact silent_pure _
    · exact silent_pure _
  · exact (onStream_silent _).bind fun _ => silent_pure _
  · exact Silent.loop (fun _ => readExactPass_silent buf) _ _

theorem readUntilPass_silent (buf flag : Bytes) :
    Silent (BufReader.readUntilPass buf flag ()) := by
  refine silent_get.bind fun r => silent_ite ?_ (readSlice_silent.bind ?_)
  · exact (onStream_silent _).bind fun _ => silent_pure _
  · rintro (e | k)
    · exact silent_pure _
    · exact (onStream_silent _).bind fun _ => silent_pure _

theorem readUntil_silent (buf flag : Bytes) :
    Silent (Reader.readUntil buf flag : Task BufReader _) :=
  silent_get.bind fun _ => Silent.loop (fun _ => readUntilPass_silent buf flag) _ _

/-! ## `resize` -/

/-- Only a `resize` beyond `max_size()` throws. -/
theorem resize_throws_iff {ρ : Type} (dst : Bytes) (n : Nat) (s : ρ) :
    Throws (resize dst n) s ↔ maxSize < n := by
  constructor
  · intro h
    exact ((meets_of_error h).mp (resize_length dst n s)).2
  · intro h
    rw [Throws, resize, if_pos h]
    rfl

/-- Behind a length that was read only the `resize` throws. -/
theorem decodePrefixed_throws_iff {w : Nat} {decodeLength : Task Feed (Result (BitVec w))}
    (message : Bytes) {length : BitVec w} {s s' : Feed}
    (h : decodeLength.run s = .ok (.ok length, s')) :
    Throws (decodePrefixed decodeLength message) s ↔ maxSize < length.toNat := by
  constructor
  · intro hthrows
    have hmeets : Meets (decodePrefixed decodeLength message) s (fun _ _ => True)
        fun e => e = .terminate → maxSize < length.toNat := by
      rw [decodePrefixed, meets_bind, meets_of_ok h]
      refine (resize_length message _ s').bind (fun _ he _ => he.2) ?_
      rintro dst s₁ -
      refine (Feed.readExact_length dst s₁).bind ?_ ?_
      · rintro _ rfl h
        cases h
      · rintro ⟨dst', e | _⟩ s₂ -
        · exact True.intro
        · exact True.intro
    exact (meets_of_error hthrows).mp hmeets rfl
  · intro hmax
    rw [Throws, decodePrefixed, Prog.run_bind_of_ok h]
    exact Prog.run_bind_of_error ((resize_throws_iff message _ s').mpr hmax)

/-! ## `LengthDelimitedCodec` -/

namespace LengthDelimited

/-- The byte of the prefix whose lowest bit is the top bit of the length. -/
def topGroup : ByteOrder → Nat
  | .littleEndian => 1
  | .bigEndian => 9

/-- The stream begins with an integer of at most ten bytes that stands for a length of
2 ^ 63 or more. -/
def TooLong (order : ByteOrder) (bs : Bytes) : Prop :=
  ∃ vs rest, bs = vs ++ rest ∧ Terminated vs ∧ vs.length ≤ 10 ∧
    (vs.getD (topGroup order) 0).toNat % 2 = 1

theorem maxSize_lt_iff (order : ByteOrder) (vs : Bytes) :
    maxSize < (order.ntoh64 (BitVec.ofNat 64 (ofGroups vs))).toNat ↔
      (vs.getD (topGroup order) 0).toNat % 2 = 1 := by
  have hgroup := ofGroups_div vs (topGroup order)
  cases order with
  | littleEndian =>
    -- the swap puts the lowest octet on top
    have htop : maxSize < swap 8 (ofGroups vs % 2 ^ 64) ↔
        128 ≤ (BitVec.ofNat 8 (ofGroups vs % 2 ^ 64)).toNat :=
      ofBE_top_iff (k := 7) (length_toLE 8 _)
    show maxSize < (bswap64 _).toNat ↔ _
    rw [toNat_bswap64, BitVec.toNat_ofNat, htop, BitVec.toNat_ofNat]
    change ofGroups vs / 128 ^ 1 % 128 = (vs.getD 1 0).toNat % 128 at hgroup
    show _ ↔ (vs.getD 1 0).toNat % 2 = 1
    omega
  | bigEndian =>
    show maxSize < (BitVec.ofNat 64 (ofGroups vs)).toNat ↔ _
    rw [BitVec.toNat_ofNat]
    change ofGroups vs / 128 ^ 9 % 128 = (vs.getD 9 0).toNat % 128 at hgroup
    show 2 ^ 63 - 1 < _ ↔ (vs.getD 9 0).toNat % 2 = 1
    omega

/-- **When `LengthDelimitedCodec::decode` throws**. -/
theorem decode_throws_iff (order : ByteOrder) (message : Bytes) (s : Feed) :
    Throws (decode order message) s ↔ TooLong order s.unread := by
  obtain ⟨unread, ending⟩ := s
  have hread : ∀ {vs rest}, unread = vs ++ rest → Terminated vs → vs.length ≤ 10 →
      (Throws (decode order message) (⟨unread, ending⟩ : Feed) ↔
        (vs.getD (topGroup order) 0).toNat % 2 = 1) := by
    rintro vs rest rfl hvs hlen
    rw [← maxSize_lt_iff order vs]
    exact decodePrefixed_throws_iff message
      (run_decodeLength_terminated order hvs hlen rest ending)
  constructor
  · intro hthrows
    rcases terminated_cases 10 unread with ⟨vs, rest, hunread, hvs, hlen⟩ |
      ⟨front, rest, rfl, hfront, hlen⟩ | ⟨hbs, hlen⟩
    · exact ⟨vs, rest, hunread, hvs, hlen, (hread hunread hvs hlen).mp hthrows⟩
    · have hrun : (decode order message).run (⟨front ++ rest, ending⟩ : Feed) = .ok _ :=
        Prog.run_bind_of_ok (run_decodeLength_announcing order hfront hlen rest ending)
      cases hrun.symm.trans hthrows
    · have hlength := run_decodeLength_starved order hbs hlen ending
      cases ending with
      | none => cases (Prog.run_bind_of_error hlength).symm.trans hthrows
      | some e => cases (Prog.run_bind_of_ok hlength).symm.trans hthrows
  · rintro ⟨vs, rest, hunread, hvs, hlen, hodd⟩
    exact (hread hunread hvs hlen).mpr hodd

end LengthDelimited

/-! ## `WebsocketCodec` -/

namespace Websocket

/-- The byte of the header that holds the top bit of an eight-byte length. -/
def topByte : ByteOrder → Nat
  | .littleEndian => 2
  | .bigEndian => 9

/-- The assertions hold or are compiled out, the length is in eight bytes and is 2 ^ 63 or
more, and if mask bits are expected the read of them comes back. -/
structure TooLong (order : ByteOrder) (ndebug clientSide : Bool) (s : Feed) : Prop where
  asserts : ndebug = true ∨ IsTextByte (s.unread.getD 0 0)
  code : lengthCode s.unread = 127
  header : 10 ≤ s.unread.length
  top : 128 ≤ (s.unread.getD (topByte order) 0).toNat
  mask : clientSide = true ∨ 14 ≤ s.unread.length ∨ s.ending ≠ none

theorem maxSize_lt_heardLength_iff (order : ByteOrder) {bs : Bytes}
    (h : headerLength bs ≤ bs.length) :
    maxSize < heardLength order bs ↔
      lengthCode bs = 127 ∧ 128 ≤ (bs.getD (topByte order) 0).toNat := by
  have hsmall : (65536 : Nat) ≤ maxSize := by decide
  by_cases h₁ : lengthCode bs = 126
  · have hlt := heardShort_lt order (bs.getD 2 0) (bs.getD 3 0)
    rw [heardLength_short order h₁]
    omega
  · by_cases h₂ : lengthCode bs = 127
    · rw [headerLength_long h₂] at h
      have hlen : ((bs.drop 2).take 8).length = 7 + 1 :=
        List.length_take_of_le (by rw [List.length_drop]; omega)
      have hget : ∀ i, i < 8 → ((bs.drop 2).take 8).getD i 0 = bs.getD (2 + i) 0 := by
        intro i hi
        rw [List.getD_eq_getElem?_getD, List.getD_eq_getElem?_getD, List.getElem?_take_of_lt hi,
          List.getElem?_drop]
      rw [heardLength_long order h₂, and_iff_right h₂]
      cases order with
      | littleEndian => exact (ofBE_top_iff hlen).trans (by rw [hget 0 (by decide)]; rfl)
      | bigEndian => exact (ofLE_top_iff hlen).trans (by rw [hget 7 (by decide)]; rfl)
    · have hlt : lengthCode bs < 256 := (bs.getD 1 0 &&& 0b01111111).isLt
      rw [heardLength_tiny order h₁ h₂]
      exact ⟨fun hmax => by omega, fun hc => absurd hc.1 h₂⟩

theorem decodePayload_throws_iff (clientSide : Bool) (length : BitVec 64) (payload : Bytes)
    (s : Feed) :
    Throws (decodePayload clientSide length payload) s ↔
      maxSize < length.toNat ∧ (clientSide = true ∨ 4 ≤ s.unread.length ∨ s.ending ≠ none) := by
  have hlength := decodePayload_length Feed.readExact_length clientSide length payload s
  -- what the read of the mask bits does decides whether `resize` is reached
  have hmask : ∀ {buf ret s'}, clientSide = false →
      (Reader.readExact (List.replicate 4 0)).run s = .ok ((buf, ret), s') →
        maxSize < length.toNat → Throws (decodePayload clientSide length payload) s := by
    rintro buf ret s' rfl hread hmax
    rw [Throws, decodePayload, if_neg Bool.false_ne_true, Prog.run_bind_of_ok hread]
    exact Prog.run_bind_of_error ((resize_throws_iff payload _ s').mpr hmax)
  constructor
  · intro hthrows
    have hmax : maxSize < length.toNat := by
      rcases (meets_of_error hthrows).mp hlength with h | h | ⟨-, h⟩
      · cases h
      · cases h
      · exact h
    refine ⟨hmax, ?_⟩
    by_contra hnot
    rw [not_or, not_or, not_not, Bool.not_eq_true, not_le] at hnot
    obtain ⟨rfl, hlt, hopen⟩ := hnot
    obtain ⟨unread, ending⟩ := s
    obtain rfl : ending = none := hopen
    have hwaits : (decodePayload false length payload).run (⟨unread, none⟩ : Feed)
        = .error .pending := Prog.run_bind_of_error (feed_waits hlt)
    cases hwaits.symm.trans hthrows
  · rintro ⟨hmax, hreach⟩
    cases clientSide with
    | true => exact Prog.run_bind_of_error ((resize_throws_iff payload _ s).mpr hmax)
    | false =>
      obtain ⟨unread, ending⟩ := s
      by_cases hfour : 4 ≤ unread.length
      · exact hmask rfl (feed_hands ending hfour) hmax
      · cases ending with
        | some e => exact hmask rfl (feed_fails e (Nat.lt_of_not_le hfour)) hmax
        | none => simp [hfour] at hreach

/-- Behind the assertions. -/
theorem decode_ndebug_throws_iff (order : ByteOrder) (clientSide : Bool) (payload : Bytes)
    (s : Feed) :
    Throws (decode order true clientSide payload) s ↔ TooLong order true clientSide s := by
  obtain ⟨unread, ending⟩ := s
  by_cases hheader : headerLength unread ≤ unread.length
  · obtain ⟨length, hlength, hrun⟩ :=
      run_decode_header (feed_hands ending) order clientSide payload hheader
    rw [Throws, hrun]
    refine (decodePayload_throws_iff clientSide length payload _).trans ?_
    rw [hlength, maxSize_lt_heardLength_iff order hheader, List.length_drop]
    constructor
    · rintro ⟨⟨hcode, htop⟩, hmask⟩
      have hten : headerLength unread = 10 := headerLength_long hcode
      rw [hten] at hheader hmask
      exact ⟨Or.inl rfl, hcode, hheader, htop,
        hmask.imp_right fun h => h.imp_left fun h => Nat.add_le_of_le_sub hheader h⟩
    · rintro ⟨-, hcode, -, htop, hmask⟩
      have hten : headerLength unread = 10 := headerLength_long hcode
      rw [hten]
      exact ⟨⟨hcode, htop⟩, hmask.imp_right fun h => h.imp_left Nat.le_sub_of_add_le⟩
  · -- of a header that is not there only a short length is made up
    have hlt := Nat.lt_of_not_le hheader
    have hnot : ¬ TooLong order true clientSide ⟨unread, ending⟩ := by
      rintro ⟨-, hcode, hten, -, -⟩
      rw [headerLength_long hcode] at hheader
      exact hheader hten
    refine iff_of_false (fun hthrows => ?_) hnot
    cases ending with
    | none => cases (run_decode_waits (feed_hands none) feed_waits hlt).symm.trans hthrows
    | some e =>
      obtain ⟨length, bs', hshort, hrun⟩ :=
        run_decode_short (feed_hands (some e)) (feed_fails e) order clientSide payload hlt
      have hmax := ((decodePayload_throws_iff clientSide length payload _).mp
        (hrun.symm.trans hthrows)).1
      have : (65536 : Nat) ≤ maxSize := by decide
      omega

/-- **When `WebsocketCodec::decode` throws**. -/
theorem decode_throws_iff (order : ByteOrder) (ndebug clientSide : Bool) (payload : Bytes)
    (s : Feed) :
    Throws (decode order ndebug clientSide payload) s ↔ TooLong order ndebug clientSide s := by
  have hndebug := decode_ndebug_throws_iff order clientSide payload s
  have htoo : TooLong order ndebug clientSide s ↔
      (ndebug = true ∨ IsTextByte (s.unread.getD 0 0)) ∧ TooLong order true clientSide s :=
    ⟨fun h => ⟨h.asserts, Or.inl rfl, h.code, h.header, h.top, h.mask⟩,
      fun ⟨ha, h⟩ => ⟨ha, h.code, h.header, h.top, h.mask⟩⟩
  by_cases htwo : 2 ≤ s.unread.length
  · have hread := Feed.run_readExact_of_le
      (show (List.replicate 2 (0 : Byte)).length ≤ s.unread.length from htwo)
    have hfirst : (s.unread.take 2).getD 0 0 = s.unread.getD 0 0 := by
      rw [List.getD_eq_getElem?_getD, List.getD_eq_getElem?_getD,
        List.getElem?_take_of_lt (by decide)]
    unfold Throws at hndebug ⊢
    rw [htoo, ← hndebug, run_decode_asserts order ndebug clientSide hread, List.length_replicate,
      hfirst]
    split
    · next h => rw [and_iff_right h]
    · next h => exact iff_of_false (fun hrun => nomatch hrun) fun hc => h hc.1
  · have hnot : ¬ TooLong order ndebug clientSide s := fun h => htwo (by have := h.header; omega)
    refine iff_of_false (fun hthrows => ?_) hnot
    obtain ⟨unread, ending⟩ := s
    have hlt := Nat.lt_of_not_le htwo
    cases ending with
    | none =>
      have hwaits : (decode order ndebug clientSide payload).run (⟨unread, none⟩ : Feed)
          = .error .pending := Prog.run_bind_of_error (feed_waits hlt)
      cases hwaits.symm.trans hthrows
    | some e =>
      have hasserts : (decode order ndebug clientSide payload).run (⟨unread, some e⟩ : Feed) = _ :=
        run_decode_asserts order ndebug clientSide (feed_fails e hlt)
      unfold Throws at hthrows
      rw [hasserts] at hthrows
      split at hthrows
      · exact htwo (by have := (hndebug.mp hthrows).header; omega)
      · cases hthrows

end Websocket

/-! ## Responses -/

namespace Http

open Net.Http

section Reader

variable {ρ : Type} [Reader ρ]

/-- `read_until` returns a status line with text `std::stoi` does not take where the status
code should be. -/
def BadStatus (s : ρ) : Prop :=
  ∃ line n s' version code text, (Reader.readUntil [] crlf).run s = .ok ((line, .ok n), s') ∧
    parseStatusLine line = .ok (version, code, text) ∧ stoi code = none

variable (hexact : ∀ buf, Silent (Reader.readExact buf : Task ρ _))
  (huntil : ∀ buf flag, Silent (Reader.readUntil buf flag : Task ρ _))

include hexact huntil

/-- Behind the start line nothing throws: the one `resize` and the one `stoi` there are for
a `Content-Length` that is not found. -/
theorem decodeRest_silent {M : Type} (setHeaders : HttpHeader → M → M)
    (setBody : Bytes → M → M) (m : M) :
    Silent (decodeRest setHeaders setBody m : Task ρ _) := by
  refine (hexact [0, 0]).bind ?_
  rintro ⟨requestHeaders, e | _⟩
  · exact silent_pure _
  · refine silent_ite (silent_pure _) ((huntil _ _).bind ?_)
    rintro ⟨block, e | _⟩
    · exact silent_pure _
    · exact silent_pure _

/-- **When `HttpCodec::decode` of a response throws**. -/
theorem decodeResponse_throws_iff (resp : HttpResponse) (s : ρ) :
    Throws (decodeResponse resp) s ↔ BadStatus s := by
  refine (throws_bind_iff (huntil [] crlf)).trans ?_
  constructor
  · rintro ⟨⟨line, e | n⟩, s', hread, hthrows⟩
    · cases hthrows
    · dsimp only at hthrows
      cases hparse : parseStatusLine line with
      | error e =>
        rw [hparse] at hthrows
        cases hthrows
      | ok parts =>
        obtain ⟨version, code, text⟩ := parts
        refine ⟨line, n, s', version, code, text, hread, hparse, ?_⟩
        -- a number that is taken leaves the rest to throw, which does not
        by_contra hcode
        obtain ⟨value, hvalue⟩ := Option.ne_none_iff_exists'.mp hcode
        rw [hparse] at hthrows
        dsimp only at hthrows
        rw [hvalue] at hthrows
        exact decodeRest_silent hexact huntil _ _ _ s' hthrows
  · rintro ⟨line, n, s', version, code, text, hread, hparse, hcode⟩
    refine ⟨_, s', hread, ?_⟩
    dsimp only
    rw [hparse]
    dsimp only
    rw [hcode]
    rfl

end Reader

/-- The first line of what comes before a read fails, as far as the positions of a buffer of
that size reach and up to the first NUL, is a status line with text `std::stoi` does not take
where the status code should be. -/
def BadLine (size : Nat) (io : Inlet) : Prop :=
  ∃ version code text, parseStatusLine (through crlf (StreamBuffer.cString
      ((Inlet.beforeFail io.events).take (BufReader.clamped size)))) = .ok (version, code, text) ∧
    stoi code = none

/-- That is the line a fresh reader returns. -/
theorem badStatus_new_iff (size : Nat) (io : Inlet) :
    BadStatus (BufReader.new io size) ↔ BadLine size io := by
  have hcrlf : crlf ≠ [] := by decide
  constructor
  · rintro ⟨line, n, r, version, code, text, hread, hbad⟩
    obtain ⟨-, rfl⟩ := (BufReader.firstSearch_iff io size hcrlf []).mp ⟨n, r, hread⟩
    exact ⟨version, code, text, hbad⟩
  · rintro ⟨version, code, text, hparse, hcode⟩
    -- a line that parses is not empty
    have hne : through crlf (StreamBuffer.cString
        ((Inlet.beforeFail io.events).take (BufReader.clamped size))) ≠ [] := by
      intro hnil
      rw [hnil] at hparse
      cases hparse
    obtain ⟨n, r, hread⟩ := (BufReader.firstSearch_iff io size hcrlf []).mpr ⟨hne, rfl⟩
    exact ⟨_, n, r, version, code, text, hread, hparse, hcode⟩

end Http

/-! ## All three -/

/-- **The streams on which no exception is thrown**, codec by codec. -/
theorem throwFree_iff (order : ByteOrder) (ndebug clientSide : Bool) (message payload : Bytes)
    (resp : Net.Http.HttpResponse) (s : Feed) (r : BufReader) (io : Inlet) (size : Nat) :
    (¬ Throws (LengthDelimited.decode order message) s ↔
      ¬ LengthDelimited.TooLong order s.unread) ∧
    (¬ Throws (Websocket.decode order ndebug clientSide payload) s ↔
      ¬ Websocket.TooLong order ndebug clientSide s) ∧
    (¬ Throws (Http.decodeResponse resp) r ↔ ¬ Http.BadStatus r) ∧
    (¬ Throws (Http.decodeResponse resp) (BufReader.new io size) ↔ ¬ Http.BadLine size io) := by
  have hthrows := Http.decodeResponse_throws_iff readExact_silent readUntil_silent resp
  exact ⟨not_congr (LengthDelimited.decode_throws_iff order message s),
    not_congr (Websocket.decode_throws_iff order ndebug clientSide payload s),
    not_congr (hthrows r),
    not_congr ((hthrows (BufReader.new io size)).trans (Http.badStatus_new_iff size io))⟩

/-- A status line without a number ends the process. -/
theorem throws_status :
    ¬ ∀ (order : ByteOrder) (ndebug clientSide : Bool) (message payload : Bytes)
      (resp : Net.Http.HttpResponse) (s : Feed) (r : BufReader),
      ¬ Throws (LengthDelimited.decode order message) s ∧
      ¬ Throws (Websocket.decode order ndebug clientSide payload) s ∧
      ¬ Throws (Http.decodeResponse resp) r := by
  intro h
  have hbad : Http.BadStatus
      (BufReader.new (.thenFail [ascii "HTTP/1.1 abc OK\r\n"] .unexpectedEOF) 1024) :=
    (Http.badStatus_new_iff _ _).mpr
      ⟨ascii "HTTP/1.1", ascii "abc", ascii "OK", by decide, by decide⟩
  have hthrows := (Http.decodeResponse_throws_iff readExact_silent readUntil_silent (.fresh 0)
    (BufReader.new (.thenFail [ascii "HTTP/1.1 abc OK\r\n"] .unexpectedEOF) 1024)).mpr hbad
  exact (h .littleEndian true true [] [] (.fresh 0) ⟨[], none⟩ _).2.2 hthrows

end Uvio.Codec
