import Uvio.Net.Websocket.WebsocketFrame

/-!
# CLOSE frames and the assertions of `decode`

`WebsocketCodec::decode` asserts that the first byte it read is that of a whole text
frame, whatever the peer sent, and with `NDEBUG` takes every frame for one. The theorems are about
the ideal reader `Feed`, of which `decode` and `recv` use `read_exact` only.

- `run_decode_asserts`: what the two assertions ask for.
- `withstands_iff`: the streams on which no assertion fails and on which `recv` tells a
  CLOSE frame from an empty text.
-/

namespace Uvio.Net.Websocket

open Program Codec Codec.Websocket

/-! ## What aborts -/

theorem decodeLength_stops (order : ByteOrder) (buf : Bytes) (s : Feed) :
    Meets (decodeLength order buf) s (fun _ _ => True) fun e => e = .pending := by
  unfold decodeLength
  dsimp only
  split
  · exact (Feed.readExact_length _ s).bind (fun _ he => he) fun _ _ _ => True.intro
  · split
    · exact (Feed.readExact_length _ s).bind (fun _ he => he) fun _ _ _ => True.intro
    · exact True.intro

/-- Behind the assertions nothing aborts. -/
theorem decode_stops (order : ByteOrder) (clientSide : Bool) (payload : Bytes) (s : Feed) :
    Meets (decode order true clientSide payload) s (fun _ _ => True) fun e => e ≠ .abort := by
  have hpending : ∀ e : Stop, e = .pending → e ≠ .abort := by
    rintro _ rfl
    decide
  unfold decode
  refine (Feed.readExact_length _ s).bind hpending ?_
  rintro ⟨buf, ret⟩ s₁ -
  show Meets (decodeLength order buf >>= fun length => decodePayload clientSide length payload)
    s₁ _ _
  refine (decodeLength_stops order buf s₁).bind hpending fun length s₂ _ => ?_
  refine (decodePayload_length Feed.readExact_length clientSide length payload s₂).mono
    (fun _ _ _ => True.intro) ?_
  rintro _ (rfl | rfl | ⟨rfl, -⟩)
  · decide
  · decide
  · decide

/-- What the assertions ask of a stream: two bytes, of which the first is that of a text
frame, or fewer on a stream that stays open. -/
def PassesAsserts (s : Feed) : Prop :=
  2 ≤ s.unread.length ∧ IsTextByte (s.unread.getD 0 0) ∨ s.unread.length < 2 ∧ s.ending = none

theorem run_decode_ne_abort_iff (order : ByteOrder) (ndebug clientSide : Bool) (payload : Bytes)
    (s : Feed) :
    (decode order ndebug clientSide payload).run s ≠ .error .abort ↔
      (ndebug = false → PassesAsserts s) := by
  have hbehind : (decode order true clientSide payload).run s ≠ .error .abort := fun hrun =>
    (meets_of_error hrun).mp (decode_stops order clientSide payload s) rfl
  -- what the assertions ask of a first byte that was read
  have hread : ∀ {buf ret s'}, (Reader.readExact (List.replicate 2 0)).run s
      = .ok ((buf, ret), s') → ((decode order ndebug clientSide payload).run s ≠ .error .abort ↔
        (ndebug = false → IsTextByte (buf.getD 0 0))) := by
    intro buf ret s' h
    rw [run_decode_asserts order ndebug clientSide h]
    by_cases hpass : ndebug = true ∨ IsTextByte (buf.getD 0 0)
    · rw [if_pos hpass]
      refine ⟨fun _ hdebug => hpass.resolve_left ?_, fun _ => hbehind⟩
      rw [hdebug]
      decide
    · rw [if_neg hpass, not_or, Bool.not_eq_true] at *
      exact ⟨fun h => absurd rfl h, fun h => absurd (h hpass.1) hpass.2⟩
  unfold PassesAsserts
  by_cases htwo : 2 ≤ s.unread.length
  · obtain ⟨b₀, b₁, rest, hs⟩ := first_two htwo
    have hrun := hread (Feed.run_readExact_of_le htwo)
    rw [hs] at hrun htwo ⊢
    rw [hrun]
    refine forall_congr' fun _ => ⟨fun h => Or.inl ⟨htwo, h⟩, ?_⟩
    rintro (⟨-, h⟩ | ⟨hlt, -⟩)
    · exact h
    · exact absurd htwo (Nat.not_le.mpr hlt)
  · have hlt : s.unread.length < 2 := Nat.lt_of_not_le htwo
    obtain ⟨unread, ending⟩ := s
    cases ending with
    | none =>
      have hwait : (decode order ndebug clientSide payload).run (⟨unread, none⟩ : Feed)
          = .error .pending := Prog.run_bind_of_error (Feed.run_readExact_of_lt hlt)
      rw [hwait]
      simp [hlt]
    | some e =>
      -- the zeros that were not read over
      have hzero : ¬ IsTextByte ((List.replicate 2 0).getD 0 0) := by decide
      rw [hread (Feed.run_readExact_of_lt hlt)]
      refine forall_congr' fun _ => ⟨fun h => absurd h hzero, ?_⟩
      rintro (⟨hle, -⟩ | ⟨-, hopen⟩)
      · exact absurd hle htwo
      · cases hopen

/-! ## CLOSE frames -/

/-- What `recv` gives its caller. -/
def received (order : ByteOrder) (ndebug clientSide : Bool) (s : Feed) :
    Except Stop (Result Bytes) :=
  ((recv order ndebug clientSide).run s).map Prod.fst

/-- The opcode of a frame is that of CLOSE. -/
def IsClose (frame : Bytes) : Prop := (frame.getD 0 0).toNat % 16 = Opcode.close.value.toNat

/-- No assertion fails on a stream, and if it begins with a CLOSE frame then `recv` does
not give what it gives for an empty text in its place. -/
structure Withstands (order : ByteOrder) (ndebug clientSide : Bool) (s : Feed) : Prop where
  asserts : ∀ payload, (decode order ndebug clientSide payload).run s ≠ .error .abort
  close : ∀ fr payload rest, s.unread = fr ++ rest → IsFrame clientSide fr payload → IsClose fr →
    ∀ peer : ByteOrder, received order ndebug clientSide s
      ≠ received order ndebug clientSide ⟨frame peer (!clientSide) [] ++ rest, s.ending⟩

theorem received_eq_ok_iff {order : ByteOrder} {ndebug clientSide : Bool} {s : Feed}
    {payload : Bytes} : received order ndebug clientSide s = .ok (.ok payload) ↔
      ∃ s', (decode order ndebug clientSide []).run s = .ok ((payload, .ok ()), s') := by
  rw [received, map_eq_ok_iff]
  constructor
  · rintro ⟨⟨_, s'⟩, hrun, rfl⟩
    obtain ⟨⟨payload', ret⟩, s₁, hdec, hrun⟩ := Prog.run_bind_eq_ok.mp hrun
    cases ret with
    | error e => cases hrun
    | ok _ =>
      cases hrun
      exact ⟨_, hdec⟩
  · rintro ⟨s', hdec⟩
    exact ⟨(.ok payload, s'), Prog.run_bind_of_ok hdec, rfl⟩

theorem received_emptyText (order peer : ByteOrder) (ndebug clientSide : Bool) (rest : Bytes)
    (ending : Option Error) :
    received order ndebug clientSide ⟨frame peer (!clientSide) [] ++ rest, ending⟩
      = .ok (.ok []) := by
  have hmask : (!clientSide) = true → ([] : Bytes).length < 2 ^ 32 := fun _ => by decide
  have hdec := (run_decode_iff order ndebug (!clientSide) hmask rest [] ending).mpr
    ⟨Nat.zero_le _, Or.inl (by decide)⟩
  rw [Bool.not_not] at hdec
  exact received_eq_ok_iff.mpr ⟨_, hdec⟩

/-- A length of zero is heard right. -/
theorem heardLength_eq_zero_iff (order : ByteOrder) {bs : Bytes}
    (h : headerLength bs ≤ bs.length) : heardLength order bs = 0 ↔ statedLength bs = 0 := by
  obtain ⟨b₀, b₁, rest, rfl⟩ := first_two ((two_le_headerLength bs).trans h)
  by_cases h₁ : lengthCode (b₀ :: b₁ :: rest) = 126
  · rw [headerLength_short h₁] at h
    obtain ⟨lo, hi, rest, rfl⟩ := first_two (Nat.le_of_add_le_add_right (b := 2) h)
    rw [heardLength_short order h₁, statedLength_short h₁]
    show heardShort order lo.toNat hi.toNat = 0 ↔ hi.toNat + 256 * (lo.toNat + 256 * 0) = 0
    cases order with
    | littleEndian =>
      show (if lo.toNat < 128 then _ else _) = _ ↔ _
      split <;> omega
    | bigEndian =>
      show (if lo.toNat < 128 then _ else _) = _ ↔ _
      split <;> omega
  · by_cases h₂ : lengthCode (b₀ :: b₁ :: rest) = 127
    · rw [heardLength_long order h₂, statedLength_long h₂]
      cases order with
      | littleEndian => exact Iff.rfl
      | bigEndian => exact ofBE_eq_zero_iff.symm
    · rw [heardLength_tiny order h₁ h₂, statedLength_tiny h₁ h₂]

theorem length_unmasked (clientSide : Bool) (bs : Bytes) :
    (unmasked clientSide bs).length = bs.length - maskLength clientSide := by
  cases clientSide with
  | false =>
    show (masked (bs.take 4) (bs.drop 4).length (bs.drop 4)).length = _
    rw [length_masked, List.length_drop]
    rfl
  | true => rfl

/-- A frame has the payload it states. -/
theorem length_payload {clientSide : Bool} {fr payload : Bytes}
    (h : IsFrame clientSide fr payload) : payload.length = statedLength fr := by
  have hcomplete : fr.length = _ + _ + _ := h.complete
  rw [h.payload, length_unmasked, List.length_drop]
  omega

/-- With the assertions compiled out, a frame without payload is received as an empty
text, whatever its opcode. -/
theorem received_frame_iff (order : ByteOrder) {clientSide : Bool} {fr payload : Bytes}
    (h : IsFrame clientSide fr payload) (rest : Bytes) (ending : Option Error) :
    received order true clientSide ⟨fr ++ rest, ending⟩ = .ok (.ok []) ↔ payload = [] := by
  have hcomplete : fr.length = _ + _ + _ := h.complete
  have hfr : headerLength fr ≤ fr.length := by omega
  have hheader : headerLength (fr ++ rest) = headerLength fr :=
    headerLength_append ((two_le_headerLength fr).trans hfr) rest
  have hthere : headerLength (fr ++ rest) ≤ (fr ++ rest).length := by
    rw [hheader, List.length_append]
    omega
  obtain ⟨length, hlength, hrun⟩ :=
    run_decode_header (feed_hands ending) order clientSide [] hthere
  have hzero : length.toNat = 0 ↔ payload = [] := by
    rw [hlength, heardLength_eq_zero_iff order hthere, statedLength_append hfr, ← length_payload h,
      List.length_eq_zero_iff]
  rw [received_eq_ok_iff, hrun]
  constructor
  · rintro ⟨s', hdec⟩
    obtain ⟨hlen, -⟩ := (decodePayload_length Feed.readExact_length _ _ _ _).of_ok hdec
    exact hzero.mp hlen.symm
  · intro hnil
    have hlen := hzero.mpr hnil
    have hrest : maskLength clientSide + length.toNat
        ≤ ((fr ++ rest).drop (headerLength (fr ++ rest))).length := by
      rw [hlen, hheader, List.length_drop, List.length_append]
      omega
    have hend : ¬ Endless clientSide length.toNat := by
      rw [hlen]
      rintro (hlt | ⟨-, hle⟩)
      · exact Nat.not_lt_zero _ hlt
      · exact absurd hle (by decide)
    rw [decodePayload_whole (feed_hands ending) hend hrest, hlen]
    -- what is left of the mask bits is no payload
    have hempty : unmasked clientSide (((fr ++ rest).drop (headerLength (fr ++ rest))).take
        (maskLength clientSide + 0)) = [] := by
      rw [← List.length_eq_zero_iff, length_unmasked, List.length_take]
      omega
    rw [hempty]
    exact ⟨_, rfl⟩

/-- **The streams `decode` withstands**: with the assertions, those that pass them; with
`NDEBUG`, those that do not begin with a CLOSE frame without payload. -/
theorem withstands_iff (order : ByteOrder) (ndebug clientSide : Bool) (s : Feed) :
    Withstands order ndebug clientSide s ↔
      (ndebug = false → PassesAsserts s) ∧
      (ndebug = true →
        ¬ ∃ fr rest, s.unread = fr ++ rest ∧ IsFrame clientSide fr [] ∧ IsClose fr) := by
  obtain ⟨unread, ending⟩ := s
  constructor
  · intro h
    refine ⟨(run_decode_ne_abort_iff order ndebug clientSide [] _).mp (h.asserts []), ?_⟩
    rintro rfl ⟨fr, rest, hunread, hframe, hclose⟩
    dsimp only at hunread
    subst hunread
    refine h.close fr [] rest rfl hframe hclose order ?_
    rw [received_emptyText]
    exact (received_frame_iff order hframe rest ending).mpr rfl
  · rintro ⟨hasserts, hempty⟩
    refine ⟨fun payload => (run_decode_ne_abort_iff order ndebug clientSide payload _).mpr
      hasserts, fun fr payload rest hunread hframe hclose peer => ?_⟩
    dsimp only at hunread
    subst hunread
    rw [received_emptyText]
    cases ndebug with
    | true =>
      intro heq
      rw [(received_frame_iff order hframe rest ending).mp heq] at hframe
      exact hempty rfl ⟨fr, rest, rfl, hframe, hclose⟩
    | false =>
      -- a CLOSE frame does not pass the assertions
      have hcomplete : fr.length = _ + _ + _ := hframe.complete
      have htwo : 2 ≤ fr.length := by
        have := two_le_headerLength fr
        omega
      obtain ⟨b₀, b₁, tail, rfl⟩ := first_two htwo
      have hop : b₀.toNat % 16 = 8 := hclose
      rcases hasserts rfl with ⟨-, htext⟩ | ⟨hlt, -⟩
      · have hone : b₀.toNat % 16 = 1 := htext.2
        omega
      · rw [List.length_append] at hlt
        omega

/-- The frame a server's `close` sends aborts a client with assertions, and is an empty text
to one without. -/
theorem not_withstands_close :
    (close .littleEndian false).run Record.blank
        = .ok (.ok (), ⟨[0x88, 0x00], [0x88, 0x00]⟩) ∧
      ∀ ndebug, ¬ Withstands .littleEndian ndebug true ⟨[0x88, 0x00], none⟩ := by
  refine ⟨rfl, fun ndebug h => ?_⟩
  cases ndebug with
  | false => exact h.asserts [] rfl
  | true => exact h.close [0x88, 0x00] [] [] rfl ⟨rfl, rfl⟩ rfl .littleEndian rfl

end Uvio.Net.Websocket
