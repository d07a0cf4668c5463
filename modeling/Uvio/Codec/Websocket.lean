import Uvio.Codec.Masking

/-!
# `WebsocketCodec`

One text frame: two bytes that hold the opcode and a seven-bit length, the length
in two or in eight bytes if it does not fit, four mask bits if the client sends,
the payload. `encode` masks the caller's message in place, so it returns the
message next to its result. Neither side looks at what the reads and writes
return.

- `run_header`: what the decoder makes of the encoder's header. For lengths that
  take two bytes it is not the length: plain `char` is signed, and the low byte
  is or-ed in with its sign (`shortLength`).
- `roundTrip_iff`: the frames that come back.
-/

namespace Uvio.Codec.Websocket

open Program Net

variable {ρ ω : Type}

inductive Opcode where
  | conf
  | text
  | binary
  | close
  | ping
  | pong
deriving DecidableEq, Repr

/-- The underlying `int`. -/
def Opcode.value : Opcode → BitVec 32
  | .conf => 0x00
  | .text => 0x01
  | .binary => 0x02
  | .close => 0x08
  | .ping => 0x09
  | .pong => 0x0A

structure WebsocketFrame where
  opcode : Opcode
  message : Bytes
deriving DecidableEq, Repr

def WebsocketFrame.payloadLength (frame : WebsocketFrame) : BitVec 64 :=
  BitVec.ofNat 64 frame.message.length

/-! ## Decoding -/

/-- The length two bytes stand for, before `ntoh16`: `buf[1] << 8 | buf[0]`, with
both promoted to `int`. -/
def shortLength (buf : Bytes) : BitVec 64 :=
  ((charToInt (buf.getD 1 0) <<< 8) ||| charToInt (buf.getD 0 0)).signExtend 64

/-- The length eight bytes stand for, before `ntoh64`. -/
def longLength (buf8 : Bytes) : BitVec 64 :=
  (buf8.getD 0 0).setWidth 64
    ||| (buf8.getD 1 0).setWidth 64 <<< 8
    ||| (buf8.getD 2 0).setWidth 64 <<< 16
    ||| (buf8.getD 3 0).setWidth 64 <<< 24
    ||| (buf8.getD 4 0).setWidth 64 <<< 32
    ||| (buf8.getD 5 0).setWidth 64 <<< 40
    ||| (buf8.getD 6 0).setWidth 64 <<< 48
    ||| (buf8.getD 7 0).setWidth 64 <<< 56

/-- The part of `decode` that finds the length, given the first two bytes. -/
def decodeLength [Reader ρ] (order : ByteOrder) (buf : Bytes) : Task ρ (BitVec 64) := do
  let length := ((buf.getD 1 0) &&& 0b01111111).setWidth 64
  if length == 126 then do
    -- the two header bytes are read over
    let (buf, _) ← Reader.readExact buf
    pure ((order.ntoh16 ((shortLength buf).setWidth 16)).setWidth 64)
  else if length == 127 then do
    let (buf8, _) ← Reader.readExact (List.replicate 8 0)
    pure (order.ntoh64 (longLength buf8))
  else pure length

/-- The rest of `decode`: mask bits, payload, unmasking. -/
def decodePayload [Reader ρ] (clientSide : Bool) (length : BitVec 64) (payload : Bytes) :
    Task ρ (Bytes × Result Unit) :=
  if clientSide then do
    let payload ← resize payload length.toNat
    let (payload, _) ← Reader.readExact payload
    pure (payload, .ok ())
  else do
    let (maskBits, _) ← Reader.readExact (List.replicate 4 0)
    let payload ← resize payload length.toNat
    let (payload, _) ← Reader.readExact payload
    let payload ← applyMask payload maskBits
    pure (payload, .ok ())

/-- `decode(payload, reader)`. -/
def decode [Reader ρ] (order : ByteOrder) (ndebug clientSide : Bool) (payload : Bytes) :
    Task ρ (Bytes × Result Unit) := do
  let (buf, _) ← Reader.readExact (List.replicate 2 0)
  -- nine digits: bit 8 of the promoted byte, a copy of its sign
  let fin := charToInt (buf.getD 0 0) &&& 0b100000000 != 0
  let opcode := charToInt (buf.getD 0 0) &&& 0b00001111
  assertion ndebug fin
  assertion ndebug (opcode == Opcode.text.value)
  let length ← decodeLength order buf
  decodePayload clientSide length payload

/-! ## Encoding -/

/-- `(length >> k) & 0xFF`. -/
def octet (length : BitVec 64) (k : Nat) : Byte := toChar ((length >>> k) &&& 0xFF)

/-- The bytes `encode` gives its first `write`. -/
def header (order : ByteOrder) (clientSide : Bool) (opcode : Opcode) (length : BitVec 64) :
    Bytes :=
  let fin : Byte := 0b10000000 ||| toChar opcode.value
  let mask : Byte := if clientSide then 0b10000000 else 0
  if length < 126 then [fin, mask ||| toChar length]
  else if length < 65536 then
    let length := (order.hton16 (length.setWidth 16)).setWidth 64
    [fin, mask ||| 126, octet length 0, octet length 8]
  else
    let length := order.hton64 length
    [fin, mask ||| 127, octet length 0, octet length 8, octet length 16, octet length 24,
      octet length 32, octet length 40, octet length 48, octet length 56]

/-- `encode(frame, writer)`: the bytes of the caller's span afterwards and the
result. -/
def encode [Writer ω] (order : ByteOrder) (clientSide : Bool) (frame : WebsocketFrame) :
    Task ω (Bytes × Result Unit) := do
  let _ ← Writer.write (header order clientSide frame.opcode frame.payloadLength)
  if clientSide then do
    let mask : Bytes := [1, 1, 1, 1]
    let _ ← Writer.write mask
    let message ← applyMask frame.message mask
    let _ ← Writer.write message
    let _ ← Writer.flush
    pure (message, .ok ())
  else do
    let _ ← Writer.write frame.message
    let _ ← Writer.flush
    pure (frame.message, .ok ())

/-! ## What the length fields say -/

theorem low_of_signExtend (x : BitVec 32) : (x.signExtend 64).setWidth 16 = x.setWidth 16 := by
  ext i hi
  have h : i < 32 := by omega
  simp [BitVec.getElem_setWidth, BitVec.getLsbD_signExtend, h]
  omega

theorem high_byte (hi : Byte) :
    (charToInt hi <<< 8).setWidth 16 = BitVec.ofNat 16 hi.toNat <<< 8 := by
  revert hi
  decide

theorem low_byte (lo : Byte) : (charToInt lo).setWidth 16
    = if lo.toNat < 128 then BitVec.ofNat 16 lo.toNat else 0xFF00 ||| BitVec.ofNat 16 lo.toNat := by
  revert lo
  decide

theorem or_sign (hi : Byte) : BitVec.ofNat 16 hi.toNat <<< 8 ||| 0xFF00 = 0xFF00 := by
  revert hi
  decide

theorem toNat_shortLength (lo hi : Byte) :
    ((shortLength [lo, hi]).setWidth 16).toNat
      = if lo.toNat < 128 then lo.toNat + 256 * hi.toNat else lo.toNat + 65280 := by
  have hlo : lo.toNat < 256 := lo.isLt
  have hhi : hi.toNat < 256 := hi.isLt
  have hx : (BitVec.ofNat 16 lo.toNat).toNat = lo.toNat := by
    rw [BitVec.toNat_ofNat]
    omega
  -- `ntoh16` takes the low 16 bits, which cuts off the sign of the high byte
  have hcut : (shortLength [lo, hi]).setWidth 16
      = (BitVec.ofNat 16 hi.toNat <<< 8) ||| (charToInt lo).setWidth 16 := by
    rw [← high_byte, ← BitVec.setWidth_or]
    exact low_of_signExtend _
  rw [hcut, low_byte]
  by_cases h : lo.toNat < 128
  · rw [if_pos h, if_pos h, BitVec.or_comm]
    show _ = lo.toNat + 2 ^ 8 * hi.toNat
    rw [toNat_or_field (by omega) (by omega), hx]
  · -- but not that of the low byte, which drowns the high byte
    rw [if_neg h, if_neg h, ← BitVec.or_assoc, or_sign, BitVec.or_comm]
    have hfield := toNat_or_field (x := BitVec.ofNat 16 lo.toNat) (d := 255) (i := 8) (by omega)
      (by decide)
    rw [hx] at hfield
    exact hfield

theorem octet_eq (x : BitVec 64) (k : Nat) : octet x k = BitVec.ofNat 8 (x.toNat / 2 ^ k) := by
  have hlow : (x >>> k &&& 0xFF).toNat = _ := toNat_and_low (x >>> k) (k := 8) (by decide)
  apply BitVec.eq_of_toNat_eq
  rw [octet, toChar, BitVec.toNat_setWidth, hlow, BitVec.toNat_ushiftRight,
    Nat.shiftRight_eq_div_pow, BitVec.toNat_ofNat, Nat.mod_mod]

/-- Eight bytes are read least significant first. -/
theorem toNat_longLength {bs : Bytes} (h : bs.length = 8) : (longLength bs).toNat = ofLE bs := by
  match bs, h with
  | [b₀, b₁, b₂, b₃, b₄, b₅, b₆, b₇], _ =>
    have hlt : ∀ b : Byte, b.toNat < 256 := fun b => b.isLt
    have hw : ∀ b : Byte, b.setWidth 64 = BitVec.ofNat 64 b.toNat := fun b =>
      (BitVec.ofNat_toNat 64 b).symm
    have h₀ := hlt b₀
    have h₁ := hlt b₁
    have h₂ := hlt b₂
    have h₃ := hlt b₃
    have h₄ := hlt b₄
    have h₅ := hlt b₅
    have h₆ := hlt b₆
    have h₇ := hlt b₇
    have e₀ : (BitVec.ofNat 64 b₀.toNat).toNat = b₀.toNat := by
      rw [BitVec.toNat_ofNat]
      omega
    -- each byte is or-ed in above the bits in use
    have e₁ := toNat_or_field (d := b₁.toNat) (i := 8) (lt_of_eq_of_lt e₀ (by omega)) (by omega)
    have e₂ := toNat_or_field (d := b₂.toNat) (i := 16) (lt_of_eq_of_lt e₁ (by omega)) (by omega)
    have e₃ := toNat_or_field (d := b₃.toNat) (i := 24) (lt_of_eq_of_lt e₂ (by omega)) (by omega)
    have e₄ := toNat_or_field (d := b₄.toNat) (i := 32) (lt_of_eq_of_lt e₃ (by omega)) (by omega)
    have e₅ := toNat_or_field (d := b₅.toNat) (i := 40) (lt_of_eq_of_lt e₄ (by omega)) (by omega)
    have e₆ := toNat_or_field (d := b₆.toNat) (i := 48) (lt_of_eq_of_lt e₅ (by omega)) (by omega)
    have e₇ := toNat_or_field (d := b₇.toNat) (i := 56) (lt_of_eq_of_lt e₆ (by omega)) (by omega)
    unfold longLength
    simp only [List.getD_cons_zero, List.getD_cons_succ, hw]
    rw [e₇, e₆, e₅, e₄, e₃, e₂, e₁, e₀]
    simp only [ofLE]
    omega

/-- The second byte of a header. -/
def second (clientSide : Bool) (length : BitVec 64) : Byte :=
  (if clientSide then 0b10000000 else 0) |||
    if length < 126 then toChar length else if length < 65536 then 126 else 127

/-- What follows the first two bytes of a header. -/
def extended (order : ByteOrder) (length : BitVec 64) : Bytes :=
  if length < 126 then []
  else if length < 65536 then toLE 2 (order.hton16 (length.setWidth 16)).toNat
  else toLE 8 (order.hton64 length).toNat

theorem header_eq (order : ByteOrder) (clientSide : Bool) (opcode : Opcode) (length : BitVec 64) :
    header order clientSide opcode length
      = [0b10000000 ||| toChar opcode.value, second clientSide length]
        ++ extended order length := by
  unfold header second extended
  by_cases h₁ : length < 126
  · simp only [h₁, if_true, List.append_nil]
  · by_cases h₂ : length < 65536
    · simp only [h₁, h₂, if_true, if_false, octet_eq, toLE]
      rw [BitVec.toNat_setWidth_of_le (by decide), Nat.pow_zero, Nat.div_one]
      rfl
    · simp only [h₁, h₂, if_false, octet_eq, toLE, Nat.div_div_eq_div_mul]
      rw [Nat.pow_zero, Nat.div_one]
      rfl

/-- The length the decoder takes from the header of a message of that length. -/
def heard (order : ByteOrder) (length : BitVec 64) : BitVec 64 :=
  if length < 126 then length
  else if length < 65536 then
    (order.ntoh16 ((shortLength (extended order length)).setWidth 16)).setWidth 64
  else length

theorem second_low (clientSide : Bool) (b : Byte) (h : b.toNat < 128) :
    ((if clientSide then 0b10000000 else 0) ||| b) &&& 0b01111111 = b := by
  revert clientSide b
  decide

/-- The decoder finds the length field and takes `heard` from it. -/
theorem run_decodeLength (order : ByteOrder) (clientSide : Bool) (length : BitVec 64) (b : Byte)
    (rest : Bytes) (ending : Option Error) :
    (decodeLength order [b, second clientSide length]).run
        (⟨extended order length ++ rest, ending⟩ : Feed)
      = .ok (heard order length, ⟨rest, ending⟩) := by
  unfold decodeLength heard second extended
  rw [List.getD_cons_succ, List.getD_cons_zero]
  by_cases h₁ : length < 126
  · simp only [h₁, if_true, List.nil_append]
    have hlt : length.toNat < 126 := h₁
    have hchar : (toChar length).toNat = length.toNat := by
      rw [toChar, BitVec.toNat_setWidth, Nat.mod_eq_of_lt (by omega)]
    have hwide : (toChar length).setWidth 64 = length := by
      apply BitVec.eq_of_toNat_eq
      rw [BitVec.toNat_setWidth, hchar, Nat.mod_eq_of_lt length.isLt]
    -- a short length is not taken for the mark of a long one
    have hne : ∀ k : BitVec 64, 126 ≤ k.toNat → (length == k) = false := by
      intro k hk
      rw [beq_eq_false_iff_ne]
      rintro rfl
      omega
    rw [second_low _ _ (by omega), hwide, hne 126 (by decide), hne 127 (by decide)]
    rfl
  · by_cases h₂ : length < 65536
    · simp only [h₁, h₂, if_true, if_false]
      rw [second_low clientSide 126 (by decide)]
      refine (Prog.run_bind_of_ok (Feed.run_readExact (length_toLE 2 _))).trans ?_
      rfl
    · simp only [h₁, h₂, if_false]
      rw [second_low clientSide 127 (by decide)]
      have hlong : longLength (toLE 8 (order.hton64 length).toNat) = order.hton64 length := by
        apply BitVec.eq_of_toNat_eq
        rw [toNat_longLength (length_toLE 8 _), ofLE_toLE (BitVec.isLt _)]
      refine (Prog.run_bind_of_ok (Feed.run_readExact (length_toLE 8 _))).trans ?_
      dsimp only
      rw [hlong, ByteOrder.ntoh64_hton64]
      rfl

/-- **What the decoder makes of a header**: it goes on to the payload with the
length it heard. -/
theorem run_header (order : ByteOrder) (ndebug clientSide otherSide : Bool) (length : BitVec 64)
    (dst rest : Bytes) (ending : Option Error) :
    (decode order ndebug clientSide dst).run
        (⟨header order otherSide .text length ++ rest, ending⟩ : Feed)
      = (decodePayload clientSide (heard order length) dst).run ⟨rest, ending⟩ := by
  rw [header_eq, List.append_assoc]
  unfold decode
  have hread : (Reader.readExact (List.replicate 2 0)).run
      (⟨[0b10000000 ||| toChar Opcode.text.value, second otherSide length]
        ++ (extended order length ++ rest), ending⟩ : Feed) = _ := Feed.run_readExact rfl
  refine (Prog.run_bind_of_ok hread).trans ?_
  dsimp only
  rw [List.getD_cons_zero]
  -- the first byte passes both assertions
  have hfin :
      (charToInt (0b10000000 ||| toChar Opcode.text.value) &&& 0b100000000 != 0) = true := by
    decide
  have hop : (charToInt (0b10000000 ||| toChar Opcode.text.value) &&& 0b00001111
      == Opcode.text.value) = true := by decide
  rw [hfin, hop, assertion_true, pure_bind, pure_bind]
  exact Prog.run_bind_of_ok (run_decodeLength order otherSide length _ rest ending)

/-! ## The payload -/

/-- The mask `encode` uses. -/
def encodeMask : Bytes := [1, 1, 1, 1]

/-- What follows the header on the wire. -/
def body (clientSide : Bool) (message : Bytes) : Bytes :=
  if clientSide then encodeMask ++ masked encodeMask message.length message else message

/-- **`encode`** on an ideal writer. A client masks, so its message must be shorter
than 2^32 bytes. -/
theorem run_encode (order : ByteOrder) (clientSide : Bool) (frame : WebsocketFrame)
    (h : clientSide = true → frame.message.length < 2 ^ 32) (s : Record) :
    ∃ span, (encode order clientSide frame).run s = .ok ((span, .ok ()),
      ⟨s.written ++ (header order clientSide frame.opcode frame.payloadLength
          ++ body clientSide frame.message),
        s.written ++ (header order clientSide frame.opcode frame.payloadLength
          ++ body clientSide frame.message)⟩) := by
  unfold encode body
  cases clientSide with
  | false =>
    refine ⟨frame.message, ?_⟩
    rw [← List.append_assoc]
    rfl
  | true =>
    refine ⟨masked encodeMask frame.message.length frame.message, ?_⟩
    rw [Prog.run_bind_of_ok (Record.run_write _ _), if_pos rfl,
      Prog.run_bind_of_ok (Record.run_write _ _), Prog.run_bind_of_ok (run_applyMask _ (h rfl) _),
      if_pos rfl, ← List.append_assoc, ← List.append_assoc]
    rfl

theorem run_encode_of_ge (order : ByteOrder) (frame : WebsocketFrame)
    (h : 2 ^ 32 ≤ frame.message.length) (s : Record) :
    (encode order true frame).run s = .error .spin := by
  unfold encode
  rw [Prog.run_bind_of_ok (Record.run_write _ _), if_pos rfl,
    Prog.run_bind_of_ok (Record.run_write _ _)]
  exact Prog.run_bind_of_error (run_applyMask_of_ge _ h _)

/-- A payload that is all there comes back, unmasked if it was masked. -/
theorem run_decodePayload (clientSide : Bool) {message : Bytes} (hmax : message.length ≤ maxSize)
    (h : clientSide = true → message.length < 2 ^ 32) (rest dst : Bytes) (ending : Option Error) :
    (decodePayload (!clientSide) (BitVec.ofNat 64 message.length) dst).run
        (⟨body clientSide message ++ rest, ending⟩ : Feed)
      = .ok ((message, .ok ()), ⟨rest, ending⟩) := by
  have hlen : (BitVec.ofNat 64 message.length).toNat = message.length := by
    rw [BitVec.toNat_ofNat, Nat.mod_eq_of_lt]
    exact Nat.lt_of_le_of_lt hmax (by decide)
  unfold decodePayload body
  rw [hlen]
  cases clientSide with
  | false =>
    obtain ⟨dst', hdst, hresize⟩ := run_resize dst hmax (⟨message ++ rest, ending⟩ : Feed)
    show (resize dst message.length >>= _).run _ = _
    rw [if_neg (by decide), Prog.run_bind_of_ok hresize,
      Prog.run_bind_of_ok (Feed.run_readExact hdst.symm)]
    rfl
  | true =>
    have hread : (Reader.readExact (List.replicate 4 0)).run (⟨encodeMask ++
        (masked encodeMask message.length message ++ rest), ending⟩ : Feed) = _ :=
      Feed.run_readExact rfl
    obtain ⟨dst', hdst, hresize⟩ := run_resize dst hmax
      (⟨masked encodeMask message.length message ++ rest, ending⟩ : Feed)
    have hmasked : (masked encodeMask message.length message).length = message.length :=
      length_masked _ _ _
    show (Reader.readExact (List.replicate 4 0) >>= _).run _ = _
    rw [if_pos rfl, List.append_assoc, Prog.run_bind_of_ok hread]
    dsimp only
    rw [Prog.run_bind_of_ok hresize,
      Prog.run_bind_of_ok (Feed.run_readExact (hmasked.trans hdst.symm))]
    dsimp only
    rw [Prog.run_bind_of_ok (run_applyMask _ (hmasked.symm ▸ h rfl) _), hmasked, masked_masked]
    rfl

/-- Over a reader whose reads keep the size of their destination, the payload has the
length the header named; why there may be none. -/
theorem decodePayload_length [Reader ρ]
    (hread : ∀ (buf : Bytes) (s : ρ),
      Meets (Reader.readExact buf) s (fun out _ => out.1.length = buf.length)
        fun e => e = .pending)
    (clientSide : Bool) (length : BitVec 64) (dst : Bytes) (s : ρ) :
    Meets (decodePayload clientSide length dst) s
      (fun out _ => out.1.length = length.toNat ∧ length.toNat ≤ maxSize)
      fun e => e = .pending ∨ e = .spin ∨ e = .terminate ∧ maxSize < length.toNat := by
  unfold decodePayload
  cases clientSide with
  | true =>
    rw [if_pos rfl]
    refine (resize_length dst _ s).bind (fun _ he => Or.inr (Or.inr he)) ?_
    rintro payload s₁ ⟨hlen, hmax⟩
    refine (hread payload s₁).bind (fun _ he => Or.inl he) ?_
    rintro ⟨payload', ret⟩ s₂ hlen'
    exact ⟨hlen'.trans hlen, hmax⟩
  | false =>
    rw [if_neg (by decide)]
    refine (hread _ s).bind (fun _ he => Or.inl he) ?_
    rintro ⟨maskBits, ret⟩ s₀ -
    refine (resize_length dst _ s₀).bind (fun _ he => Or.inr (Or.inr he)) ?_
    rintro payload s₁ ⟨hlen, hmax⟩
    refine (hread payload s₁).bind (fun _ he => Or.inl he) ?_
    rintro ⟨payload', ret⟩ s₂ hlen'
    refine (applyMask_length payload' maskBits s₂).bind (fun _ he => Or.inr (Or.inl he)) ?_
    rintro payload'' s₃ hlen''
    exact ⟨(hlen''.trans hlen').trans hlen, hmax⟩

/-! ## Which frames come back -/

/-- The lengths the two length bytes carry: the low byte must not look negative,
unless the high byte is all ones anyway. -/
def ShortCarried : ByteOrder → Nat → Prop
  | .littleEndian, n => n < 32768 ∨ n % 256 = 255
  | .bigEndian, n => n % 256 < 128 ∨ 65280 ≤ n

/-- The lengths a header carries. -/
def Carried (order : ByteOrder) (n : Nat) : Prop := n < 126 ∨ 65536 ≤ n ∨ ShortCarried order n

/-- Two length bytes, read with the sign of the low one. -/
theorem shortLength_eq_iff (w : BitVec 16) :
    (shortLength (toLE 2 w.toNat)).setWidth 16 = w ↔ w.toNat % 256 < 128 ∨ w.toNat / 256 = 255 := by
  have hw : w.toNat < 65536 := w.isLt
  have hshort := toNat_shortLength (BitVec.ofNat 8 w.toNat) (BitVec.ofNat 8 (w.toNat / 256))
  rw [BitVec.toNat_ofNat, BitVec.toNat_ofNat] at hshort
  rw [← BitVec.toNat_inj]
  show ((shortLength [_, _]).setWidth 16).toNat = _ ↔ _
  rw [hshort]
  split <;> omega

theorem shortCarried_iff (order : ByteOrder) {n : Nat} (h : n < 65536) :
    ShortCarried order n ↔ (order.hton16 (BitVec.ofNat 16 n)).toNat % 256 < 128 ∨
      (order.hton16 (BitVec.ofNat 16 n)).toNat / 256 = 255 := by
  have hn : (BitVec.ofNat 16 n).toNat = n := by
    rw [BitVec.toNat_ofNat, Nat.mod_eq_of_lt h]
  cases order with
  | littleEndian =>
    have hlow : (n / 256 % 256 + 256 * (n % 256)) % 256 = n / 256 := by omega
    have hhigh : (n / 256 % 256 + 256 * (n % 256)) / 256 = n % 256 := by omega
    rw [ByteOrder.hton16_littleEndian, toNat_bswap16, hn, swap_two, hlow, hhigh]
    unfold ShortCarried
    omega
  | bigEndian =>
    rw [ByteOrder.hton16_bigEndian, hn]
    unfold ShortCarried
    omega

/-- **The decoder hears the length** exactly if it is one the header carries. -/
theorem heard_eq_iff (order : ByteOrder) {n : Nat} (h : n < 2 ^ 64) :
    heard order (BitVec.ofNat 64 n) = BitVec.ofNat 64 n ↔ Carried order n := by
  have hn : (BitVec.ofNat 64 n).toNat = n := by
    rw [BitVec.toNat_ofNat, Nat.mod_eq_of_lt h]
  have hlt : ∀ k : Nat, k < 2 ^ 64 → (BitVec.ofNat 64 n < BitVec.ofNat 64 k ↔ n < k) := by
    intro k hk
    rw [BitVec.lt_def, hn, BitVec.toNat_ofNat, Nat.mod_eq_of_lt hk]
  have h126 : BitVec.ofNat 64 n < 126 ↔ n < 126 := hlt 126 (by decide)
  have h65536 : BitVec.ofNat 64 n < 65536 ↔ n < 65536 := hlt 65536 (by decide)
  unfold heard Carried
  -- of the three forms of the length only the one of two bytes can go wrong
  by_cases h₁ : n < 126
  · rw [if_pos (h126.mpr h₁)]
    exact ⟨fun _ => Or.inl h₁, fun _ => rfl⟩
  · by_cases h₂ : n < 65536
    · have hx : (BitVec.ofNat 64 n).setWidth 16 = BitVec.ofNat 16 n := by
        rw [BitVec.setWidth_ofNat_of_le (by decide)]
      have hne : ¬ 65536 ≤ n := Nat.not_le.mpr h₂
      simp only [h126, h65536, h₁, h₂, hne, if_true, if_false, false_or, extended, hx]
      rw [shortCarried_iff order h₂, ← shortLength_eq_iff]
      constructor
      · -- `hton16` undoes the `ntoh16` of the decoder
        intro heq
        have hcut := congrArg (BitVec.setWidth 16) heq
        rw [hx, BitVec.setWidth_setWidth_of_le _ (by decide), BitVec.setWidth_eq] at hcut
        have hswap := congrArg order.hton16 hcut
        rwa [ByteOrder.hton16_ntoh16] at hswap
      · intro heq
        rw [heq, ByteOrder.ntoh16_hton16]
        apply BitVec.eq_of_toNat_eq
        rw [BitVec.toNat_setWidth, BitVec.toNat_ofNat, BitVec.toNat_ofNat,
          Nat.mod_eq_of_lt h₂, Nat.mod_eq_of_lt h]
    · rw [if_neg (fun hc => h₁ (h126.mp hc)), if_neg (fun hc => h₂ (h65536.mp hc))]
      exact ⟨fun _ => Or.inr (Or.inl (Nat.le_of_not_lt h₂)), fun _ => rfl⟩

/-- A text frame on the wire. -/
def frame (order : ByteOrder) (clientSide : Bool) (message : Bytes) : Bytes :=
  header order clientSide .text (BitVec.ofNat 64 message.length) ++ body clientSide message

/-- **Decoding a frame** gives its message exactly if the header carries the length
and a vector can have it. -/
theorem run_decode_iff (order : ByteOrder) (ndebug clientSide : Bool) {message : Bytes}
    (hmask : clientSide = true → message.length < 2 ^ 32) (rest dst : Bytes)
    (ending : Option Error) :
    (decode order ndebug (!clientSide) dst).run
        (⟨frame order clientSide message ++ rest, ending⟩ : Feed)
      = .ok ((message, .ok ()), ⟨rest, ending⟩) ↔
      message.length ≤ maxSize ∧ Carried order message.length := by
  unfold frame
  rw [List.append_assoc, run_header]
  constructor
  · intro hdec
    -- the payload has the length that was heard, and a size a vector can have
    obtain ⟨hlen, hmax⟩ := (decodePayload_length Feed.readExact_length _ _ _ _).of_ok hdec
    dsimp only at hlen
    rw [← hlen] at hmax
    have hlt : message.length < 2 ^ 64 := Nat.lt_of_le_of_lt hmax (by decide)
    refine ⟨hmax, (heard_eq_iff order hlt).mp (BitVec.eq_of_toNat_eq ?_)⟩
    rw [← hlen, BitVec.toNat_ofNat, Nat.mod_eq_of_lt hlt]
  · rintro ⟨hmax, hcar⟩
    rw [(heard_eq_iff order (Nat.lt_of_le_of_lt hmax (by decide))).mpr hcar]
    exact run_decodePayload clientSide hmax hmask rest dst ending

/-- The frame of a message, followed by `trailing`, comes back as the message and
leaves `trailing`. -/
def RoundTrips (order : ByteOrder) (ndebug clientSide : Bool) (message trailing payload : Bytes) :
    Prop :=
  ∃ span w, (encode order clientSide ⟨.text, message⟩).run Record.blank = .ok ((span, .ok ()), w) ∧
    (decode order ndebug (!clientSide) payload).run (⟨w.written ++ trailing, none⟩ : Feed)
      = .ok ((message, .ok ()), ⟨trailing, none⟩)

theorem roundTrips_of_carried (order : ByteOrder) (ndebug clientSide : Bool)
    {message : Bytes} (trailing payload : Bytes) (hmax : message.length ≤ maxSize)
    (hmask : clientSide = true → message.length < 2 ^ 32) (h : Carried order message.length) :
    RoundTrips order ndebug clientSide message trailing payload := by
  obtain ⟨span, hrun⟩ := run_encode order clientSide ⟨.text, message⟩ hmask Record.blank
  exact ⟨span, _, hrun,
    (run_decode_iff order ndebug clientSide hmask trailing payload none).mpr ⟨hmax, h⟩⟩

theorem carried_of_roundTrips {order : ByteOrder} {ndebug clientSide : Bool}
    {message trailing payload : Bytes}
    (h : RoundTrips order ndebug clientSide message trailing payload) :
    message.length ≤ maxSize ∧ (clientSide = true → message.length < 2 ^ 32) ∧
      Carried order message.length := by
  obtain ⟨span, w, henc, hdec⟩ := h
  -- a client that returned has masked, so its counter did not wrap
  have hmask : clientSide = true → message.length < 2 ^ 32 := by
    rintro rfl
    by_contra hge
    rw [run_encode_of_ge order ⟨.text, message⟩ (Nat.le_of_not_lt hge)] at henc
    cases henc
  obtain ⟨span', henc'⟩ := run_encode order clientSide ⟨.text, message⟩ hmask Record.blank
  rw [henc] at henc'
  cases henc'
  obtain ⟨hmax, hcar⟩ :=
    (run_decode_iff order ndebug clientSide hmask trailing payload none).mp hdec
  exact ⟨hmax, hmask, hcar⟩

/-- **The frames that come back**, whatever follows them, and in both directions:
those with a length the header carries, which a vector can have, and which
`apply_mask` gets through if the client sends. -/
theorem roundTrip_iff (order : ByteOrder) (ndebug clientSide : Bool)
    (message trailing payload : Bytes) :
    RoundTrips order ndebug clientSide message trailing payload ↔
      message.length ≤ maxSize ∧ (clientSide = true → message.length < 2 ^ 32) ∧
        Carried order message.length := by
  constructor
  · exact carried_of_roundTrips
  · rintro ⟨hmax, hmask, h⟩
    exact roundTrips_of_carried order ndebug clientSide trailing payload hmax hmask h

/-- A message of 32768 bytes from a little-endian server does not come back. -/
theorem not_roundTrips_32768 :
    ¬ ∀ (ndebug clientSide : Bool) (message trailing payload : Bytes),
      message.length ≤ maxSize →
        RoundTrips .littleEndian ndebug clientSide message trailing payload := by
  intro h
  have hlen : (List.replicate 32768 (0 : Byte)).length = 32768 := List.length_replicate
  obtain ⟨-, -, hcar⟩ := carried_of_roundTrips
    (h true false (List.replicate 32768 0) [] [] (hlen.le.trans (by decide)))
  rw [hlen] at hcar
  revert hcar
  unfold Carried ShortCarried
  decide

end Uvio.Codec.Websocket
