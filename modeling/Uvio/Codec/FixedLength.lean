import Uvio.Codec.Base

/-!
# `FixedLength32Codec`

A message is preceded by its length in four bytes. `encode_length` swaps the
bytes of the 32-bit length into network order and then shifts them out from the
lowest, which turns the order round once more.

- `run_encode`: what an ideal writer is given is `frame order message`.
- `run_decode`: an ideal reader that has a frame in front hands the message back
  and is left right behind it.
-/

namespace Uvio.Codec.FixedLength

open Program Net

variable {ρ ω : Type}

/-- `fixed_length_bytes`: fixed 32 bits. -/
def fixedLengthBytes : Nat := 4

/-- One pass of the loop of `decode_length`; the loop variables are `i`, `bytes`
and `value`. -/
def decodeLengthPass [Reader ρ] (order : ByteOrder) : Nat × Bytes × BitVec 32 →
    Task ρ (Pass (Nat × Bytes × BitVec 32) (Result (BitVec 32)))
  | (i, bytes, value) =>
    if i < fixedLengthBytes then do
      let (bytes, ret) ← Reader.readExact bytes
      match ret with
      | .error e => pure (.leave (.error e))
      | .ok () =>
        let value := value ||| (charToInt (bytes.getD 0 0) &&& 0xFF) <<< (i * 8)
        pure (.again (i + 1, bytes, value))
    else pure (.leave (.ok (order.ntoh32 value)))

/-- `decode_length(reader)`. -/
def decodeLength [Reader ρ] (order : ByteOrder) : Task ρ (Result (BitVec 32)) :=
  loop .spin (decodeLengthPass order) (fixedLengthBytes + 1) (0, [0], 0)

/-- One pass of the loop of `encode_length`; the loop variables are `i` and
`value`. -/
def encodeLengthPass [Writer ω] :
    Nat × BitVec 32 → Task ω (Pass (Nat × BitVec 32) (Result Unit))
  | (i, value) =>
    if i < fixedLengthBytes then do
      match ← Writer.write [toChar ((value &&& 0xFF) ||| 0x00)] with
      | .error e => pure (.leave (.error e))
      | .ok _ => pure (.again (i + 1, value >>> 8))
    else pure (.leave (.ok ()))

/-- `encode_length(value, writer)`. -/
def encodeLength [Writer ω] (order : ByteOrder) (value : BitVec 32) : Task ω (Result Unit) :=
  loop .spin encodeLengthPass (fixedLengthBytes + 1) (0, order.hton32 value)

/-- `decode(message, reader)`. -/
def decode [Reader ρ] (order : ByteOrder) (message : Bytes) : Task ρ (Bytes × Result Unit) :=
  decodePrefixed (decodeLength order) message

/-- `encode(message, writer)`. -/
def encode [Writer ω] (order : ByteOrder) (message : Bytes) : Task ω (Result Unit) :=
  encodePrefixed (encodeLength order) message

/-! ## The length prefix -/

/-- The prefix of a message of length `n`. -/
def header (order : ByteOrder) (n : Nat) : Bytes :=
  toLE 4 (order.hton32 (BitVec.ofNat 32 n)).toNat

/-- A message with its prefix. -/
def frame (order : ByteOrder) (message : Bytes) : Bytes :=
  header order message.length ++ message

theorem toChar_low (value : BitVec 32) :
    toChar ((value &&& 0xFF) ||| 0x00) = BitVec.ofNat 8 value.toNat := by
  have hlow : (value &&& 0xFF).toNat = value.toNat % 256 :=
    toNat_and_low value (k := 8) (by decide)
  have hor : ((value &&& 0xFF) ||| 0x00).toNat = value.toNat % 256 := by simpa using hlow
  apply BitVec.eq_of_toNat_eq
  rw [toChar, BitVec.toNat_setWidth, BitVec.toNat_ofNat, hor]
  omega

theorem charToInt_low (b : Byte) : charToInt b &&& 0xFF = BitVec.ofNat 32 b.toNat := by
  revert b
  decide

/-- **`encode_length`** writes the swapped length from its lowest byte. -/
theorem run_encodeLength (order : ByteOrder) (value : BitVec 32) (s : Record) :
    (encodeLength order value).run s
      = .ok (.ok (), { s with written := s.written ++ toLE 4 (order.hton32 value).toNat }) := by
  rw [run_eq_ok_iff]
  -- `n` bytes are left to write
  refine Meets.loop (fun n (p : Nat × BitVec 32) s₁ => n + p.1 = 4 ∧
      s₁.written ++ toLE n p.2.toNat = s.written ++ toLE 4 (order.hton32 value).toNat ∧
      s₁.flushed = s.flushed) ?_ (n := 4) ⟨rfl, rfl, rfl⟩ (by decide)
  rintro n ⟨i, v⟩ ⟨written, flushed⟩ ⟨hn, hout, rfl⟩
  dsimp only at hn hout
  unfold encodeLengthPass
  cases n with
  | zero =>
    dsimp only
    rw [if_neg (by show ¬ i < 4; omega)]
    rw [toLE, List.append_nil] at hout
    exact ⟨rfl, by rw [hout]⟩
  | succ n =>
    dsimp only
    rw [if_pos (by show i < 4; omega), meets_bind, Record.meets_write, toChar_low]
    refine ⟨n, Nat.lt_succ_self n, ?_, ?_, rfl⟩
    · dsimp only
      omega
    · dsimp only
      rw [BitVec.toNat_ushiftRight, Nat.shiftRight_eq_div_pow, ← hout, toLE, List.append_assoc]
      rfl

/-- **`decode_length`** reads four bytes off the stream. -/
theorem run_decodeLength (order : ByteOrder) (bs : Bytes) (hbs : bs.length = 4) (rest : Bytes)
    (ending : Option Error) :
    (decodeLength order).run (⟨bs ++ rest, ending⟩ : Feed)
      = .ok (.ok (order.ntoh32 (BitVec.ofNat 32 (ofLE bs))), ⟨rest, ending⟩) := by
  rw [run_eq_ok_iff]
  -- `n` bytes are left to read, and stand above the `i` bytes read
  refine Meets.loop (fun n (p : Nat × Bytes × BitVec 32) (s : Feed) => n + p.1 = 4 ∧
      p.2.1.length = 1 ∧ p.2.2.toNat < 2 ^ (8 * p.1) ∧ ∃ left : Bytes, left.length = n ∧
      s = ⟨left ++ rest, ending⟩ ∧ p.2.2.toNat + 2 ^ (8 * p.1) * ofLE left = ofLE bs) ?_
    (n := 4) (b := (0, [0], 0)) ⟨rfl, rfl, by decide, bs, hbs, rfl, by simp⟩ (by decide)
  rintro n ⟨i, bytes, acc⟩ s ⟨hn, hbytes, hacc, left, hleft, rfl, hval⟩
  dsimp only at hn hbytes hacc hval
  unfold decodeLengthPass
  cases left with
  | nil =>
    -- all bytes are in `acc`
    have hn0 : n = 0 := hleft.symm
    rw [ofLE, Nat.mul_zero, Nat.add_zero] at hval
    dsimp only
    rw [if_neg (by show ¬ i < 4; omega)]
    refine ⟨?_, rfl⟩
    rw [← hval, BitVec.ofNat_toNat, BitVec.setWidth_eq]
  | cons b left =>
    have hn1 : left.length + 1 = n := hleft
    have hread : (Reader.readExact bytes).run (⟨[b] ++ (left ++ rest), ending⟩ : Feed)
        = .ok (([b], .ok ()), ⟨left ++ rest, ending⟩) := Feed.run_readExact hbytes.symm
    dsimp only
    rw [if_pos (by show i < 4; omega), meets_bind]
    refine (meets_of_ok hread).mpr ?_
    dsimp only
    rw [List.getD_cons_zero, charToInt_low, Nat.mul_comm i 8]
    have hb : b.toNat < 256 := b.isLt
    have hpow : 2 ^ (8 * (i + 1)) = 2 ^ (8 * i) * 256 := by rw [Nat.mul_add, Nat.pow_add]
    have hle : 2 ^ (8 * i) * (b.toNat + 1) ≤ 2 ^ (8 * i) * 256 := Nat.mul_le_mul_left _ hb
    have hmax : 2 ^ (8 * (i + 1)) ≤ 2 ^ 32 := Nat.pow_le_pow_right (by decide) (by omega)
    have hpos := Nat.two_pow_pos (8 * i)
    rw [Nat.mul_add, Nat.mul_one] at hle
    -- the bits of the byte lie above those of `acc`, so `|=` adds
    have hor := toNat_or_field hacc (d := b.toNat) (by omega)
    refine ⟨n - 1, by omega, ?_, rfl, ?_, left, ?_, rfl, ?_⟩
    · dsimp only
      omega
    · dsimp only
      omega
    · omega
    · dsimp only
      rw [hor, ← hval, ofLE, hpow]
      ring

/-! ## One message -/

/-- **`encode`** on an ideal writer. -/
theorem run_encode (order : ByteOrder) (message : Bytes) (s : Record) :
    (encode order message).run s
      = .ok (.ok (), ⟨s.written ++ frame order message, s.written ++ frame order message⟩) :=
  run_encodePrefixed (run_encodeLength order _ s)

/-- **`decode`** on an ideal reader, at the beginning of a frame. -/
theorem run_decode (order : ByteOrder) {message : Bytes} (h : message.length < 2 ^ 32)
    (rest dst : Bytes) (ending : Option Error) :
    (decode order dst).run (⟨frame order message ++ rest, ending⟩ : Feed)
      = .ok ((message, .ok ()), ⟨rest, ending⟩) := by
  unfold frame
  rw [List.append_assoc]
  refine run_decodePrefixed (run_decodeLength order _ (length_toLE 4 _) _ _) ?_ (by
    have : 2 ^ 32 ≤ maxSize := by decide
    omega)
  rw [ofLE_toLE (BitVec.isLt _), BitVec.ofNat_toNat, BitVec.setWidth_eq, ByteOrder.ntoh32_hton32,
    BitVec.toNat_ofNat, Nat.mod_eq_of_lt h]

/-- `encode` refuses the message before it has written anything, or `decode` finds it in
what was written, and stops where the message ends. -/
def Framed (order : ByteOrder) (message : Bytes) : Prop :=
  ∃ ret w, (encode order message).run Record.blank = .ok (ret, w) ∧
    ((∃ e, ret = .error e) ∧ w.written = [] ∨
      ret = .ok () ∧ ∀ trailing dst ending,
        (decode order dst).run (⟨w.written ++ trailing, ending⟩ : Feed)
          = .ok ((message, .ok ()), ⟨trailing, ending⟩))

theorem length_of_framed {order : ByteOrder} {message : Bytes} (h : Framed order message) :
    message.length < 2 ^ 32 := by
  obtain ⟨ret, w, henc, hout⟩ := h
  rw [run_encode] at henc
  cases henc
  rcases hout with ⟨⟨e, he⟩, -⟩ | ⟨-, hdec⟩
  · cases he
  · exact (decodePrefixed_length _ _ _).of_ok (hdec [] [] none) rfl

/-- **The messages that are framed**: those whose length fits in the prefix. -/
theorem framed_iff (order : ByteOrder) (message : Bytes) :
    Framed order message ↔ message.length < 2 ^ 32 := by
  constructor
  · exact length_of_framed
  · intro h
    exact ⟨_, _, run_encode order message Record.blank,
      Or.inr ⟨rfl, fun trailing dst ending => run_decode order h trailing dst ending⟩⟩

/-- A message of 2 ^ 32 bytes is sent with the length zero. -/
theorem not_framed_long :
    ¬ ∀ (order : ByteOrder) (message : Bytes), Framed order message := by
  intro h
  have hlt := length_of_framed (h .littleEndian (List.replicate (2 ^ 32) 0))
  rw [List.length_replicate] at hlt
  exact Nat.lt_irrefl _ hlt

end Uvio.Codec.FixedLength
