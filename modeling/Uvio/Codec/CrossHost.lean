import Uvio.Codec.LengthDelimited
import Uvio.Codec.FixedLength
import Uvio.Codec.Websocket

/-!
# Hosts of different byte order

`byteorder` puts a length into network order, and the codecs then take it apart
with shifts, which do not depend on the order of the host. The swap therefore is
the only difference between what a little-endian and a big-endian host write, and
a frame is portable only if the length reads the same with its bytes swapped.

- `portable_iff_frames`: portability in terms of what each host writes.
- `portable_iff`: the messages each of the three codecs carries between hosts.
-/

namespace Uvio.Codec

open Program Net

/-- Every host writes the same bytes for the message, and every host that reads
them, whatever follows, gets the message and stops right behind it. -/
def Portable {β : Type} (encode : ByteOrder → Bytes → Task Record β)
    (decode : ByteOrder → Bytes → Task Feed (Bytes × Result Unit)) (message : Bytes) : Prop :=
  ∃ wire, (∀ writer, ∃ ret flushed,
      (encode writer message).run Record.blank = .ok (ret, ⟨wire, flushed⟩)) ∧
    ∀ reader rest dst, (decode reader dst).run (⟨wire ++ rest, none⟩ : Feed)
      = .ok ((message, .ok ()), ⟨rest, none⟩)

/-- Portability, when a host of order `o` writes `f o`. -/
theorem portable_iff_frames {β : Type} {encode : ByteOrder → Bytes → Task Record β}
    {decode : ByteOrder → Bytes → Task Feed (Bytes × Result Unit)} {message : Bytes}
    {f : ByteOrder → Bytes}
    (h : ∀ o, ∃ ret flushed,
      (encode o message).run Record.blank = .ok (ret, ⟨f o, flushed⟩)) :
    Portable encode decode message ↔ f .littleEndian = f .bigEndian ∧
      ∀ reader rest dst, (decode reader dst).run (⟨f reader ++ rest, none⟩ : Feed)
        = .ok ((message, .ok ()), ⟨rest, none⟩) := by
  constructor
  · rintro ⟨wire, hwrite, hread⟩
    have hframe : ∀ o, f o = wire := by
      intro o
      obtain ⟨ret, flushed, hrun⟩ := hwrite o
      obtain ⟨ret', flushed', hrun'⟩ := h o
      rw [hrun] at hrun'
      cases hrun'
      rfl
    refine ⟨(hframe _).trans (hframe _).symm, fun reader => ?_⟩
    rw [hframe reader]
    exact hread reader
  · rintro ⟨heq, hread⟩
    have hframe : ∀ o, f o = f .bigEndian := by
      intro o
      cases o with
      | littleEndian => exact heq
      | bigEndian => rfl
    refine ⟨f .bigEndian, fun writer => ?_, fun reader => ?_⟩
    · rw [← hframe writer]
      exact h writer
    · rw [← hframe reader]
      exact hread reader

section

variable {message : Bytes}

/-! ## The length-prefixed codecs -/

theorem toNat_ofNat_of_lt {w n : Nat} (hn : n < 2 ^ 31) (hw : 32 ≤ w) :
    (BitVec.ofNat w n).toNat = n := by
  rw [BitVec.toNat_ofNat, Nat.mod_eq_of_lt]
  exact Nat.lt_of_lt_of_le hn (Nat.pow_le_pow_right (by decide) (by omega))

theorem lengthDelimited_portable_iff (h : message.length < 2 ^ 31) :
    Portable LengthDelimited.encode LengthDelimited.decode message ↔ message.length = 0 := by
  have hmax : message.length ≤ maxSize := Nat.le_trans h.le (by decide)
  rw [portable_iff_frames (f := (LengthDelimited.frame · message))
      fun o => ⟨_, _, LengthDelimited.run_encode o message Record.blank⟩,
    and_iff_left fun reader rest dst => LengthDelimited.run_decode reader hmax rest dst none,
    ← swap_eq_iff_of_half (k := 4) (Nat.lt_trans h (by decide))]
  show LengthDelimited.header _ _ ++ message = LengthDelimited.header _ _ ++ message ↔ _
  rw [List.append_cancel_right_eq]
  -- a length below 2^31 has only zeros in its upper half, where the swap puts it
  have hn := toNat_ofNat_of_lt (w := 64) h (by decide)
  constructor
  · intro heq
    have := varint_injective heq
    rwa [ByteOrder.hton64_littleEndian, ByteOrder.hton64_bigEndian, toNat_bswap64, hn] at this
  · intro heq
    unfold LengthDelimited.header
    rw [ByteOrder.hton64_littleEndian, ByteOrder.hton64_bigEndian, toNat_bswap64, hn, heq]

theorem fixedLength_portable_iff (h : message.length < 2 ^ 31) :
    Portable FixedLength.encode FixedLength.decode message ↔
      (toLE 4 message.length).reverse = toLE 4 message.length := by
  have hlt : message.length < 2 ^ 32 := Nat.lt_trans h (by decide)
  rw [portable_iff_frames (f := (FixedLength.frame · message))
      fun o => ⟨_, _, FixedLength.run_encode o message Record.blank⟩,
    and_iff_left fun reader rest dst => FixedLength.run_decode reader hlt rest dst none]
  show FixedLength.header _ _ ++ message = FixedLength.header _ _ ++ message ↔ _
  rw [List.append_cancel_right_eq, ← toLE_swap]
  have hn := toNat_ofNat_of_lt (w := 32) h (by decide)
  unfold FixedLength.header
  rw [ByteOrder.hton32_littleEndian, ByteOrder.hton32_bigEndian, toNat_bswap32, hn]

/-! ## The websocket codec -/

/-- The lengths for which both hosts write the same header. -/
theorem extended_eq_iff {n : Nat} (h : n < 2 ^ 31) :
    Websocket.extended .littleEndian (BitVec.ofNat 64 n)
      = Websocket.extended .bigEndian (BitVec.ofNat 64 n) ↔
      n < 126 ∨ n < 65536 ∧ n / 256 = n % 256 := by
  have hn := toNat_ofNat_of_lt (w := 64) h (by decide)
  have h126 : BitVec.ofNat 64 n < 126 ↔ n < 126 := by
    rw [BitVec.lt_def, hn]
    rfl
  have h65536 : BitVec.ofNat 64 n < 65536 ↔ n < 65536 := by
    rw [BitVec.lt_def, hn]
    rfl
  unfold Websocket.extended
  by_cases h₁ : n < 126
  · rw [if_pos (h126.mpr h₁), if_pos (h126.mpr h₁)]
    exact ⟨fun _ => Or.inl h₁, fun _ => rfl⟩
  · rw [if_neg (fun hc => h₁ (h126.mp hc)), if_neg (fun hc => h₁ (h126.mp hc))]
    by_cases h₂ : n < 65536
    · rw [if_pos (h65536.mpr h₂), if_pos (h65536.mpr h₂)]
      have hx : ((BitVec.ofNat 64 n).setWidth 16).toNat = n := by
        rw [BitVec.toNat_setWidth, hn, Nat.mod_eq_of_lt h₂]
      rw [ByteOrder.hton16_littleEndian, ByteOrder.hton16_bigEndian, toNat_bswap16, hx]
      constructor
      · intro heq
        -- the two bytes read the same with their order turned round
        have := toLE_injective (swap_lt 2 n) h₂ heq
        rw [swap_two] at this
        omega
      · rintro (hc | ⟨-, heq⟩)
        · exact absurd hc h₁
        · rw [show swap 2 n = n by rw [swap_two]; omega]
    · rw [if_neg (fun hc => h₂ (h65536.mp hc)), if_neg (fun hc => h₂ (h65536.mp hc))]
      rw [ByteOrder.hton64_littleEndian, ByteOrder.hton64_bigEndian, toNat_bswap64, hn]
      constructor
      · intro heq
        have := toLE_injective (swap_lt 8 n) (Nat.lt_trans h (by decide)) heq
        rw [swap_eq_iff_of_half (k := 4) (Nat.lt_trans h (by decide))] at this
        omega
      · rintro (hc | ⟨hc, -⟩)
        · exact absurd hc h₁
        · exact absurd hc h₂

theorem websocket_portable_iff (ndebug : Bool) (h : message.length < 2 ^ 31) :
    Portable (fun order message => Websocket.encode order false ⟨.text, message⟩)
        (fun order payload => Websocket.decode order ndebug true payload) message ↔
      message.length < 126 ∨ message.length < 65536 ∧
        message.length / 256 = message.length % 256 ∧
        (message.length % 256 < 128 ∨ message.length % 256 = 255) := by
  have hmask : false = true → message.length < 2 ^ 32 := fun hc => nomatch hc
  have hmax : message.length ≤ maxSize := Nat.le_trans h.le (by decide)
  rw [portable_iff_frames (f := (Websocket.frame · false message)) fun o => by
    obtain ⟨span, hrun⟩ := Websocket.run_encode o false ⟨.text, message⟩ hmask Record.blank
    exact ⟨_, _, hrun⟩]
  -- each host reads its own frames if the header carries the length there
  have hread : (∀ reader rest dst, (Websocket.decode reader ndebug true dst).run
      (⟨Websocket.frame reader false message ++ rest, none⟩ : Feed)
        = .ok ((message, .ok ()), ⟨rest, none⟩)) ↔
      ∀ reader, Websocket.Carried reader message.length := by
    constructor
    · intro hdec reader
      exact ((Websocket.run_decode_iff reader ndebug false hmask [] [] none).mp
        (hdec reader [] [])).2
    · intro hcar reader rest dst
      exact (Websocket.run_decode_iff reader ndebug false hmask rest dst none).mpr
        ⟨hmax, hcar reader⟩
  have hwrite : Websocket.frame .littleEndian false message
      = Websocket.frame .bigEndian false message ↔ message.length < 126 ∨
        message.length < 65536 ∧ message.length / 256 = message.length % 256 := by
    unfold Websocket.frame
    rw [List.append_cancel_right_eq, Websocket.header_eq, Websocket.header_eq,
      List.append_cancel_left_eq, extended_eq_iff h]
  rw [hread, hwrite]
  have hboth : (∀ reader, Websocket.Carried reader message.length) ↔
      Websocket.Carried .littleEndian message.length ∧
        Websocket.Carried .bigEndian message.length := by
    constructor
    · exact fun hall => ⟨hall _, hall _⟩
    · rintro ⟨hl, hb⟩ (_ | _)
      · exact hl
      · exact hb
  rw [hboth]
  unfold Websocket.Carried Websocket.ShortCarried
  dsimp only
  omega

/-! ## All three -/

/-- **The messages that travel between hosts of different byte order**, codec by
codec. -/
theorem portable_iff (ndebug : Bool) (message : Bytes) (h : message.length < 2 ^ 31) :
    (Portable LengthDelimited.encode LengthDelimited.decode message ↔ message.length = 0) ∧
    (Portable FixedLength.encode FixedLength.decode message ↔
      (toLE 4 message.length).reverse = toLE 4 message.length) ∧
    (Portable (fun order message => Websocket.encode order false ⟨.text, message⟩)
        (fun order payload => Websocket.decode order ndebug true payload) message ↔
      message.length < 126 ∨ message.length < 65536 ∧
        message.length / 256 = message.length % 256 ∧
        (message.length % 256 < 128 ∨ message.length % 256 = 255)) :=
  ⟨lengthDelimited_portable_iff h, fixedLength_portable_iff h, websocket_portable_iff ndebug h⟩

/-- A one-byte message: portable as a websocket frame only. -/
theorem portable_iff_one :
    (Portable LengthDelimited.encode LengthDelimited.decode [65] ↔ [65].length = 0) ∧
    (Portable FixedLength.encode FixedLength.decode [65] ↔
      (toLE 4 [65].length).reverse = toLE 4 [65].length) ∧
    (Portable (fun order message => Websocket.encode order false ⟨.text, message⟩)
        (fun order payload => Websocket.decode order true true payload) [65] ↔
      [65].length < 126 ∨ [65].length < 65536 ∧ [65].length / 256 = [65].length % 256 ∧
        ([65].length % 256 < 128 ∨ [65].length % 256 = 255)) :=
  portable_iff true [65] (by decide)

/-- The one-byte message does not travel with either length-prefixed codec. -/
theorem not_portable_one :
    ¬ ∀ message : Bytes, message.length < 2 ^ 31 →
      Portable LengthDelimited.encode LengthDelimited.decode message ∧
      Portable FixedLength.encode FixedLength.decode message ∧
      Portable (fun order message => Websocket.encode order false ⟨.text, message⟩)
        (fun order payload => Websocket.decode order true true payload) message := by
  intro h
  have hone : ([65] : Bytes).length < 2 ^ 31 := by decide
  exact absurd ((lengthDelimited_portable_iff hone).mp (h [65] hone).1) (by decide)

end

end Uvio.Codec
