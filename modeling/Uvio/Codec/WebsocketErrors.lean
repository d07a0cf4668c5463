import Uvio.Codec.Watched
import Uvio.Codec.Websocket

/-!
# Truncated frames

`WebsocketCodec::decode` looks at none of the results of its reads. A read that failed
leaves the zeros, or the bytes of the read before, in its destination, and `decode`
goes on with these and reports success.

- `IsFrame`: a complete frame by the format, and its payload.
- `run_decode_header`, `decodePayload_whole`: what `decode` makes of bytes that are
  there, with the length it hears (`heardLength`).
- `run_decode_short`, `decodePayload_returns`: if bytes are missing on a stream that has
  ended, it still returns, with success.
- `faithful_iff`: the streams on which what it returns is true.
-/

namespace Uvio.Codec.Websocket

open Program Net

/-! ## Frames -/

/-- The seven bits that hold the length, or say where it is. -/
def lengthCode (bs : Bytes) : Nat := (bs.getD 1 0 &&& 0b01111111).toNat

/-- The bytes in front of the mask bits: two, and the length if it does not fit there. -/
def headerLength (bs : Bytes) : Nat :=
  if lengthCode bs = 126 then 4 else if lengthCode bs = 127 then 10 else 2

/-- The length a header states, in network byte order. -/
def statedLength (bs : Bytes) : Nat :=
  if lengthCode bs = 126 then ofBE ((bs.drop 2).take 2)
  else if lengthCode bs = 127 then ofBE ((bs.drop 2).take 8)
  else lengthCode bs

/-- The number of mask bytes in front of the payload: a client receives none. -/
def maskLength (clientSide : Bool) : Nat := if clientSide then 0 else 4

/-- The payload, unmasked, given what follows the header. -/
def unmasked (clientSide : Bool) (bs : Bytes) : Bytes :=
  if clientSide then bs else masked (bs.take 4) (bs.drop 4).length (bs.drop 4)

/-- The bytes of a frame with this header. -/
def frameLength (clientSide : Bool) (bs : Bytes) : Nat :=
  headerLength bs + maskLength clientSide + statedLength bs

/-- A complete frame and its payload. -/
structure IsFrame (clientSide : Bool) (frame payload : Bytes) : Prop where
  complete : frame.length = frameLength clientSide frame
  payload : payload = unmasked clientSide (frame.drop (headerLength frame))

/-- The length `decode` takes two bytes for: the one in front has its sign. -/
def heardShort : ByteOrder → Nat → Nat → Nat
  | .littleEndian, lo, hi => if lo < 128 then 256 * lo + hi else 256 * lo + 255
  | .bigEndian, lo, hi => if lo < 128 then lo + 256 * hi else lo + 65280

/-- The length `decode` takes eight bytes for. -/
def heardLong : ByteOrder → Bytes → Nat
  | .littleEndian, bs => ofBE bs
  | .bigEndian, bs => ofLE bs

/-- The length `decode` takes from a header that is there. -/
def heardLength (order : ByteOrder) (bs : Bytes) : Nat :=
  if lengthCode bs = 126 then heardShort order (bs.getD 2 0).toNat (bs.getD 3 0).toNat
  else if lengthCode bs = 127 then heardLong order ((bs.drop 2).take 8)
  else lengthCode bs

/-- The length fields that `decode` takes for what they state: in two bytes the first must
not look negative, unless it makes no difference, and on a big-endian host, where the
bytes are taken in the wrong order, the field must read the same both ways. -/
def HeardRight (order : ByteOrder) (bs : Bytes) : Prop :=
  (lengthCode bs = 126 → ((bs.getD 2 0).toNat < 128 ∨ (bs.getD 3 0).toNat = 255) ∧
    (order = .bigEndian → bs.getD 2 0 = bs.getD 3 0)) ∧
  (lengthCode bs = 127 → order = .bigEndian →
    ((bs.drop 2).take 8).reverse = (bs.drop 2).take 8)

/-! The length code says where the length is. -/

section LengthCode

variable {bs : Bytes}

theorem headerLength_short (h : lengthCode bs = 126) : headerLength bs = 4 := if_pos h

theorem headerLength_long (h : lengthCode bs = 127) : headerLength bs = 10 := by
  rw [headerLength, if_neg (by omega), if_pos h]

theorem headerLength_tiny (h₁ : lengthCode bs ≠ 126) (h₂ : lengthCode bs ≠ 127) :
    headerLength bs = 2 := by
  rw [headerLength, if_neg h₁, if_neg h₂]

theorem statedLength_short (h : lengthCode bs = 126) :
    statedLength bs = ofBE ((bs.drop 2).take 2) := if_pos h

theorem statedLength_long (h : lengthCode bs = 127) :
    statedLength bs = ofBE ((bs.drop 2).take 8) := by
  rw [statedLength, if_neg (by omega), if_pos h]

theorem statedLength_tiny (h₁ : lengthCode bs ≠ 126) (h₂ : lengthCode bs ≠ 127) :
    statedLength bs = lengthCode bs := by
  rw [statedLength, if_neg h₁, if_neg h₂]

theorem heardLength_short (order : ByteOrder) (h : lengthCode bs = 126) :
    heardLength order bs = heardShort order (bs.getD 2 0).toNat (bs.getD 3 0).toNat := if_pos h

theorem heardLength_long (order : ByteOrder) (h : lengthCode bs = 127) :
    heardLength order bs = heardLong order ((bs.drop 2).take 8) := by
  rw [heardLength, if_neg (by omega), if_pos h]

theorem heardLength_tiny (order : ByteOrder) (h₁ : lengthCode bs ≠ 126)
    (h₂ : lengthCode bs ≠ 127) : heardLength order bs = lengthCode bs := by
  rw [heardLength, if_neg h₁, if_neg h₂]

end LengthCode

theorem two_le_headerLength (bs : Bytes) : 2 ≤ headerLength bs := by
  by_cases h₁ : lengthCode bs = 126
  · rw [headerLength_short h₁]
    decide
  · by_cases h₂ : lengthCode bs = 127
    · rw [headerLength_long h₂]
      decide
    · rw [headerLength_tiny h₁ h₂]

/-- Only two bytes decide how long the header is. -/
theorem lengthCode_append {bs : Bytes} (h : 2 ≤ bs.length) (rest : Bytes) :
    lengthCode (bs ++ rest) = lengthCode bs := by
  rw [lengthCode, List.getD_eq_getElem?_getD, List.getElem?_append_left h,
    ← List.getD_eq_getElem?_getD, lengthCode]

theorem headerLength_append {bs : Bytes} (h : 2 ≤ bs.length) (rest : Bytes) :
    headerLength (bs ++ rest) = headerLength bs := by
  rw [headerLength, lengthCode_append h, headerLength]

theorem statedLength_append {bs : Bytes} (h : headerLength bs ≤ bs.length) (rest : Bytes) :
    statedLength (bs ++ rest) = statedLength bs := by
  have htwo : 2 ≤ bs.length := (two_le_headerLength bs).trans h
  have hfront : ∀ n, 2 + n ≤ bs.length → ((bs ++ rest).drop 2).take n = (bs.drop 2).take n := by
    intro n hn
    rw [List.drop_append_of_le_length htwo, List.take_append_of_le_length]
    rw [List.length_drop]
    omega
  have hcode := lengthCode_append htwo rest
  by_cases h₁ : lengthCode bs = 126
  · rw [headerLength_short h₁] at h
    rw [statedLength_short (hcode.trans h₁), statedLength_short h₁, hfront 2 h]
  · by_cases h₂ : lengthCode bs = 127
    · rw [headerLength_long h₂] at h
      rw [statedLength_long (hcode.trans h₂), statedLength_long h₂, hfront 8 h]
    · rw [statedLength_tiny (hcode ▸ h₁) (hcode ▸ h₂), statedLength_tiny h₁ h₂, hcode]

theorem first_two {bs : Bytes} (h : 2 ≤ bs.length) : ∃ b₀ b₁ rest, bs = b₀ :: b₁ :: rest := by
  match bs, h with
  | b₀ :: b₁ :: rest, _ => exact ⟨b₀, b₁, rest, rfl⟩

theorem heardShort_eq_iff (order : ByteOrder) (lo hi : Byte) :
    heardShort order lo.toNat hi.toNat = ofBE [lo, hi] ↔
      (lo.toNat < 128 ∨ hi.toNat = 255) ∧ (order = .bigEndian → lo = hi) := by
  have hlo : lo.toNat < 256 := lo.isLt
  have hhi : hi.toNat < 256 := hi.isLt
  have hstated : ofBE [lo, hi] = hi.toNat + 256 * (lo.toNat + 256 * 0) := rfl
  rw [hstated]
  cases order with
  | littleEndian =>
    show (if lo.toNat < 128 then _ else _) = _ ↔ _
    simp only [reduceCtorEq, false_imp_iff, and_true]
    split <;> omega
  | bigEndian =>
    show (if lo.toNat < 128 then _ else _) = _ ↔ _
    simp only [true_imp_iff, ← BitVec.toNat_inj]
    split <;> omega

/-- **When the length is heard right.** -/
theorem heardLength_eq_iff (order : ByteOrder) {bs : Bytes} (h : headerLength bs ≤ bs.length) :
    heardLength order bs = statedLength bs ↔ HeardRight order bs := by
  obtain ⟨b₀, b₁, rest, rfl⟩ := first_two ((two_le_headerLength bs).trans h)
  by_cases h₁ : lengthCode (b₀ :: b₁ :: rest) = 126
  · rw [headerLength_short h₁] at h
    obtain ⟨lo, hi, rest, rfl⟩ := first_two (Nat.le_of_add_le_add_right (b := 2) h)
    rw [heardLength_short order h₁, statedLength_short h₁]
    refine (heardShort_eq_iff order lo hi).trans ?_
    simp [HeardRight, h₁]
  · by_cases h₂ : lengthCode (b₀ :: b₁ :: rest) = 127
    · rw [heardLength_long order h₂, statedLength_long h₂]
      cases order with
      | littleEndian => simp [HeardRight, h₁, heardLong]
      | bigEndian =>
        refine (ofLE_eq_ofBE_iff _).trans ?_
        simp [HeardRight, h₂]
    · simp [HeardRight, heardLength_tiny order h₁ h₂, statedLength_tiny h₁ h₂, h₁, h₂]

/-! ## Decoders on different readers -/

section Simulates

variable {ρ τ : Type} {R : ρ → τ → Prop}

theorem applyMask_simulates (data mask : Bytes) :
    Simulates R Eq (applyMask data mask : Task ρ _) (applyMask data mask : Task τ _) := by
  have hword : ∀ p, Simulates R Eq (maskWordPass mask data.length p : Task ρ _)
      (maskWordPass mask data.length p : Task τ _) := fun _ =>
    Simulates.ite (Simulates.pure rfl) (Simulates.pure rfl)
  have hbyte : ∀ p, Simulates R Eq (maskBytePass mask p : Task ρ _)
      (maskBytePass mask p : Task τ _) := fun _ =>
    Simulates.ite (Simulates.pure rfl) (Simulates.pure rfl)
  exact (Simulates.loop hword _ _).bind_eq fun _ => Simulates.loop hbyte _ _

variable [Reader ρ] [Reader τ]
  (hexact : ∀ buf,
    Simulates R Eq (Reader.readExact buf : Task ρ _) (Reader.readExact buf : Task τ _))

include hexact

theorem decodeLength_simulates (order : ByteOrder) (buf : Bytes) :
    Simulates R Eq (decodeLength order buf : Task ρ _) (decodeLength order buf : Task τ _) := by
  refine Simulates.ite ?_ (Simulates.ite ?_ (Simulates.pure rfl))
  · exact (hexact _).bind_eq fun _ => Simulates.pure rfl
  · exact (hexact _).bind_eq fun _ => Simulates.pure rfl

theorem decodePayload_simulates (clientSide : Bool) (length : BitVec 64) (payload : Bytes) :
    Simulates R Eq (decodePayload clientSide length payload : Task ρ _)
      (decodePayload clientSide length payload : Task τ _) := by
  refine Simulates.ite ?_ ?_
  · refine (resize_simulates _ _).bind_eq fun payload => ?_
    exact (hexact payload).bind_eq fun _ => Simulates.pure rfl
  · refine (hexact _).bind_eq fun maskBits => ?_
    refine (resize_simulates _ _).bind_eq fun payload => ?_
    refine (hexact payload).bind_eq fun out => ?_
    exact (applyMask_simulates _ _).bind_eq fun _ => Simulates.pure rfl

theorem decode_simulates (order : ByteOrder) (ndebug clientSide : Bool) (payload : Bytes) :
    Simulates R Eq (decode order ndebug clientSide payload : Task ρ _)
      (decode order ndebug clientSide payload : Task τ _) := by
  refine (hexact _).bind_eq fun out => ?_
  refine (Simulates.ite (Simulates.pure rfl) (Simulates.stop _)).bind_eq fun _ => ?_
  refine (Simulates.ite (Simulates.pure rfl) (Simulates.stop _)).bind_eq fun _ => ?_
  refine (decodeLength_simulates hexact order _).bind_eq fun length => ?_
  exact decodePayload_simulates hexact clientSide length payload

end Simulates

/-- `decode` returns under watch what it returns unwatched. -/
theorem decode_watched {ρ : Type} [Reader ρ] (order : ByteOrder) (ndebug clientSide : Bool)
    (payload : Bytes) {s s' : ρ} {fs : List Error} {out : Bytes × Result Unit} :
    (decode order ndebug clientSide payload).run s = .ok (out, s') ↔
      ∃ fs', (decode order ndebug clientSide payload).run (⟨s, fs⟩ : Watched ρ)
        = .ok (out, ⟨s', fs'⟩) :=
  Watched.run_iff
    (decode_simulates (fun _ => Watched.watch_simulates _ _) order ndebug clientSide payload)
    (decode_simulates (fun _ => Watched.simulates_watch _ _) order ndebug clientSide payload)

/-! ## Reads -/

/-- A reader that has certain bytes left, and hands over what is there of them. -/
def Hands {ρ : Type} [Reader ρ] (feed : Bytes → ρ) : Prop :=
  ∀ {buf bs : Bytes}, buf.length ≤ bs.length →
    (Reader.readExact buf).run (feed bs)
      = .ok ((bs.take buf.length, .ok ()), feed (bs.drop buf.length))

/-- A reader that waits for what is not there. -/
def Waits {ρ : Type} [Reader ρ] (feed : Bytes → ρ) : Prop :=
  ∀ {buf bs : Bytes}, bs.length < buf.length →
    (Reader.readExact buf).run (feed bs) = .error .pending

/-- A reader that fails on what is not there, and is `feed'` from then on. -/
def Fails {ρ : Type} [Reader ρ] (feed feed' : Bytes → ρ) (e : Error) : Prop :=
  ∀ {buf bs : Bytes}, bs.length < buf.length →
    (Reader.readExact buf).run (feed bs) = .ok ((buf, .error e), feed' bs)

theorem feed_waits : Waits fun bs => (⟨bs, none⟩ : Feed) :=
  fun h => Feed.run_readExact_of_lt h

theorem feed_fails (e : Error) :
    Fails (fun bs => (⟨bs, some e⟩ : Feed)) (fun bs => ⟨bs, some e⟩) e :=
  fun h => Feed.run_readExact_of_lt h

theorem feed_hands (ending : Option Error) : Hands fun bs => (⟨bs, ending⟩ : Feed) :=
  fun h => Feed.run_readExact_of_le h

section Reads

variable {buf bs : Bytes} {ending : Option Error} {fs : List Error} {e : Error}

theorem run_read_there (h : buf.length ≤ bs.length) :
    (Reader.readExact buf).run (⟨⟨bs, ending⟩, fs⟩ : Watched Feed)
      = .ok ((bs.take buf.length, .ok ()), ⟨⟨bs.drop buf.length, ending⟩, fs⟩) := by
  refine (Watched.run_watch_of_ok (Feed.run_readExact_of_le h)).trans ?_
  rw [show Watched.failure (Except.ok () : Result Unit) = [] from rfl, List.append_nil]

theorem watched_hands (ending : Option Error) (fs : List Error) :
    Hands fun bs => (⟨⟨bs, ending⟩, fs⟩ : Watched Feed) :=
  fun h => run_read_there h

theorem run_read_waits (h : bs.length < buf.length) :
    (Reader.readExact buf).run (⟨⟨bs, none⟩, fs⟩ : Watched Feed) = .error .pending :=
  Watched.run_watch_of_error (Feed.run_readExact_of_lt h)

theorem watched_waits (fs : List Error) :
    Waits fun bs => (⟨⟨bs, none⟩, fs⟩ : Watched Feed) :=
  fun h => run_read_waits h

theorem run_read_fails (h : bs.length < buf.length) :
    (Reader.readExact buf).run (⟨⟨bs, some e⟩, fs⟩ : Watched Feed)
      = .ok ((buf, .error e), ⟨⟨bs, some e⟩, fs ++ [e]⟩) :=
  Watched.run_watch_of_ok (Feed.run_readExact_of_lt h)

theorem watched_fails (e : Error) (fs : List Error) :
    Fails (fun bs => (⟨⟨bs, some e⟩, fs⟩ : Watched Feed))
      (fun bs => ⟨⟨bs, some e⟩, fs ++ [e]⟩) e :=
  fun h => run_read_fails h

end Reads

/-! ## The header -/

/-- What `decode` does behind the first two bytes. -/
theorem run_decode {ρ : Type} [Reader ρ] (order : ByteOrder) (clientSide : Bool)
    {payload buf : Bytes} {ret : Result Unit} {s s' : ρ}
    (h : (Reader.readExact (List.replicate 2 0)).run s = .ok ((buf, ret), s')) :
    (decode order true clientSide payload).run s
      = (decodeLength order buf >>= fun length =>
          decodePayload clientSide length payload).run s' := by
  rw [decode, Prog.run_bind_of_ok h]
  rfl

/-- The first byte of a text frame that is not continued. -/
def IsTextByte (b : Byte) : Prop := 128 ≤ b.toNat ∧ b.toNat % 16 = 1

instance (b : Byte) : Decidable (IsTextByte b) := inferInstanceAs (Decidable (_ ∧ _))

/-- The two assertions on a first byte. -/
theorem asserts_first (b : Byte) :
    IsTextByte b ↔ (charToInt b &&& 0b100000000 != 0) = true ∧
      (charToInt b &&& 0b00001111 == Opcode.text.value) = true := by
  revert b
  decide

/-- Both assertions are about the first byte; behind them the build makes no difference. -/
theorem run_decode_asserts {ρ : Type} [Reader ρ] (order : ByteOrder) (ndebug clientSide : Bool)
    {payload buf : Bytes} {ret : Result Unit} {s s' : ρ}
    (h : (Reader.readExact (List.replicate 2 0)).run s = .ok ((buf, ret), s')) :
    (decode order ndebug clientSide payload).run s
      = if ndebug = true ∨ IsTextByte (buf.getD 0 0) then
          (decode order true clientSide payload).run s
        else .error .abort := by
  cases ndebug with
  | true => rw [if_pos (Or.inl rfl)]
  | false =>
    have hdebug : (false = true ∨ IsTextByte (buf.getD 0 0)) ↔ IsTextByte (buf.getD 0 0) :=
      or_iff_right Bool.false_ne_true
    rw [if_congr hdebug rfl rfl, run_decode order clientSide h]
    unfold decode
    rw [Prog.run_bind_of_ok h]
    dsimp only
    by_cases htext : IsTextByte (buf.getD 0 0)
    · obtain ⟨hfin, hop⟩ := (asserts_first _).mp htext
      rw [if_pos htext, hfin, hop, assertion_true]
      rfl
    · rw [if_neg htext]
      by_cases hfin : (charToInt (buf.getD 0 0) &&& 0b100000000 != 0) = true
      · have hop := fun hop => htext ((asserts_first _).mpr ⟨hfin, hop⟩)
        rw [hfin, assertion_true, pure_bind, Bool.eq_false_iff.mpr hop]
        rfl
      · rw [Bool.eq_false_iff.mpr hfin]
        rfl

theorem toNat_heardShort (order : ByteOrder) (lo hi : Byte) :
    ((order.ntoh16 ((shortLength [lo, hi]).setWidth 16)).setWidth 64).toNat
      = heardShort order lo.toNat hi.toNat := by
  have hlo : lo.toNat < 256 := lo.isLt
  have hhi : hi.toNat < 256 := hi.isLt
  have hshort := toNat_shortLength lo hi
  rw [BitVec.toNat_setWidth_of_le (by decide)]
  cases order with
  | littleEndian =>
    show (bswap16 _).toNat = if lo.toNat < 128 then _ else _
    rw [toNat_bswap16, hshort, swap_two]
    split <;> omega
  | bigEndian => exact hshort

theorem toNat_heardLong (order : ByteOrder) {bs : Bytes} (h : bs.length = 8) :
    (order.ntoh64 (longLength bs)).toNat = heardLong order bs := by
  cases order with
  | littleEndian =>
    show (bswap64 _).toNat = ofBE bs
    rw [toNat_bswap64, toNat_longLength h, swap_ofLE h]
  | bigEndian => exact toNat_longLength h

theorem heardShort_lt (order : ByteOrder) (lo hi : Byte) :
    heardShort order lo.toNat hi.toNat < 65536 := by
  have hlo : lo.toNat < 256 := lo.isLt
  have hhi : hi.toNat < 256 := hi.isLt
  cases order with
  | littleEndian =>
    show (if lo.toNat < 128 then _ else _) < _
    split <;> omega
  | bigEndian =>
    show (if lo.toNat < 128 then _ else _) < _
    split <;> omega

section Length

variable {ρ : Type} [Reader ρ] {order : ByteOrder} {buf buf' : Bytes} {ret : Result Unit} {s s' : ρ}

theorem toNat_code (buf : Bytes) :
    ((buf.getD 1 0 &&& 0b01111111).setWidth 64 : BitVec 64).toNat = lengthCode buf :=
  BitVec.toNat_setWidth_of_le (by decide)

theorem code_beq (buf : Bytes) (k : BitVec 64) :
    ((buf.getD 1 0 &&& 0b01111111).setWidth 64 == k) = decide (lengthCode buf = k.toNat) := by
  rw [Bool.eq_iff_iff, beq_iff_eq, decide_eq_true_iff, ← BitVec.toNat_inj, toNat_code]

/-- The length follows in two bytes, which are read over the first two. -/
theorem run_decodeLength_short (hcode : lengthCode buf = 126)
    (hread : (Reader.readExact buf).run s = .ok ((buf', ret), s')) :
    (decodeLength order buf).run s
      = .ok ((order.ntoh16 ((shortLength buf').setWidth 16)).setWidth 64, s') := by
  rw [decodeLength, code_beq, hcode, if_pos (by decide), Prog.run_bind_of_ok hread]
  rfl

theorem run_decodeLength_long (hcode : lengthCode buf = 127)
    (hread : (Reader.readExact (List.replicate 8 0)).run s = .ok ((buf', ret), s')) :
    (decodeLength order buf).run s = .ok (order.ntoh64 (longLength buf'), s') := by
  rw [decodeLength, code_beq, code_beq, hcode, if_neg (by decide), if_pos (by decide),
    Prog.run_bind_of_ok hread]
  rfl

theorem run_decodeLength_tiny (h₁ : lengthCode buf ≠ 126) (h₂ : lengthCode buf ≠ 127) :
    (decodeLength order buf).run s
      = .ok ((buf.getD 1 0 &&& 0b01111111).setWidth 64, s) := by
  rw [decodeLength, code_beq, code_beq, if_neg (by simpa using h₁), if_neg (by simpa using h₂)]
  rfl

/-- A read of the length that stops stops `decode`. -/
theorem run_decodeLength_stop {e : Stop}
    (hshort : lengthCode buf = 126 → (Reader.readExact buf).run s = .error e)
    (hlong : lengthCode buf = 127 → (Reader.readExact (List.replicate 8 0)).run s = .error e)
    (hcode : lengthCode buf = 126 ∨ lengthCode buf = 127) :
    (decodeLength order buf).run s = .error e := by
  unfold decodeLength
  dsimp only
  rw [code_beq, code_beq]
  rcases hcode with hcode | hcode
  · rw [hcode, if_pos (by decide)]
    exact Prog.run_bind_of_error (hshort hcode)
  · rw [hcode, if_neg (by decide), if_pos (by decide)]
    exact Prog.run_bind_of_error (hlong hcode)

end Length

section Header

variable {ρ : Type} {order : ByteOrder} {clientSide : Bool} {payload bs : Bytes}
  {fs : List Error}

/-- The first two bytes are there. -/
theorem run_decode_two [Reader ρ] {feed : Bytes → ρ} (hfeed : Hands feed) (b₀ b₁ : Byte)
    (rest : Bytes) :
    (decode order true clientSide payload).run (feed (b₀ :: b₁ :: rest))
      = (decodeLength order [b₀, b₁] >>= fun length =>
          decodePayload clientSide length payload).run (feed rest) :=
  run_decode order clientSide (hfeed (by simp))

/-- **A header that is there**: `decode` goes on to the payload with the length it
heard. -/
theorem run_decode_header [Reader ρ] {feed : Bytes → ρ} (hfeed : Hands feed) (order : ByteOrder)
    (clientSide : Bool) (payload : Bytes) (h : headerLength bs ≤ bs.length) :
    ∃ length : BitVec 64, length.toNat = heardLength order bs ∧
      (decode order true clientSide payload).run (feed bs)
        = (decodePayload clientSide length payload).run (feed (bs.drop (headerLength bs))) := by
  obtain ⟨b₀, b₁, rest, rfl⟩ := first_two ((two_le_headerLength bs).trans h)
  have hcode : lengthCode [b₀, b₁] = lengthCode (b₀ :: b₁ :: rest) := rfl
  rw [run_decode_two hfeed]
  by_cases h₁ : lengthCode (b₀ :: b₁ :: rest) = 126
  · rw [headerLength_short h₁] at h
    rw [headerLength_short h₁, heardLength_short order h₁]
    obtain ⟨lo, hi, rest, rfl⟩ := first_two (Nat.le_of_add_le_add_right (b := 2) h)
    refine ⟨_, toNat_heardShort order lo hi, ?_⟩
    exact Prog.run_bind_of_ok (run_decodeLength_short h₁ (hfeed (by simp)))
  · by_cases h₂ : lengthCode (b₀ :: b₁ :: rest) = 127
    · rw [headerLength_long h₂] at h
      rw [headerLength_long h₂, heardLength_long order h₂]
      have hrest : 8 ≤ rest.length := Nat.le_of_add_le_add_right (b := 2) h
      refine ⟨_, toNat_heardLong order (List.length_take_of_le hrest), ?_⟩
      exact Prog.run_bind_of_ok (run_decodeLength_long h₂ (hfeed hrest))
    · rw [headerLength_tiny h₁ h₂, heardLength_tiny order h₁ h₂]
      exact ⟨_, toNat_code [b₀, b₁], Prog.run_bind_of_ok (run_decodeLength_tiny h₁ h₂)⟩

/-- A header that is not all there, on a stream that stays open. -/
theorem run_decode_waits [Reader ρ] {feed : Bytes → ρ} (hfeed : Hands feed) (hwaits : Waits feed)
    (h : bs.length < headerLength bs) :
    (decode order true clientSide payload).run (feed bs) = .error .pending := by
  by_cases htwo : 2 ≤ bs.length
  · obtain ⟨b₀, b₁, rest, rfl⟩ := first_two htwo
    rw [run_decode_two hfeed]
    have hcode : lengthCode [b₀, b₁] = lengthCode (b₀ :: b₁ :: rest) := rfl
    refine Prog.run_bind_of_error (run_decodeLength_stop ?_ ?_ ?_)
    · intro h₁
      rw [headerLength_short (hcode.symm.trans h₁)] at h
      exact hwaits (Nat.lt_of_add_lt_add_right (n := 2) h)
    · intro h₂
      rw [headerLength_long (hcode.symm.trans h₂)] at h
      exact hwaits (Nat.lt_of_add_lt_add_right (n := 2) h)
    · rw [hcode]
      by_contra hnot
      rw [not_or] at hnot
      rw [headerLength_tiny hnot.1 hnot.2] at h
      exact absurd htwo (Nat.not_le.mpr h)
  · exact Prog.run_bind_of_error (hwaits (by simpa using htwo))

/-- A header that is not all there, on a stream that has ended: `decode` makes up a
length and goes on. -/
theorem run_decode_short [Reader ρ] {feed feed' : Bytes → ρ} {e : Error} (hfeed : Hands feed)
    (hfails : Fails feed feed' e) (order : ByteOrder) (clientSide : Bool) (payload : Bytes)
    (h : bs.length < headerLength bs) :
    ∃ (length : BitVec 64) (bs' : Bytes), length.toNat < 65536 ∧
      (decode order true clientSide payload).run (feed bs)
        = (decodePayload clientSide length payload).run (feed' bs') := by
  by_cases htwo : 2 ≤ bs.length
  · obtain ⟨b₀, b₁, rest, rfl⟩ := first_two htwo
    rw [run_decode_two hfeed]
    by_cases h₁ : lengthCode (b₀ :: b₁ :: rest) = 126
    · -- the first two bytes are taken for the length
      rw [headerLength_short h₁] at h
      refine ⟨_, rest, (toNat_heardShort order b₀ b₁).trans_lt (heardShort_lt order b₀ b₁), ?_⟩
      exact Prog.run_bind_of_ok (run_decodeLength_short h₁
        (hfails (Nat.lt_of_add_lt_add_right (n := 2) h)))
    · by_cases h₂ : lengthCode (b₀ :: b₁ :: rest) = 127
      · rw [headerLength_long h₂] at h
        refine ⟨order.ntoh64 (longLength (List.replicate 8 0)), rest, ?_, ?_⟩
        · cases order <;> decide
        · exact Prog.run_bind_of_ok (run_decodeLength_long h₂
            (hfails (Nat.lt_of_add_lt_add_right (n := 2) h)))
      · rw [headerLength_tiny h₁ h₂] at h
        exact absurd htwo (Nat.not_le.mpr h)
  · refine ⟨0, bs, by decide, ?_⟩
    rw [run_decode order clientSide (hfails (by simpa using htwo))]
    exact Prog.run_bind_of_ok (run_decodeLength_tiny (by decide) (by decide))

end Header

/-! ## The payload -/

/-- A payload no vector can hold, or one whose unmasking never ends. -/
def Endless (clientSide : Bool) (length : Nat) : Prop :=
  maxSize < length ∨ clientSide = false ∧ 2 ^ 32 ≤ length

section Payload

variable {clientSide : Bool} {length : BitVec 64} {payload bs : Bytes} {ending : Option Error}
  {fs : List Error} {e : Error}

/-- Whatever a read does, its destination keeps its size. -/
theorem read_length (buf : Bytes) (w : Watched Feed) :
    Meets (Reader.readExact buf) w (fun out _ => out.1.length = buf.length)
      fun e => e = .pending := by
  obtain ⟨⟨bs, ending⟩, fs⟩ := w
  by_cases h : buf.length ≤ bs.length
  · exact (meets_of_ok (run_read_there h)).mpr (List.length_take_of_le h)
  · cases ending with
    | none => exact (meets_of_error (run_read_waits (Nat.lt_of_not_le h))).mpr rfl
    | some e => exact (meets_of_ok (run_read_fails (Nat.lt_of_not_le h))).mpr rfl

/-- An endless payload is never returned. -/
theorem decodePayload_endless (h : Endless clientSide length.toNat) (payload : Bytes)
    (w : Watched Feed) :
    Meets (decodePayload clientSide length payload) w (fun _ _ => False) fun _ => True := by
  unfold decodePayload
  cases clientSide with
  | true =>
    rw [if_pos rfl]
    refine (resize_length payload _ w).bind (fun _ _ => True.intro) ?_
    rintro payload' w₁ ⟨-, hmax⟩
    exact absurd hmax (Nat.not_le.mpr (h.resolve_right fun hc => Bool.noConfusion hc.1))
  | false =>
    rw [if_neg (by decide)]
    refine (Meets.trivial _ w).bind (fun _ he => he) ?_
    rintro ⟨maskBits, ret⟩ w₀ -
    refine (resize_length payload _ w₀).bind (fun _ _ => True.intro) ?_
    rintro payload' w₁ ⟨hlen, hmax⟩
    refine (read_length payload' w₁).bind (fun _ _ => True.intro) ?_
    rintro ⟨payload'', ret'⟩ w₂ hlen'
    have hge : 2 ^ 32 ≤ payload''.length := by
      rw [hlen', hlen]
      exact (h.resolve_left (Nat.not_lt.mpr hmax)).2
    exact (meets_of_error (Prog.run_bind_of_error
      (run_applyMask_of_ge maskBits hge w₂))).mpr True.intro

/-- A payload that is there comes back unmasked. -/
theorem decodePayload_whole {ρ : Type} [Reader ρ] {feed : Bytes → ρ} (hfeed : Hands feed)
    (h : ¬ Endless clientSide length.toNat)
    (hlen : maskLength clientSide + length.toNat ≤ bs.length) :
    (decodePayload clientSide length payload).run (feed bs)
      = .ok ((unmasked clientSide (bs.take (maskLength clientSide + length.toNat)), .ok ()),
          feed (bs.drop (maskLength clientSide + length.toNat))) := by
  have hmax : length.toNat ≤ maxSize := Nat.not_lt.mp fun hlt => h (Or.inl hlt)
  unfold decodePayload
  cases clientSide with
  | true =>
    simp only [maskLength, if_true, Nat.zero_add] at hlen ⊢
    obtain ⟨dst, hdst, hresize⟩ := run_resize payload hmax (feed bs)
    rw [Prog.run_bind_of_ok hresize,
      Prog.run_bind_of_ok (hfeed (hdst.symm ▸ hlen)), hdst]
    rfl
  | false =>
    have hlt : length.toNat < 2 ^ 32 := Nat.not_le.mp fun hle => h (Or.inr ⟨rfl, hle⟩)
    simp only [maskLength, Bool.false_eq_true, if_false] at hlen ⊢
    have hfour : (List.replicate 4 (0 : Byte)).length ≤ bs.length := by
      rw [List.length_replicate]
      omega
    obtain ⟨dst, hdst, hresize⟩ := run_resize payload hmax (feed (bs.drop 4))
    have hrest : dst.length ≤ (bs.drop 4).length := by
      rw [hdst, List.length_drop]
      omega
    have htake : ((bs.drop 4).take length.toNat).length = length.toNat :=
      List.length_take_of_le (hdst ▸ hrest)
    rw [Prog.run_bind_of_ok (hfeed hfour)]
    dsimp only
    rw [List.length_replicate, Prog.run_bind_of_ok hresize,
      Prog.run_bind_of_ok (hfeed hrest)]
    dsimp only
    rw [hdst, Prog.run_bind_of_ok (run_applyMask _ (htake.trans_lt hlt) _), List.drop_drop]
    -- the frame's bytes are the mask bits and the payload
    have hmask : (bs.take (4 + length.toNat)).take 4 = bs.take 4 := by
      rw [List.take_take, Nat.min_eq_left (Nat.le_add_right 4 _)]
    have hdata : (bs.take (4 + length.toNat)).drop 4 = (bs.drop 4).take length.toNat := by
      rw [List.drop_take, Nat.add_sub_cancel_left]
    unfold unmasked
    rw [if_neg (by decide), hmask, hdata]
    rfl

/-- On an open stream a payload that is not all there is waited for. -/
theorem decodePayload_waits (hlen : bs.length < maskLength clientSide + length.toNat) :
    Meets (decodePayload clientSide length payload) (⟨⟨bs, none⟩, fs⟩ : Watched Feed)
      (fun _ _ => False) fun _ => True := by
  by_cases hend : Endless clientSide length.toNat
  · exact decodePayload_endless hend payload _
  · have hmax : length.toNat ≤ maxSize := Nat.not_lt.mp fun hlt => hend (Or.inl hlt)
    unfold decodePayload
    cases clientSide with
    | true =>
      simp only [maskLength, if_true, Nat.zero_add] at hlen ⊢
      obtain ⟨dst, hdst, hresize⟩ := run_resize payload hmax (⟨⟨bs, none⟩, fs⟩ : Watched Feed)
      rw [meets_bind, meets_of_ok hresize, meets_bind,
        meets_of_error (run_read_waits (hdst.symm ▸ hlen))]
      exact True.intro
    | false =>
      simp only [maskLength, Bool.false_eq_true, if_false] at hlen ⊢
      by_cases hfour : bs.length < 4
      · rw [meets_bind, meets_of_error (run_read_waits hfour)]
        exact True.intro
      · obtain ⟨dst, hdst, hresize⟩ :=
          run_resize payload hmax (⟨⟨bs.drop 4, none⟩, fs⟩ : Watched Feed)
        have hrest : (bs.drop 4).length < dst.length := by
          rw [hdst, List.length_drop]
          omega
        have hmask : (List.replicate 4 (0 : Byte)).length ≤ bs.length := Nat.not_lt.mp hfour
        rw [meets_bind, meets_of_ok (run_read_there hmask)]
        dsimp only
        rw [List.length_replicate, meets_bind, meets_of_ok hresize, meets_bind,
          meets_of_error (run_read_waits hrest)]
        exact True.intro

/-- A read on a stream that has ended returns, if need be with the error. -/
theorem run_read_ended (buf bs : Bytes) (fs : List Error) (e : Error) :
    ∃ out ret bs' fs', (Reader.readExact buf).run (⟨⟨bs, some e⟩, fs⟩ : Watched Feed)
        = .ok ((out, ret), ⟨⟨bs', some e⟩, fs'⟩) ∧ out.length = buf.length ∧ fs ⊆ fs' ∧
      bs'.length = (if buf.length ≤ bs.length then bs.length - buf.length else bs.length) ∧
      (bs.length < buf.length → e ∈ fs') := by
  by_cases h : buf.length ≤ bs.length
  · exact ⟨_, _, _, _, run_read_there h, List.length_take_of_le h, fun _ he => he,
      by rw [if_pos h, List.length_drop], fun hlt => absurd h (Nat.not_le.mpr hlt)⟩
  · exact ⟨_, _, _, _, run_read_fails (Nat.lt_of_not_le h), rfl, List.subset_append_left _ _,
      by rw [if_neg h], fun _ => List.mem_append_right _ List.mem_cons_self⟩

/-- On a stream that has ended `decode` returns without it, and reports success. -/
theorem decodePayload_returns (payload bs : Bytes) (fs : List Error) (e : Error)
    (h : ¬ Endless clientSide length.toNat) :
    ∃ out w, (decodePayload clientSide length payload).run (⟨⟨bs, some e⟩, fs⟩ : Watched Feed)
        = .ok ((out, .ok ()), w) ∧ fs ⊆ w.failures ∧
      (bs.length < maskLength clientSide + length.toNat → e ∈ w.failures) := by
  have hmax : length.toNat ≤ maxSize := Nat.not_lt.mp fun hlt => h (Or.inl hlt)
  unfold decodePayload
  cases clientSide with
  | true =>
    obtain ⟨dst, hdst, hresize⟩ := run_resize payload hmax (⟨⟨bs, some e⟩, fs⟩ : Watched Feed)
    obtain ⟨out, ret, bs', fs', hread, -, hsub, -, hfail⟩ := run_read_ended dst bs fs e
    refine ⟨out, ⟨⟨bs', some e⟩, fs'⟩, ?_, hsub, fun hlt => hfail ?_⟩
    · rw [if_pos rfl, Prog.run_bind_of_ok hresize, Prog.run_bind_of_ok hread]
      rfl
    · rw [hdst]
      exact hlt.trans_eq (Nat.zero_add _)
  | false =>
    have hlt : length.toNat < 2 ^ 32 := Nat.not_le.mp fun hle => h (Or.inr ⟨rfl, hle⟩)
    obtain ⟨maskBits, ret₀, bs₀, fs₀, hmask, -, hsub₀, hlen₀, hfail₀⟩ :=
      run_read_ended (List.replicate 4 0) bs fs e
    obtain ⟨dst, hdst, hresize⟩ := run_resize payload hmax (⟨⟨bs₀, some e⟩, fs₀⟩ : Watched Feed)
    obtain ⟨out, ret, bs', fs', hread, hout, hsub, -, hfail⟩ := run_read_ended dst bs₀ fs₀ e
    have hshort : out.length < 2 ^ 32 := by
      rw [hout, hdst]
      exact hlt
    refine ⟨masked maskBits out.length out, ⟨⟨bs', some e⟩, fs'⟩, ?_,
      List.Subset.trans hsub₀ hsub, ?_⟩
    · rw [if_neg (by decide), Prog.run_bind_of_ok hmask]
      dsimp only
      rw [Prog.run_bind_of_ok hresize, Prog.run_bind_of_ok hread]
      dsimp only
      rw [Prog.run_bind_of_ok (run_applyMask maskBits hshort _)]
      rfl
    · intro hmissing
      rw [List.length_replicate] at hlen₀ hfail₀
      change bs.length < 4 + length.toNat at hmissing
      -- either the mask bits are missing or the payload is
      by_cases hfour : bs.length < 4
      · exact hsub (hfail₀ hfour)
      · rw [if_pos (Nat.not_lt.mp hfour)] at hlen₀
        exact hfail (by omega)

end Payload

/-! ## What `decode` returns -/

/-- A success is a complete frame that was read, with its payload; a read that failed is
reported. -/
def Faithful (order : ByteOrder) (clientSide : Bool) (payload : Bytes) (s : Feed) : Prop :=
  ∀ out ret fs s', (decode order true clientSide payload).run (⟨s, []⟩ : Watched Feed)
      = .ok ((out, ret), ⟨s', fs⟩) →
    (ret = .ok () → ∃ fr, s.unread = fr ++ s'.unread ∧ IsFrame clientSide fr out) ∧
    ∀ e ∈ fs, ret = .error e

/-- The header is there, and what follows is never returned. -/
def NeverReturned (order : ByteOrder) (clientSide : Bool) (bs : Bytes) : Prop :=
  headerLength bs ≤ bs.length ∧ Endless clientSide (heardLength order bs)

/-- The bytes of a frame of the length that is heard. -/
def heardFrame (order : ByteOrder) (clientSide : Bool) (bs : Bytes) : Nat :=
  headerLength bs + maskLength clientSide + heardLength order bs

section Faithful

variable {order : ByteOrder} {clientSide : Bool} {payload bs : Bytes} {ending : Option Error}

theorem headerLength_le (h : heardFrame order clientSide bs ≤ bs.length) :
    headerLength bs ≤ bs.length := by
  rw [heardFrame] at h
  omega

/-- Behind a header that is there, the frame that is heard is a masking key and a payload. -/
theorem heardFrame_le_iff (h : headerLength bs ≤ bs.length) :
    heardFrame order clientSide bs ≤ bs.length ↔
      maskLength clientSide + heardLength order bs ≤ (bs.drop (headerLength bs)).length := by
  rw [heardFrame]
  rw [List.length_drop]
  omega

theorem faithful_of_never {s : Feed}
    (h : Meets (decode order true clientSide payload) (⟨s, []⟩ : Watched Feed)
      (fun _ _ => False) fun _ => True) : Faithful order clientSide payload s :=
  fun _ _ _ _ hrun => (h.of_ok hrun).elim

/-- A read that failed makes a success a lie. -/
theorem not_faithful {s : Feed} {out : Bytes} {w : Watched Feed} {e : Error}
    (hrun : (decode order true clientSide payload).run (⟨s, []⟩ : Watched Feed)
      = .ok ((out, .ok ()), w)) (he : e ∈ w.failures) : ¬ Faithful order clientSide payload s := by
  intro h
  cases (h _ _ _ _ hrun).2 e he

/-- Where everything that was heard of is there, the bytes that were read are a frame
exactly if the length was heard right. -/
theorem isFrame_iff (h : heardFrame order clientSide bs ≤ bs.length) :
    (∃ fr, bs = fr ++ bs.drop (heardFrame order clientSide bs) ∧
      IsFrame clientSide fr (unmasked clientSide
        ((bs.drop (headerLength bs)).take (maskLength clientSide + heardLength order bs)))) ↔
      heardLength order bs = statedLength bs := by
  have htwo := two_le_headerLength bs
  constructor
  · rintro ⟨fr, hbs, hframe⟩
    have hlen := congrArg List.length hbs
    rw [List.length_append, List.length_drop] at hlen
    have hcomplete : fr.length = _ + _ + _ := hframe.complete
    have hheader : headerLength fr ≤ fr.length := by omega
    have hfr := (two_le_headerLength fr).trans hheader
    have heq₁ : headerLength bs = headerLength fr := hbs ▸ headerLength_append hfr _
    have heq₂ : statedLength bs = statedLength fr := hbs ▸ statedLength_append hheader _
    rw [heardFrame] at hlen h
    omega
  · intro heq
    have hsplit := (List.take_append_drop (heardFrame order clientSide bs) bs).symm
    have hlen : (bs.take (heardFrame order clientSide bs)).length
        = heardFrame order clientSide bs := List.length_take_of_le h
    have hheader : headerLength bs = headerLength (bs.take (heardFrame order clientSide bs)) := by
      conv_lhs => rw [hsplit]
      refine headerLength_append ?_ _
      rw [hlen]
      rw [heardFrame]
      omega
    have hstated : statedLength bs = statedLength (bs.take (heardFrame order clientSide bs)) := by
      conv_lhs => rw [hsplit]
      refine statedLength_append ?_ _
      rw [hlen, ← hheader]
      rw [heardFrame]
      omega
    refine ⟨_, hsplit, ?_, ?_⟩
    · rw [hlen, frameLength, ← hheader, ← hstated, ← heq]
      rfl
    · rw [← hheader, List.drop_take]
      rw [heardFrame]
      rw [Nat.add_assoc, Nat.add_sub_cancel_left]

/-- A complete frame of a length that is heard right is the frame that is heard. -/
theorem complete_iff : frameLength clientSide bs ≤ bs.length ∧ HeardRight order bs ↔
    heardFrame order clientSide bs ≤ bs.length ∧ heardLength order bs = statedLength bs := by
  rw [frameLength, heardFrame]
  constructor
  · rintro ⟨hlen, hright⟩
    have heq := (heardLength_eq_iff order (by omega)).mpr hright
    exact ⟨by omega, heq⟩
  · rintro ⟨hlen, heq⟩
    exact ⟨by omega, (heardLength_eq_iff order (by omega)).mp heq⟩

theorem faithful_whole (h : heardFrame order clientSide bs ≤ bs.length)
    (hend : ¬ Endless clientSide (heardLength order bs)) :
    Faithful order clientSide payload ⟨bs, ending⟩ ↔ heardLength order bs = statedLength bs := by
  have hheader := headerLength_le h
  obtain ⟨length, hlength, hrun⟩ :=
    run_decode_header (watched_hands ending []) order clientSide payload hheader
  rw [← hlength] at hend
  have hrest : maskLength clientSide + length.toNat ≤ (bs.drop (headerLength bs)).length := by
    rw [hlength]
    exact (heardFrame_le_iff hheader).mp h
  rw [decodePayload_whole (watched_hands _ _) hend hrest, List.drop_drop, hlength,
    ← Nat.add_assoc] at hrun
  rw [← isFrame_iff h]
  constructor
  · intro hfaithful
    exact (hfaithful _ _ _ _ hrun).1 rfl
  · intro hframe out ret fs s' hrun'
    rw [hrun] at hrun'
    cases hrun'
    exact ⟨fun _ => hframe, fun e he => absurd he List.not_mem_nil⟩

/-- On an open stream that does not hold all of a frame, nothing is returned. -/
theorem faithful_open (h : bs.length < heardFrame order clientSide bs) :
    Faithful order clientSide payload ⟨bs, none⟩ := by
  apply faithful_of_never
  unfold Meets
  by_cases hheader : headerLength bs ≤ bs.length
  · obtain ⟨length, hlength, hrun⟩ :=
      run_decode_header (watched_hands none []) order clientSide payload hheader
    rw [hrun]
    refine decodePayload_waits (Nat.lt_of_not_le fun hrest => h.not_ge ?_)
    rw [hlength] at hrest
    exact (heardFrame_le_iff hheader).mpr hrest
  · rw [run_decode_waits (watched_hands none []) (watched_waits []) (Nat.lt_of_not_le hheader)]
    exact True.intro

/-- On one that has ended, a success is returned all the same. -/
theorem not_faithful_ended {e : Error} (h : bs.length < heardFrame order clientSide bs)
    (hnever : ¬ NeverReturned order clientSide bs) :
    ¬ Faithful order clientSide payload ⟨bs, some e⟩ := by
  by_cases hheader : headerLength bs ≤ bs.length
  · obtain ⟨length, hlength, hrun⟩ :=
      run_decode_header (watched_hands (some e) []) order clientSide payload hheader
    obtain ⟨out, w, hpayload, -, hfail⟩ := decodePayload_returns payload
      (bs.drop (headerLength bs)) [] e fun hend => hnever ⟨hheader, hlength ▸ hend⟩
    refine not_faithful (hrun.trans hpayload) (hfail (Nat.lt_of_not_le fun hrest => h.not_ge ?_))
    rw [hlength] at hrest
    exact (heardFrame_le_iff hheader).mpr hrest
  · obtain ⟨length, bs', hlength, hrun⟩ := run_decode_short (watched_hands (some e) [])
      (watched_fails e []) order clientSide payload (Nat.lt_of_not_le hheader)
    have hend : ¬ Endless clientSide length.toNat := by
      rintro (hlt | ⟨-, hle⟩)
      · have : (65536 : Nat) ≤ maxSize := by decide
        omega
      · omega
    obtain ⟨out, w, hpayload, hsub, -⟩ := decodePayload_returns payload bs' ([] ++ [e]) e hend
    exact not_faithful (hrun.trans hpayload) (hsub List.mem_cons_self)

/-- **The streams on which `decode` is faithful**: those on which it never returns, those
that hold a complete frame whose length it hears right, and open ones that do not hold
all that it heard of. -/
theorem faithful_iff (order : ByteOrder) (clientSide : Bool) (payload : Bytes) (s : Feed) :
    Faithful order clientSide payload s ↔
      NeverReturned order clientSide s.unread ∨
      (frameLength clientSide s.unread ≤ s.unread.length ∧ HeardRight order s.unread) ∨
      (s.unread.length < heardFrame order clientSide s.unread ∧ s.ending = none) := by
  obtain ⟨bs, ending⟩ := s
  dsimp only
  rw [complete_iff]
  by_cases hnever : NeverReturned order clientSide bs
  · obtain ⟨hheader, hend⟩ := hnever
    refine ⟨fun _ => Or.inl ⟨hheader, hend⟩, fun _ => faithful_of_never ?_⟩
    obtain ⟨length, hlength, hrun⟩ :=
      run_decode_header (watched_hands ending []) order clientSide payload hheader
    unfold Meets
    rw [hrun]
    exact decodePayload_endless (hlength ▸ hend) payload _
  · by_cases hwhole : heardFrame order clientSide bs ≤ bs.length
    · rw [faithful_whole hwhole fun hend => hnever ⟨headerLength_le hwhole, hend⟩]
      simp [hnever, hwhole]
    · cases ending with
      | none => simp [faithful_open (Nat.lt_of_not_le hwhole), Nat.lt_of_not_le hwhole]
      | some e => simp [not_faithful_ended (Nat.lt_of_not_le hwhole) hnever, hnever, hwhole]

end Faithful

/-- A connection that was closed delivers an empty message. -/
theorem not_faithful_closed :
    ¬ ∀ (order : ByteOrder) (clientSide : Bool) (payload : Bytes) (s : Feed),
      Faithful order clientSide payload s := by
  intro h
  have hrun : (decode .littleEndian true true []).run
      (⟨⟨[], some .unexpectedEOF⟩, []⟩ : Watched Feed)
      = .ok (([], .ok ()), ⟨⟨[], some .unexpectedEOF⟩, [.unexpectedEOF]⟩) := rfl
  cases (h .littleEndian true [] ⟨[], some .unexpectedEOF⟩ _ _ _ _ hrun).2 _ List.mem_cons_self

end Uvio.Codec.Websocket
