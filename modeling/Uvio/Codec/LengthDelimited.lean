import Uvio.Codec.Base
import Uvio.Program.Varint

/-!
# `LengthDelimitedCodec`

A message is preceded by its length as a variable-length integer, which is taken
of the length in network byte order: `encode_length` swaps the bytes of the
64-bit length first and then writes groups of seven bits.

- `run_encode`: what an ideal writer is given is `frame order message`.
- `run_decode`: an ideal reader that has a frame in front hands the message back
  and is left right behind it.
- `decode_encode_session`: any number of messages, through a buffered writer and
  a buffered reader of any capacities, over a socket that cuts the stream
  anywhere.
-/

namespace Uvio.Codec.LengthDelimited

open Program Net Io

variable {ρ ω : Type}

/-- Maximum number of bytes required to encode a `uint64_t` (7 * 10 > 64). -/
def maxVarintBytes : Nat := 10

/-- One pass of the loop of `decode_length`; the loop variables are `i`, `bytes`
and `value`. -/
def decodeLengthPass [Reader ρ] (order : ByteOrder) : Nat × Bytes × BitVec 64 →
    Task ρ (Pass (Nat × Bytes × BitVec 64) (Result (BitVec 64)))
  | (i, bytes, value) =>
    if i < maxVarintBytes then do
      let (bytes, ret) ← Reader.readExact bytes
      match ret with
      | .error e => pure (.leave (.error e))
      | .ok () =>
        let byte := charToInt (bytes.getD 0 0)
        -- `int` is widened with its sign, and only then shifted
        let value := value ||| (byte &&& 0x7F).signExtend 64 <<< (i * 7)
        if byte &&& 0x80 == 0 then pure (.leave (.ok (order.ntoh64 value)))
        else pure (.again (i + 1, bytes, value))
    -- ten bytes that all announce another one
    else pure (.leave (.error .unclassified))

/-- `decode_length(reader)`. -/
def decodeLength [Reader ρ] (order : ByteOrder) : Task ρ (Result (BitVec 64)) :=
  loop .spin (decodeLengthPass order) (maxVarintBytes + 1) (0, [0], 0)

/-- One pass of the loop of `encode_length`. -/
def encodeLengthPass [Writer ω] :
    BitVec 64 → Task ω (Pass (BitVec 64) (Result Unit)) := fun value => do
  let byte := (value &&& 0x7F) ||| (if value >>> 7 == 0 then 0x00 else 0x80)
  match ← Writer.write [toChar byte] with
  | .error e => pure (.leave (.error e))
  | .ok _ =>
    let value := value >>> 7
    if value != 0 then pure (.again value) else pure (.leave (.ok ()))

/-- `encode_length(value, writer)`. A pass shifts seven bits out, which bounds the
passes. -/
def encodeLength [Writer ω] (order : ByteOrder) (value : BitVec 64) : Task ω (Result Unit) :=
  loop .spin encodeLengthPass maxVarintBytes (order.hton64 value)

/-- `decode(message, reader)`. -/
def decode [Reader ρ] (order : ByteOrder) (message : Bytes) : Task ρ (Bytes × Result Unit) :=
  decodePrefixed (decodeLength order) message

/-- `encode(message, writer)`. -/
def encode [Writer ω] (order : ByteOrder) (message : Bytes) : Task ω (Result Unit) :=
  encodePrefixed (encodeLength order) message

/-! ## The length prefix -/

/-- The prefix of a message of length `n`. -/
def header (order : ByteOrder) (n : Nat) : Bytes :=
  varint (order.hton64 (BitVec.ofNat 64 n)).toNat

/-- A message with its prefix. -/
def frame (order : ByteOrder) (message : Bytes) : Bytes :=
  header order message.length ++ message

/-- The byte of a group: the group, and the high bit if another one follows. -/
theorem toChar_group (value : BitVec 64) :
    toChar ((value &&& 0x7F) ||| (if value >>> 7 == 0 then 0x00 else 0x80))
      = if value.toNat < 128 then BitVec.ofNat 8 value.toNat
        else BitVec.ofNat 8 (value.toNat % 128 + 128) := by
  have hlow : (value &&& 0x7F).toNat = value.toNat % 128 :=
    toNat_and_low value (k := 7) (by decide)
  have htop : (value >>> 7 == 0) = decide (value.toNat < 128) := by
    rw [Bool.eq_iff_iff]
    simp [← BitVec.toNat_inj, Nat.shiftRight_eq_div_pow]
  rw [htop]
  apply BitVec.eq_of_toNat_eq
  by_cases h : value.toNat < 128
  · have hor : ((value &&& 0x7F) ||| 0x00).toNat = value.toNat % 128 := by simpa using hlow
    simp only [h, decide_true, if_true]
    rw [toChar, BitVec.toNat_setWidth, BitVec.toNat_ofNat, hor]
    omega
  · have hor : ((value &&& 0x7F) ||| 0x80).toNat = value.toNat % 128 + 128 :=
      hlow ▸ toNat_or_field (d := 1) (i := 7) (by omega) (by decide)
    simp only [h, decide_false, if_false]
    rw [toChar, BitVec.toNat_setWidth, BitVec.toNat_ofNat, ← hor]
    rfl

/-- The bits of a byte the loop of `decode_length` looks at. -/
theorem low_bits (b : Byte) :
    (charToInt b &&& 0x7F).signExtend 64 = BitVec.ofNat 64 (b.toNat % 128) := by
  revert b
  decide

theorem high_bit (b : Byte) : (charToInt b &&& 0x80 == 0) = decide (b.toNat < 128) := by
  revert b
  decide

/-- **`encode_length`** writes the variable-length encoding of the swapped length. -/
theorem run_encodeLength (order : ByteOrder) (value : BitVec 64) (s : Record) :
    (encodeLength order value).run s
      = .ok (.ok (), { s with written := s.written ++ varint (order.hton64 value).toNat }) := by
  rw [run_eq_ok_iff]
  have hlt : (order.hton64 value).toNat < 2 ^ 64 := BitVec.isLt _
  -- the variant: as many passes are left as seven-bit groups can be
  refine Meets.loop (fun n (v : BitVec 64) s₁ => v.toNat < 2 ^ (7 * (n + 1)) ∧
      s₁.written ++ varint v.toNat = s.written ++ varint (order.hton64 value).toNat ∧
      s₁.flushed = s.flushed) ?_ (n := 9) ⟨?_, rfl, rfl⟩ (by decide)
  · rintro n v ⟨written, flushed⟩ ⟨hv, hout, rfl⟩
    unfold encodeLengthPass
    rw [meets_bind, Record.meets_write, toChar_group]
    have hshift : (v >>> 7).toNat = v.toNat / 128 := by
      rw [BitVec.toNat_ushiftRight, Nat.shiftRight_eq_div_pow]
    have hzero : (v >>> 7 != 0) = decide (¬ v.toNat < 128) := by
      rw [Bool.eq_iff_iff]
      simp [← BitVec.toNat_inj, Nat.shiftRight_eq_div_pow]
    dsimp only at hout ⊢
    rw [hzero]
    by_cases hlast : v.toNat < 128
    · -- the last group has its high bit clear, and ends the loop
      rw [varint_of_lt hlast] at hout
      simp only [hlast, not_true_eq_false, decide_false, if_true]
      rw [if_neg (by decide)]
      exact ⟨rfl, by rw [hout]⟩
    · rw [varint_of_ge hlast] at hout
      simp only [hlast, not_false_eq_true, decide_true, if_false, if_true]
      have hn : 0 < n := by
        refine Nat.pos_of_ne_zero fun h0 => ?_
        subst h0
        omega
      refine ⟨n - 1, Nat.sub_lt hn Nat.one_pos, ?_, ?_, rfl⟩
      · rw [hshift, Nat.sub_add_cancel hn]
        rw [Nat.mul_add, Nat.pow_add] at hv
        omega
      · rw [hshift, ← hout, List.append_assoc]
        rfl
  · exact Nat.lt_of_lt_of_le hlt (by decide)

/-- One pass of `decode_length` over the byte `b`. -/
theorem run_decodeLengthPass (order : ByteOrder) {i : Nat} (hi : i < 10) {bytes : Bytes}
    (hbytes : bytes.length = 1) (acc : BitVec 64) (b : Byte) (rest : Bytes)
    (ending : Option Error) :
    (decodeLengthPass order (i, bytes, acc)).run (⟨b :: rest, ending⟩ : Feed)
      = .ok (if b.toNat < 128 then
          .leave (.ok (order.ntoh64 (acc ||| BitVec.ofNat 64 (b.toNat % 128) <<< (i * 7))))
        else .again (i + 1, [b], acc ||| BitVec.ofNat 64 (b.toNat % 128) <<< (i * 7)),
        ⟨rest, ending⟩) := by
  have hread : (Reader.readExact bytes).run (⟨[b] ++ rest, ending⟩ : Feed)
      = .ok (([b], .ok ()), ⟨rest, ending⟩) := Feed.run_readExact hbytes.symm
  unfold decodeLengthPass
  dsimp only
  rw [if_pos (show i < maxVarintBytes from hi)]
  refine (Prog.run_bind_of_ok hread).trans ?_
  dsimp only
  rw [List.getD_cons_zero, low_bits, high_bit]
  by_cases hlast : b.toNat < 128
  · rw [if_pos (decide_eq_true hlast), if_pos hlast]
    rfl
  · rw [if_neg (by simpa using hlast), if_neg hlast]
    rfl

/-- Groups that all announce another one are added up in as many passes. -/
theorem run_announcing (order : ByteOrder) {front : Bytes} (hfront : Announcing front)
    (rest : Bytes) (ending : Option Error) (n : Nat) {i v : Nat} {bytes : Bytes}
    (hbytes : bytes.length = 1) (hv : v < 2 ^ (7 * i)) (hi : i + front.length ≤ 10) :
    ∃ bytes' : Bytes, bytes'.length = 1 ∧
      (loop .spin (decodeLengthPass order) (front.length + n) (i, bytes, BitVec.ofNat 64 v)).run
          (⟨front ++ rest, ending⟩ : Feed)
        = (loop .spin (decodeLengthPass order) n (i + front.length, bytes',
            BitVec.ofNat 64 (v + 2 ^ (7 * i) * ofGroups front))).run ⟨rest, ending⟩ := by
  induction front generalizing i v bytes with
  | nil => exact ⟨bytes, hbytes, by simp [ofGroups]⟩
  | cons b front ih =>
    obtain ⟨hb, hfront⟩ := announcing_cons.mp hfront
    rw [List.length_cons] at hi
    have hpass := run_decodeLengthPass order (show i < 10 by omega) hbytes (BitVec.ofNat 64 v) b
      (front ++ rest) ending
    rw [if_neg (Nat.not_lt.mpr hb), Nat.mul_comm i 7, ofNat_or_field hv] at hpass
    -- the group lies above the ones before
    have hv' : v + 2 ^ (7 * i) * (b.toNat % 128) < 2 ^ (7 * (i + 1)) := by
      have hle : 2 ^ (7 * i) * (b.toNat % 128 + 1) ≤ 2 ^ (7 * i) * 128 :=
        Nat.mul_le_mul_left _ (Nat.mod_lt _ (by decide))
      rw [Nat.mul_add, Nat.mul_one] at hle
      rw [Nat.mul_add, Nat.pow_add]
      omega
    obtain ⟨bytes', hbytes', hrun⟩ := ih hfront (rfl : [b].length = 1) hv' (by omega)
    refine ⟨bytes', hbytes', ?_⟩
    rw [List.length_cons, Nat.add_right_comm]
    refine (run_loop_again hpass).trans (hrun.trans ?_)
    rw [ofGroups]
    have hsum : v + 2 ^ (7 * i) * (b.toNat % 128) + 2 ^ (7 * (i + 1)) * ofGroups front
        = v + 2 ^ (7 * i) * (b.toNat % 128 + 128 * ofGroups front) := by
      rw [Nat.mul_add 7, Nat.pow_add]
      ring
    rw [hsum, Nat.add_right_comm i 1, Nat.add_assoc i]

/-- `decode_length` begins with the groups in front that announce another one. -/
theorem run_decodeLength_front (order : ByteOrder) {front : Bytes} (hfront : Announcing front)
    (hlen : front.length ≤ 10) (rest : Bytes) (ending : Option Error) :
    ∃ bytes : Bytes, bytes.length = 1 ∧
      (decodeLength order).run (⟨front ++ rest, ending⟩ : Feed)
        = (loop .spin (decodeLengthPass order) (10 - front.length + 1)
            (front.length, bytes, BitVec.ofNat 64 (ofGroups front))).run ⟨rest, ending⟩ := by
  obtain ⟨bytes, hbytes, hrun⟩ := run_announcing order hfront rest ending
    (10 - front.length + 1) (i := 0) (v := 0) (rfl : ([0] : Bytes).length = 1) (by decide)
    (by omega)
  refine ⟨bytes, hbytes, ?_⟩
  have hfuel : maxVarintBytes + 1 = front.length + (10 - front.length + 1) := by
    show 11 = _
    omega
  unfold decodeLength
  rw [hfuel]
  refine hrun.trans ?_
  rw [Nat.zero_add, Nat.zero_add, Nat.pow_zero, Nat.one_mul]

/-- **`decode_length`** on a stream that begins with an integer of at most ten bytes: its
value, cut to 64 bits. -/
theorem run_decodeLength_terminated (order : ByteOrder) {vs : Bytes} (h : Terminated vs)
    (hlen : vs.length ≤ 10) (rest : Bytes) (ending : Option Error) :
    (decodeLength order).run (⟨vs ++ rest, ending⟩ : Feed)
      = .ok (.ok (order.ntoh64 (BitVec.ofNat 64 (ofGroups vs))), ⟨rest, ending⟩) := by
  obtain ⟨front, last, rfl, hfront, hlast⟩ := h
  rw [List.length_append, List.length_singleton] at hlen
  obtain ⟨bytes, hbytes, hrun⟩ := run_decodeLength_front order hfront (by omega)
    ([last] ++ rest) ending
  have hpass := run_decodeLengthPass order (Nat.succ_le_iff.mp hlen) hbytes
    (BitVec.ofNat 64 (ofGroups front)) last rest ending
  have hlt : ofGroups front < 2 ^ (7 * front.length) := by
    rw [Nat.pow_mul]
    exact ofGroups_lt front
  rw [if_pos hlast, Nat.mul_comm, ofNat_or_field hlt] at hpass
  rw [List.append_assoc, hrun]
  refine (run_loop_leave hpass).trans ?_
  rw [ofGroups_append, ofGroups, ofGroups, Nat.mul_zero, Nat.add_zero, Nat.pow_mul]

/-- Ten bytes that all announce another one are an error. -/
theorem run_decodeLength_announcing (order : ByteOrder) {front : Bytes}
    (hfront : Announcing front) (hlen : front.length = 10) (rest : Bytes)
    (ending : Option Error) :
    (decodeLength order).run (⟨front ++ rest, ending⟩ : Feed)
      = .ok (.error .unclassified, ⟨rest, ending⟩) := by
  obtain ⟨bytes, -, hrun⟩ := run_decodeLength_front order hfront hlen.le rest ending
  rw [hrun, hlen]
  rfl

/-- A stream that ends before the integer does. -/
theorem run_decodeLength_starved (order : ByteOrder) {bs : Bytes} (hbs : Announcing bs)
    (hlen : bs.length < 10) (ending : Option Error) :
    (decodeLength order).run (⟨bs, ending⟩ : Feed)
      = match ending with
        | none => .error .pending
        | some e => .ok (.error e, ⟨[], some e⟩) := by
  obtain ⟨bytes, hbytes, hrun⟩ := run_decodeLength_front order hbs hlen.le [] ending
  rw [List.append_nil] at hrun
  have hread : (Reader.readExact bytes).run (⟨[], ending⟩ : Feed) = _ :=
    Feed.run_readExact_of_lt (by rw [hbytes]; exact Nat.one_pos)
  rw [hrun]
  -- the next pass finds nothing to read
  cases ending with
  | none =>
    refine Prog.run_bind_of_error ?_
    unfold decodeLengthPass
    dsimp only
    rw [if_pos (show bs.length < maxVarintBytes from hlen)]
    exact Prog.run_bind_of_error hread
  | some e =>
    refine run_loop_leave ?_
    unfold decodeLengthPass
    dsimp only
    rw [if_pos (show bs.length < maxVarintBytes from hlen), Prog.run_bind_of_ok hread]
    rfl

/-- What `encode_length` writes is read off the stream again. -/
theorem run_decodeLength (order : ByteOrder) (value : BitVec 64) (rest : Bytes)
    (ending : Option Error) :
    (decodeLength order).run (⟨varint value.toNat ++ rest, ending⟩ : Feed)
      = .ok (.ok (order.ntoh64 value), ⟨rest, ending⟩) := by
  have hlt : value.toNat < 2 ^ (7 * 10) := Nat.lt_trans value.isLt (by decide)
  rw [run_decodeLength_terminated order (terminated_varint _) (length_varint_le hlt (by decide)),
    ofGroups_varint, BitVec.ofNat_toNat, BitVec.setWidth_eq]

/-! ## One message -/

/-- **`encode`** on an ideal writer. -/
theorem run_encode (order : ByteOrder) (message : Bytes) (s : Record) :
    (encode order message).run s
      = .ok (.ok (), ⟨s.written ++ frame order message, s.written ++ frame order message⟩) :=
  run_encodePrefixed (run_encodeLength order _ s)

/-- **`decode`** on an ideal reader, at the beginning of a frame. -/
theorem run_decode (order : ByteOrder) {message : Bytes} (h : message.length ≤ maxSize)
    (rest dst : Bytes) (ending : Option Error) :
    (decode order dst).run (⟨frame order message ++ rest, ending⟩ : Feed)
      = .ok ((message, .ok ()), ⟨rest, ending⟩) := by
  unfold frame
  rw [List.append_assoc]
  refine run_decodePrefixed (run_decodeLength order _ _ _) ?_ h
  rw [ByteOrder.ntoh64_hton64, BitVec.toNat_ofNat, Nat.mod_eq_of_lt]
  exact Nat.lt_of_le_of_lt h (by decide)

/-! ## The buffered ends -/

theorem encodeLengthPass_simulates (value : BitVec 64) :
    Simulates Backs Eq (encodeLengthPass value : Task BufWriter _)
      (encodeLengthPass value : Task Record _) := by
  have hone : ∀ b : Byte, List.length [b] ≤ intMax := fun _ => (by decide : 1 ≤ intMax)
  refine (write_simulates (hone _)).bind fun a b hab => ?_
  rcases hab.cases with ⟨n, m, rfl, rfl⟩ | ⟨e, rfl, rfl⟩
  · exact Simulates.ite (Simulates.pure rfl) (Simulates.pure rfl)
  · exact Simulates.pure rfl

theorem encode_simulates (order : ByteOrder) {message : Bytes} (h : message.length ≤ intMax) :
    Simulates Backs Eq (encode order message : Task BufWriter _)
      (encode order message : Task Record _) :=
  encodePrefixed_simulates
    (fun value => Simulates.loop encodeLengthPass_simulates _ (order.hton64 value))
    (write_simulates h) flush_simulates

theorem decodeLengthPass_simulates (order : ByteOrder) (p : Nat × Bytes × BitVec 64) :
    Simulates Serves Eq (decodeLengthPass order p : Task BufReader _)
      (decodeLengthPass order p : Task Feed _) := by
  obtain ⟨i, bytes, value⟩ := p
  refine Simulates.ite ?_ (Simulates.pure rfl)
  refine (readExact_simulates bytes).bind_eq ?_
  rintro ⟨bytes, e | _⟩
  · exact Simulates.pure rfl
  · exact Simulates.ite (Simulates.pure rfl) (Simulates.pure rfl)

theorem decode_simulates (order : ByteOrder) (message : Bytes) :
    Simulates Serves Eq (decode order message : Task BufReader _)
      (decode order message : Task Feed _) :=
  decodePrefixed_simulates readExact_simulates
    (Simulates.loop (decodeLengthPass_simulates order) _ _) message

/-! ## Runs of messages -/

/-- What a sequence of messages looks like on the wire. -/
def wire (order : ByteOrder) (messages : List Bytes) : Bytes := messages.flatMap (frame order)

/-- Encode the messages in turn. -/
def encodeAll [Writer ω] (order : ByteOrder) : List Bytes → Task ω (List (Result Unit))
  | [] => pure []
  | message :: messages => do
    let ret ← encode order message
    let rets ← encodeAll order messages
    pure (ret :: rets)

/-- A completed decode: the string, the result, and the reader as it was left. -/
structure Decoded (ρ : Type) where
  message : Bytes
  ret : Result Unit
  reader : ρ

/-- Decode into the given strings in turn. -/
def decodeAll [Reader ρ] (order : ByteOrder) : List Bytes → Task ρ (List (Decoded ρ))
  | [] => pure []
  | dst :: dsts => do
    let (message, ret) ← decode order dst
    let reader ← get
    let steps ← decodeAll order dsts
    pure (⟨message, ret, reader⟩ :: steps)

/-- Through a buffered writer, the frames go out in order and none stays behind. -/
theorem encodeAll_run (order : ByteOrder) {messages : List Bytes}
    (h : ∀ m ∈ messages, m.length ≤ intMax) {w : BufWriter} {s : Record} (hw : Backs w s)
    (hs : s.flushed = s.written) :
    ∃ w', (encodeAll order messages).run w = .ok (messages.map fun _ => .ok (), w') ∧
      w'.io.taken = s.written ++ wire order messages := by
  induction messages generalizing w s with
  | nil => exact ⟨w, rfl, by rw [hw.taken_eq hs]; exact (List.append_nil _).symm⟩
  | cons m ms ih =>
    -- `encode` ends with a flush, so the next message starts on an empty buffer
    obtain ⟨_, w₁, hrun, rfl, hw₁⟩ :=
      encode_simulates order (h m List.mem_cons_self) w s hw _ _ (run_encode order m s)
    obtain ⟨w', hrun', htaken⟩ := ih (fun m' hm' => h m' (List.mem_cons_of_mem _ hm')) hw₁ rfl
    refine ⟨w', ?_, ?_⟩
    · unfold encodeAll
      rw [Prog.run_bind_of_ok hrun, Prog.run_bind_of_ok hrun']
      rfl
    · rw [htaken, List.append_assoc]
      rfl

/-- A buffered reader at the beginning of a frame. -/
theorem decode_run (order : ByteOrder) {message : Bytes} (h : message.length ≤ maxSize)
    {r : BufReader} (hr : r.Sound) {rest : Bytes} (hun : r.unread = frame order message ++ rest)
    (dst : Bytes) :
    ∃ r', (decode order dst).run r = .ok ((message, .ok ()), r') ∧ r'.Sound ∧ r'.unread = rest := by
  obtain ⟨_, r', hrun, rfl, hs, hun', -⟩ :=
    decode_simulates order dst r ⟨_, none⟩ ⟨hr, hun, rfl⟩ _ _ (run_decode order h rest dst none)
  exact ⟨r', hrun, hs, hun'⟩

/-- Through a buffered reader, the messages come back in order. -/
theorem decodeAll_run (order : ByteOrder) {messages : List Bytes}
    (h : ∀ m ∈ messages, m.length ≤ maxSize) {r : BufReader} (hr : r.Sound)
    (hun : r.unread = wire order messages) {dsts : List Bytes}
    (hdsts : dsts.length = messages.length) :
    ∃ steps r', (decodeAll order dsts).run r = .ok (steps, r') ∧
      steps.map (·.message) = messages ∧ (∀ step ∈ steps, step.ret = .ok ()) ∧
      steps.map (·.reader.unread) = messages.tails.tail.map (wire order) := by
  induction messages generalizing r dsts with
  | nil =>
    obtain rfl := List.length_eq_zero_iff.mp hdsts
    refine ⟨[], r, rfl, rfl, ?_, rfl⟩
    rintro step hstep
    cases hstep
  | cons m ms ih =>
    obtain ⟨dst, dsts, rfl⟩ := List.exists_cons_of_length_eq_add_one hdsts
    obtain ⟨r₁, hrun, hr₁, hun₁⟩ := decode_run order (h m List.mem_cons_self) hr hun dst
    obtain ⟨steps, r', hrun', hmsgs, hrets, hbounds⟩ :=
      ih (fun m' hm' => h m' (List.mem_cons_of_mem _ hm')) hr₁ hun₁ (Nat.succ.inj hdsts)
    refine ⟨⟨m, .ok (), r₁⟩ :: steps, r', ?_, ?_, ?_, ?_⟩
    · unfold decodeAll
      rw [Prog.run_bind_of_ok hrun]
      dsimp only
      rw [Prog.run_bind_of_ok (Prog.run_get _), Prog.run_bind_of_ok hrun']
      rfl
    · exact congrArg (m :: ·) hmsgs
    · intro step hstep
      rcases List.mem_cons.mp hstep with rfl | hstep
      · rfl
      · exact hrets step hstep
    · rw [List.map_cons, hbounds, hun₁]
      cases ms <;> rfl

/-- **Messages survive the socket**: encoded in turn through a buffered writer, cut
into chunks anywhere, and decoded as many times through a buffered reader, they
come back the same and in order, and each decode stops where the next frame
begins. -/
theorem decode_encode_session (order : ByteOrder) (messages : List Bytes)
    (hmessages : ∀ m ∈ messages, m.length < 2 ^ 31) (wsize rsize : Nat) (hwsize : wsize ≤ intMax)
    (hrsize : rsize ≤ intMax) (io : Outlet) (hio : io.Willing) (htaken : io.taken = [])
    (dsts : List Bytes) (hdsts : dsts.length = messages.length) :
    ∃ w, (encodeAll order messages).run (BufWriter.new io wsize)
        = .ok (messages.map fun _ => .ok (), w) ∧
      w.io.taken = wire order messages ∧
      ∀ chunks : List Bytes, (∀ c ∈ chunks, c ≠ []) → chunks.flatten = w.io.taken →
        ∃ steps r, (decodeAll order dsts).run (BufReader.new (Inlet.ofChunks chunks) rsize)
            = .ok (steps, r) ∧
          steps.map (·.message) = messages ∧ (∀ step ∈ steps, step.ret = .ok ()) ∧
          steps.map (·.reader.unread) = messages.tails.tail.map (wire order) := by
  have hle : ∀ m ∈ messages, m.length ≤ intMax := fun m hm => Nat.le_pred_of_lt (hmessages m hm)
  have hnew : Backs (BufWriter.new io wsize) Record.blank := by
    refine ⟨BufWriter.sound_new (fun i => Or.inl (hio i)) hwsize, hio, ?_, List.nil_prefix⟩
    rw [BufWriter.out_of_laid (StreamBuffer.laid_new hwsize), List.append_nil]
    exact htaken
  obtain ⟨w, hrun, hwire⟩ := encodeAll_run order hle hnew rfl
  refine ⟨w, hrun, hwire, fun chunks hchunks hflat => ?_⟩
  refine decodeAll_run order (fun m hm => Nat.le_trans (hle m hm) (by decide))
    (BufReader.sound_new (Inlet.flowing_ofChunks hchunks) hrsize) ?_ hdsts
  rw [BufReader.unread_new hrsize, Inlet.undelivered_ofChunks, hflat, hwire]
  rfl

/-- Two messages and an empty one, through buffers smaller than a frame. -/
theorem decode_encode_session_small :
    ∃ w, (encodeAll .littleEndian [[1, 2, 3], [], [4]]).run (BufWriter.new Outlet.steady 2)
        = .ok ([[1, 2, 3], [], [4]].map fun _ => .ok (), w) ∧
      w.io.taken = wire .littleEndian [[1, 2, 3], [], [4]] ∧
      ∀ chunks : List Bytes, (∀ c ∈ chunks, c ≠ []) → chunks.flatten = w.io.taken →
        ∃ steps r, (decodeAll .littleEndian [[], [], []]).run
            (BufReader.new (Inlet.ofChunks chunks) 3) = .ok (steps, r) ∧
          steps.map (·.message) = [[1, 2, 3], [], [4]] ∧ (∀ step ∈ steps, step.ret = .ok ()) ∧
          steps.map (·.reader.unread)
            = [[1, 2, 3], [], [4]].tails.tail.map (wire .littleEndian) :=
  decode_encode_session .littleEndian _ (by decide) 2 3 (by decide) (by decide) Outlet.steady
    Outlet.willing_steady rfl [[], [], []] rfl

end Uvio.Codec.LengthDelimited
