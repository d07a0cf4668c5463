import Uvio.Codec.Conversation
import Uvio.Codec.FixedLength
import Uvio.Codec.LengthDelimited

/-!
# `Channel`

`Send` and `Recv` of the channel over a `TcpStream`: a codec with a length prefix, on a
buffered reader and a buffered writer. The codec is the one with lengths of any size, or
the one with 32 bits.

- `recv_bisimilar`: readers that read alike are received from alike.
- `lawful`: both codecs are ones that a conversation may use.
- `talked`: what is sent over a channel between hosts of one byte order arrives.
-/

namespace Uvio.Channel

open Program Io Codec Net

/-- What `codec_` may be. -/
inductive ChannelCodec where
  | lengthDelimited
  | fixedLength32
deriving DecidableEq, Repr

section Calls

variable {ρ ω : Type}

/-- `codec_.Decode(message, reader)`. -/
def decode [Reader ρ] (order : ByteOrder) (message : Bytes) :
    ChannelCodec → Task ρ (Bytes × Result Unit)
  | .lengthDelimited => LengthDelimited.decode order message
  | .fixedLength32 => FixedLength.decode order message

/-- `Send(message)`. -/
def send [Writer ω] (order : ByteOrder) (message : Bytes) : ChannelCodec → Task ω (Result Unit)
  | .lengthDelimited => LengthDelimited.encode order message
  | .fixedLength32 => FixedLength.encode order message

/-- `Recv()`. -/
def recv [Reader ρ] (order : ByteOrder) (codec : ChannelCodec) : Task ρ (Result Bytes) := do
  let (message, res) ← decode order [] codec
  match res with
  | .error e => pure (.error e)
  | .ok () => pure (.ok message)

end Calls

/-- A message that a `BufWriter` counts right. -/
abbrev Message := { message : Bytes // message.length < 2 ^ 31 }

/-- A message on the wire. -/
def frame (order : ByteOrder) (message : Message) : ChannelCodec → Bytes
  | .lengthDelimited => LengthDelimited.frame order message.1
  | .fixedLength32 => FixedLength.frame order message.1

def framing (order : ByteOrder) (codec : ChannelCodec) : Framing Message where
  send message := send order message.1 codec
  recv := recv order codec
  content message := message.1
  frame message := frame order message codec

/-! ## Reading alike -/

section Bisimilar

variable {ρ τ : Type} [Reader ρ] [Reader τ] {E : Stop → Prop} {R : ρ → τ → Prop}

theorem lengthDelimited_bisimilar (h : ReadSame E R) (order : ByteOrder) (message : Bytes) :
    Bisimilar E R R Eq (LengthDelimited.decode order message : Task ρ _)
      (LengthDelimited.decode order message : Task τ _) := by
  refine h.decodePrefixed (Bisimilar.loop ?_ _ _) message
  rintro ⟨i, bytes, value⟩
  refine Bisimilar.ite ?_ (Bisimilar.pure (fun _ _ h => h) rfl)
  refine (h bytes).bind_eq ?_
  rintro ⟨bytes, e | _⟩
  · exact Bisimilar.pure (fun _ _ h => h) rfl
  · exact Bisimilar.ite (Bisimilar.pure (fun _ _ h => h) rfl) (Bisimilar.pure (fun _ _ h => h) rfl)

theorem fixedLength_bisimilar (h : ReadSame E R) (order : ByteOrder) (message : Bytes) :
    Bisimilar E R R Eq (FixedLength.decode order message : Task ρ _)
      (FixedLength.decode order message : Task τ _) := by
  refine h.decodePrefixed (Bisimilar.loop ?_ _ _) message
  rintro ⟨i, bytes, value⟩
  refine Bisimilar.ite ?_ (Bisimilar.pure (fun _ _ h => h) rfl)
  refine (h bytes).bind_eq ?_
  rintro ⟨bytes, e | _⟩
  · exact Bisimilar.pure (fun _ _ h => h) rfl
  · exact Bisimilar.pure (fun _ _ h => h) rfl

/-- Readers that read alike are received from alike. -/
theorem recv_bisimilar (h : ReadSame E R) (order : ByteOrder) (codec : ChannelCodec) :
    Bisimilar E R R Eq (recv order codec : Task ρ _) (recv order codec : Task τ _) := by
  have hdecode : Bisimilar E R R Eq (decode order [] codec : Task ρ _)
      (decode order [] codec : Task τ _) := by
    cases codec with
    | lengthDelimited => exact lengthDelimited_bisimilar h order []
    | fixedLength32 => exact fixedLength_bisimilar h order []
  refine hdecode.bind_eq ?_
  rintro ⟨message, e | _⟩
  · exact Bisimilar.pure (fun _ _ h => h) rfl
  · exact Bisimilar.pure (fun _ _ h => h) rfl

end Bisimilar

/-! ## Both codecs -/

theorem fixedLength_encode_simulates (order : ByteOrder) {message : Bytes}
    (h : message.length ≤ intMax) :
    Simulates Backs Eq (FixedLength.encode order message : Task BufWriter _)
      (FixedLength.encode order message : Task Record _) := by
  have hone : ∀ b : Byte, List.length [b] ≤ intMax := fun _ => (by decide : 1 ≤ intMax)
  refine encodePrefixed_simulates (fun value => Simulates.loop ?_ _ (0, order.hton32 value))
    (write_simulates h) flush_simulates
  rintro ⟨i, value⟩
  refine Simulates.ite ?_ (Simulates.pure rfl)
  refine (write_simulates (hone _)).bind fun a b hab => ?_
  rcases hab.cases with ⟨n, m, rfl, rfl⟩ | ⟨e, rfl, rfl⟩
  · exact Simulates.pure rfl
  · exact Simulates.pure rfl

theorem send_simulates (order : ByteOrder) (codec : ChannelCodec) (message : Message) :
    Simulates Backs Eq (send order message.1 codec : Task BufWriter _)
      (send order message.1 codec : Task Record _) := by
  have hle : message.1.length ≤ intMax := Nat.le_pred_of_lt message.2
  cases codec with
  | lengthDelimited => exact LengthDelimited.encode_simulates order hle
  | fixedLength32 => exact fixedLength_encode_simulates order hle

theorem run_send (order : ByteOrder) (codec : ChannelCodec) (message : Message) (s : Record) :
    (send order message.1 codec).run s = .ok (.ok (),
      ⟨s.written ++ frame order message codec, s.written ++ frame order message codec⟩) := by
  cases codec with
  | lengthDelimited => exact LengthDelimited.run_encode order message.1 s
  | fixedLength32 => exact FixedLength.run_encode order message.1 s

theorem run_recv (order : ByteOrder) (codec : ChannelCodec) (message : Message) (rest : Bytes) :
    (recv order codec).run (⟨frame order message codec ++ rest, none⟩ : Feed) =
      .ok (.ok message.1, ⟨rest, none⟩) := by
  have hlen := message.2
  have hdecode : (decode order [] codec).run (⟨frame order message codec ++ rest, none⟩ : Feed) =
      .ok ((message.1, .ok ()), ⟨rest, none⟩) := by
    cases codec with
    | lengthDelimited =>
      have hmax : message.1.length ≤ maxSize := Nat.le_trans hlen.le (by decide)
      exact LengthDelimited.run_decode order hmax rest [] none
    | fixedLength32 =>
      exact FixedLength.run_decode order (Nat.lt_trans hlen (by decide)) rest [] none
  exact Prog.run_bind_of_ok hdecode

theorem frame_ne_nil (order : ByteOrder) (codec : ChannelCodec) (message : Message) :
    frame order message codec ≠ [] := by
  cases codec with
  | lengthDelimited =>
    intro hnil
    obtain ⟨front, last, hvarint, -⟩ := terminated_varint
      (order.hton64 (BitVec.ofNat 64 message.1.length)).toNat
    have hheader := (List.append_eq_nil_iff.mp hnil).1
    rw [LengthDelimited.header, hvarint] at hheader
    exact List.cons_ne_nil _ _ (List.append_eq_nil_iff.mp hheader).2
  | fixedLength32 =>
    intro hnil
    have hlen := congrArg List.length (List.append_eq_nil_iff.mp hnil).1
    rw [FixedLength.header, length_toLE] at hlen
    cases hlen

/-- Both codecs are ones that a conversation may use. -/
theorem lawful (order : ByteOrder) (codec : ChannelCodec) : (framing order codec).Lawful :=
  Framing.lawful_of_ideal ⟨⟨[], by decide⟩⟩ (frame_ne_nil order codec)
    (Framing.sends_of_ideal (send_simulates order codec) (run_send order codec))
    (recv_bisimilar serves_readSame order codec)
    (fun q => recv_bisimilar (longer_readSame q) order codec) (run_recv order codec)

/-! ## Two peers -/

/-- **What is sent over a channel arrives**: in every run of `Send`s, `Recv`s and deliveries of
any size in both directions, messages come once each and in order, no call reports an
error, a `Recv` that does not come back waits for bytes, and when it does so with nothing
on the wire it has had all that was sent. Both peers have the same byte order, and the
connection takes what it is given. `Channel` has buffers of 1024 bytes; any up to `INT_MAX`
do. -/
theorem talked (order : ByteOrder) (codec : ChannelCodec) {wsize rsize : Nat}
    (hw : wsize ≤ intMax) (hr : rsize ≤ intMax) {io : Bool → Outlet}
    (hio : ∀ side, (io side).Willing) (htaken : ∀ side, (io side).taken = [])
    {past : List (Bool × LineAction Message)} {s : Talk Message}
    (h : Run (Talk.step fun _ => framing order codec) (fun _ _ => True)
      (Talk.start wsize rsize io) past s) (side : Bool) :
    Line.Arrives (framing order codec) (s side) :=
  Framing.arrives (fun _ => lawful order codec) hw hr hio htaken h side

/-- A message is sent and comes in part. -/
theorem talked_part : ∃ s : Talk Message, (s true).sent = [⟨[7], by decide⟩] ∧
    Line.Arrives (framing .bigEndian .lengthDelimited) (s true) := by
  have h : Run (Talk.step fun _ => framing .bigEndian .lengthDelimited) (fun _ _ => True)
      (Talk.start 2 2 fun _ => Outlet.steady)
      [(true, .send ⟨[7], by decide⟩), (true, .deliver 1)] _ :=
    (Run.nil.snoc trivial rfl).snoc trivial rfl
  exact ⟨_, rfl, talked .bigEndian .lengthDelimited (by decide) (by decide)
    (fun _ => Outlet.willing_steady) (fun _ => rfl) h true⟩

end Uvio.Channel
