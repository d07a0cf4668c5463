import Uvio.Io.BufReader
import Uvio.Io.BufWriter
import Uvio.Net.Endian

/-!
# `Codec`

A codec is a template over the `Reader` it decodes from and the `Writer` it
encodes to. Here these are two classes, each with an ideal member next to the
buffered one:

- `Feed`: a byte stream, of which `read_exact` takes the next bytes and
  `read_until` everything through the first flag.
- `Record`: the bytes written so far, and how many of them were flushed.

A codec is verified over the ideal ends. `readExact_simulates`,
`write_simulates` and `flush_simulates` carry what holds
there over to the buffered ends, for any capacity and any way the socket cuts the
stream.

The two length-prefixed codecs differ in how they write the prefix and in
nothing else: `decodePrefixed`, `encodePrefixed`.
-/

namespace Uvio.Codec

open Program Io

/-- What the codecs ask of a `Reader`. -/
class Reader (ρ : Type) where
  readExact (buf : Bytes) : Task ρ (Bytes × Result Unit)
  readUntil (buf endFlag : Bytes) : Task ρ (Bytes × Result Nat)

/-- What the codecs ask of a `Writer`. -/
class Writer (ω : Type) where
  write (buf : Bytes) : Task ω (Result Nat)
  flush : Task ω (Result Unit)

instance : Reader BufReader := ⟨BufReader.readExact, BufReader.readUntil⟩

instance : Writer BufWriter := ⟨BufWriter.write, BufWriter.flush⟩

/-! ## The ideal ends -/

/-- A byte stream and how it ends: with an error, or open, so that a reader that
asks for more than there is waits for ever. -/
structure Feed where
  unread : Bytes
  ending : Option Error
deriving DecidableEq, Repr

namespace Feed

/-- The outcome of a read for which there are not enough bytes. -/
def starve {α : Type} (buf : Bytes) : Task Feed (Bytes × Result α) := fun s =>
  match s.ending with
  | none => .error .pending
  | some e => .ok ((buf, .error e), s)

/-- `read_exact(buf)`. -/
def readExact (buf : Bytes) : Task Feed (Bytes × Result Unit) := fun s =>
  if buf.length ≤ s.unread.length then
    .ok ((s.unread.take buf.length, .ok ()), { s with unread := s.unread.drop buf.length })
  else starve buf s

/-- `read_until(buf, end_flag)`. -/
def readUntil (buf endFlag : Bytes) : Task Feed (Bytes × Result Nat) := fun s =>
  match find endFlag s.unread with
  | some pos =>
    let slice := s.unread.take (pos + endFlag.length)
    .ok ((buf ++ slice, .ok (buf ++ slice).length),
      { s with unread := s.unread.drop (pos + endFlag.length) })
  | none => starve buf s

instance : Reader Feed := ⟨Feed.readExact, Feed.readUntil⟩

theorem run_readExact_of_le {buf : Bytes} {s : Feed} (h : buf.length ≤ s.unread.length) :
    (Reader.readExact buf : Task Feed _).run s = .ok ((s.unread.take buf.length, .ok ()),
      { s with unread := s.unread.drop buf.length }) :=
  if_pos h

theorem run_readExact_of_lt {buf : Bytes} {s : Feed} (h : s.unread.length < buf.length) :
    (Reader.readExact buf : Task Feed _).run s = (starve buf).run s :=
  if_neg (Nat.not_le.mpr h)

/-- `read_exact` of what is in front. -/
theorem run_readExact {buf bs rest : Bytes} {ending : Option Error}
    (h : bs.length = buf.length) :
    (Reader.readExact buf : Task Feed _).run ⟨bs ++ rest, ending⟩
      = .ok ((bs, .ok ()), ⟨rest, ending⟩) := by
  rw [run_readExact_of_le (by rw [List.length_append]; omega)]
  dsimp only
  rw [← h, List.take_left, List.drop_left]

/-- Whatever `read_exact` does, its destination keeps its size; it stops only to wait. -/
theorem readExact_length (buf : Bytes) (s : Feed) :
    Meets (Reader.readExact buf) s (fun out _ => out.1.length = buf.length)
      fun e => e = .pending := by
  by_cases h : buf.length ≤ s.unread.length
  · exact (meets_of_ok (run_readExact_of_le h)).mpr (List.length_take_of_le h)
  · have hrun := run_readExact_of_lt (Nat.lt_of_not_le h)
    obtain ⟨unread, ending⟩ := s
    cases ending with
    | none => exact (meets_of_error hrun).mpr rfl
    | some e => exact (meets_of_ok hrun).mpr rfl

theorem run_readUntil_of_some {buf endFlag : Bytes} {s : Feed} {pos : Nat}
    (h : find endFlag s.unread = some pos) :
    (Reader.readUntil buf endFlag : Task Feed _).run s
      = .ok ((buf ++ s.unread.take (pos + endFlag.length),
          .ok (buf ++ s.unread.take (pos + endFlag.length)).length),
        { s with unread := s.unread.drop (pos + endFlag.length) }) := by
  show (match find endFlag s.unread with
    | some pos => _
    | none => _ : Except Stop _) = _
  rw [h]

theorem run_readUntil_of_none {buf endFlag : Bytes} {s : Feed}
    (h : find endFlag s.unread = none) :
    (Reader.readUntil buf endFlag : Task Feed _).run s = (starve buf).run s := by
  show (match find endFlag s.unread with
    | some pos => _
    | none => _ : Except Stop _) = _
  rw [h]
  rfl

/-- `read_until` of a front that ends with the first flag. -/
theorem run_readUntil {buf endFlag bs rest : Bytes} {ending : Option Error} {pos : Nat}
    (h : find endFlag (bs ++ rest) = some pos) (hlen : bs.length = pos + endFlag.length) :
    (Reader.readUntil buf endFlag : Task Feed _).run ⟨bs ++ rest, ending⟩
      = .ok ((buf ++ bs, .ok (buf ++ bs).length), ⟨rest, ending⟩) := by
  rw [run_readUntil_of_some h]
  dsimp only
  rw [← hlen, List.take_left, List.drop_left]

end Feed

/-- What was written, and what of it was flushed. -/
structure Record where
  written : Bytes
  flushed : Bytes
deriving DecidableEq, Repr

namespace Record

/-- Nothing written yet. -/
def blank : Record := ⟨[], []⟩

instance : Writer Record where
  write buf := fun s => .ok (.ok buf.length, { s with written := s.written ++ buf })
  flush := fun s => .ok (.ok (), { s with flushed := s.written })

@[simp] theorem run_write (buf : Bytes) (s : Record) :
    (Writer.write buf : Task Record _).run s
      = .ok (.ok buf.length, { s with written := s.written ++ buf }) := rfl

@[simp] theorem run_flush (s : Record) :
    (Writer.flush : Task Record _).run s = .ok (.ok (), { s with flushed := s.written }) := rfl

@[simp] theorem meets_write (buf : Bytes) (s : Record) (Q : Result Nat → Record → Prop)
    (E : Stop → Prop) :
    Meets (Writer.write buf) s Q E ↔
      Q (.ok buf.length) { s with written := s.written ++ buf } := Iff.rfl

end Record

/-! ## The buffered ends behave as the ideal ones -/

/-- The reader has the same bytes to hand over as the feed. -/
structure Serves (r : BufReader) (s : Feed) : Prop where
  sound : r.Sound
  unread : r.unread = s.unread
  ending : s.ending = none

theorem readExact_simulates (buf : Bytes) :
    Simulates Serves Eq (Reader.readExact buf : Task BufReader _)
      (Reader.readExact buf : Task Feed _) := by
  rintro r ⟨unread, ending⟩ ⟨hs, hun, rfl⟩ out s' hrun
  dsimp only at hun
  have hlen : buf.length ≤ unread.length := by
    by_contra hlt
    rw [Feed.run_readExact_of_lt (Nat.lt_of_not_le hlt)] at hrun
    cases hrun
  have htake : (unread.take buf.length).length = buf.length := List.length_take_of_le hlen
  rw [Feed.run_readExact_of_le hlen] at hrun
  cases hrun
  -- there is enough to read, so the reader does not wait
  have hspec := (BufReader.readExact_meets hs buf).mono (fun _ _ h => h)
    fun e h => show False by
      rw [hun] at h
      omega
  obtain ⟨⟨dst, ret⟩, r', hr, rfl, hdst, hun', hs', -⟩ := hspec.returns
  dsimp only at hdst hun'
  rw [hun, ← List.take_append_drop buf.length unread] at hun'
  obtain ⟨rfl, hrest⟩ := List.append_inj hun' (htake.trans hdst.symm)
  exact ⟨_, r', hr, rfl, hs', hrest.symm, rfl⟩

/-- The writer accepted the same bytes as the record and loses none of them, and
what the record has flushed has left the buffer. -/
structure Backs (w : BufWriter) (s : Record) : Prop where
  sound : w.Sound
  willing : w.io.Willing
  out : w.out = s.written
  taken : s.flushed <+: w.io.taken

/-- The same outcome, but for the count. -/
def SameOutcome (a b : Result Nat) : Prop := a.map (fun _ => ()) = b.map fun _ => ()

theorem SameOutcome.cases {a b : Result Nat} (h : SameOutcome a b) :
    (∃ n m, a = .ok n ∧ b = .ok m) ∨ ∃ e, a = .error e ∧ b = .error e := by
  unfold SameOutcome at h
  cases a with
  | ok n =>
    cases b with
    | ok m => exact Or.inl ⟨n, m, rfl, rfl⟩
    | error e => cases h
  | error e =>
    cases b with
    | ok m => cases h
    | error e' =>
      cases h
      exact Or.inr ⟨e, rfl, rfl⟩

theorem write_simulates {buf : Bytes} (hbuf : buf.length ≤ intMax) :
    Simulates Backs SameOutcome (Writer.write buf : Task BufWriter _)
      (Writer.write buf : Task Record _) := by
  rintro w s ⟨hs, hwill, hout, htaken⟩ ret s' hrun
  cases hrun
  obtain ⟨ret, w', hw, hs', hplan, htaken', hret⟩ := (BufWriter.write_meets hs hbuf).returns
  rcases hret with ⟨⟨n, rfl⟩, hout'⟩ | ⟨-, -, hnot⟩
  · refine ⟨_, w', hw, rfl, hs', hwill.of_plan hplan, ?_, htaken.trans htaken'⟩
    rw [hout', hout]
  · exact absurd hwill hnot

theorem flush_simulates :
    Simulates Backs Eq (Writer.flush : Task BufWriter _) (Writer.flush : Task Record _) := by
  rintro w s ⟨hs, hwill, hout, -⟩ ret s' hrun
  cases hrun
  obtain ⟨ret, w', hw, hs', hplan, hout', hret⟩ := (BufWriter.flush_meets hs).returns
  rcases hret with ⟨rfl, hempty⟩ | ⟨-, hnot⟩
  · refine ⟨_, w', hw, rfl, hs', hwill.of_plan hplan, hout'.trans hout, ?_⟩
    have : w'.io.taken = s.written := by
      rw [← hout, ← hout', BufWriter.out, hempty, List.append_nil]
    exact this ▸ List.prefix_rfl
  · exact absurd hwill hnot

/-- Once everything is flushed, the wire has exactly what was written. -/
theorem Backs.taken_eq {w : BufWriter} {s : Record} (h : Backs w s) (hs : s.flushed = s.written) :
    w.io.taken = s.written := by
  have hpre : w.io.taken <+: s.written := h.out ▸ List.prefix_append _ _
  have hsuf : s.written <+: w.io.taken := hs ▸ h.taken
  exact hpre.eq_of_length_le hsuf.length_le

/-! ## Length-prefixed messages -/

section Prefixed

variable {ρ ω : Type} {w : Nat}

/-- `decode(message, reader)`, given the codec's `decode_length`: the message
afterwards and the result. -/
def decodePrefixed [Reader ρ] (decodeLength : Task ρ (Result (BitVec w))) (message : Bytes) :
    Task ρ (Bytes × Result Unit) := do
  match ← decodeLength with
  | .error e => pure (message, .error e)
  | .ok length => do
    let message ← resize message length.toNat
    let (message, ret) ← Reader.readExact message
    match ret with
    | .error e => pure (message, .error e)
    | .ok () => pure (message, .ok ())

/-- `encode(message, writer)`, given the codec's `encode_length`. -/
def encodePrefixed [Writer ω] (encodeLength : BitVec w → Task ω (Result Unit)) (message : Bytes) :
    Task ω (Result Unit) := do
  match ← encodeLength (BitVec.ofNat w message.length) with
  | .error e => pure (.error e)
  | .ok () =>
    match ← Writer.write message with
    | .error e => pure (.error e)
    | .ok _ =>
      match ← Writer.flush with
      | .error e => pure (.error e)
      | .ok () => pure (.ok ())

/-- An ideal write of the prefix and the message. -/
theorem run_encodePrefixed {encodeLength : BitVec w → Task Record (Result Unit)}
    {message header : Bytes} {s : Record}
    (h : (encodeLength (BitVec.ofNat w message.length)).run s
      = .ok (.ok (), { s with written := s.written ++ header })) :
    (encodePrefixed encodeLength message).run s
      = .ok (.ok (), ⟨s.written ++ (header ++ message), s.written ++ (header ++ message)⟩) := by
  unfold encodePrefixed
  rw [Prog.run_bind_of_ok h]
  dsimp only
  rw [Prog.run_bind_of_ok (Record.run_write _ _)]
  dsimp only
  rw [Prog.run_bind_of_ok (Record.run_flush _), List.append_assoc]
  rfl

/-- An ideal read of a message whose prefix was read right. -/
theorem run_decodePrefixed {decodeLength : Task Feed (Result (BitVec w))}
    {header message rest dst : Bytes} {ending : Option Error} {length : BitVec w}
    (h : decodeLength.run ⟨header ++ (message ++ rest), ending⟩
      = .ok (.ok length, ⟨message ++ rest, ending⟩))
    (hlength : length.toNat = message.length) (hmax : message.length ≤ maxSize) :
    (decodePrefixed decodeLength dst).run ⟨header ++ (message ++ rest), ending⟩
      = .ok ((message, .ok ()), ⟨rest, ending⟩) := by
  unfold decodePrefixed
  rw [Prog.run_bind_of_ok h]
  dsimp only
  obtain ⟨dst', hdst, hresize⟩ := run_resize dst hmax (⟨message ++ rest, ending⟩ : Feed)
  rw [hlength, Prog.run_bind_of_ok hresize, Prog.run_bind_of_ok (Feed.run_readExact hdst.symm)]
  rfl

/-- A message that is decoded is as long as a prefix can say. -/
theorem decodePrefixed_length (decodeLength : Task Feed (Result (BitVec w))) (dst : Bytes)
    (s : Feed) :
    Meets (decodePrefixed decodeLength dst) s
      (fun out _ => out.2 = .ok () → out.1.length < 2 ^ w) fun _ => True := by
  unfold decodePrefixed
  refine (Meets.trivial _ s).bind (fun _ h => h) ?_
  rintro (e | length) s₁ -
  · exact fun h => nomatch h
  · refine (resize_length dst _ s₁).bind (fun _ _ => True.intro) ?_
    rintro message s₂ ⟨hlen, -⟩
    refine (Feed.readExact_length message s₂).bind (fun _ _ => True.intro) ?_
    rintro ⟨message', e | _⟩ s₃ hlen'
    · exact fun h => nomatch h
    · intro _
      rw [hlen', hlen]
      exact length.isLt

theorem decodePrefixed_simulates {τ : Type} [Reader ρ] [Reader τ] {R : ρ → τ → Prop}
    (hread : ∀ buf,
      Simulates R Eq (Reader.readExact buf : Task ρ _) (Reader.readExact buf : Task τ _))
    {x : Task ρ (Result (BitVec w))} {y : Task τ (Result (BitVec w))} (h : Simulates R Eq x y)
    (message : Bytes) :
    Simulates R Eq (decodePrefixed x message) (decodePrefixed y message) := by
  refine h.bind_eq ?_
  rintro (e | length)
  · exact Simulates.pure rfl
  · refine (resize_simulates message _).bind_eq fun message => ?_
    refine (hread message).bind_eq ?_
    rintro ⟨message, e | _⟩
    · exact Simulates.pure rfl
    · exact Simulates.pure rfl

theorem encodePrefixed_simulates {τ : Type} [Writer ω] [Writer τ] {R : ω → τ → Prop}
    {x : BitVec w → Task ω (Result Unit)} {y : BitVec w → Task τ (Result Unit)} {message : Bytes}
    (h : ∀ n, Simulates R Eq (x n) (y n))
    (hwrite : Simulates R SameOutcome (Writer.write message : Task ω _)
      (Writer.write message : Task τ _))
    (hflush : Simulates R Eq (Writer.flush : Task ω _) (Writer.flush : Task τ _)) :
    Simulates R Eq (encodePrefixed x message) (encodePrefixed y message) := by
  refine (h _).bind_eq ?_
  rintro (e | _)
  · exact Simulates.pure rfl
  · refine hwrite.bind fun a b hab => ?_
    rcases hab.cases with ⟨n, m, rfl, rfl⟩ | ⟨e, rfl, rfl⟩
    · refine hflush.bind_eq ?_
      rintro (e | _)
      · exact Simulates.pure rfl
      · exact Simulates.pure rfl
    · exact Simulates.pure rfl

end Prefixed

end Uvio.Codec
