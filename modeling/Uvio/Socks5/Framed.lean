import Uvio.Codec.Http
import Uvio.Codec.Ends

/-!
# `Socks5Framed`

The server's side of a SOCKS5 conversation: the choice of a method, the request and
the reply. None of them looks at what `read_exact`, `write` and `flush` return.

They are written for any state with a reader and a writer. `Socks5Framed` is such a
state, made of one of each.

- `readRequest_bisimilar`: readers that act alike are read the same request from.
-/

namespace Uvio.Socks5

open Program Io Codec Net

/-- `Socks5Framed::Cmd`. -/
inductive Cmd where
  | connect
  | bind
  | udpAssociate
deriving DecidableEq, Repr

/-- The command a byte stands for. -/
def Cmd.ofByte (b : Byte) : Option Cmd :=
  if b = 1 then some .connect
  else if b = 2 then some .bind
  else if b = 3 then some .udpAssociate
  else none

/-- `Socks5Framed::Request`. -/
structure Request where
  cmd : Cmd
  addr : Bytes
  port : Nat
deriving DecidableEq, Repr

/-- `Socks5Framed`: the buffered halves of its stream. -/
structure Socks5Framed (ρ ω : Type) where
  bufferedReader : ρ
  bufferedWriter : ω

section Ends

variable {ρ ω : Type}

/-- A call on `buffered_reader_`. -/
def onReader {α : Type} (x : Task ρ α) : Task (Socks5Framed ρ ω) α :=
  Prog.zoom Socks5Framed.bufferedReader (fun s r => { s with bufferedReader := r }) x

/-- A call on `buffered_writer_`. -/
def onWriter {α : Type} (x : Task ω α) : Task (Socks5Framed ρ ω) α :=
  Prog.zoom Socks5Framed.bufferedWriter (fun s w => { s with bufferedWriter := w }) x

instance [Reader ρ] : Reader (Socks5Framed ρ ω) where
  readExact buf := onReader (Reader.readExact buf)
  readUntil buf endFlag := onReader (Reader.readUntil buf endFlag)

instance [Writer ω] : Writer (Socks5Framed ρ ω) where
  write buf := onWriter (Writer.write buf)
  flush := onWriter Writer.flush

end Ends

/-! ## The code -/

/-- `std::vector<char> v(n)`, the size being a `char`. -/
def charVector {σ : Type} (n : Byte) : Task σ Bytes := resize [] (castSize (charToInt n).toInt)

/-- `ntoh16(bytes2[0] | bytes2[1] << 8)`, of which the `uint16_t port` keeps 16 bits. -/
def portOf (order : ByteOrder) (bytes2 : Bytes) : Nat :=
  (order.ntoh16 ((charToInt (bytes2.getD 0 0) ||| charToInt (bytes2.getD 1 0) <<< 8).setWidth
    16)).toNat

/-- `ip_to_string(ipv4)`. -/
def ipToString (ipv4 : Bytes) : Bytes :=
  Http.decimal (ipv4.getD 0 0).toNat ++ ascii "." ++ Http.decimal (ipv4.getD 1 0).toNat ++ ascii "."
    ++ Http.decimal (ipv4.getD 2 0).toNat ++ ascii "." ++ Http.decimal (ipv4.getD 3 0).toNat

variable {σ : Type}

section Code

variable [Reader σ] [Writer σ]

/-- `auth_methods()`. -/
def authMethods : Task σ (Result Unit) := do
  let (bytes2, _) ← Reader.readExact [0, 0]
  if bytes2.getD 0 0 ≠ 5 then pure (.error .unclassified)
  else do
    let methods ← charVector (bytes2.getD 1 0)
    let _ ← Reader.readExact methods
    let _ ← Writer.write [5, 0]
    let _ ← Writer.flush
    pure (.ok ())

end Code

section Request

variable [Reader σ] (ndebug : Bool) (order : ByteOrder)

/-- How every address type ends: two bytes are the port. -/
def readPort (cmd : Cmd) (addr : Bytes) : Task σ (Result Request) := do
  let (bytes2, _) ← Reader.readExact [0, 0]
  pure (.ok ⟨cmd, addr, portOf order bytes2⟩)

/-- `read_request()` from the address type on. An IPv4 address is read over the four
bytes in front of it. -/
def readAddress (cmd : Cmd) (bytes4 : Bytes) : Task σ (Result Request) :=
  if bytes4.getD 3 0 = 1 then do
    let (bytes4, _) ← Reader.readExact bytes4
    readPort order cmd (ipToString bytes4)
  else if bytes4.getD 3 0 = 3 then do
    let (byte, _) ← Reader.readExact [0]
    let buf ← charVector (byte.getD 0 0)
    let (buf, _) ← Reader.readExact buf
    readPort order cmd buf
  else if bytes4.getD 3 0 = 4 then do
    -- the address is left empty
    let _ ← Reader.readExact (List.replicate 16 0)
    readPort order cmd []
  else pure (.error .unclassified)

/-- `read_request()`. -/
def readRequest : Task σ (Result Request) := do
  let (bytes4, _) ← Reader.readExact [0, 0, 0, 0]
  if bytes4.getD 0 0 ≠ 5 then pure (.error .unclassified)
  else
    match Cmd.ofByte (bytes4.getD 1 0) with
    | none => pure (.error .unclassified)
    | some cmd => do
      assertion ndebug (bytes4.getD 2 0 == 0)
      readAddress order cmd bytes4

end Request

/-- `write_reply()`, with port 0 in network order. -/
def writeReply [Writer σ] (order : ByteOrder) : Task σ (Result Unit) := do
  let _ ← Writer.write [5, 0, 0, 1]
  let _ ← Writer.write [127, 0, 0, 1]
  let port := order.hton16 0
  let _ ← Writer.write [toChar (port &&& 0xFF), toChar ((port >>> 8) &&& 0xFF)]
  let _ ← Writer.flush
  pure (.ok ())

/-- `handle_proxy(stream)`, on the framed stream. What `connect` gives is dropped. -/
def handleProxy [Reader σ] [Writer σ] (ndebug : Bool) (order : ByteOrder)
    (connect : Request → Task σ (Result Unit)) : Task σ Unit := do
  match ← authMethods with
  | .error _ => pure ()
  | .ok () =>
    match ← readRequest ndebug order with
    | .error _ => pure ()
    | .ok req =>
      match ← writeReply order with
      | .error _ => pure ()
      | .ok () =>
        match req.cmd with
        | .connect => do
          let _ ← connect req
          pure ()
        | .bind => pure ()
        | .udpAssociate => pure ()

/-! ## Vectors of a `char` size -/

theorem toInt_charToInt (c : Byte) : (charToInt c).toInt = c.toInt := by
  unfold charToInt
  exact BitVec.toInt_signExtend_of_le (by decide)

theorem castSize_charToInt (n : Byte) :
    castSize (charToInt n).toInt = if n.toNat < 128 then n.toNat else 2 ^ 64 - 256 + n.toNat := by
  have hn := n.isLt
  unfold castSize
  rw [toInt_charToInt, BitVec.toNat_ofInt, BitVec.toInt_eq_toNat_cond]
  split <;> split <;> omega

/-- A vector whose size is a `char`: a negative one is more than any vector has. -/
theorem run_charVector (n : Byte) (s : σ) :
    (charVector n : Task σ Bytes).run s =
      if n.toNat < 128 then .ok (List.replicate n.toNat 0, s) else .error .terminate := by
  have hn := n.isLt
  unfold charVector resize
  rw [castSize_charToInt]
  by_cases h : n.toNat < 128
  · rw [if_pos h, if_pos h, if_neg (by unfold maxSize; omega), List.take_nil, List.nil_append]
    rfl
  · rw [if_neg h, if_neg h, if_pos (by unfold maxSize; omega)]
    rfl

theorem charVector_bisimilar {τ : Type} {E : Stop → Prop} {R : σ → τ → Prop} (n : Byte) :
    Bisimilar E R R (fun a b => a = b ∧ a.length < 256) (charVector n : Task σ _)
      (charVector n : Task τ _) := by
  intro s t hR
  rw [run_charVector, run_charVector]
  by_cases h : n.toNat < 128
  · rw [if_pos h, if_pos h]
    refine ⟨⟨rfl, ?_⟩, hR⟩
    rw [List.length_replicate]
    omega
  · rw [if_neg h, if_neg h]
    exact Or.inl rfl

/-! ## Readers that act alike -/

section Bisimilar

variable {τ : Type} [Reader σ] [Reader τ] {E : Stop → Prop} {R : Nat → σ → τ → Prop}

/-- The two readers act alike on all reads a request takes, unless the first gives up.
States in `R (k + 1)` are good for one read more than those in `R k`. -/
structure ReadsAlike (σ τ : Type) [Reader σ] [Reader τ] (E : Stop → Prop)
    (R : Nat → σ → τ → Prop) : Prop where
  read : ∀ k (buf : Bytes), buf.length < 256 → Bisimilar E (R (k + 1)) (R k) (SameRead buf)
    (Reader.readExact buf : Task σ _) (Reader.readExact buf : Task τ _)
  less : ∀ k s t, R (k + 1) s t → R k s t

theorem readPort_bisimilar (h : ReadsAlike σ τ E R) (k : Nat) (order : ByteOrder) (cmd : Cmd)
    (addr : Bytes) :
    Bisimilar E (R (k + 1)) (R k) Eq (readPort order cmd addr : Task σ _)
      (readPort order cmd addr : Task τ _) := by
  refine (h.read k _ (by decide)).bind ?_
  rintro a _ ⟨rfl, -⟩
  exact Bisimilar.pure (fun _ _ hR => hR) rfl

theorem readAddress_bisimilar (h : ReadsAlike σ τ E R) (k : Nat) (order : ByteOrder) (cmd : Cmd)
    {bytes4 : Bytes} (h4 : bytes4.length = 4) :
    Bisimilar E (R (k + 3)) (R k) Eq (readAddress order cmd bytes4 : Task σ _)
      (readAddress order cmd bytes4 : Task τ _) := by
  refine Bisimilar.ite ?_ (Bisimilar.ite ?_ (Bisimilar.ite ?_ (Bisimilar.pure ?_ rfl)))
  · refine ((h.read (k + 1) _ (by omega)).bind ?_).mono (h.less _) fun _ _ hR => hR
    rintro a _ ⟨rfl, -⟩
    exact readPort_bisimilar h k order cmd _
  · refine (h.read (k + 2) _ (by decide)).bind ?_
    rintro a _ ⟨rfl, -⟩
    refine (charVector_bisimilar _).bind ?_
    rintro buf _ ⟨rfl, hbuf⟩
    refine (h.read (k + 1) _ hbuf).bind ?_
    rintro name _ ⟨rfl, -⟩
    exact readPort_bisimilar h k order cmd _
  · refine ((h.read (k + 1) _ (by decide)).bind ?_).mono (h.less _) fun _ _ hR => hR
    rintro a _ ⟨rfl, -⟩
    exact readPort_bisimilar h k order cmd _
  · exact fun s t hR => h.less k s t (h.less _ s t (h.less _ s t hR))

/-- Readers that act alike are read the same request from. -/
theorem readRequest_bisimilar (h : ReadsAlike σ τ E R) (k : Nat) (ndebug : Bool)
    (order : ByteOrder) :
    Bisimilar E (R (k + 4)) (R k) Eq (readRequest ndebug order : Task σ _)
      (readRequest ndebug order : Task τ _) := by
  have hless : ∀ s t, R (k + 3) s t → R k s t := fun s t hR =>
    h.less k s t (h.less _ s t (h.less _ s t hR))
  refine (h.read (k + 3) _ (by decide)).bind ?_
  rintro out _ ⟨rfl, h4⟩
  refine Bisimilar.ite (Bisimilar.pure hless rfl) ?_
  cases Cmd.ofByte (out.1.getD 1 0) with
  | none => exact Bisimilar.pure hless rfl
  | some cmd =>
    refine (assertion_bisimilar _ _).bind_eq fun _ => ?_
    exact readAddress_bisimilar h k order cmd h4

end Bisimilar

end Uvio.Socks5
