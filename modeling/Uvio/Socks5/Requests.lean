import Uvio.Socks5.Framed

/-!
# SOCKS5 requests

What a client may ask for, how it is written, and what `read_request` makes of it.

- `readRequest_returns_iff`: a request is accepted exactly if it is one that a client
  may write, with a name of less than 128 bytes, and what it is taken for.
- `carried_iff`: when it is taken for what the client meant.
-/

namespace Uvio.Socks5

open Program Io Codec Net

/-! ## What a client may ask for -/

/-- DST.ADDR, with its ATYP. -/
inductive Address where
  | ipv4 (a b c d : Byte)
  | domain (name : Bytes) (short : name.length < 256)
  | ipv6 (bytes : Vector Byte 16)

/-- A request of a client. -/
structure Query where
  cmd : Cmd
  reserved : Byte
  address : Address
  port : BitVec 16

/-- CMD. -/
def Cmd.toByte : Cmd → Byte
  | .connect => 1
  | .bind => 2
  | .udpAssociate => 3

/-- ATYP. -/
def Address.type : Address → Byte
  | .ipv4 .. => 1
  | .domain .. => 3
  | .ipv6 _ => 4

@[simp] theorem Address.type_ipv4 (a b c d : Byte) : (Address.ipv4 a b c d).type = 1 := rfl

@[simp] theorem Address.type_domain (name : Bytes) (short : name.length < 256) :
    (Address.domain name short).type = 3 := rfl

@[simp] theorem Address.type_ipv6 (bytes : Vector Byte 16) : (Address.ipv6 bytes).type = 4 := rfl

/-- DST.ADDR; a name has its length in front. -/
def Address.encode : Address → Bytes
  | .ipv4 a b c d => [a, b, c, d]
  | .domain name _ => BitVec.ofNat 8 name.length :: name
  | .ipv6 bytes => bytes.toList

/-- DST.PORT, in network order. -/
def portBytes (port : BitVec 16) : Bytes := (toLE 2 port.toNat).reverse

/-- The request as it is written. -/
def Query.encode (q : Query) : Bytes :=
  [5, q.cmd.toByte, q.reserved, q.address.type] ++ (q.address.encode ++ portBytes q.port)

/-! ## What the server makes of it -/

/-- The address the server takes it for. -/
def Address.asRead : Address → Bytes
  | .ipv4 a b c d => ipToString [a, b, c, d]
  | .domain name _ => name
  | .ipv6 _ => []

/-- The request the server takes it for. -/
def Query.asRead (order : ByteOrder) (q : Query) : Request :=
  ⟨q.cmd, q.address.asRead, portOf order (portBytes q.port)⟩

/-- A name whose length is not negative as a `char`. -/
def Address.Readable : Address → Prop
  | .domain name _ => name.length < 128
  | _ => True

/-- The server gets to the end of it. -/
def Query.Readable (ndebug : Bool) (q : Query) : Prop :=
  (ndebug = true ∨ q.reserved = 0) ∧ q.address.Readable

/-! ## Reading from a stream that does not end -/

theorem ofByte_eq_some_iff {b : Byte} {cmd : Cmd} : Cmd.ofByte b = some cmd ↔ b = cmd.toByte := by
  revert b
  cases cmd <;> decide

/-- `read_exact` takes a front of the stream. -/
theorem run_readExact_eq_ok_iff {buf bs : Bytes} {out : Bytes × Result Unit} {s : Feed} :
    (Reader.readExact buf : Task Feed _).run ⟨bs, none⟩ = .ok (out, s) ↔
      ∃ front rest, bs = front ++ rest ∧ front.length = buf.length ∧ out = (front, .ok ()) ∧
        s = ⟨rest, none⟩ := by
  by_cases h : buf.length ≤ bs.length
  · rw [Feed.run_readExact_of_le h]
    constructor
    · intro heq
      cases heq
      exact ⟨_, _, (List.take_append_drop _ _).symm, List.length_take_of_le h, rfl, rfl⟩
    · rintro ⟨front, rest, rfl, hlen, rfl, rfl⟩
      dsimp only
      rw [← hlen, List.take_left, List.drop_left]
  · rw [Feed.run_readExact_of_lt (Nat.lt_of_not_le h)]
    constructor
    · intro heq
      cases heq
    · rintro ⟨front, rest, rfl, hlen, -, -⟩
      rw [List.length_append] at h
      omega

/-- What a program does once `read_exact` has returned. -/
theorem run_readExact_bind_eq_ok_iff {α : Type} {buf bs : Bytes}
    {f : Bytes × Result Unit → Task Feed α} {out : α × Feed} :
    (Reader.readExact buf >>= f).run ⟨bs, none⟩ = .ok out ↔
      ∃ front rest, bs = front ++ rest ∧ front.length = buf.length ∧
        (f (front, .ok ())).run ⟨rest, none⟩ = .ok out := by
  rw [Prog.run_bind_eq_ok]
  constructor
  · rintro ⟨a, s, hread, hf⟩
    obtain ⟨front, rest, hbs, hlen, rfl, rfl⟩ := run_readExact_eq_ok_iff.mp hread
    exact ⟨front, rest, hbs, hlen, hf⟩
  · rintro ⟨front, rest, hbs, hlen, hf⟩
    exact ⟨_, _, run_readExact_eq_ok_iff.mpr ⟨front, rest, hbs, hlen, rfl, rfl⟩, hf⟩

theorem run_charVector_bind_eq_ok_iff {α : Type} {n : Byte} {s : Feed} {f : Bytes → Task Feed α}
    {out : α × Feed} :
    (charVector n >>= f).run s = .ok out ↔
      n.toNat < 128 ∧ (f (List.replicate n.toNat 0)).run s = .ok out := by
  have hvector := run_charVector n s
  by_cases h : n.toNat < 128
  · rw [if_pos h] at hvector
    rw [Prog.run_bind_of_ok hvector]
    exact (and_iff_right h).symm
  · rw [if_neg h] at hvector
    rw [Prog.run_bind_of_error hvector]
    constructor
    · intro hrun
      cases hrun
    · rintro ⟨hlt, -⟩
      exact absurd hlt h

theorem run_assertion_bind_eq_ok_iff {α : Type} {ndebug x : Bool} {s : Feed}
    {f : Unit → Task Feed α} {out : α × Feed} :
    (assertion ndebug x >>= f).run s = .ok out ↔
      (ndebug = true ∨ x = true) ∧ (f ()).run s = .ok out := by
  unfold assertion
  rw [← Bool.or_eq_true]
  split_ifs with h
  · exact (and_iff_right h).symm
  · constructor
    · intro hrun
      cases hrun
    · rintro ⟨hor, -⟩
      exact absurd hor h

/-! ### The port -/

/-- Two bytes are a port. -/
theorem exists_portBytes {front : Bytes} (h : front.length = 2) :
    ∃ port, front = portBytes port := by
  refine ⟨BitVec.ofNat 16 (ofBE front), ?_⟩
  have hlen : front.reverse.length = 2 := List.length_reverse.trans h
  have hlt : ofBE front < 2 ^ 16 := by
    have := ofLE_lt front.reverse
    rwa [hlen] at this
  rw [portBytes, BitVec.toNat_ofNat, Nat.mod_eq_of_lt hlt, ofBE, ← hlen, toLE_ofLE,
    List.reverse_reverse]

theorem portBytes_injective {p q : BitVec 16} (h : portBytes p = portBytes q) : p = q :=
  BitVec.eq_of_toNat_eq (toLE_injective p.isLt q.isLt (List.reverse_injective h))

theorem portBytes_eq (port : BitVec 16) :
    portBytes port = [BitVec.ofNat 8 (port.toNat / 256), BitVec.ofNat 8 port.toNat] := rfl

theorem charToInt_low (c : Byte) {i : Nat} (h : i < 8) :
    (charToInt c).getLsbD i = c.getLsbD i := by
  unfold charToInt
  rw [BitVec.getLsbD_signExtend]
  simp [h]
  omega

theorem charToInt_high (c : Byte) {i : Nat} (h : 8 ≤ i) (h' : i < 32) :
    (charToInt c).getLsbD i = c.msb := by
  unfold charToInt
  rw [BitVec.getLsbD_signExtend]
  simp [Nat.not_lt.mpr h, h']

/-- The sign of the first byte runs over the second. -/
theorem or_charToInt (hi lo : Byte) :
    (charToInt hi ||| charToInt lo <<< 8).setWidth 16 =
      (if hi.msb then BitVec.allOnes 8 else lo) ++ hi := by
  refine BitVec.eq_of_getLsbD_eq fun i hi16 => ?_
  rw [BitVec.getLsbD_append, BitVec.getLsbD_setWidth, BitVec.getLsbD_or, BitVec.getLsbD_shiftLeft]
  by_cases h8 : i < 8
  · simp [h8, hi16, charToInt_low]
  · have h32 : i < 32 := by omega
    have hlow : (charToInt lo).getLsbD (i - 8) = lo.getLsbD (i - 8) :=
      charToInt_low lo (by omega)
    rw [hlow, charToInt_high hi (Nat.le_of_not_lt h8) h32]
    cases hi.msb
    · simp [h8, hi16, h32]
    · have h16 : i - 8 < 8 := by omega
      rw [if_pos rfl, BitVec.getLsbD_allOnes]
      simp [h8, hi16, h16]

/-- The port the two bytes are taken for. -/
def portRead (order : ByteOrder) (hi lo : Nat) : Nat :=
  match order with
  | .littleEndian => hi * 256 + if hi < 128 then lo else 255
  | .bigEndian => (if hi < 128 then lo else 255) * 256 + hi

theorem portOf_eq (order : ByteOrder) (hi lo : Byte) :
    portOf order [hi, lo] = portRead order hi.toNat lo.toNat := by
  have hhi := hi.isLt
  have hlo := lo.isLt
  have hmsb : (if hi.msb then BitVec.allOnes 8 else lo).toNat =
      if hi.toNat < 128 then lo.toNat else 255 := by
    rw [BitVec.msb_eq_decide]
    by_cases h : hi.toNat < 128
    · rw [if_pos h, if_neg (by simpa using h)]
    · rw [if_neg h, if_pos (by simpa using h)]
      rfl
  unfold portOf
  rw [List.getD_cons_zero, List.getD_cons_succ, List.getD_cons_zero, or_charToInt]
  cases order with
  | littleEndian =>
    rw [ByteOrder.ntoh16, toNat_bswap16, swap_two, BitVec.toNat_append, Nat.shiftLeft_eq,
      Nat.mul_comm, ← Nat.two_pow_add_eq_or_of_lt hi.isLt, hmsb, portRead]
    split <;> omega
  | bigEndian =>
    rw [ByteOrder.ntoh16, BitVec.toNat_append, Nat.shiftLeft_eq, Nat.mul_comm,
      ← Nat.two_pow_add_eq_or_of_lt hi.isLt, hmsb, portRead]
    split <;> omega

/-! ### The parts of a request -/

variable {ndebug : Bool} {order : ByteOrder} {cmd : Cmd} {bs : Bytes} {ret : Result Request}
  {s : Feed}

theorem run_readPort_eq_ok_iff {addr : Bytes} :
    (readPort order cmd addr).run (⟨bs, none⟩ : Feed) = .ok (ret, s) ↔
      ∃ port rest, bs = portBytes port ++ rest ∧
        ret = .ok ⟨cmd, addr, portOf order (portBytes port)⟩ ∧ s = ⟨rest, none⟩ := by
  unfold readPort
  rw [run_readExact_bind_eq_ok_iff]
  constructor
  · rintro ⟨front, rest, rfl, hlen, hrun⟩
    obtain ⟨port, rfl⟩ := exists_portBytes hlen
    cases hrun
    exact ⟨port, rest, rfl, rfl, rfl⟩
  · rintro ⟨port, rest, rfl, rfl, rfl⟩
    exact ⟨_, rest, rfl, rfl, rfl⟩

/-- Four bytes are an IPv4 address. -/
theorem exists_ipv4 {front : Bytes} (h : front.length = 4) : ∃ a b c d, front = [a, b, c, d] :=
  match front, h with
  | [a, b, c, d], _ => ⟨a, b, c, d, rfl⟩

/-- What `read_request` reads behind the first four bytes. -/
theorem run_readAddress_eq_ok_iff {bytes4 : Bytes} (h4 : bytes4.length = 4) {req : Request} :
    (readAddress order cmd bytes4).run (⟨bs, none⟩ : Feed) = .ok (.ok req, s) ↔
      ∃ (address : Address) (port : BitVec 16) (rest : Bytes),
        bytes4.getD 3 0 = address.type ∧ address.Readable ∧
        bs = address.encode ++ (portBytes port ++ rest) ∧
        req = ⟨cmd, address.asRead, portOf order (portBytes port)⟩ ∧ s = ⟨rest, none⟩ := by
  unfold readAddress
  constructor
  · intro hrun
    split_ifs at hrun with h1 h3 h6
    · rw [run_readExact_bind_eq_ok_iff] at hrun
      obtain ⟨front, rest, rfl, hlen, hrun⟩ := hrun
      obtain ⟨port, rest, rfl, hreq, rfl⟩ := run_readPort_eq_ok_iff.mp hrun
      obtain ⟨a, b, c, d, rfl⟩ := exists_ipv4 (hlen.trans h4)
      exact ⟨.ipv4 a b c d, port, rest, h1, trivial, rfl, Except.ok.inj hreq, rfl⟩
    · rw [run_readExact_bind_eq_ok_iff] at hrun
      obtain ⟨front, rest, rfl, hlen, hrun⟩ := hrun
      obtain ⟨n, rfl⟩ := List.length_eq_one_iff.mp hlen
      rw [run_charVector_bind_eq_ok_iff, run_readExact_bind_eq_ok_iff] at hrun
      obtain ⟨hn, name, rest, rfl, hname, hrun⟩ := hrun
      obtain ⟨port, rest, rfl, hreq, rfl⟩ := run_readPort_eq_ok_iff.mp hrun
      have hname' : name.length = n.toNat := hname.trans (List.length_replicate ..)
      have hshort : name.length < 128 := hname' ▸ hn
      refine ⟨.domain name (by omega), port, rest, h3, hshort, ?_, Except.ok.inj hreq, rfl⟩
      rw [Address.encode, hname', BitVec.ofNat_toNat, BitVec.setWidth_eq]
      rfl
    · rw [run_readExact_bind_eq_ok_iff] at hrun
      obtain ⟨front, rest, rfl, hlen, hrun⟩ := hrun
      obtain ⟨port, rest, rfl, hreq, rfl⟩ := run_readPort_eq_ok_iff.mp hrun
      exact ⟨.ipv6 ⟨front.toArray, hlen⟩, port, rest, h6, trivial, rfl, Except.ok.inj hreq, rfl⟩
    · cases hrun
  · rintro ⟨address, port, rest, htype, hreadable, rfl, rfl, rfl⟩
    rw [htype]
    cases address with
    | ipv4 a b c d =>
      rw [Address.type_ipv4, if_pos rfl, run_readExact_bind_eq_ok_iff]
      exact ⟨[a, b, c, d], _, rfl, h4.symm, run_readPort_eq_ok_iff.mpr ⟨port, rest, rfl, rfl, rfl⟩⟩
    | domain name short =>
      have hn : (BitVec.ofNat 8 name.length).toNat = name.length := by
        rw [BitVec.toNat_ofNat, Nat.mod_eq_of_lt short]
      rw [Address.type_domain, if_neg (by decide), if_pos rfl, run_readExact_bind_eq_ok_iff]
      refine ⟨[BitVec.ofNat 8 name.length], _, rfl, rfl, ?_⟩
      rw [run_charVector_bind_eq_ok_iff, run_readExact_bind_eq_ok_iff, List.getD_cons_zero, hn]
      exact ⟨hreadable, name, _, rfl, (List.length_replicate ..).symm,
        run_readPort_eq_ok_iff.mpr ⟨port, rest, rfl, rfl, rfl⟩⟩
    | ipv6 bytes =>
      rw [Address.type_ipv6, if_neg (by decide), if_neg (by decide), if_pos rfl,
        run_readExact_bind_eq_ok_iff]
      exact ⟨bytes.toList, _, rfl, bytes.length_toList,
        run_readPort_eq_ok_iff.mpr ⟨port, rest, rfl, rfl, rfl⟩⟩

/-- **What `read_request` accepts**, and what it takes it for. -/
theorem run_readRequest_eq_ok_iff {req : Request} :
    (readRequest ndebug order).run (⟨bs, none⟩ : Feed) = .ok (.ok req, s) ↔
      ∃ (q : Query) (rest : Bytes), q.Readable ndebug ∧ bs = q.encode ++ rest ∧
        req = q.asRead order ∧ s = ⟨rest, none⟩ := by
  unfold readRequest
  rw [run_readExact_bind_eq_ok_iff]
  constructor
  · rintro ⟨front, rest, rfl, hlen, hrun⟩
    obtain ⟨version, c, reserved, type, rfl⟩ := exists_ipv4 hlen
    dsimp only at hrun
    split_ifs at hrun with hversion
    · cases hrun
    · split at hrun
      next => cases hrun
      next cmd hcmd =>
        rw [run_assertion_bind_eq_ok_iff, run_readAddress_eq_ok_iff hlen] at hrun
        obtain ⟨hreserved, address, port, rest, htype, hreadable, rfl, rfl, rfl⟩ := hrun
        refine ⟨⟨cmd, reserved, address, port⟩, rest, ⟨by simpa using hreserved, hreadable⟩, ?_,
          rfl, rfl⟩
        obtain rfl : version = 5 := by simpa using hversion
        obtain rfl : c = cmd.toByte := ofByte_eq_some_iff.mp hcmd
        obtain rfl : type = address.type := htype
        simp [Query.encode]
  · rintro ⟨⟨cmd, reserved, address, port⟩, rest, ⟨hreserved, hreadable⟩, rfl, rfl, rfl⟩
    refine ⟨[5, cmd.toByte, reserved, address.type], _, List.append_assoc .., rfl, ?_⟩
    dsimp only
    have hcmd : Cmd.ofByte ([5, cmd.toByte, reserved, address.type].getD 1 0) = some cmd :=
      ofByte_eq_some_iff.mpr rfl
    rw [if_neg (by simp), hcmd]
    dsimp only
    rw [run_assertion_bind_eq_ok_iff, run_readAddress_eq_ok_iff rfl]
    refine ⟨by simpa using hreserved, address, port, rest, rfl, hreadable, ?_, rfl, rfl⟩
    rw [List.append_assoc]

/-! ## Reading through a buffer -/

/-- A buffered reader acts as the feed of what it has to hand over. -/
theorem serves_unread {r : BufReader} (h : r.Sound) : Serves r ⟨r.unread, none⟩ := ⟨h, rfl, rfl⟩

theorem serves_readsAlike {E : Stop → Prop} :
    ReadsAlike BufReader Feed E fun _ => Serves where
  read _ buf _ := readExact_bisimilar buf
  less _ _ _ h := h

theorem unread_eq_iff (rest : Bytes) (r : BufReader) (s : Feed) (h : Serves r s) :
    r.unread = rest ↔ s = ⟨rest, none⟩ := by
  obtain ⟨unread, ending⟩ := s
  obtain ⟨-, rfl, rfl⟩ := h
  simp

/-- A request that is read from the front of what there is to hand over. -/
theorem readRequest_ok_iff {r : BufReader} (h : r.Sound) {req : Request} {rest : Bytes} :
    (∃ r', (readRequest ndebug order).run r = .ok (.ok req, r') ∧ r'.unread = rest) ↔
      (readRequest ndebug order).run (⟨r.unread, none⟩ : Feed) =
        .ok (.ok req, ⟨rest, none⟩) := by
  rw [(readRequest_bisimilar serves_readsAlike 0 ndebug order).ok_iff (serves_unread h)
    (unread_eq_iff rest)]
  simp

/-- **The requests that are accepted** through a buffer of any size up to `INT_MAX`,
however the stream is cut, if no read fails: those a client may write with a short name. The
rest of the stream is left. -/
theorem readRequest_returns_iff {r : BufReader} (h : r.Sound) {req : Request} {rest : Bytes} :
    (∃ r', (readRequest ndebug order).run r = .ok (.ok req, r') ∧ r'.unread = rest) ↔
      ∃ q : Query, q.Readable ndebug ∧ r.unread = q.encode ++ rest ∧ req = q.asRead order := by
  rw [readRequest_ok_iff h, run_readRequest_eq_ok_iff]
  constructor
  · rintro ⟨q, rest', hq, hbs, hreq, hs⟩
    cases hs
    exact ⟨q, hq, hbs, hreq⟩
  · rintro ⟨q, hq, hbs, hreq⟩
    exact ⟨q, rest, hq, hbs, hreq, rfl⟩

/-- A request for `127.0.0.1:80` that comes in three chunks, read four bytes at a time. -/
theorem readRequest_returns_iff_chunks :
    (∃ r', (readRequest false .littleEndian).run
      (BufReader.new (Inlet.ofChunks [[5, 1, 0], [1, 127, 0, 0, 1, 0], [80]]) 4) =
        .ok (.ok ⟨.connect, ascii "127.0.0.1", 80⟩, r') ∧ r'.unread = []) ↔
      ∃ q : Query, q.Readable false ∧
        (BufReader.new (Inlet.ofChunks [[5, 1, 0], [1, 127, 0, 0, 1, 0], [80]]) 4).unread =
          q.encode ++ [] ∧ (⟨.connect, ascii "127.0.0.1", 80⟩ : Request) = q.asRead .littleEndian :=
  readRequest_returns_iff (BufReader.sound_new (Inlet.flowing_ofChunks (by decide)) (by decide))

/-! ## What is carried -/

theorem toByte_injective : Function.Injective Cmd.toByte := by
  intro a b h
  have := ofByte_eq_some_iff.mpr h
  rw [ofByte_eq_some_iff.mpr rfl] at this
  exact Option.some.inj this

/-- No address is the beginning of another of its type. -/
theorem Address.encode_append_inj {address address' : Address} {x y : Bytes}
    (htype : address.type = address'.type) (h : address.encode ++ x = address'.encode ++ y) :
    address = address' ∧ x = y := by
  cases address with
  | ipv4 a b c d =>
    cases address' with
    | ipv4 a' b' c' d' =>
      obtain ⟨haddress, hrest⟩ := List.append_inj h rfl
      simp only [encode, List.cons.injEq] at haddress
      obtain ⟨rfl, rfl, rfl, rfl, -⟩ := haddress
      exact ⟨rfl, hrest⟩
    | domain => cases htype
    | ipv6 => cases htype
  | domain name short =>
    cases address' with
    | ipv4 => cases htype
    | domain name' short' =>
      simp only [encode, List.cons_append, List.cons.injEq] at h
      obtain ⟨hlen, h⟩ := h
      have hlen' := congrArg BitVec.toNat hlen
      rw [BitVec.toNat_ofNat, BitVec.toNat_ofNat, Nat.mod_eq_of_lt short,
        Nat.mod_eq_of_lt short'] at hlen'
      obtain ⟨rfl, hrest⟩ := List.append_inj h hlen'
      exact ⟨rfl, hrest⟩
    | ipv6 => cases htype
  | ipv6 bytes =>
    cases address' with
    | ipv4 => cases htype
    | domain => cases htype
    | ipv6 bytes' =>
      obtain ⟨hbytes, hrest⟩ := List.append_inj h (by rw [encode, encode, bytes.length_toList,
        bytes'.length_toList])
      exact ⟨congrArg ipv6 (Vector.toList_inj.mp hbytes), hrest⟩

/-- No request is the beginning of another. -/
theorem Query.encode_append_inj {q q' : Query} {rest rest' : Bytes}
    (h : q.encode ++ rest = q'.encode ++ rest') : q = q' := by
  obtain ⟨cmd, reserved, address, port⟩ := q
  obtain ⟨cmd', reserved', address', port'⟩ := q'
  simp only [Query.encode, List.cons_append, List.nil_append, List.cons.injEq, true_and,
    List.append_assoc] at h
  obtain ⟨hcmd, rfl, htype, h⟩ := h
  obtain rfl := toByte_injective hcmd
  obtain ⟨rfl, hrest⟩ := Address.encode_append_inj htype h
  rw [portBytes_injective (List.append_inj hrest rfl).1]

section Meant

variable (inet6 : Vector Byte 16 → Bytes)

/-- The address a client means; `inet6` writes down an IPv6 address. -/
def Address.text : Address → Bytes
  | .ipv4 a b c d => ipToString [a, b, c, d]
  | .domain name _ => name
  | .ipv6 bytes => inet6 bytes

/-- The request a client means. -/
def Query.meant (q : Query) : Request := ⟨q.cmd, q.address.text inet6, q.port.toNat⟩

/-- The port is none of those the sign of a byte runs over, and on a big-endian host reads
the same in both directions. -/
def PortKept : ByteOrder → Nat → Prop
  | .littleEndian, port => port < 2 ^ 15 ∨ port % 256 = 255
  | .bigEndian, port => port / 256 = port % 256 ∧ (port < 2 ^ 15 ∨ port % 256 = 255)

theorem portOf_eq_iff (port : BitVec 16) :
    portOf order (portBytes port) = port.toNat ↔ PortKept order port.toNat := by
  have hlt := port.isLt
  rw [portBytes_eq, portOf_eq, BitVec.toNat_ofNat, BitVec.toNat_ofNat,
    Nat.mod_eq_of_lt (show port.toNat / 256 < 2 ^ 8 by omega)]
  cases order with
  | littleEndian =>
    unfold portRead PortKept
    dsimp only
    split <;> omega
  | bigEndian =>
    unfold portRead PortKept
    dsimp only
    by_cases hsign : port.toNat / 256 < 128
    · rw [if_pos hsign]
      omega
    · -- 255 * 256 + hi is hi * 256 + lo only for 255 and 255
      rw [if_neg hsign]
      rcases Nat.lt_or_ge (port.toNat / 256) 255 with hhi | hhi <;> omega

/-- The server's request is the one that was meant. -/
theorem asRead_eq_meant_iff (hinet6 : ∀ bytes, inet6 bytes ≠ []) {q : Query} :
    q.asRead order = q.meant inet6 ↔
      (∀ bytes, q.address ≠ .ipv6 bytes) ∧ PortKept order q.port.toNat := by
  obtain ⟨cmd, reserved, address, port⟩ := q
  rw [← portOf_eq_iff]
  simp only [Query.asRead, Query.meant, Request.mk.injEq, true_and]
  refine and_congr_left' ?_
  cases address with
  | ipv4 a b c d => exact iff_of_true rfl fun _ => nofun
  | domain name short => exact iff_of_true rfl fun _ => nofun
  | ipv6 bytes => exact iff_of_false (Ne.symm (hinet6 bytes)) fun h => h bytes rfl

/-- **The server acts on what the client meant** exactly if the name is short, the address
is none of IPv6, and the port is kept; the buffer and the cuts make no difference. -/
theorem carried_iff (hinet6 : ∀ bytes, inet6 bytes ≠ []) {r : BufReader} (h : r.Sound) {q : Query}
    {rest : Bytes} (hun : r.unread = q.encode ++ rest) :
    (∃ r', (readRequest ndebug order).run r = .ok (.ok (q.meant inet6), r') ∧ r'.unread = rest) ↔
      q.Readable ndebug ∧ (∀ bytes, q.address ≠ .ipv6 bytes) ∧ PortKept order q.port.toNat := by
  rw [readRequest_ok_iff h, run_readRequest_eq_ok_iff, ← asRead_eq_meant_iff inet6 hinet6, hun]
  constructor
  · rintro ⟨q', rest', hq', hbs, hreq, hs⟩
    cases hs
    obtain rfl := Query.encode_append_inj hbs
    exact ⟨hq', hreq.symm⟩
  · rintro ⟨hq, hreq⟩
    exact ⟨q, rest, hq, rfl, hreq.symm, rfl⟩

/-- A request for `127.0.0.1:32768`, whose port is not kept. -/
theorem carried_iff_loopback :
    (∃ r', (readRequest false .littleEndian).run
      (BufReader.new (Inlet.ofChunks [[5, 1, 0], [1, 127, 0, 0, 1, 128], [0]]) 4) =
        .ok (.ok (Query.meant Vector.toList ⟨.connect, 0, .ipv4 127 0 0 1, 32768⟩), r') ∧
          r'.unread = []) ↔
      Query.Readable false ⟨.connect, 0, .ipv4 127 0 0 1, 32768⟩ ∧
        (∀ bytes, Address.ipv4 127 0 0 1 ≠ .ipv6 bytes) ∧ PortKept .littleEndian 32768 :=
  carried_iff Vector.toList
    (fun bytes h => absurd (bytes.length_toList.symm.trans (congrArg List.length h)) (by decide))
    (BufReader.sound_new (Inlet.flowing_ofChunks (by decide)) (by decide))
    (BufReader.unread_new (by decide))

end Meant

end Uvio.Socks5
