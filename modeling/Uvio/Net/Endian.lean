import Uvio.Common.Machine
import Uvio.Program.Octets

/-!
# `byteorder`

The header is compiled for a little-endian or for a big-endian host: `hton` and
`ntoh` swap the bytes of their argument on the one and are the identity on the
other. `bswap_16`, `bswap_32` and `bswap_64` are the compiler's byte swaps.
-/

namespace Uvio.Net

open Program

/-- `__BYTE_ORDER`. -/
inductive ByteOrder where
  | littleEndian
  | bigEndian
deriving DecidableEq, Repr

/-- `bswap_16`: the two bytes in the opposite order. The other two are alike. -/
def bswap16 (x : BitVec 16) : BitVec 16 := BitVec.ofNat 16 (swap 2 x.toNat)

def bswap32 (x : BitVec 32) : BitVec 32 := BitVec.ofNat 32 (swap 4 x.toNat)

def bswap64 (x : BitVec 64) : BitVec 64 := BitVec.ofNat 64 (swap 8 x.toNat)

namespace ByteOrder

/-- `hton64`: from the order of the host to that of the network. -/
def hton64 : ByteOrder → BitVec 64 → BitVec 64
  | .littleEndian, x => bswap64 x
  | .bigEndian, x => x

/-- `ntoh64`: the same swap on the way back. -/
def ntoh64 : ByteOrder → BitVec 64 → BitVec 64
  | .littleEndian, x => bswap64 x
  | .bigEndian, x => x

/-- `hton32`, for the length in front of a message of `FixedLength32Codec`. -/
def hton32 : ByteOrder → BitVec 32 → BitVec 32
  | .littleEndian, x => bswap32 x
  | .bigEndian, x => x

/-- `ntoh32`, for the same length when it is read. -/
def ntoh32 : ByteOrder → BitVec 32 → BitVec 32
  | .littleEndian, x => bswap32 x
  | .bigEndian, x => x

/-- `hton16`, for the length of a WebSocket frame in two bytes. -/
def hton16 : ByteOrder → BitVec 16 → BitVec 16
  | .littleEndian, x => bswap16 x
  | .bigEndian, x => x

/-- `ntoh16`, for that length and for the port of a SOCKS5 request. -/
def ntoh16 : ByteOrder → BitVec 16 → BitVec 16
  | .littleEndian, x => bswap16 x
  | .bigEndian, x => x

end ByteOrder

/-! ## The two hosts -/

@[simp] theorem ByteOrder.hton16_littleEndian (x : BitVec 16) :
    ByteOrder.littleEndian.hton16 x = bswap16 x := rfl

@[simp] theorem ByteOrder.hton16_bigEndian (x : BitVec 16) :
    ByteOrder.bigEndian.hton16 x = x := rfl

@[simp] theorem ByteOrder.hton32_littleEndian (x : BitVec 32) :
    ByteOrder.littleEndian.hton32 x = bswap32 x := rfl

@[simp] theorem ByteOrder.hton32_bigEndian (x : BitVec 32) :
    ByteOrder.bigEndian.hton32 x = x := rfl

@[simp] theorem ByteOrder.hton64_littleEndian (x : BitVec 64) :
    ByteOrder.littleEndian.hton64 x = bswap64 x := rfl

@[simp] theorem ByteOrder.hton64_bigEndian (x : BitVec 64) :
    ByteOrder.bigEndian.hton64 x = x := rfl

/-! ## The swaps -/

/-- A swap of bytes is one of digits to the base 256, and no digit is lost. -/
theorem toNat_bswap16 (x : BitVec 16) : (bswap16 x).toNat = swap 2 x.toNat := by
  rw [bswap16, BitVec.toNat_ofNat, Nat.mod_eq_of_lt (show _ < 2 ^ 16 from swap_lt 2 _)]

theorem toNat_bswap32 (x : BitVec 32) : (bswap32 x).toNat = swap 4 x.toNat := by
  rw [bswap32, BitVec.toNat_ofNat, Nat.mod_eq_of_lt (show _ < 2 ^ 32 from swap_lt 4 _)]

theorem toNat_bswap64 (x : BitVec 64) : (bswap64 x).toNat = swap 8 x.toNat := by
  rw [bswap64, BitVec.toNat_ofNat, Nat.mod_eq_of_lt (show _ < 2 ^ 64 from swap_lt 8 _)]

/-- Swapped twice, the bytes are where they were. -/
@[simp] theorem bswap16_bswap16 (x : BitVec 16) : bswap16 (bswap16 x) = x := by
  apply BitVec.eq_of_toNat_eq
  rw [toNat_bswap16, toNat_bswap16, swap_swap x.isLt]

@[simp] theorem bswap32_bswap32 (x : BitVec 32) : bswap32 (bswap32 x) = x := by
  apply BitVec.eq_of_toNat_eq
  rw [toNat_bswap32, toNat_bswap32, swap_swap x.isLt]

@[simp] theorem bswap64_bswap64 (x : BitVec 64) : bswap64 (bswap64 x) = x := by
  apply BitVec.eq_of_toNat_eq
  rw [toNat_bswap64, toNat_bswap64, swap_swap x.isLt]

/-! ## What one host writes, the same host reads -/

section

variable (order : ByteOrder)

/-- `ntoh` undoes `hton`, on either host. -/
@[simp] theorem ByteOrder.ntoh64_hton64 (x : BitVec 64) : order.ntoh64 (order.hton64 x) = x := by
  cases order with
  | littleEndian => exact bswap64_bswap64 x
  | bigEndian => rfl

@[simp] theorem ByteOrder.ntoh32_hton32 (x : BitVec 32) : order.ntoh32 (order.hton32 x) = x := by
  cases order with
  | littleEndian => exact bswap32_bswap32 x
  | bigEndian => rfl

@[simp] theorem ByteOrder.ntoh16_hton16 (x : BitVec 16) : order.ntoh16 (order.hton16 x) = x := by
  cases order with
  | littleEndian => exact bswap16_bswap16 x
  | bigEndian => rfl

/-- And the other way round: what was read can be written back. -/
@[simp] theorem ByteOrder.hton16_ntoh16 (x : BitVec 16) : order.hton16 (order.ntoh16 x) = x := by
  cases order with
  | littleEndian => exact bswap16_bswap16 x
  | bigEndian => rfl

end

end Uvio.Net
