import Uvio.Common.Machine

/-!
# `base64`

The built-in `encode`. With `HAS_SSL` it is OpenSSL's, which is left alone here.
-/

namespace Uvio.Base64

/-- `base64_chars`. -/
def base64Chars : Bytes := ascii "ABCDEFGHIJKLMNOPQRSTUVWXYZabcdefghijklmnopqrstuvwxyz0123456789+/"

/-- The four indices in `buf4` for the three bytes in `buf3`. -/
def buf4 (b₀ b₁ b₂ : Byte) : List Byte :=
  [(b₀ &&& 0xfc) >>> 2,
    ((b₀ &&& 0x03) <<< 4) + ((b₁ &&& 0xf0) >>> 4),
    ((b₁ &&& 0x0f) <<< 2) + ((b₂ &&& 0xc0) >>> 6),
    b₂ &&& 0x3f]

/-- `base64_chars[i]`. -/
def base64Char (i : Byte) : Byte := base64Chars.getD i.toNat 0

/-- `encode(message)`: three bytes at a time; one or two that are left are filled up
with zeros, of which only the characters with bits of theirs are kept. -/
def encode : Bytes → Bytes
  | b₀ :: b₁ :: b₂ :: rest => (buf4 b₀ b₁ b₂).map base64Char ++ encode rest
  | [b₀, b₁] => ((buf4 b₀ b₁ 0).take 3).map base64Char ++ ascii "="
  | [b₀] => ((buf4 b₀ 0 0).take 2).map base64Char ++ ascii "=="
  | [] => []

example : encode (ascii "uvio!") = ascii "dXZpbyE=" := by decide

end Uvio.Base64
