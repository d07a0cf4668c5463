import Uvio.Common.Base64
import Uvio.Program.Groups
import Mathlib.Tactic.IntervalCases

/-!
# The loops of `base64`

`encode` and `decode` with the group they carry from one pass to the next, without `HAS_SSL`.
What the arrays hold before they are written is a parameter.
-/

namespace Uvio.Base64

open Program

/-! ## `encode` -/

/-- `for (j = i; j < n; j++) buf[j] = 0`. -/
def zeroFrom {n : Nat} (i : Nat) (buf : Vector Byte n) : Vector Byte n :=
  Vector.ofFn fun j => if j < i then buf[j] else 0

/-- A full `buf3`: four characters. -/
def encodeGroup (buf3 : Vector Byte 3) : Vector Byte 3 × Bytes :=
  (buf3, (buf4 buf3[0] buf3[1] buf3[2]).map base64Char)

/-- Behind the loop: zeros fill `buf3`, and of the four characters `i + 1` are taken. -/
def encodeRest (s : Filling 3 Byte Byte) : Bytes :=
  if s.i ≠ 0 then
    let buf3 := zeroFrom s.i s.buffer
    s.out ++ ((buf4 buf3[0] buf3[1] buf3[2]).take (s.i + 1)).map base64Char
      ++ List.replicate (3 - s.i) 61
  else s.out

/-- `encode(message)`, with `junk` in `buf3` at first. -/
def encodeLoops (junk : Vector Byte 3) (message : Bytes) : Bytes :=
  encodeRest (message.foldl (Filling.push encodeGroup) (.start junk (by decide)))

/-! ## `decode` -/

/-- `isalnum(c)`, in the "C" locale. -/
def isAlnum (c : Byte) : Bool :=
  decide (48 ≤ c.toNat ∧ c.toNat ≤ 57 ∨ 65 ≤ c.toNat ∧ c.toNat ≤ 90
    ∨ 97 ≤ c.toNat ∧ c.toNat ≤ 122)

/-- `is_base64(c)`. -/
def isBase64 (c : Byte) : Bool := isAlnum c || c == 43 || c == 47

/-- `static_cast<char>(base64_chars.find(c))`. Of `npos`, a `char` keeps eight ones. -/
def find (c : Byte) : Byte :=
  match base64Chars.idxOf? c with
  | some i => toChar (BitVec.ofNat 64 i)
  | none => toChar (BitVec.allOnes 64)

/-- The three bytes in `buf3` for the four indices in `buf4`. The sums are of `int`s. -/
def buf3 (i₀ i₁ i₂ i₃ : Byte) : Bytes :=
  [toChar ((charToInt i₀ <<< 2) + ((charToInt i₁ &&& 0x30).sshiftRight 4)),
    toChar (((charToInt i₁ &&& 0xf) <<< 4) + ((charToInt i₂ &&& 0x3c).sshiftRight 2)),
    toChar (((charToInt i₂ &&& 0x3) <<< 6) + charToInt i₃)]

/-- A full `buf4`: its characters become indices, and these three bytes. -/
def decodeGroup (buf4 : Vector Byte 4) : Vector Byte 4 × Bytes :=
  let buf4 := buf4.map find
  (buf4, buf3 buf4[0] buf4[1] buf4[2] buf4[3])

/-- The loop of `decode`, with the rest of the string. -/
def decodeLoop : Int → Bytes → Filling 4 Byte Byte → Filling 4 Byte Byte
  -- behind the string stands a zero, which is no character of the alphabet
  | _, [], s => s
  | inLen, c :: rest, s =>
    if inLen ≠ 0 ∧ c ≠ 61 ∧ isBase64 c then
      decodeLoop (inLen - 1) rest (s.push decodeGroup c)
    else s

/-- Behind the loop: zeros fill `buf4`, and of the three bytes `i - 1` are taken. -/
def decodeRest (s : Filling 4 Byte Byte) : Bytes :=
  if s.i ≠ 0 then
    let buf4 := (zeroFrom s.i s.buffer).map find
    s.out ++ (buf3 buf4[0] buf4[1] buf4[2] buf4[3]).take (s.i - 1)
  else s.out

/-- `decode(base64)`, with `junk` in `buf4` at first. -/
def decode (junk : Vector Byte 4) (base64 : Bytes) : Bytes :=
  decodeRest (decodeLoop (castInt base64.length) base64 (.start junk (by decide)))

/-! ## The standard code -/

/-- Capital letters, small letters, digits, plus and slash. -/
def letter (x : BitVec 6) : Byte :=
  if x.toNat < 26 then BitVec.ofNat 8 (65 + x.toNat)
  else if x.toNat < 52 then BitVec.ofNat 8 (97 + (x.toNat - 26))
  else if x.toNat < 62 then BitVec.ofNat 8 (48 + (x.toNat - 52))
  else if x = 62 then 43 else 47

theorem find_letter : ∀ x : BitVec 6, find (letter x) = x.setWidth 8 := by decide +kernel

/-- What a character stands for, if it stands for anything. -/
theorem letter_find : ∀ c : Byte, isBase64 c = true → letter ((find c).setWidth 6) = c := by
  decide +kernel

theorem isBase64_letter : ∀ x : BitVec 6, isBase64 (letter x) = true := by decide +kernel

theorem isBase64_iff (c : Byte) : isBase64 c = true ↔ ∃ x, letter x = c := by
  constructor
  · exact fun h => ⟨_, letter_find c h⟩
  · rintro ⟨x, rfl⟩
    exact isBase64_letter x

/-- Four letters for three bytes, and `=` where there are fewer. -/
def standard : TextCode 6 where
  letter := letter
  pad := 61
  quantum := 4
  letter_injective x y h := by
    have hfind := congrArg (fun c => (find c).setWidth 6) h
    simpa [find_letter] using hfind
  letter_ne_pad := by decide
  pos := by decide
  le := by decide

example : standard.encode (ascii "uvio!") = ascii "dXZpbyE=" := by decide +kernel

theorem base64Char_setWidth : ∀ x : BitVec 6, base64Char (x.setWidth 8) = letter x := by
  decide +kernel

/-! ## The bits -/

/-- Where no bit meets another, nothing is carried. -/
theorem add_eq_or {w : Nat} {x y : BitVec w}
    (h : ∀ i < w, (x.getLsbD i && y.getLsbD i) = false) : x + y = x ||| y := by
  refine BitVec.add_eq_or_of_and_eq_zero _ _ (BitVec.eq_of_getLsbD_eq fun i hi => ?_)
  rw [BitVec.getLsbD_and, h i hi, BitVec.getLsbD_zero]

/-- Four groups of six bits in three bytes. -/
theorem groups_bytes (b₀ b₁ b₂ : Byte) :
    groups 6 4 (bitsOf [b₀, b₁, b₂])
      = [(b₀ >>> 2).setWidth 6, b₀.setWidth 6 <<< 4 ||| (b₁ >>> 4).setWidth 6,
        b₁.setWidth 6 <<< 2 ||| (b₂ >>> 6).setWidth 6, b₂.setWidth 6] := by
  refine words_ext (by simp) fun j hj i hi => ?_
  rw [length_groups] at hj
  rw [getMsbD_groups _ hj hi, getD_bitsOf (by decide)]
  interval_cases j <;> interval_cases i <;> simp

theorem buf4_eq (b₀ b₁ b₂ : Byte) :
    buf4 b₀ b₁ b₂ = (groups 6 4 (bitsOf [b₀, b₁, b₂])).map (BitVec.setWidth 8) := by
  have hsum₁ : (b₀ &&& 0x03) <<< 4 + (b₁ &&& 0xf0) >>> 4
      = (b₀ &&& 0x03) <<< 4 ||| (b₁ &&& 0xf0) >>> 4 :=
    add_eq_or fun i hi => by interval_cases i <;> simp
  have hsum₂ : (b₁ &&& 0x0f) <<< 2 + (b₂ &&& 0xc0) >>> 6
      = (b₁ &&& 0x0f) <<< 2 ||| (b₂ &&& 0xc0) >>> 6 :=
    add_eq_or fun i hi => by interval_cases i <;> simp
  rw [groups_bytes, buf4, hsum₁, hsum₂]
  refine words_ext rfl fun j hj i hi => ?_
  change j < 4 at hj
  interval_cases j <;> interval_cases i <;> simp

/-- Three bytes in four groups of six bits. -/
theorem groups_letters (x₀ x₁ x₂ x₃ : BitVec 6) :
    groups 8 3 (bitsOf [x₀, x₁, x₂, x₃])
      = [x₀.setWidth 8 <<< 2 ||| x₁.setWidth 8 >>> 4, x₁.setWidth 8 <<< 4 ||| x₂.setWidth 8 >>> 2,
        x₂.setWidth 8 <<< 6 ||| x₃.setWidth 8] := by
  refine words_ext (by simp) fun j hj i hi => ?_
  rw [length_groups] at hj
  rw [getMsbD_groups _ hj hi, getD_bitsOf (by decide)]
  interval_cases j <;> interval_cases i <;> simp

/-- Of the sums of `int`s, a `char` keeps what sums of eight bits give. -/
theorem buf3_eq (i₀ i₁ i₂ i₃ : Byte) :
    buf3 i₀ i₁ i₂ i₃
      = [i₀ <<< 2 + (i₁ &&& 0x30) >>> 4, (i₁ &&& 0xf) <<< 4 + (i₂ &&& 0x3c) >>> 2,
        (i₂ &&& 0x3) <<< 6 + i₃] := by
  have hshift₁ : ∀ i : Byte, toChar ((charToInt i &&& 0x30).sshiftRight 4)
      = (i &&& 0x30) >>> 4 := by decide +kernel
  have hshift₂ : ∀ i : Byte, toChar ((charToInt i &&& 0x3c).sshiftRight 2)
      = (i &&& 0x3c) >>> 2 := by decide +kernel
  have hlow₁ : ∀ i : Byte, toChar (charToInt i &&& 0xf) = i &&& 0xf := by decide +kernel
  have hlow₂ : ∀ i : Byte, toChar (charToInt i &&& 0x3) = i &&& 0x3 := by decide +kernel
  rw [buf3, toChar_add, toChar_add, toChar_add, hshift₁, hshift₂, toChar_shiftLeft,
    toChar_shiftLeft, toChar_shiftLeft, toChar_charToInt, toChar_charToInt, hlow₁, hlow₂]

theorem buf3_letters (x₀ x₁ x₂ x₃ : BitVec 6) :
    buf3 (x₀.setWidth 8) (x₁.setWidth 8) (x₂.setWidth 8) (x₃.setWidth 8)
      = groups 8 3 (bitsOf [x₀, x₁, x₂, x₃]) := by
  rw [groups_letters, buf3_eq, add_eq_or, add_eq_or, add_eq_or]
  · refine words_ext rfl fun j hj i hi => ?_
    change j < 3 at hj
    interval_cases j <;> interval_cases i <;> simp
  all_goals
    intro i hi
    interval_cases i <;> simp

/-! ## Whole groups and the rest -/

/-- The first `n` characters for three bytes, the last `k` of which are zeros that were added. -/
theorem chars_eq {n k : Nat} (front : Bytes) {b₀ b₁ b₂ : Byte} (hn : n ≤ 4)
    (h : [b₀, b₁, b₂] = front ++ List.replicate k 0) :
    ((buf4 b₀ b₁ b₂).take n).map base64Char
      = (groups 6 n (bitsOf front)).map letter := by
  rw [buf4_eq, ← List.map_take, take_groups hn, List.map_map, h, groups_zeros (by decide)]
  exact List.map_congr_left fun x _ => base64Char_setWidth x

/-- What `encode` gives is the standard code. -/
theorem encode_eq (message : Bytes) : encode message = standard.encode message := by
  fun_induction encode message with
  | case1 b₀ b₁ b₂ rest ih =>
    have hchars := chars_eq (n := 4) (k := 0) [b₀, b₁, b₂] le_rfl rfl
    rw [ih]
    exact (congrArg (· ++ standard.encode rest) hchars).trans
      (standard.encode_append [b₀, b₁, b₂] rest rfl (by decide)).symm
  | case2 b₀ b₁ =>
    have hencode : standard.encode [b₀, b₁] = _ := standard.encode_eq (n := 3) (by simp)
    rw [chars_eq (k := 1) [b₀, b₁] (by decide) rfl, hencode]
    rfl
  | case3 b₀ =>
    have hencode : standard.encode [b₀] = _ := standard.encode_eq (n := 2) (by simp)
    rw [chars_eq (k := 2) [b₀] (by decide) rfl, hencode]
    rfl
  | case4 => rfl

/-- The bytes for the text in fours; for what is left of it, those that are whole. -/
def quads : Bytes → Bytes
  | c₀ :: c₁ :: c₂ :: c₃ :: rest => buf3 (find c₀) (find c₁) (find c₂) (find c₃) ++ quads rest
  | [c₀, c₁, c₂] => (buf3 (find c₀) (find c₁) (find c₂) (find 0)).take 2
  | [c₀, c₁] => (buf3 (find c₀) (find c₁) (find 0) (find 0)).take 1
  | _ => []

theorem bytes_eq {n k : Nat} (front : List (BitVec 6)) {x₀ x₁ x₂ x₃ : BitVec 6} (hn : n ≤ 3)
    (h : [x₀, x₁, x₂, x₃] = front ++ List.replicate k 0) :
    (buf3 (x₀.setWidth 8) (x₁.setWidth 8) (x₂.setWidth 8) (x₃.setWidth 8)).take n
      = groups 8 n (bitsOf front) := by
  rw [buf3_letters, take_groups hn, h, groups_zeros (by decide)]

/-- The last index is in the third byte only. -/
theorem take_two_buf3 (i₀ i₁ i₂ i₃ j₃ : Byte) :
    (buf3 i₀ i₁ i₂ i₃).take 2 = (buf3 i₀ i₁ i₂ j₃).take 2 := by
  simp [buf3]

/-- The last two are in the last two. -/
theorem take_one_buf3 (i₀ i₁ i₂ i₃ j₂ j₃ : Byte) :
    (buf3 i₀ i₁ i₂ i₃).take 1 = (buf3 i₀ i₁ j₂ j₃).take 1 := by
  simp [buf3]

/-- On letters, these are the bytes of the standard code: what `npos` would spoil is not
taken. -/
theorem quads_letters : ∀ xs : List (BitVec 6),
    quads (xs.map letter) = TextCode.octetsOf xs
  | [] => rfl
  | [_] => (TextCode.octetsOf_eq (n := 0) (by simp)).symm
  | [x₀, x₁] => by
    have hbytes := bytes_eq (n := 1) (k := 2) [x₀, x₁] (by decide) rfl
    rw [TextCode.octetsOf_eq (n := 1) (by simp), ← hbytes, List.map_cons, List.map_cons,
      List.map_nil, quads, find_letter, find_letter]
    exact take_one_buf3 ..
  | [x₀, x₁, x₂] => by
    have hbytes := bytes_eq (n := 2) (k := 1) [x₀, x₁, x₂] (by decide) rfl
    rw [TextCode.octetsOf_eq (n := 2) (by simp), ← hbytes, List.map_cons, List.map_cons,
      List.map_cons, List.map_nil, quads, find_letter, find_letter, find_letter]
    exact take_two_buf3 ..
  | x₀ :: x₁ :: x₂ :: x₃ :: xs => by
    have hfront := TextCode.octetsOf_append [x₀, x₁, x₂, x₃] xs (k := 3) rfl
    have hchars : (x₀ :: x₁ :: x₂ :: x₃ :: xs).map letter
        = letter x₀ :: letter x₁ :: letter x₂ :: letter x₃
          :: xs.map letter := rfl
    rw [hchars, quads, find_letter, find_letter, find_letter, find_letter, buf3_letters,
      quads_letters xs]
    exact hfront.symm

/-! ## The loops -/

theorem toList_three {α : Type} (v : Vector α 3) : v.toList = [v[0], v[1], v[2]] := by
  match v with
  | ⟨⟨[_, _, _]⟩, _⟩ => rfl

theorem toList_four {α : Type} (v : Vector α 4) : v.toList = [v[0], v[1], v[2], v[3]] := by
  match v with
  | ⟨⟨[_, _, _, _]⟩, _⟩ => rfl

/-- A full `buf3` is a group of `encode`. -/
theorem encode_group (group : Vector Byte 3) (rest : Bytes) :
    encode (group.toList ++ rest) = (encodeGroup group).2 ++ encode rest := by
  rw [toList_three]
  rfl

/-- A full `buf4` is one of `quads`. -/
theorem quads_group (group : Vector Byte 4) (rest : Bytes) :
    quads (group.toList ++ rest) = (decodeGroup group).2 ++ quads rest := by
  rw [toList_four]
  simp [quads, decodeGroup]

theorem getElem_zeroFrom {n i j : Nat} (buf : Vector Byte n) (h : j < n) :
    (zeroFrom i buf)[j] = if j < i then buf[j] else 0 := by
  rw [zeroFrom, Vector.getElem_ofFn]
  rfl

/-- The rest of `encode` is what is left in `buf3`. -/
theorem encodeRest_eq (s : Filling 3 Byte Byte) : encodeRest s = s.out ++ encode s.pending := by
  obtain ⟨buffer, i, out, room⟩ := s
  rw [encodeRest, Filling.pending, toList_three]
  interval_cases i
  · simp [encode]
  · simp [encode, getElem_zeroFrom, ascii]
  · simp [encode, getElem_zeroFrom, ascii]

theorem encodeLoops_eq (junk : Vector Byte 3) (message : Bytes) :
    encodeLoops junk message = encode message := by
  rw [encodeLoops, encodeRest_eq]
  exact Filling.run_start encode_group junk (by decide) message

theorem decodeRest_eq (s : Filling 4 Byte Byte) : decodeRest s = s.out ++ quads s.pending := by
  obtain ⟨buffer, i, out, room⟩ := s
  rw [decodeRest, Filling.pending, toList_four]
  interval_cases i
  · simp [quads]
  · simp [quads]
  · simp [quads, getElem_zeroFrom]
  · simp [quads, getElem_zeroFrom]

/-! ## Reading -/

/-- The loop reads the letters at the front: `in_len` is what there is to read. -/
theorem decodeLoop_eq (rest : Bytes) (s : Filling 4 Byte Byte) :
    decodeLoop rest.length rest s
      = (rest.takeWhile isBase64).foldl (Filling.push decodeGroup) s := by
  induction rest generalizing s with
  | nil => rfl
  | cons c rest ih =>
    have hpos : ((c :: rest).length : Int) ≠ 0 := Int.natCast_ne_zero.mpr (Nat.succ_ne_zero _)
    have hlen : ((c :: rest).length : Int) - 1 = rest.length := by simp
    rw [decodeLoop, hlen]
    by_cases hc : isBase64 c = true
    · have hpad : c ≠ 61 := by
        rintro rfl
        exact absurd hc (by decide)
      rw [if_pos ⟨hpos, hpad, hc⟩, ih, List.takeWhile_cons_of_pos hc, List.foldl_cons]
    · rw [if_neg fun h => hc h.2.2, List.takeWhile_cons_of_neg hc, List.foldl_nil]

theorem letters_valuesOf (text : Bytes) :
    (standard.valuesOf text).map letter = text.takeWhile isBase64 := by
  induction text with
  | nil => rfl
  | cons c text ih =>
    cases hvalue : standard.value c with
    | none =>
      have hc : ¬ isBase64 c = true := by
        rw [isBase64_iff, not_exists]
        exact standard.value_eq_none_iff.mp hvalue
      rw [TextCode.valuesOf, hvalue, List.takeWhile_cons_of_neg hc, List.map_nil]
    | some x =>
      have hx : letter x = c := standard.value_eq_some_iff.mp hvalue
      have hc : isBase64 c = true := (isBase64_iff c).mpr ⟨x, hx⟩
      rw [TextCode.valuesOf, hvalue, List.takeWhile_cons_of_pos hc, List.map_cons, hx, ih]

/-- What `decode` gives is what the standard code gives, for any text an `int` can count. -/
theorem decode_eq (junk : Vector Byte 4) {base64 : Bytes} (h : base64.length ≤ intMax) :
    decode junk base64 = standard.decode base64 := by
  rw [decode, castInt_of_le h, decodeLoop_eq, decodeRest_eq, Filling.run_start quads_group,
    ← letters_valuesOf, quads_letters, TextCode.decode]

/-- **The built-in `base64`**: whatever the arrays hold at first, `encode` gives the standard
encoding and `decode` gets the message back; and text that is a standard encoding, but no other,
comes back from both. -/
theorem encode_decode_standard :
    (∀ junk message, encodeLoops junk message = standard.encode message) ∧
    (∀ junk junk' message, (encodeLoops junk message).length ≤ intMax →
      decode junk' (encodeLoops junk message) = message) ∧
    ∀ junk junk' text, text.length ≤ intMax →
      (encodeLoops junk (decode junk' text) = text ↔ standard.Canonical text) := by
  have hencode : ∀ junk message, encodeLoops junk message = standard.encode message := by
    intro junk message
    rw [encodeLoops_eq, encode_eq]
  refine ⟨hencode, fun junk junk' message hlen => ?_, fun junk junk' text hlen => ?_⟩
  · rw [decode_eq junk' hlen, hencode, standard.decode_encode]
  · rw [decode_eq junk' hlen, hencode, standard.canonical_iff]

/-- Five bytes, and back. -/
theorem encode_decode_standard_uvio :
    decode (.replicate 4 1) (encodeLoops (.replicate 3 1) (ascii "uvio!")) = ascii "uvio!" ∧
      encodeLoops (.replicate 3 1) (decode (.replicate 4 1) (ascii "dXZpbyE="))
        = ascii "dXZpbyE=" :=
  ⟨encode_decode_standard.2.1 _ _ _ (by decide +kernel),
    (encode_decode_standard.2.2 _ _ _ (by decide)).mpr ⟨ascii "uvio!", by decide +kernel⟩⟩

end Uvio.Base64
