import Mathlib.Data.List.GetD
import Uvio.Program.Octets

/-!
# Groups

A library for words that are cut into words of another size. It names no program.

- `bitsOf`, `groups`: the bits of a list of words, and bits taken in groups.
- `TextCode`: octets as text, with a letter for each group of at most eight bits. What was
  encoded is decoded (`TextCode.decode_encode`), and canonical text is what decoding and encoding
  leave as it is (`TextCode.canonical_iff`).
- `Filling`: a loop that collects items in a buffer, and empties the buffer whenever it is full
  (`Filling.run_spec`).
-/

namespace Uvio.Program

/-! ## Bits in groups -/

/-- The word whose bit `i`, counted from the left, is `f i`. -/
def wordOf : (w : Nat) → (Nat → Bool) → BitVec w
  | 0, _ => 0#0
  | w + 1, f => BitVec.cons (f 0) (wordOf w fun i => f (i + 1))

theorem getMsbD_wordOf {w : Nat} (f : Nat → Bool) {i : Nat} (h : i < w) :
    (wordOf w f).getMsbD i = f i := by
  induction w generalizing f i with
  | zero => cases h
  | succ w ih =>
    cases i with
    | zero => exact BitVec.getMsbD_cons_zero
    | succ i =>
      rw [wordOf, BitVec.getMsbD_cons_succ]
      exact ih _ (Nat.lt_of_succ_lt_succ h)

/-- The bits of the words one after the other, those of a word from the left. -/
def bitsOf {w : Nat} (words : List (BitVec w)) : List Bool :=
  words.flatMap fun word => (List.range w).map word.getMsbD

/-- The first `n` groups of `w` bits. Where the bits end, zeros are added on the right. -/
def groups (w n : Nat) (bits : List Bool) : List (BitVec w) :=
  (List.range n).map fun j => wordOf w fun i => bits.getD (w * j + i) false

variable {v w : Nat}

@[simp] theorem length_groups (w n : Nat) (bits : List Bool) : (groups w n bits).length = n := by
  simp [groups]

@[simp] theorem bitsOf_append (xs ys : List (BitVec w)) :
    bitsOf (xs ++ ys) = bitsOf xs ++ bitsOf ys :=
  List.flatMap_append

@[simp] theorem length_bitsOf (words : List (BitVec w)) :
    (bitsOf words).length = w * words.length := by
  induction words with
  | nil => rfl
  | cons word words ih =>
    rw [bitsOf, List.flatMap_cons, List.length_append, List.length_map, List.length_range,
      List.length_cons, Nat.mul_succ, Nat.add_comm]
    exact congrArg (· + w) ih

/-- Where a bit is: the word it is in, and its place there. -/
theorem getD_bitsOf (hw : 0 < w) (words : List (BitVec w)) (k : Nat) :
    (bitsOf words).getD k false = (words.getD (k / w) 0).getMsbD (k % w) := by
  induction words generalizing k with
  | nil => simp
  | cons word words ih =>
    rw [bitsOf, List.flatMap_cons]
    rcases Nat.lt_or_ge k w with hk | hk
    · rw [List.getD_append _ _ _ _ (by simpa using hk), Nat.div_eq_of_lt hk, Nat.mod_eq_of_lt hk]
      simp [List.getD_eq_getElem?_getD, hk]
    · obtain ⟨j, rfl⟩ := Nat.exists_eq_add_of_le hk
      rw [List.getD_append_right _ _ _ _ (by simp), List.length_map, List.length_range,
        Nat.add_sub_cancel_left, Nat.add_div_left _ hw, Nat.add_mod_left, List.getD_cons_succ]
      exact ih j

theorem getMsbD_groups {n j i : Nat} (bits : List Bool) (hj : j < n) (hi : i < w) :
    ((groups w n bits).getD j 0).getMsbD i = bits.getD (w * j + i) false := by
  have hget : (groups w n bits).getD j 0 = wordOf w fun i => bits.getD (w * j + i) false := by
    simp [groups, List.getD_eq_getElem?_getD, hj]
  rw [hget, getMsbD_wordOf _ hi]

/-- Lists of words with the same bits are equal. -/
theorem words_ext {xs ys : List (BitVec w)} (hlen : xs.length = ys.length)
    (h : ∀ j < xs.length, ∀ i < w, (xs.getD j 0).getMsbD i = (ys.getD j 0).getMsbD i) :
    xs = ys := by
  refine List.ext_getElem hlen fun j hj hj' => BitVec.eq_of_getMsbD_eq fun i hi => ?_
  have := h j hj i hi
  rwa [List.getD_eq_getElem _ _ hj, List.getD_eq_getElem _ _ hj'] at this

/-- Groups depend on the bits in them. -/
theorem groups_congr {n : Nat} {as bs : List Bool}
    (h : ∀ k < w * n, as.getD k false = bs.getD k false) : groups w n as = groups w n bs := by
  refine words_ext (by simp) fun j hj i hi => ?_
  rw [length_groups] at hj
  rw [getMsbD_groups _ hj hi, getMsbD_groups _ hj hi]
  refine h _ ?_
  calc w * j + i < w * j + w := Nat.add_lt_add_left hi _
    _ = w * (j + 1) := (Nat.mul_succ w j).symm
    _ ≤ w * n := Nat.mul_le_mul_left w hj

theorem take_groups {k n : Nat} (h : k ≤ n) (bits : List Bool) :
    (groups w n bits).take k = groups w k bits := by
  rw [groups, ← List.map_take, List.take_range, Nat.min_eq_left h, groups]

/-- Full groups come off the front. -/
theorem groups_append {k n : Nat} {as bs : List Bool} (h : as.length = w * k) :
    groups w (k + n) (as ++ bs) = groups w k as ++ groups w n bs := by
  have hfront : groups w k (as ++ bs) = groups w k as :=
    groups_congr fun i hi => List.getD_append _ _ _ _ (by rwa [h])
  have hrest : ∀ j i, (as ++ bs).getD (w * (k + j) + i) false = bs.getD (w * j + i) false := by
    intro j i
    rw [Nat.mul_add, Nat.add_assoc, ← h, List.getD_append_right _ _ _ _ (Nat.le_add_right _ _),
      Nat.add_sub_cancel_left]
  rw [← hfront]
  simp only [groups, List.range_add, List.map_append, List.map_map, Function.comp_def, hrest]

/-- Zeros at the end make no difference. -/
theorem groups_zeros (hv : 0 < v) (n k : Nat) (words : List (BitVec v)) :
    groups w n (bitsOf (words ++ List.replicate k 0)) = groups w n (bitsOf words) := by
  refine groups_congr fun i _ => ?_
  rw [getD_bitsOf hv, getD_bitsOf hv]
  congr 1
  rcases Nat.lt_or_ge (i / v) words.length with hi | hi
  · exact List.getD_append _ _ _ _ hi
  · rw [List.getD_append_right _ _ _ _ hi, List.getD_eq_default _ _ hi,
      List.getD_eq_getElem?_getD, List.getElem?_getD_replicate_default_eq]

/-- Grouping words as they were gives them back. -/
theorem groups_bitsOf (hw : 0 < w) (words : List (BitVec w)) :
    groups w words.length (bitsOf words) = words := by
  refine words_ext (by simp) fun j hj i hi => ?_
  rw [length_groups] at hj
  rw [getMsbD_groups _ hj hi, getD_bitsOf hw, Nat.mul_add_div hw, Nat.div_eq_of_lt hi, Nat.add_zero,
    Nat.mul_add_mod, Nat.mod_eq_of_lt hi]

/-- Bits that went through groups of another size are as they were, as far as the groups go. -/
theorem groups_bitsOf_groups (hv : 0 < v) {n k : Nat} (h : w * n ≤ v * k) (bits : List Bool) :
    groups w n (bitsOf (groups v k bits)) = groups w n bits := by
  refine groups_congr fun i hi => ?_
  have hlt : i / v < k := Nat.div_lt_of_lt_mul (Nat.lt_of_lt_of_le hi h)
  rw [getD_bitsOf hv, getMsbD_groups _ hlt (Nat.mod_lt _ hv), Nat.div_add_mod]

/-! ## Text -/

/-- A letter for each group of `v` bits, and a character that fills up the last `quantum`. -/
structure TextCode (v : Nat) where
  letter : BitVec v → Octet
  pad : Octet
  quantum : Nat
  letter_injective : Function.Injective letter
  letter_ne_pad : ∀ x, letter x ≠ pad
  pos : 0 < v
  le : v ≤ 8

namespace TextCode

/-- The groups of a message, the last filled up with zeros. -/
def groupsOf (v : Nat) (message : List Octet) : List (BitVec v) :=
  groups v ((8 * message.length + v - 1) / v) (bitsOf message)

/-- The whole octets in a list of groups. -/
def octetsOf (xs : List (BitVec v)) : List Octet := groups 8 (v * xs.length / 8) (bitsOf xs)

theorem octetsOf_eq {xs : List (BitVec v)} {n : Nat} (h : v * xs.length / 8 = n) :
    octetsOf xs = groups 8 n (bitsOf xs) := by
  rw [octetsOf, h]

theorem octetsOf_groupsOf (hpos : 0 < v) (hle : v ≤ 8) (message : List Octet) :
    octetsOf (groupsOf v message) = message := by
  have hlow : 8 * message.length ≤ v * ((8 * message.length + v - 1) / v) := by
    have := Nat.lt_mul_div_succ (8 * message.length + v - 1) hpos
    rw [Nat.mul_succ] at this
    omega
  have hhigh : v * ((8 * message.length + v - 1) / v) ≤ 8 * message.length + v - 1 :=
    Nat.mul_div_le _ _
  have hcount : v * (groupsOf v message).length / 8 = message.length := by
    rw [groupsOf, length_groups]
    omega
  rw [octetsOf, hcount, groupsOf, groups_bitsOf_groups hpos hlow, groups_bitsOf (by decide)]

theorem groupsOf_append (hpos : 0 < v) (front rest : List Octet) {k : Nat}
    (h : 8 * front.length = v * k) :
    groupsOf v (front ++ rest) = groups v k (bitsOf front) ++ groupsOf v rest := by
  have hcount : (8 * (front ++ rest).length + v - 1) / v = k + (8 * rest.length + v - 1) / v := by
    rw [List.length_append, Nat.mul_add, h, Nat.add_assoc, Nat.add_sub_assoc (by omega),
      Nat.mul_add_div hpos]
  rw [groupsOf, hcount, bitsOf_append, groups_append (by rw [length_bitsOf, h]), groupsOf]

theorem octetsOf_append (front rest : List (BitVec v)) {k : Nat} (h : v * front.length = 8 * k) :
    octetsOf (front ++ rest) = groups 8 k (bitsOf front) ++ octetsOf rest := by
  have hcount : v * (front ++ rest).length / 8 = k + v * rest.length / 8 := by
    rw [List.length_append, Nat.mul_add, h, Nat.mul_add_div (by decide)]
  rw [octetsOf, hcount, bitsOf_append, groups_append (by rw [length_bitsOf, h]), octetsOf]

variable (code : TextCode v)

/-- The padding behind `n` letters. -/
def padding (n : Nat) : List Octet :=
  List.replicate ((code.quantum - n % code.quantum) % code.quantum) code.pad

/-- A letter for each group, and padding. -/
def encode (message : List Octet) : List Octet :=
  (groupsOf v message).map code.letter ++ code.padding (groupsOf v message).length

theorem encode_eq {message : List Octet} {n : Nat} (h : (8 * message.length + v - 1) / v = n) :
    code.encode message = (groups v n (bitsOf message)).map code.letter ++ code.padding n := by
  rw [encode, groupsOf, length_groups, h]

/-- The group a letter stands for. -/
def value (c : Octet) : Option (BitVec v) :=
  ((List.range (2 ^ v)).map (BitVec.ofNat v)).find? fun x => code.letter x = c

/-- The groups the text stands for, up to the first character that is no letter. -/
def valuesOf : List Octet → List (BitVec v)
  | [] => []
  | c :: rest =>
    match code.value c with
    | some x => x :: valuesOf rest
    | none => []

/-- The octets the text stands for. -/
def decode (text : List Octet) : List Octet := octetsOf (code.valuesOf text)

theorem value_eq_some_iff {c : Octet} {x : BitVec v} :
    code.value c = some x ↔ code.letter x = c := by
  constructor
  · intro h
    simpa using List.find?_some h
  · rintro rfl
    have hx : x ∈ (List.range (2 ^ v)).map (BitVec.ofNat v) :=
      List.mem_map.mpr ⟨x.toNat, List.mem_range.mpr x.isLt,
        (BitVec.ofNat_toNat v x).trans x.setWidth_eq⟩
    cases hvalue : code.value (code.letter x) with
    | none => exact absurd (List.find?_eq_none.mp hvalue x hx) (by simp)
    | some y =>
      have hy : code.letter y = code.letter x := by simpa using List.find?_some hvalue
      rw [code.letter_injective hy]

theorem value_eq_none_iff {c : Octet} : code.value c = none ↔ ∀ x, code.letter x ≠ c := by
  rw [Option.eq_none_iff_forall_ne_some]
  exact forall_congr' fun x => not_congr (value_eq_some_iff code)

/-- Letters are read up to what is not one. -/
theorem valuesOf_letters (xs : List (BitVec v)) {rest : List Octet}
    (h : ∀ c ∈ rest.head?, code.value c = none) :
    code.valuesOf (xs.map code.letter ++ rest) = xs := by
  induction xs with
  | nil =>
    cases rest with
    | nil => rfl
    | cons c rest =>
      show code.valuesOf (c :: rest) = []
      rw [valuesOf, h c rfl]
  | cons x xs ih =>
    rw [List.map_cons, List.cons_append, valuesOf, (value_eq_some_iff code).mpr rfl, ih]

theorem decode_encode (message : List Octet) : code.decode (code.encode message) = message := by
  have hpad : ∀ c ∈ (code.padding (groupsOf v message).length).head?, code.value c = none := by
    intro c hc
    have hmem := List.mem_of_mem_head? hc
    rw [(List.mem_replicate.mp hmem).2]
    exact (value_eq_none_iff code).mpr code.letter_ne_pad
  rw [decode, encode, valuesOf_letters code _ hpad, octetsOf_groupsOf code.pos code.le]

/-- Whole quanta come off the front. -/
theorem encode_append (front rest : List Octet) {k : Nat} (h : 8 * front.length = v * k)
    (hk : code.quantum ∣ k) :
    code.encode (front ++ rest)
      = (groups v k (bitsOf front)).map code.letter ++ code.encode rest := by
  have hpad : code.padding (k + (groupsOf v rest).length)
      = code.padding (groupsOf v rest).length := by
    obtain ⟨q, rfl⟩ := hk
    rw [padding, Nat.mul_add_mod, padding]
  rw [encode, groupsOf_append code.pos _ _ h, List.map_append, List.length_append, length_groups,
    hpad, List.append_assoc, encode]

/-- Text that is the encoding of something. -/
def Canonical (text : List Octet) : Prop := ∃ message, code.encode message = text

/-- Canonical text is what comes back when it is decoded and encoded. -/
theorem canonical_iff (text : List Octet) :
    code.Canonical text ↔ code.encode (code.decode text) = text := by
  constructor
  · rintro ⟨message, rfl⟩
    rw [decode_encode]
  · intro h
    exact ⟨_, h⟩

end TextCode

/-! ## Filling a group -/

/-- What a loop keeps that collects items in a buffer of `n`, and empties the buffer when it is
full: the buffer, how many items are in it, and what came out. -/
structure Filling (n : Nat) (α β : Type) where
  buffer : Vector α n
  i : Nat
  out : List β
  room : i < n

namespace Filling

variable {n : Nat} {α β : Type}

/-- Before the first item. -/
def start (buffer : Vector α n) (h : 0 < n) : Filling n α β := ⟨buffer, 0, [], h⟩

/-- The items that are in the buffer. -/
def pending (s : Filling n α β) : List α := s.buffer.toList.take s.i

/-- One more item. `flush` says what comes out of a full buffer, and what it leaves there. -/
def push (flush : Vector α n → Vector α n × List β) (s : Filling n α β) (x : α) : Filling n α β :=
  let buffer := s.buffer.set s.i x s.room
  if _ : s.i + 1 = n then
    ⟨(flush buffer).1, 0, s.out ++ (flush buffer).2, Nat.zero_lt_of_lt s.room⟩
  else
    ⟨buffer, s.i + 1, s.out, Nat.lt_of_le_of_ne s.room ‹_›⟩

variable {flush : Vector α n → Vector α n × List β} {spec : List α → List β}

theorem pending_set (s : Filling n α β) (x : α) :
    (s.buffer.set s.i x s.room).toList.take (s.i + 1) = s.pending ++ [x] := by
  have hlen : s.i < s.buffer.toList.length := by simpa using s.room
  rw [Vector.toList_set, List.take_succ_eq_append_getElem (by simpa using hlen),
    List.take_set_of_le le_rfl, List.getElem_set_self, pending]

/-- Where `spec` does full groups as `flush` does, a step takes its item from what is to come. -/
theorem push_spec (hspec : ∀ group rest, spec (group.toList ++ rest) = (flush group).2 ++ spec rest)
    (s : Filling n α β) (x : α) (rest : List α) :
    (s.push flush x).out ++ spec ((s.push flush x).pending ++ rest)
      = s.out ++ spec (s.pending ++ x :: rest) := by
  have hpend := s.pending_set x
  unfold push
  by_cases hfull : s.i + 1 = n
  · rw [List.take_of_length_le (by simp [hfull])] at hpend
    have hflush := hspec (s.buffer.set s.i x s.room) rest
    rw [hpend, List.append_assoc, List.singleton_append] at hflush
    rw [dif_pos hfull, hflush]
    simp [pending]
  · rw [dif_neg hfull]
    show s.out ++ spec ((s.buffer.set s.i x s.room).toList.take (s.i + 1) ++ rest) = _
    rw [hpend, List.append_assoc, List.singleton_append]

/-- After the run, what is to come is what is in the buffer. -/
theorem run_spec (hspec : ∀ group rest, spec (group.toList ++ rest) = (flush group).2 ++ spec rest)
    (s : Filling n α β) (xs : List α) :
    (xs.foldl (push flush) s).out ++ spec (xs.foldl (push flush) s).pending
      = s.out ++ spec (s.pending ++ xs) := by
  induction xs generalizing s with
  | nil => simp
  | cons x xs ih => rw [List.foldl_cons, ih, push_spec hspec]

theorem run_start (hspec : ∀ group rest, spec (group.toList ++ rest) = (flush group).2 ++ spec rest)
    (buffer : Vector α n) (h : 0 < n) (xs : List α) :
    (xs.foldl (push flush) (start buffer h)).out
      ++ spec (xs.foldl (push flush) (start buffer h)).pending = spec xs :=
  run_spec hspec (start buffer h) xs

end Filling

end Uvio.Program
