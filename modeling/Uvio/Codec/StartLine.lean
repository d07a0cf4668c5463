import Uvio.Codec.Http
import Uvio.Program.Cursor

/-!
# The start line, index by index

`parse_request_line` and `parse_status_line` with the positions of the line they look
at. A character a condition looks at twice is recorded once.

Every line has one of four shapes (`Shape`), and the shape says what the parsers return
and whether they stay within the line.

- `parseStartLine_reading`: the same result as the parser of the decoders, which is one
  function of the line.
- `parse_eq_ok_iff_splits`: the lines that are accepted, and what they are split into.
- `positions_lt_iff_two_blanks`: the lines `decode` passes that are only read up to
  their end.
-/

namespace Uvio.Codec.Http

open Program

namespace Indexed

/-- One loop, the test behind it, and the part that is taken. -/
def part (stop : Byte → Bool) (line : Bytes) (start : Nat) : Reads (Result (Bytes × Nat)) := do
  let stopAt ← scan 0 stop line start
  if stop (← index 0 line stopAt) then
    return .ok ((line.drop start).take (stopAt - start), stopAt + 1)
  else return .error .unclassified

/-- The body of both parsers. -/
def parseStartLine (line : Bytes) : Reads (Result (Bytes × Bytes × Bytes)) := do
  match ← part isBlank line 0 with
  | .error e => return .error e
  | .ok (first, start) =>
    match ← part isBlank line start with
    | .error e => return .error e
    | .ok (second, start) =>
      match ← part isLineEnd line start with
      | .error e => return .error e
      | .ok (third, _) => return .ok (first, second, third)

/-- `parse_request_line(line)`. -/
def parseRequestLine (line : Bytes) : Reads (Result (Bytes × Bytes × Bytes)) :=
  parseStartLine line

/-- `parse_status_line(line)`. -/
def parseStatusLine (line : Bytes) : Reads (Result (Bytes × Bytes × Bytes)) :=
  parseStartLine line

end Indexed

/-! ## One part -/

section Part

variable {stop : Byte → Bool} {line seg rest : Bytes} {c : Byte} {start : Nat}

theorem skipTo_of_drop (hdrop : line.drop start = seg ++ c :: rest)
    (hseg : ∀ d ∈ seg, stop d = false) (hc : stop c = true) :
    skipTo stop line start = start + seg.length := by
  rw [skipTo, hdrop, takeWhile_first hseg hc]

/-- A part that ends at its stop character, and what is left behind that. -/
theorem part_of_drop (hdrop : line.drop start = seg ++ c :: rest)
    (hseg : ∀ d ∈ seg, stop d = false) (hc : stop c = true) :
    part stop line start = .ok (seg, start + seg.length + 1) ∧
      line.drop (start + seg.length + 1) = rest := by
  have hget : line.getD (start + seg.length) 0 = c := by
    rw [List.getD_eq_getElem?_getD, ← List.getElem?_drop, hdrop,
      List.getElem?_append_right (Nat.le_refl _), Nat.sub_self]
    rfl
  constructor
  · unfold part
    rw [skipTo_of_drop hdrop hseg hc]
    dsimp only
    rw [hget, if_pos hc, Nat.add_sub_cancel_left, hdrop, List.take_left]
  · rw [Nat.add_assoc, ← List.drop_drop, hdrop, ← List.drop_drop, List.drop_left]
    rfl

/-- Without a stop character, the loop goes on to the end of the line, and behind that is
no stop character either. -/
theorem part_of_forall (h0 : stop 0 = false) (hnone : ∀ d ∈ line.drop start, stop d = false) :
    line.length ≤ skipTo stop line start ∧ part stop line start = .error .unclassified := by
  have htake : (line.drop start).takeWhile (!stop ·) = line.drop start := by
    refine List.takeWhile_eq_self_iff.mpr fun d hd => ?_
    rw [hnone d hd]
    rfl
  have hskip : line.length ≤ skipTo stop line start := by
    rw [skipTo, htake, List.length_drop]
    omega
  refine ⟨hskip, ?_⟩
  unfold part
  dsimp only
  rw [List.getD_eq_getElem?_getD, List.getElem?_eq_none hskip, Option.getD_none, h0]
  rfl

/-- **A part is read below `n`** if and only if its loop ends there. The loop itself stays
within the line. -/
theorem part_reading {n : Nat} (stop : Byte → Bool) (line : Bytes) (start : Nat)
    (hn : line.length ≤ n) :
    Reading n (Indexed.part stop line start) (part stop line start)
      (skipTo stop line start < n) := by
  have hscan := (scan_reading 0 stop line start).mono hn
  have htest := Reading.index (n := n) 0 line (skipTo stop line start)
  let stopAt := skipTo stop line start
  have hend : Reading n
      (if stop (line.getD stopAt 0) then
        pure (.ok ((line.drop start).take (stopAt - start), stopAt + 1))
      else pure (.error .unclassified)) (part stop line start) True := by
    unfold part
    dsimp only
    split
    next => exact .pure _ _
    next => exact .pure _ _
  exact (hscan.bind (htest.bind hend)).congr (by simp)

/-- A part that is found adds nothing to what is read beyond the line. -/
theorem part_bind_of_drop {β : Type} {f : Result (Bytes × Nat) → Reads β} {b : β} {W : Prop}
    (hdrop : line.drop start = seg ++ c :: rest) (hseg : ∀ d ∈ seg, stop d = false)
    (hc : stop c = true) (hf : Reading line.length (f (.ok (seg, start + seg.length + 1))) b W) :
    Reading line.length (Indexed.part stop line start >>= f) b W := by
  have hlen := congrArg List.length hdrop
  rw [List.length_drop, List.length_append, List.length_cons] at hlen
  have hread := part_reading stop line start (Nat.le_refl _)
  rw [(part_of_drop hdrop hseg hc).1, skipTo_of_drop hdrop hseg hc] at hread
  exact (hread.bind hf).congr (and_iff_right (by omega))

/-- A part that is not found is looked for behind the line, and then the parser is done. -/
theorem part_bind_of_forall {β : Type} {f : Result (Bytes × Nat) → Reads β} {b : β}
    (h0 : stop 0 = false) (hnone : ∀ d ∈ line.drop start, stop d = false)
    (hf : f (.error .unclassified) = pure b) :
    Reading line.length (Indexed.part stop line start >>= f) b False := by
  obtain ⟨hskip, hpart⟩ := part_of_forall h0 hnone
  have hread := part_reading stop line start (Nat.le_refl _)
  rw [hpart] at hread
  have hdone : Reading line.length (f (.error .unclassified)) b True := by
    rw [hf]
    exact .pure _ b
  refine (hread.bind hdone).congr (iff_false_intro fun h => ?_)
  exact Nat.not_lt.mpr hskip h.1

end Part

/-! ## The shapes of a line -/

theorem isBlank_iff {c : Byte} : isBlank c = true ↔ c = 32 := beq_iff_eq

theorem isBlank_eq_false_of_notMem {s : Bytes} (h : 32 ∉ s) : ∀ c ∈ s, isBlank c = false := by
  intro c hc
  rw [isBlank, beq_eq_false_iff_ne]
  rintro rfl
  exact h hc

/-- What there is in a line, with what a parser returns for it and whether it only reads
within it. -/
inductive Shape : Bytes → Result (Bytes × Bytes × Bytes) → Prop → Prop where
  | noBlank {line : Bytes} (hline : 32 ∉ line) : Shape line (.error .unclassified) False
  | oneBlank {first rest : Bytes} (hfirst : 32 ∉ first) (hrest : 32 ∉ rest) :
    Shape (first ++ 32 :: rest) (.error .unclassified) False
  | noEnd {first second rest : Bytes} (hfirst : 32 ∉ first) (hsecond : 32 ∉ second)
      (hrest : ∀ d ∈ rest, isLineEnd d = false) :
    Shape (first ++ 32 :: (second ++ 32 :: rest)) (.error .unclassified) False
  | complete {first second third rest : Bytes} {c : Byte} (hfirst : 32 ∉ first)
      (hsecond : 32 ∉ second) (hthird : ∀ d ∈ third, isLineEnd d = false)
      (hc : isLineEnd c = true) :
    Shape (first ++ 32 :: (second ++ 32 :: (third ++ c :: rest))) (.ok (first, second, third)) True

/-- A text without blank, or cut at its first one. -/
theorem notMem_or_first_blank (s : Bytes) :
    32 ∉ s ∨ ∃ front rest, s = front ++ 32 :: rest ∧ 32 ∉ front := by
  have hnotMem : ∀ {t : Bytes}, (∀ c ∈ t, isBlank c = false) → 32 ∉ t :=
    fun ht hmem => absurd (ht 32 hmem) (by decide)
  rcases first_or_none isBlank s with hnone | ⟨front, c, rest, rfl, hfront, hc⟩
  · exact Or.inl (hnotMem hnone)
  · obtain rfl := isBlank_iff.mp hc
    exact Or.inr ⟨front, rest, rfl, hnotMem hfront⟩

theorem exists_shape (line : Bytes) : ∃ r W, Shape line r W := by
  rcases notMem_or_first_blank line with hline | ⟨first, rest, rfl, hfirst⟩
  · exact ⟨_, _, .noBlank hline⟩
  rcases notMem_or_first_blank rest with hrest | ⟨second, rest, rfl, hsecond⟩
  · exact ⟨_, _, .oneBlank hfirst hrest⟩
  rcases first_or_none isLineEnd rest with hrest | ⟨third, c, rest, rfl, hthird, hc⟩
  · exact ⟨_, _, .noEnd hfirst hsecond hrest⟩
  · exact ⟨_, _, .complete hfirst hsecond hthird hc⟩

/-- **The shape decides** what a parser does. -/
theorem Shape.reading {line : Bytes} {r : Result (Bytes × Bytes × Bytes)} {W : Prop}
    (h : Shape line r W) : Reading line.length (Indexed.parseStartLine line) r W := by
  cases h with
  | noBlank hline =>
    exact part_bind_of_forall rfl (isBlank_eq_false_of_notMem hline) rfl
  | @oneBlank first rest hfirst hrest =>
    have hstart : (first ++ 32 :: rest).drop 0 = first ++ 32 :: rest := rfl
    obtain ⟨-, hdrop⟩ := part_of_drop hstart (isBlank_eq_false_of_notMem hfirst) rfl
    refine part_bind_of_drop hstart (isBlank_eq_false_of_notMem hfirst) rfl ?_
    refine part_bind_of_forall rfl ?_ rfl
    rw [hdrop]
    exact isBlank_eq_false_of_notMem hrest
  | @noEnd first second rest hfirst hsecond hrest =>
    have hstart : (first ++ 32 :: (second ++ 32 :: rest)).drop 0 = _ := rfl
    obtain ⟨-, hdrop⟩ := part_of_drop hstart (isBlank_eq_false_of_notMem hfirst) rfl
    obtain ⟨-, hdrop'⟩ := part_of_drop hdrop (isBlank_eq_false_of_notMem hsecond) rfl
    refine part_bind_of_drop hstart (isBlank_eq_false_of_notMem hfirst) rfl ?_
    refine part_bind_of_drop hdrop (isBlank_eq_false_of_notMem hsecond) rfl ?_
    refine part_bind_of_forall rfl ?_ rfl
    rw [hdrop']
    exact hrest
  | @complete first second third rest c hfirst hsecond hthird hc =>
    have hstart : (first ++ 32 :: (second ++ 32 :: (third ++ c :: rest))).drop 0 = _ := rfl
    obtain ⟨-, hdrop⟩ := part_of_drop hstart (isBlank_eq_false_of_notMem hfirst) rfl
    obtain ⟨-, hdrop'⟩ := part_of_drop hdrop (isBlank_eq_false_of_notMem hsecond) rfl
    refine part_bind_of_drop hstart (isBlank_eq_false_of_notMem hfirst) rfl ?_
    refine part_bind_of_drop hdrop (isBlank_eq_false_of_notMem hsecond) rfl ?_
    refine part_bind_of_drop hdrop' hthird hc ?_
    exact .pure _ _

theorem skipTo_le {stop : Byte → Bool} {line : Bytes} {start : Nat} (h : start ≤ line.length) :
    skipTo stop line start ≤ line.length := by
  have hle := (List.takeWhile_prefix (!stop ·) (l := line.drop start)).length_le
  rw [List.length_drop] at hle
  rw [skipTo]
  omega

/-- The next part begins within the line, or at its end. -/
theorem next_le_of_part {stop : Byte → Bool} {line : Bytes} {start : Nat} {p : Bytes × Nat}
    (h0 : stop 0 = false) (h : part stop line start = .ok p) : p.2 ≤ line.length := by
  unfold part at h
  dsimp only at h
  split at h
  next hstop =>
    cases h
    by_contra hlt
    rw [List.getD_eq_getElem?_getD, List.getElem?_eq_none (by omega), Option.getD_none, h0] at hstop
    cases hstop
  next => cases h

/-- **The loops return what the parser of the decoders returns**, and never look further than
at the NUL behind the line. -/
theorem parseStartLine_reading (line : Bytes) :
    Reading (line.length + 1) (Indexed.parseStartLine line) (parseStartLine line) True := by
  have hpart : ∀ (stop : Byte → Bool) (start : Nat), start ≤ line.length →
      Reading (line.length + 1) (Indexed.part stop line start) (part stop line start) True :=
    fun stop start hstart => (part_reading stop line start (Nat.le_succ _)).congr
      (iff_true_intro (Nat.lt_succ_of_le (skipTo_le hstart)))
  have hfirst := hpart isBlank 0 (Nat.zero_le _)
  unfold parseStartLine Indexed.parseStartLine
  cases hp : part isBlank line 0 with rw [hp] at hfirst
  | error e => exact hfirst.andThen (.pure _ _)
  | ok p =>
    have hsecond := hpart isBlank p.2 (next_le_of_part rfl hp)
    refine hfirst.andThen ?_
    dsimp only
    cases hq : part isBlank line p.2 with rw [hq] at hsecond
    | error e => exact hsecond.andThen (.pure _ _)
    | ok q =>
      have hthird := hpart isLineEnd q.2 (next_le_of_part rfl hq)
      refine hsecond.andThen ?_
      dsimp only
      cases ht : part isLineEnd line q.2 with rw [ht] at hthird
      | error e => exact hthird.andThen (.pure _ _)
      | ok t => exact hthird.andThen (.pure _ _)

theorem Shape.parseStartLine_eq {line : Bytes} {r : Result (Bytes × Bytes × Bytes)} {W : Prop}
    (h : Shape line r W) : parseStartLine line = r := by
  exact (parseStartLine_reading line).value_eq.symm.trans h.reading.value_eq

/-! ## What is accepted -/

/-- `first + ' ' + second + ' ' + third + t`, where `t` begins with the first CR or LF behind
the first two blanks. -/
def Splits (line : Bytes) : Bytes × Bytes × Bytes → Prop
  | (first, second, third) =>
    32 ∉ first ∧ 32 ∉ second ∧ 13 ∉ third ∧ 10 ∉ third ∧
      ∃ t, line = first ++ [32] ++ second ++ [32] ++ third ++ t ∧
        (t.head? = some 13 ∨ t.head? = some 10)

theorem isLineEnd_iff {c : Byte} : isLineEnd c = true ↔ c = 13 ∨ c = 10 := by
  rw [isLineEnd, Bool.or_eq_true, beq_iff_eq, beq_iff_eq]

/-- A line is split as it is returned. -/
theorem Shape.splits {line : Bytes} {parts : Bytes × Bytes × Bytes} {W : Prop}
    (h : Shape line (.ok parts) W) : Splits line parts := by
  cases h with
  | @complete _ _ _ rest c hfirst hsecond hthird hc =>
    refine ⟨hfirst, hsecond, fun h => ?_, fun h => ?_, c :: rest, ?_, ?_⟩
    · exact absurd (hthird 13 h) (by decide)
    · exact absurd (hthird 10 h) (by decide)
    · simp only [List.append_assoc, List.cons_append, List.nil_append]
    · rw [List.head?_cons, Option.some_inj, Option.some_inj]
      exact isLineEnd_iff.mp hc

theorem Splits.shape {line : Bytes} {parts : Bytes × Bytes × Bytes} (h : Splits line parts) :
    Shape line (.ok parts) True := by
  obtain ⟨first, second, third⟩ := parts
  obtain ⟨hfirst, hsecond, hcr, hlf, t, rfl, ht⟩ := h
  cases t with
  | nil => simp at ht
  | cons c rest =>
    rw [List.head?_cons, Option.some_inj, Option.some_inj] at ht
    have hthird : ∀ d ∈ third, isLineEnd d = false := by
      intro d hd
      rw [← Bool.not_eq_true, isLineEnd_iff]
      rintro (rfl | rfl)
      · exact hcr hd
      · exact hlf hd
    simp only [List.append_assoc, List.singleton_append]
    exact .complete hfirst hsecond hthird (isLineEnd_iff.mpr ht)

theorem value_eq_ok_iff_splits {line : Bytes} {parts : Bytes × Bytes × Bytes} :
    (Indexed.parseStartLine line).value = .ok parts ↔ Splits line parts := by
  constructor
  · intro h
    obtain ⟨r, W, hshape⟩ := exists_shape line
    obtain rfl := hshape.reading.value_eq.symm.trans h
    exact hshape.splits
  · exact fun h => h.shape.reading.value_eq

theorem value_eq_error_iff {line : Bytes} :
    (Indexed.parseStartLine line).value = .error .unclassified ↔
      ¬ ∃ parts, Splits line parts := by
  obtain ⟨r, W, hshape⟩ := exists_shape line
  constructor
  · rintro herror ⟨parts, h⟩
    rw [value_eq_ok_iff_splits.mpr h] at herror
    cases herror
  · intro hnone
    cases r with
    | ok parts => exact absurd ⟨parts, hshape.splits⟩ hnone
    | error e =>
      obtain rfl : e = .unclassified := by
        cases hshape <;> rfl
      exact hshape.reading.value_eq

/-- **The request line and the status line are accepted if and only if they can be split**,
and then into these parts and no others. -/
theorem parse_eq_ok_iff_splits (line : Bytes) :
    (∀ parts, (Indexed.parseRequestLine line).value = .ok parts ↔ Splits line parts) ∧
    (∀ parts, (Indexed.parseStatusLine line).value = .ok parts ↔ Splits line parts) ∧
    {parts | Splits line parts}.Subsingleton ∧
    ((Indexed.parseRequestLine line).value = .error .unclassified ↔
      ¬ ∃ parts, Splits line parts) ∧
    ((Indexed.parseStatusLine line).value = .error .unclassified ↔
      ¬ ∃ parts, Splits line parts) := by
  refine ⟨fun _ => value_eq_ok_iff_splits, fun _ => value_eq_ok_iff_splits, ?_,
    value_eq_error_iff, value_eq_error_iff⟩
  intro parts hparts parts' hparts'
  have hvalue := value_eq_ok_iff_splits.mpr hparts
  rw [value_eq_ok_iff_splits.mpr hparts'] at hvalue
  exact (Except.ok.inj hvalue).symm

/-! ## How far a line is read -/

/-- The line ends in its first CRLF. -/
def EndsInFirstCrlf (line : Bytes) : Prop :=
  ∃ pos, find crlf line = some pos ∧ line.length = pos + crlf.length

/-- These are the lines `decode` passes: what `read_until` takes off a stream. -/
theorem endsInFirstCrlf_iff {line : Bytes} :
    EndsInFirstCrlf line ↔ line ≠ [] ∧ ∃ stream, line = through crlf stream := by
  constructor
  · rintro ⟨pos, hfind, hlen⟩
    refine ⟨?_, line, ?_⟩
    · rintro rfl
      cases hlen
    · rw [through_of_find hfind, ← hlen, List.take_length]
  · rintro ⟨hne, stream, rfl⟩
    cases hfind : find crlf stream with
    | none => exact absurd (through_of_find_none hfind) hne
    | some pos =>
      have hle := find_le hfind (by decide)
      have hlen : (stream.take (pos + crlf.length)).length = pos + crlf.length :=
        List.length_take_of_le hle
      rw [through_of_find hfind]
      refine ⟨pos, ?_, hlen⟩
      rw [← List.take_append_drop (pos + crlf.length) stream] at hfind
      exact find_of_append hfind hlen.ge

theorem EndsInFirstCrlf.getLast? {line : Bytes} (h : EndsInFirstCrlf line) :
    line.getLast? = some 10 := by
  obtain ⟨pos, hfind, hlen⟩ := h
  have hlf := (find_eq_some_iff.mp hfind).1.getElem?_add (i := 1) (by decide)
  rw [List.getLast?_eq_getElem?, hlen]
  exact hlf

/-- In a line with an LF at its end, nothing is missing behind two blanks. -/
theorem Shape.within_iff {line : Bytes} {r : Result (Bytes × Bytes × Bytes)} {W : Prop}
    (h : Shape line r W) (hend : line.getLast? = some 10) : W ↔ 2 ≤ line.count 32 := by
  cases h with
  | noBlank hline =>
    rw [List.count_eq_zero.mpr hline]
    decide
  | oneBlank hfirst hrest =>
    rw [List.count_append, List.count_cons_self, List.count_eq_zero.mpr hfirst,
      List.count_eq_zero.mpr hrest]
    decide
  | @noEnd first second rest _ _ hrest =>
    -- the LF would have to be the second blank or behind it
    rw [List.getLast?_append_of_ne_nil _ (List.cons_ne_nil _ _), ← List.cons_append,
      List.getLast?_append_of_ne_nil _ (List.cons_ne_nil _ _)] at hend
    rcases List.mem_cons.mp (List.mem_of_getLast? hend) with heq | hmem
    · exact absurd heq (by decide)
    · exact absurd (hrest 10 hmem) (by decide)
  | complete =>
    simp only [List.count_append, List.count_cons_self, true_iff]
    omega

/-- A parser indexes the line only at positions below `line.size()`. -/
def WithinLine {β : Type} (parse : Bytes → Reads β) (line : Bytes) : Prop :=
  ∀ i ∈ (parse line).positions, i < line.length

theorem withinLine_parseStartLine_iff {line : Bytes} (h : EndsInFirstCrlf line) :
    WithinLine Indexed.parseStartLine line ↔ 2 ≤ line.count 32 := by
  obtain ⟨r, W, hshape⟩ := exists_shape line
  exact hshape.reading.forall_positions_iff.trans (hshape.within_iff h.getLast?)

/-- **The parsers stay within a line from `decode` if and only if it has two blanks.** If it
has not, one of the first two loops goes on to the end, and the test behind the loop looks at
what is there. -/
theorem positions_lt_iff_two_blanks (line : Bytes) (h : EndsInFirstCrlf line) :
    (WithinLine Indexed.parseRequestLine line ↔ 2 ≤ line.count 32) ∧
      (WithinLine Indexed.parseStatusLine line ↔ 2 ≤ line.count 32) :=
  ⟨withinLine_parseStartLine_iff h, withinLine_parseStartLine_iff h⟩

theorem positions_lt_get : WithinLine Indexed.parseRequestLine (ascii "GET / HTTP/1.1\r\n") ∧
    WithinLine Indexed.parseStatusLine (ascii "GET / HTTP/1.1\r\n") := by
  have hline : EndsInFirstCrlf (ascii "GET / HTTP/1.1\r\n") := ⟨14, by decide, by decide⟩
  obtain ⟨hrequest, hstatus⟩ := positions_lt_iff_two_blanks _ hline
  exact ⟨hrequest.mpr (by decide), hstatus.mpr (by decide)⟩

/-- Without a blank, the character behind the line is looked at. -/
theorem positions_not_lt : ¬ ∀ line, EndsInFirstCrlf line →
    WithinLine Indexed.parseRequestLine line ∧ WithinLine Indexed.parseStatusLine line := by
  intro h
  have hline : EndsInFirstCrlf (ascii "GET\r\n") := ⟨3, by decide, by decide⟩
  have hblanks := (withinLine_parseStartLine_iff hline).mp (h _ hline).1
  exact absurd hblanks (by decide)

end Uvio.Codec.Http
