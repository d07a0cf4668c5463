import Uvio.Codec.Http

/-!
# Header lines

`parse_headers` looks for the colon of a line in all of the text that is left, and computes
the length of the value from the end of the line. In a line without a colon it finds that of
a later line: the key then reaches across lines, and the length wraps, so that the value is
all of the rest.

- `lines`, `entryOf`: the entries there should be, line by line.
- `passes`, `passEntry`: what the loop adds.
- `parsedByLine_iff`: the blocks of which it adds the entries of the lines.
-/

namespace Uvio.Codec.Http

open Net.Http

/-! ## Lines and their entries -/

/-- The lines of a text: the longest runs without a line end. -/
def lines (block : Bytes) : List Bytes :=
  (block.splitOnP isLineEnd).filter fun line => !line.isEmpty

/-- The trimmed text in front of the first colon, and the trimmed rest. -/
def entryOf (line : Bytes) : Option (Bytes × Bytes) :=
  (line.findIdx? (· == 58)).map fun pos => (trim (line.take pos), trim (line.drop (pos + 1)))

/-- The text up to the first line end. -/
def firstLine (rest : Bytes) : Bytes := rest.takeWhile (!isLineEnd ·)

/-- What a pass of the loop leaves for the next one. -/
def behind (rest : Bytes) : Bytes := (rest.drop (skipTo isLineEnd rest 0)).dropWhile isLineEnd

/-- What a pass of the loop adds. -/
def passEntry (rest : Bytes) : Option (Bytes × Bytes) :=
  (rest.findIdx? (· == 58)).map fun colonPos =>
    (trim (substrTo rest 0 colonPos),
      trim (substrTo rest (colonPos + 1) (skipTo isLineEnd rest 0)))

theorem skipTo_eq (rest : Bytes) : skipTo isLineEnd rest 0 = (firstLine rest).length :=
  Nat.zero_add _

theorem firstLine_append (rest : Bytes) :
    firstLine rest ++ rest.dropWhile (!isLineEnd ·) = rest :=
  List.takeWhile_append_dropWhile

theorem behind_eq (rest : Bytes) :
    behind rest = (rest.dropWhile (!isLineEnd ·)).dropWhile isLineEnd := by
  have hdrop : rest.drop (firstLine rest).length = rest.dropWhile (!isLineEnd ·) := by
    conv_lhs => arg 2; rw [← firstLine_append rest]
    exact List.drop_left
  rw [behind, skipTo_eq, hdrop]

/-- A text is its first line, and then nothing or a line end. -/
theorem firstLine_cases (rest : Bytes) :
    rest = firstLine rest ∧ behind rest = [] ∨
      ∃ c tail, rest = firstLine rest ++ c :: tail ∧ isLineEnd c = true ∧
        behind rest = tail.dropWhile isLineEnd := by
  have hsplit := (firstLine_append rest).symm
  rw [behind_eq]
  cases htail : rest.dropWhile (!isLineEnd ·) with
  | nil =>
    rw [htail, List.append_nil] at hsplit
    exact Or.inl ⟨hsplit, rfl⟩
  | cons c tail =>
    have hc : isLineEnd c = true := by
      have hhead := List.head?_dropWhile_not (!isLineEnd ·) rest
      rw [htail] at hhead
      simpa using hhead
    rw [htail] at hsplit
    exact Or.inr ⟨c, tail, hsplit, hc, List.dropWhile_cons_of_pos hc⟩

theorem firstLine_lineFree (rest : Bytes) : ∀ c ∈ firstLine rest, isLineEnd c = false := by
  intro c hc
  simpa using List.mem_takeWhile_imp hc

/-- What is left begins with a line. -/
theorem firstLine_behind {rest : Bytes} (h : firstLine (behind rest) = []) : behind rest = [] := by
  rw [behind_eq] at h ⊢
  have hhead := List.head?_dropWhile_not isLineEnd (rest.dropWhile (!isLineEnd ·))
  cases hbehind : (rest.dropWhile (!isLineEnd ·)).dropWhile isLineEnd with
  | nil => rfl
  | cons c tail =>
    rw [hbehind] at h hhead
    have hc : isLineEnd c = false := by simpa using hhead
    rw [firstLine, List.takeWhile_cons_of_pos (by rw [hc]; rfl)] at h
    cases h

/-- A pass takes something off. -/
theorem length_behind_lt {rest : Bytes} (h : rest ≠ []) : (behind rest).length < rest.length := by
  rcases firstLine_cases rest with ⟨-, hnil⟩ | ⟨c, tail, hrest, -, hbehind⟩
  · rw [hnil]
    exact List.length_pos_of_ne_nil h
  · have hlen := congrArg List.length hrest
    have hle := (List.dropWhile_sublist isLineEnd (l := tail)).length_le
    rw [List.length_append, List.length_cons] at hlen
    rw [hbehind]
    omega

/-- The texts the passes begin with. -/
def passes (rest : Bytes) : List Bytes :=
  if rest = [] then [] else rest :: passes (behind rest)
termination_by rest.length
decreasing_by exact length_behind_lt ‹_›

theorem passes_nil : passes [] = [] := by
  rw [passes, if_pos rfl]

theorem passes_of_ne {rest : Bytes} (h : rest ≠ []) :
    passes rest = rest :: passes (behind rest) := by
  rw [passes, if_neg h]

/-- The loop adds an entry for each pass that finds a colon. -/
theorem parseHeadersFrom_inner {n : Nat} {rest : Bytes} (h : rest.length ≤ n)
    (header : HttpHeader) :
    (parseHeadersFrom n rest header).inner
      = header.inner ++ (passes rest).filterMap passEntry := by
  induction n generalizing rest header with
  | zero =>
    rw [List.length_eq_zero_iff.mp (Nat.le_zero.mp h), passes_nil]
    exact (List.append_nil _).symm
  | succ n ih =>
    by_cases hnil : rest = []
    · rw [hnil, passes_nil]
      exact (List.append_nil _).symm
    · have hlt := length_behind_lt hnil
      rw [parseHeadersFrom, if_neg (by simpa using hnil), passes_of_ne hnil, List.filterMap_cons]
      refine (ih (show (behind rest).length ≤ n by omega) _).trans ?_
      unfold passEntry
      cases rest.findIdx? (· == 58) with
      | none => rfl
      | some pos =>
        dsimp only [Option.map_some]
        rw [HttpHeader.inner_add, List.append_assoc]
        rfl

/-- The loop leaves after at most as many passes as there are characters. -/
theorem behind_iterate {n : Nat} {rest : Bytes} (h : rest.length ≤ n) :
    behind^[n] rest = [] := by
  induction n generalizing rest with
  | zero => exact List.length_eq_zero_iff.mp (Nat.le_zero.mp h)
  | succ n ih =>
    rw [Function.iterate_succ_apply]
    apply ih
    by_cases hnil : rest = []
    · rw [hnil]
      exact Nat.zero_le n
    · have := length_behind_lt hnil
      omega

/-! ## The lines, pass by pass -/

theorem lines_cons_end {c : Byte} (hc : isLineEnd c = true) (rest : Bytes) :
    lines (c :: rest) = lines rest := by
  have hnone : ∀ c ∈ ([] : Bytes), isLineEnd c = false := fun _ h => absurd h List.not_mem_nil
  have hsplit := List.splitOnP_append_cons_of_forall_mem hnone c hc rest
  unfold lines
  rw [List.nil_append] at hsplit
  rw [hsplit]
  rfl

theorem lines_dropWhile (rest : Bytes) : lines (rest.dropWhile isLineEnd) = lines rest := by
  induction rest with
  | nil => rfl
  | cons c rest ih =>
    cases hc : isLineEnd c with
    | true => rw [List.dropWhile_cons_of_pos hc, ih, lines_cons_end hc]
    | false => rw [List.dropWhile_cons_of_neg (by rw [hc]; decide)]

/-- A pass takes off one line, unless it begins with a line end. -/
theorem lines_eq (rest : Bytes) :
    lines rest = [firstLine rest].filter (!·.isEmpty) ++ lines (behind rest) := by
  rcases firstLine_cases rest with ⟨hrest, hnil⟩ | ⟨c, tail, hrest, hc, hbehind⟩
  · have hsingle := List.splitOnP_eq_singleton (firstLine_lineFree rest)
    have hempty : lines [] = [] := rfl
    rw [hnil, hempty, List.append_nil, ← hsingle, ← hrest]
    rfl
  · have hsplit := List.splitOnP_append_cons_of_forall_mem (firstLine_lineFree rest) c hc tail
    rw [← hrest] at hsplit
    rw [hbehind, lines_dropWhile]
    unfold lines
    rw [hsplit, ← List.filter_append]
    rfl

theorem lines_of_firstLine_nil {rest : Bytes} (h : firstLine rest = []) :
    lines rest = lines (behind rest) := by
  rw [lines_eq, h]
  rfl

theorem lines_of_firstLine_ne {rest : Bytes} (h : firstLine rest ≠ []) :
    lines rest = firstLine rest :: lines (behind rest) := by
  rw [lines_eq, List.filter_cons_of_pos (by simpa using h)]
  rfl

/-- The entries of the lines are those of the first lines of the passes. -/
theorem filterMap_lines (rest : Bytes) :
    (lines rest).filterMap entryOf = (passes rest).filterMap fun p => entryOf (firstLine p) := by
  induction rest using passes.induct with
  | case1 =>
    rw [passes_nil]
    rfl
  | case2 rest hne ih =>
    rw [passes_of_ne hne, List.filterMap_cons, ← ih]
    by_cases hline : firstLine rest = []
    · rw [lines_of_firstLine_nil hline, hline]
      rfl
    · rw [lines_of_firstLine_ne hline, List.filterMap_cons]

/-- The colons of a text are those of its lines. -/
theorem colon_mem_iff (rest : Bytes) :
    (58 : Byte) ∈ rest ↔ (58 : Byte) ∈ firstLine rest ∨ (58 : Byte) ∈ behind rest := by
  have hdrop : ∀ bs : Bytes, (58 : Byte) ∈ bs.dropWhile isLineEnd ↔ (58 : Byte) ∈ bs := by
    intro bs
    induction bs with
    | nil => rfl
    | cons c bs ih =>
      cases hc : isLineEnd c with
      | true =>
        have hne : (58 : Byte) ≠ c := by
          rintro rfl
          cases hc
        rw [List.dropWhile_cons_of_pos hc, ih, List.mem_cons, or_iff_right hne]
      | false => rw [List.dropWhile_cons_of_neg (by rw [hc]; decide)]
  conv_lhs => rw [← firstLine_append rest, List.mem_append]
  rw [behind_eq, hdrop]

theorem colon_mem_lines (rest : Bytes) :
    (58 : Byte) ∈ rest ↔ ∃ line ∈ lines rest, (58 : Byte) ∈ line := by
  induction rest using passes.induct with
  | case1 => simp [lines]
  | case2 rest hne ih =>
    rw [colon_mem_iff, ih]
    by_cases hline : firstLine rest = []
    · rw [lines_of_firstLine_nil hline, hline]
      simp
    · rw [lines_of_firstLine_ne hline]
      simp

/-! ## What a pass adds -/

theorem isSome_findColon (bs : Bytes) :
    (bs.findIdx? (· == 58)).isSome = true ↔ (58 : Byte) ∈ bs := by
  rw [List.findIdx?_isSome, List.any_eq_true]
  simp

theorem isSome_entryOf (line : Bytes) : (entryOf line).isSome = true ↔ (58 : Byte) ∈ line := by
  rw [entryOf, Option.isSome_map, isSome_findColon]

theorem isSome_passEntry (rest : Bytes) : (passEntry rest).isSome = true ↔ (58 : Byte) ∈ rest := by
  rw [passEntry, Option.isSome_map, isSome_findColon]

/-- A line with a colon gives its own entry. -/
theorem passEntry_of_mem {rest : Bytes} (h : (58 : Byte) ∈ firstLine rest) :
    passEntry rest = entryOf (firstLine rest) := by
  obtain ⟨pos, hpos⟩ := Option.isSome_iff_exists.mp ((isSome_findColon _).mpr h)
  have hlt : pos < (firstLine rest).length := (List.findIdx?_eq_some_iff_getElem.mp hpos).1
  have hrest : rest.findIdx? (· == 58) = some pos := by
    conv_lhs => rw [← firstLine_append rest, List.findIdx?_append, hpos]
    rfl
  have htake : ∀ k ≤ (firstLine rest).length, rest.take k = (firstLine rest).take k := by
    intro k hk
    conv_lhs => rw [← firstLine_append rest, List.take_append_of_le_length hk]
  have hkey : substrTo rest 0 pos = (firstLine rest).take pos := by
    rw [substrTo, if_pos (Nat.zero_le _), List.drop_zero, Nat.sub_zero, htake pos hlt.le]
  have hvalue : substrTo rest (pos + 1) (firstLine rest).length
      = (firstLine rest).drop (pos + 1) := by
    rw [substrTo, if_pos (Nat.succ_le_of_lt hlt), ← List.drop_take, htake _ le_rfl,
      List.take_length]
  rw [passEntry, entryOf, hrest, hpos, Option.map_some, Option.map_some, skipTo_eq, hkey, hvalue]

/-- Every pass that finds a colon finds it in its line. -/
def Aligned (block : Bytes) : Prop :=
  ∀ p ∈ passes block, (58 : Byte) ∈ p → (58 : Byte) ∈ firstLine p

/-- No line without a colon stands in front of one with a colon. -/
def Orderly (block : Bytes) : Prop :=
  (lines block).Pairwise fun line line' => (58 : Byte) ∈ line' → (58 : Byte) ∈ line

theorem aligned_iff (block : Bytes) :
    Aligned block ↔ Orderly block ∧ (firstLine block = [] → (58 : Byte) ∉ block) := by
  unfold Aligned Orderly
  induction block using passes.induct with
  | case1 =>
    rw [passes_nil]
    simp [lines]
  | case2 rest hne ih =>
    have hbegins : firstLine (behind rest) = [] → (58 : Byte) ∉ behind rest := by
      intro h
      rw [firstLine_behind h]
      exact List.not_mem_nil
    rw [passes_of_ne hne, List.forall_mem_cons, ih, and_iff_left hbegins]
    by_cases hline : firstLine rest = []
    · -- an entry that belongs to no line
      rw [lines_of_firstLine_nil hline, hline]
      simp [and_comm]
    · rw [lines_of_firstLine_ne hline, List.pairwise_cons,
        and_iff_left fun hnil => absurd hnil hline, colon_mem_iff, colon_mem_lines (behind rest)]
      refine and_congr_left fun _ => ?_
      constructor
      · exact fun h line hmem hcolon => h (Or.inr ⟨line, hmem, hcolon⟩)
      · rintro h (hfirst | ⟨line, hmem, hcolon⟩)
        · exact hfirst
        · exact h line hmem hcolon

/-! ## Blocks that are parsed line by line -/

/-- The loop ends; the entries are those of the lines with a colon, each once; and none
reaches across a line end. -/
structure ParsedByLine (block : Bytes) : Prop where
  terminates : behind^[block.length] block = []
  entries : (parseHeaders block).inner.Perm ((lines block).filterMap entryOf)
  lineFree : ∀ entry ∈ (parseHeaders block).inner, ∀ c ∈ entry.1 ++ entry.2, isLineEnd c = false

theorem parseHeaders_inner (block : Bytes) :
    (parseHeaders block).inner = (passes block).filterMap passEntry :=
  parseHeadersFrom_inner le_rfl .empty

theorem Aligned.inner_eq {block : Bytes} (h : Aligned block) :
    (parseHeaders block).inner = (lines block).filterMap entryOf := by
  rw [parseHeaders_inner, filterMap_lines]
  refine List.filterMap_congr fun p hp => ?_
  by_cases hcolon : (58 : Byte) ∈ firstLine p
  · exact passEntry_of_mem hcolon
  · have hnone : ¬ (58 : Byte) ∈ p := fun hmem => hcolon (h p hp hmem)
    rw [← isSome_passEntry, Option.not_isSome_iff_eq_none] at hnone
    rw [← isSome_entryOf, Option.not_isSome_iff_eq_none] at hcolon
    rw [hnone, hcolon]

/-- One entry for each line with a colon leaves none for other passes. -/
theorem ParsedByLine.aligned {block : Bytes} (h : ParsedByLine block) : Aligned block := by
  have hlen := h.entries.length_eq
  rw [parseHeaders_inner, filterMap_lines, List.length_filterMap_eq_countP,
    List.length_filterMap_eq_countP, List.countP_eq_length_filter,
    List.countP_eq_length_filter] at hlen
  have hsub := List.monotone_filter_right (passes block)
    (p := fun p => (entryOf (firstLine p)).isSome) (q := fun p => (passEntry p).isSome)
    fun p hp => (isSome_passEntry p).mpr
      ((colon_mem_iff p).mpr (Or.inl ((isSome_entryOf _).mp hp)))
  have heq := hsub.eq_of_length_le hlen.le
  intro p hp hcolon
  have hmem : p ∈ (passes block).filter fun p => (passEntry p).isSome :=
    List.mem_filter.mpr ⟨hp, (isSome_passEntry p).mpr hcolon⟩
  rw [← heq] at hmem
  exact (isSome_entryOf _).mp (List.mem_filter.mp hmem).2

theorem trim_subset (str : Bytes) : trim str ⊆ str := fun _ hc =>
  (List.dropWhile_sublist _).subset ((List.rdropWhile_prefix _ _).subset hc)

theorem lines_lineFree {block line : Bytes} (h : line ∈ lines block) :
    ∀ c ∈ line, isLineEnd c = false := by
  induction block using passes.induct with
  | case1 => cases h
  | case2 rest hne ih =>
    by_cases hline : firstLine rest = []
    · rw [lines_of_firstLine_nil hline] at h
      exact ih h
    · rw [lines_of_firstLine_ne hline] at h
      rcases List.mem_cons.mp h with rfl | h
      · exact firstLine_lineFree rest
      · exact ih h

theorem entryOf_subset {line : Bytes} {entry : Bytes × Bytes} (h : entryOf line = some entry) :
    entry.1 ++ entry.2 ⊆ line := by
  obtain ⟨pos, -, rfl⟩ := Option.map_eq_some_iff.mp h
  intro c hc
  rcases List.mem_append.mp hc with hc | hc
  · exact List.mem_of_mem_take (trim_subset _ hc)
  · exact List.mem_of_mem_drop (trim_subset _ hc)

/-- **The blocks that are parsed line by line**: no line without a colon stands in front of
one with a colon, and if the block begins with a line end there is no colon at all. -/
theorem parsedByLine_iff (block : Bytes) :
    ParsedByLine block ↔ Orderly block ∧ (firstLine block = [] → (58 : Byte) ∉ block) := by
  rw [← aligned_iff]
  constructor
  · exact ParsedByLine.aligned
  · intro h
    refine ⟨behind_iterate le_rfl, h.inner_eq ▸ .refl _, ?_⟩
    rw [h.inner_eq]
    intro entry hentry c hc
    obtain ⟨line, hline, hof⟩ := List.mem_filterMap.mp hentry
    exact lines_lineFree hline c (entryOf_subset hof hc)

/-- A line without a colon gives a second entry, which reaches across the line end. -/
theorem not_parsedByLine_colonless : ¬ ∀ block : Bytes, ParsedByLine block := by
  intro h
  have haligned := (h (ascii "a\r\nb: c")).aligned
  have hcolon := haligned (ascii "a\r\nb: c")
    (by rw [passes_of_ne (by decide)]; exact List.mem_cons_self) (by decide)
  revert hcolon
  decide

end Uvio.Codec.Http
