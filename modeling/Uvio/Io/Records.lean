import Uvio.Io.FlagSearch

/-!
# Reading records

A session of `read_until` calls, one for each record of a stream of text. As
`read_until` compacts nothing and resets nothing, `w_pos_` only grows: every byte
that passes through the reader uses up a byte of the vector for good, and the text
the search looks at must end within it.

- `Streams`: the invariant. Behind `w_pos_` the vector is as it was made, so a search
  sees exactly the readable bytes.
- `returns_iff`: every record comes back exactly if all of them together fit, with a
  byte to spare.
-/

namespace Uvio.Io

open Program

/-- Text that ends in the first flag it contains. -/
structure IsRecord (flag x : Bytes) : Prop where
  first : ShortestThrough flag x x
  text : 0 ∉ x

theorem IsRecord.ne_nil {flag x : Bytes} (h : IsRecord flag x) (hflag : flag ≠ []) : x ≠ [] := by
  rintro rfl
  exact hflag (List.suffix_nil.mp h.first.2.1)

namespace BufReader

/-- The search of a pass ends within the vector, and if it finds nothing there is room
to read into. -/
def Roomy (flag : Bytes) (r : BufReader) : Prop :=
  0 ∈ r.rStream.buf.drop r.rStream.rPos.toNat ∧
    (r.rStream.findFlagAndReturnSlice flag = [] → 0 < r.rStream.wRemaining)

/-- A session of `read_until` calls that returns these records one by one, without ever
reading into an empty span. -/
def Returns (flag : Bytes) : List Bytes → BufReader → Prop
  | [], _ => True
  | x :: xs, r =>
    EachPass (readUntilPass [] flag) (fun _ r => Roomy flag r) r.passes () r ∧
      ∃ r', (readUntil [] flag).run r = .ok ((x, .ok x.length), r') ∧ Returns flag xs r'

/-- A reader of `size` bytes in the middle of a session: `pre` was handed over, `mid` is
in the buffer, nothing was stored behind it yet, and `stream` is what is to be handed
over. -/
structure Streams (size : Nat) (pre mid : Bytes) (k : Nat) (stream : Bytes) (r : BufReader) :
    Prop where
  cut : r.rStream.Cut pre mid (List.replicate k 0)
  capacity : r.rStream.capacity = size
  whole : mid ++ r.io.undelivered = stream
  flowing : r.io.Flowing
  text : 0 ∉ stream
  reach : pre.length + mid.length = 0 ∨ ((pre.length + mid.length : Nat) : Int) ≤ castInt size

theorem streams_new (size : Nat) {io : Inlet} (hio : io.Flowing) (htext : 0 ∉ io.undelivered) :
    Streams size [] [] size io.undelivered (new io size) where
  cut := StreamBuffer.cut_new size
  capacity := List.length_replicate
  whole := rfl
  flowing := hio
  text := htext
  reach := Or.inl rfl

/-- A read of a flowing inlet into `w_slice()`. -/
theorem readSlice_flowing (r : BufReader) (hio : r.io.Flowing) :
    Meets readSlice r
      (fun ret r' => ∃ bs, ret = .ok bs.length ∧ bs.length ≤ r.rStream.wSliceSize ∧
        r'.rStream = r.rStream.store bs ∧ r.io.undelivered = bs ++ r'.io.undelivered ∧
        r'.io.Flowing ∧ (0 < r.rStream.wSliceSize → r'.io.weight < r.io.weight))
      fun e => e = .pending ∧ r.io.undelivered = [] := by
  unfold readSlice
  rw [meets_bind, meets_get]
  refine (onIo_meets (Inlet.read_meets hio _)).bind (fun _ he => he) ?_
  rintro ret r' ⟨⟨bs, rfl, hlen, -, hdel, hio', hw⟩, hr'⟩
  exact ⟨bs, rfl, hlen, congrArg (·.store bs) hr', hdel, hio', hw⟩

section Streams

variable {size k : Nat} {pre mid stream x rest flag buf : Bytes} {r : BufReader}

theorem Streams.size_eq (h : Streams size pre mid k stream r) :
    size = pre.length + mid.length + k := by
  have hlen := h.cut.length
  rw [List.length_replicate] at hlen
  rw [← h.capacity]
  exact hlen

theorem Streams.mid_prefix (h : Streams size pre mid k stream r) : mid <+: stream := by
  rw [← h.whole]
  exact List.prefix_append _ _

theorem Streams.notMem (h : Streams size pre mid k stream r) : 0 ∉ mid := fun hmem =>
  h.text (h.mid_prefix.subset hmem)

theorem Streams.drop_rPos (h : Streams size pre mid k stream r) :
    r.rStream.buf.drop r.rStream.rPos.toNat = mid ++ List.replicate k 0 := h.cut.drop_rPos

/-- The search sees the readable bytes. -/
theorem Streams.findFlag (h : Streams size pre mid k stream r) (hflag : flag ≠ []) :
    r.rStream.findFlagAndReturnSlice flag = through flag mid := by
  rw [StreamBuffer.findFlag_eq _ hflag, h.drop_rPos,
    StreamBuffer.cString_append_of_notMem h.notMem, StreamBuffer.cString_replicate,
    List.append_nil]

/-- It finds the next record if all of it is in the buffer. -/
theorem Streams.findFlag_of_le (h : Streams size pre mid k (x ++ rest) r) (hflag : flag ≠ [])
    (hx : IsRecord flag x) (hle : x.length ≤ mid.length) :
    r.rStream.findFlagAndReturnSlice flag = x := by
  have hshort := (hx.first.append rest).of_leading h.mid_prefix hle
  rw [h.findFlag hflag, through_spec]
  exact ⟨fun _ => hshort, fun hnot => absurd (hshort.2.1.isInfix.trans hshort.1.isInfix) hnot⟩

theorem Streams.findFlag_of_lt (h : Streams size pre mid k (x ++ rest) r) (hflag : flag ≠ [])
    (hx : IsRecord flag x) (hlt : mid.length < x.length) :
    r.rStream.findFlagAndReturnSlice flag = [] := by
  have hnot := (hx.first.append rest).not_isInfix h.mid_prefix hlt
  rw [h.findFlag hflag, through_spec]
  exact ⟨fun hocc => absurd hocc hnot, fun _ => rfl⟩

/-- A pass that has the record hands it over. -/
theorem Streams.pass_of_le (buf : Bytes) (h : Streams size pre mid k (x ++ rest) r)
    (hflag : flag ≠ []) (hx : IsRecord flag x) (hle : x.length ≤ mid.length) :
    ∃ r', (readUntilPass buf flag ()).run r
        = .ok (.leave (buf ++ x, .ok (buf ++ x).length), r') ∧
      Streams size (pre ++ x) (mid.drop x.length) k rest r' := by
  have hfind := h.findFlag_of_le hflag hx hle
  refine ⟨⟨r.io, r.rStream.rIncrease x.length⟩, ?_, ?_⟩
  · rw [run_readUntilPass_of_found buf (hfind.trans_ne (hx.ne_nil hflag)), hfind]
  · have hcut := h.cut.rIncrease hle
    have htake : mid.take x.length = x :=
      (List.prefix_iff_eq_take.mp (List.prefix_of_prefix_length_le (List.prefix_append x rest)
        h.mid_prefix hle)).symm
    have hlen := List.length_drop (i := x.length) (l := mid)
    rw [htake] at hcut
    refine ⟨hcut, h.capacity, ?_, h.flowing, fun hmem => h.text (List.mem_append_right x hmem), ?_⟩
    · have hstream := h.whole
      rw [← List.take_append_drop x.length mid, htake, List.append_assoc] at hstream
      exact List.append_cancel_left hstream
    · have hreach := h.reach
      rw [List.length_append]
      omega

/-- A pass that has only part of the record receives more of it, if there is room. -/
theorem Streams.pass_of_lt (h : Streams size pre mid k (x ++ rest) r) (hflag : flag ≠ [])
    (hx : IsRecord flag x) (hlt : mid.length < x.length) :
    Meets (readUntilPass buf flag ()) r
      (fun p r' => p = .again () ∧ (∃ mid' k', Streams size pre mid' k' (x ++ rest) r') ∧
        (0 < r.rStream.wRemaining → r'.io.weight < r.io.weight)) fun _ => False := by
  have hmore : r.io.undelivered ≠ [] := by
    intro hnil
    have hlen := congrArg List.length h.whole
    rw [hnil, List.append_nil, List.length_append] at hlen
    omega
  unfold readUntilPass
  rw [meets_bind, meets_get, h.findFlag_of_lt hflag hx hlt]
  refine (readSlice_flowing r h.flowing).bind (fun _ he => absurd he.2 hmore) ?_
  rintro ret r₁ ⟨bs, rfl, hroom, hr₁, hdel, hio₁, hw⟩
  have hle := hroom.trans h.cut.wSliceSize_le
  have hcut := h.cut.fill hroom
  rw [← hr₁, List.drop_replicate] at hcut
  rw [List.length_replicate] at hle
  dsimp only
  rw [meets_bind, meets_onStream]
  refine ⟨rfl, ⟨mid ++ bs, k - bs.length, ⟨hcut, ?_, ?_, hio₁, h.text, ?_⟩⟩, fun hw₀ => hw ?_⟩
  · rw [h.size_eq]
    refine hcut.length.trans ?_
    rw [List.length_append, List.length_replicate]
    omega
  · rw [List.append_assoc, ← hdel]
    exact h.whole
  · -- what was read fits behind `w_pos_`, as an `int`
    have hreach := h.reach
    unfold StreamBuffer.wSliceSize at hroom
    rw [h.cut.wRemaining, h.capacity] at hroom
    rw [List.length_append]
    omega
  · exact StreamBuffer.wSliceSize_pos hw₀

/-! ### One call -/

/-- While everything fits, there is room. -/
theorem Streams.roomy (h : Streams size pre mid k (x ++ rest) r) (hflag : flag ≠ [])
    (hx : IsRecord flag x) (hlt : pre.length + (x ++ rest).length < size)
    (hle : ((pre.length + (x ++ rest).length : Nat) : Int) ≤ castInt size) : Roomy flag r := by
  have hsize := h.size_eq
  have hmid := h.mid_prefix.length_le
  constructor
  · rw [h.drop_rPos, List.mem_append, List.mem_replicate]
    exact Or.inr ⟨by omega, rfl⟩
  · intro hnone
    have hshort : ¬ x.length ≤ mid.length := fun hfull => by
      rw [h.findFlag_of_le hflag hx hfull] at hnone
      exact hx.ne_nil hflag hnone
    rw [h.cut.wRemaining, h.capacity]
    rw [List.length_append] at hle
    omega

/-- There is a byte to spare whenever a pass that has room begins. -/
theorem Streams.spare (h : Streams size pre mid k stream r) (hroom : Roomy flag r) : 0 < k := by
  have hnul := hroom.1
  rw [h.drop_rPos, List.mem_append, List.mem_replicate] at hnul
  exact Nat.pos_of_ne_zero (hnul.resolve_left h.notMem).1

/-- A call returns the next record if everything fits. -/
theorem Streams.call (h : Streams size pre mid k (x ++ rest) r) (hflag : flag ≠ [])
    (hx : IsRecord flag x) (hlt : pre.length + (x ++ rest).length < size)
    (hle : ((pre.length + (x ++ rest).length : Nat) : Int) ≤ castInt size) :
    EachPass (readUntilPass [] flag) (fun _ r => Roomy flag r) r.passes () r ∧
      ∃ r', (readUntil [] flag).run r = .ok ((x, .ok x.length), r') ∧
        ∃ mid' k', Streams size (pre ++ x) mid' k' rest r' := by
  constructor
  · refine EachPass.of_invariant
      (fun _ r => ∃ mid k, Streams size pre mid k (x ++ rest) r) ?_ ?_ ⟨_, _, h⟩
    · rintro _ r₁ ⟨mid₁, k₁, h₁⟩
      exact h₁.roomy hflag hx hlt hle
    · rintro _ r₁ _ r₂ ⟨mid₁, k₁, h₁⟩ hrun
      by_cases hfull : x.length ≤ mid₁.length
      · obtain ⟨_, hrun', _⟩ := h₁.pass_of_le [] hflag hx hfull
        rw [hrun'] at hrun
        cases hrun
      · exact ((h₁.pass_of_lt hflag hx (Nat.lt_of_not_le hfull)).of_ok hrun).2.1
  · -- the variant is the weight of the inlet
    have hloop : Meets (loop .spin (readUntilPass [] flag) r.passes ()) r
        (fun out r' => out = (x, .ok x.length) ∧
          ∃ mid' k', Streams size (pre ++ x) mid' k' rest r') fun _ => False := by
      refine Meets.loop (fun n (_ : Unit) r => n = r.io.weight ∧
        ∃ mid k, Streams size pre mid k (x ++ rest) r) ?_ ⟨rfl, _, _, h⟩ (Nat.lt_succ_self _)
      rintro n ⟨⟩ r₁ ⟨rfl, mid₁, k₁, h₁⟩
      by_cases hfull : x.length ≤ mid₁.length
      · obtain ⟨r₂, hrun, h₂⟩ := h₁.pass_of_le [] hflag hx hfull
        exact (meets_of_ok hrun).mpr ⟨rfl, _, _, h₂⟩
      · have hnone := h₁.findFlag_of_lt hflag hx (Nat.lt_of_not_le hfull)
        have hroom := (h₁.roomy hflag hx hlt hle).2 hnone
        refine (h₁.pass_of_lt hflag hx (Nat.lt_of_not_le hfull)).mono ?_ fun _ he => he
        rintro _ r₂ ⟨rfl, h₂, hw⟩
        exact ⟨_, hw hroom, rfl, h₂⟩
    obtain ⟨_, r', hrun, rfl, h'⟩ := hloop.returns
    exact ⟨r', hrun, h'⟩

/-- A call that returned while there was room has left a byte to spare. -/
theorem Streams.of_call {r' : BufReader} (h : Streams size pre mid k (x ++ rest) r)
    (hflag : flag ≠ []) (hx : IsRecord flag x)
    (hroom : EachPass (readUntilPass [] flag) (fun _ r => Roomy flag r) r.passes () r)
    (hrun : (readUntil [] flag).run r = .ok ((x, .ok x.length), r')) :
    ∃ mid' k', Streams size (pre ++ x) mid' k' rest r' ∧ 0 < k' := by
  have hloop : Meets (loop .spin (readUntilPass [] flag) r.passes ()) r
      (fun _ r' => ∃ mid' k', Streams size (pre ++ x) mid' k' rest r' ∧ 0 < k')
      fun _ => True := by
    refine Meets.loop_of_eachPass
      (fun (_ : Unit) r => ∃ mid k, Streams size pre mid k (x ++ rest) r) True.intro ?_ ⟨_, _, h⟩ hroom
    rintro _ r₁ ⟨mid₁, k₁, h₁⟩ hroom₁
    by_cases hfull : x.length ≤ mid₁.length
    · obtain ⟨r₂, hrun, h₂⟩ := h₁.pass_of_le [] hflag hx hfull
      exact (meets_of_ok hrun).mpr ⟨_, _, h₂, h₁.spare hroom₁⟩
    · refine (h₁.pass_of_lt hflag hx (Nat.lt_of_not_le hfull)).mono ?_ fun _ he => he.elim
      rintro _ r₂ ⟨rfl, h₂, _⟩
      exact h₂
  exact hloop.of_ok hrun

end Streams

/-! ### A session -/

variable {size : Nat} {flag : Bytes}

theorem returns_of_fits (hflag : flag ≠ []) :
    ∀ {records : List Bytes} {pre mid : Bytes} {k : Nat} {r : BufReader},
      Streams size pre mid k records.flatten r → (∀ x ∈ records, IsRecord flag x) →
      pre.length + records.flatten.length < size →
      ((pre.length + records.flatten.length : Nat) : Int) ≤ castInt size →
      Returns flag records r := by
  intro records
  induction records with
  | nil => exact fun _ _ _ _ => True.intro
  | cons x xs ih =>
    intro pre mid k r h hrec hlt hle
    rw [List.flatten_cons] at h hlt hle
    rw [List.length_append] at hlt hle
    obtain ⟨hroom, r', hrun, mid', k', h'⟩ := h.call hflag (hrec x List.mem_cons_self)
      (by rwa [List.length_append]) (by rwa [List.length_append])
    refine ⟨hroom, r', hrun, ih h' (fun y hy => hrec y (List.mem_cons_of_mem _ hy)) ?_ ?_⟩
    · rw [List.length_append]
      omega
    · rw [List.length_append]
      omega

theorem fits_of_returns (hflag : flag ≠ []) :
    ∀ {records : List Bytes} {pre mid : Bytes} {k : Nat} {r : BufReader},
      Streams size pre mid k records.flatten r → (∀ x ∈ records, IsRecord flag x) →
      Returns flag records r → records ≠ [] →
      pre.length + records.flatten.length < size ∧
        ((pre.length + records.flatten.length : Nat) : Int) ≤ castInt size := by
  intro records
  induction records with
  | nil => exact fun _ _ _ hne => absurd rfl hne
  | cons x xs ih =>
    rintro pre mid k r h hrec ⟨hroom, r', hrun, hrest⟩ -
    have hx := hrec x List.mem_cons_self
    rw [List.flatten_cons] at h ⊢
    obtain ⟨mid', k', h', hk⟩ := h.of_call hflag hx hroom hrun
    rw [List.length_append]
    by_cases hnil : xs = []
    · -- the last record: the vector ends behind it
      subst hnil
      have hsize := h'.size_eq
      have hreach := h'.reach
      have hpos := List.length_pos_iff.mpr (hx.ne_nil hflag)
      have hmid := h'.mid_prefix.length_le
      rw [List.length_append] at hsize hreach
      rw [List.flatten_nil, List.length_nil] at hmid ⊢
      constructor <;> omega
    · have hih := ih h' (fun y hy => hrec y (List.mem_cons_of_mem _ hy)) hrest hnil
      rw [List.length_append] at hih
      constructor <;> omega

/-- **Records come back exactly if all of them together fit**, with a byte to spare;
where the capacity is not an `int`, they must not be longer than the capacity as one. -/
theorem returns_iff {records : List Bytes} {io : Inlet} (hflag : flag ≠ [])
    (hrec : ∀ x ∈ records, IsRecord flag x) (hio : io.Flowing)
    (hund : io.undelivered = records.flatten) :
    Returns flag records (new io size) ↔ records = [] ∨
      records.flatten.length < size ∧ (records.flatten.length : Int) ≤ castInt size := by
  have htext : 0 ∉ io.undelivered := by
    rw [hund, List.mem_flatten]
    rintro ⟨x, hx, hmem⟩
    exact (hrec x hx).text hmem
  have h := streams_new size hio htext
  rw [hund] at h
  constructor
  · intro hret
    by_cases hnil : records = []
    · exact Or.inl hnil
    · have hfits := fits_of_returns hflag h hrec hret hnil
      rw [List.length_nil, Nat.zero_add] at hfits
      exact Or.inr hfits
  · rintro (rfl | ⟨hlt, hle⟩)
    · exact True.intro
    · refine returns_of_fits hflag h hrec ?_ ?_
      · rwa [List.length_nil, Nat.zero_add]
      · rwa [List.length_nil, Nat.zero_add]

/-- The line `"a\n"`. -/
def line : Bytes := [97, 10]

theorem isRecord_line {n : Nat} : ∀ x ∈ List.replicate n line, IsRecord [10] x := by
  intro x hx
  obtain rfl := List.eq_of_mem_replicate hx
  exact ⟨shortestThrough_of_find (by decide : find [10] line = some 1), by decide⟩

/-- Two lines, the first of which arrives with a piece of the second. -/
theorem returns_iff_two :
    Returns [10] (List.replicate 2 line) (new (Inlet.ofChunks [[97, 10, 97], [10]]) 8) ↔
      List.replicate 2 line = [] ∨ (List.replicate 2 line).flatten.length < 8 ∧
        ((List.replicate 2 line).flatten.length : Int) ≤ castInt 8 :=
  returns_iff (by decide) isRecord_line (Inlet.flowing_ofChunks (by decide)) (by decide)

/-- Lines of two bytes through four bytes of buffer: the third is never returned. -/
theorem not_returns :
    ¬ ∀ (size : Nat) (flag : Bytes) (records : List Bytes) (io : Inlet), flag ≠ [] →
      (∀ x ∈ records, IsRecord flag x ∧ x.length < size) → io.Flowing →
      io.undelivered = records.flatten → Returns flag records (new io size) := by
  intro h
  have hio : (Inlet.ofChunks (List.replicate 3 line)).Flowing :=
    Inlet.flowing_ofChunks (by decide)
  have hshort : ∀ x ∈ List.replicate 3 line, x.length < 4 := by decide
  have hret := h 4 [10] (List.replicate 3 line) _ (by decide)
    (fun x hx => ⟨isRecord_line x hx, hshort x hx⟩) hio (by decide)
  have hnew : Streams 4 [] [] 4 (List.replicate 3 line).flatten
      (new (Inlet.ofChunks (List.replicate 3 line)) 4) := streams_new 4 hio (by decide)
  have hfits := fits_of_returns (by decide) hnew isRecord_line hret (by decide)
  revert hfits
  decide

end BufReader

end Uvio.Io
