import Uvio.Io.AnySource

/-!
# A reader over chunks that end

What the buffered reader does on a connection that delivers chunks of text and
then fails, chunk by chunk. Text is bytes without NUL, on which the search of
`find_flag_and_return_slice` stops at the zeros behind everything ever stored.

In front of these zeros there may be bytes read earlier: `reset_pos` leaves them
behind, and later chunks overwrite them from the front. `Holds` is the invariant
that keeps track of them, as long as there is room for what is still to come: the
size may be beyond `INT_MAX`, but not what `w_remaining()` makes of it below the
length of the text (`Fits`).

- `run_readUntil_of_some`, `run_readUntil_of_none`: as long as the search stays
  within the bytes received, `read_until` returns what it would return on the
  undivided bytes.
- `run_readUntil_of_overruns`: a search that runs past the bytes received sets
  `r_pos_` beyond `w_pos_`.
- `run_readExact_of_le`, `run_readExact_of_lt`: `read_exact` of at most two bytes,
  which leaves all it has seen behind if it takes the last byte received.
-/

namespace Uvio.Io

open Program

/-- A connection that delivers the given chunks and then fails. -/
def Inlet.thenFail (chunks : List Bytes) (e : Error) : Inlet :=
  ⟨chunks.map .data ++ [.fail e]⟩

theorem Inlet.thenFail_cons (c : Bytes) (chunks : List Bytes) (e : Error) :
    thenFail (c :: chunks) e = ⟨.data c :: (thenFail chunks e).events⟩ := rfl

theorem Inlet.undelivered_thenFail (chunks : List Bytes) (e : Error) :
    (thenFail chunks e).undelivered = chunks.flatten := by
  induction chunks with
  | nil => rfl
  | cons c chunks ih =>
    rw [thenFail_cons, undelivered_data, List.flatten_cons, ← ih]

theorem Inlet.length_lt_weight (chunks : List Bytes) (e : Error) :
    chunks.length < (thenFail chunks e).weight := by
  induction chunks with
  | nil => exact Nat.succ_pos _
  | cons c chunks ih =>
    rw [thenFail_cons, weight_data, List.length_cons]
    show chunks.length + 1 < c.length + 1 + (thenFail chunks e).weight
    omega

section Fronts

variable {P : Bytes → Prop} {mid c : Bytes} {front : List Bytes}

/-- No chunks have no shorter front. -/
theorem fronts_nil : ∀ a b : List Bytes, [] = a ++ b → b ≠ [] → P (mid ++ a.flatten) :=
  fun _ _ hsplit hb => absurd (List.append_eq_nil_iff.mp hsplit.symm).2 hb

/-- The fronts of more chunks: the empty one, and those that begin with the first
chunk. -/
theorem fronts_cons (hmid : P mid)
    (h : ∀ a b, front = a ++ b → b ≠ [] → P (mid ++ c ++ a.flatten)) :
    ∀ a b, c :: front = a ++ b → b ≠ [] → P (mid ++ a.flatten) := by
  intro a b hab hb
  cases a with
  | nil => rwa [List.flatten_nil, List.append_nil]
  | cons d a =>
    injection hab with hd hab
    rw [List.flatten_cons, ← List.append_assoc, ← hd]
    exact h a b hab hb

end Fronts

namespace BufReader

/-- The vector holds the bytes handed over, the bytes received, what is left behind
of bytes read earlier, and zeros. An `int` can count what is in front of the zeros, the
chunks still to come fit into `w_slice()`, and nothing but the zeros is NUL. -/
structure Holds (e : Error) (r : BufReader) (pre mid stale : Bytes) (chunks : List Bytes) :
    Prop where
  cut : ∃ k, 0 < k ∧ r.rStream.Cut pre mid (stale ++ List.replicate k 0)
  reach : pre.length + mid.length + stale.length ≤ intMax
  room : (chunks.flatten.length : Int) < r.rStream.wRemaining
  asserted : r.rStream.asserted = true
  io : r.io = .thenFail chunks e
  nonempty : ∀ c ∈ chunks, c ≠ []
  text : 0 ∉ pre ++ mid ++ stale ++ chunks.flatten

/-- The size as an `int` is more than the length of the stream: up to `INT_MAX`, if the size
itself is. -/
def Fits (size : Nat) (stream : Bytes) : Prop := (stream.length : Int) < castInt size

instance (size : Nat) (stream : Bytes) : Decidable (Fits size stream) :=
  inferInstanceAs (Decidable ((stream.length : Int) < castInt size))

theorem Fits.pos {size : Nat} {stream : Bytes} (h : Fits size stream) : 0 < size := by
  have hle := castInt_le size
  unfold Fits at h
  omega

theorem holds_new {chunks : List Bytes} (e : Error) {size : Nat} (hfits : Fits size chunks.flatten)
    (hne : ∀ c ∈ chunks, c ≠ []) (htext : 0 ∉ chunks.flatten) :
    Holds e (new (.thenFail chunks e) size) [] [] [] chunks where
  cut := ⟨size, hfits.pos, StreamBuffer.cut_new size⟩
  reach := Nat.zero_le _
  room := by
    show _ < castInt (List.replicate size (0 : Byte)).length - 0
    rw [List.length_replicate, Int.sub_zero]
    exact hfits
  asserted := rfl
  io := rfl
  nonempty := hne
  text := htext

section Holds

variable {e : Error} {r : BufReader} {pre mid stale : Bytes} {chunks : List Bytes}

theorem Holds.unread (h : Holds e r pre mid stale chunks) : r.unread = mid ++ chunks.flatten := by
  obtain ⟨k, -, hcut⟩ := h.cut
  rw [unread_of_cut hcut, h.io, Inlet.undelivered_thenFail]

theorem Holds.le_capacity (h : Holds e r pre mid stale chunks) {n : Nat} (hn : n ≤ pre.length) :
    n ≤ r.rStream.capacity := by
  obtain ⟨k, -, hcut⟩ := h.cut
  have hcap : r.rStream.capacity = _ := hcut.length
  omega

theorem Holds.length_lt_passes (h : Holds e r pre mid stale chunks) : chunks.length < r.passes := by
  unfold passes
  rw [h.io]
  exact Nat.lt_succ_of_lt (Inlet.length_lt_weight chunks e)

/-! ## Receiving a chunk -/

/-- The next chunk goes behind the bytes received, over what was left behind
there. -/
theorem Holds.run_readSlice {c : Bytes} (h : Holds e r pre mid stale (c :: chunks)) :
    ∃ r₁, readSlice.run r = .ok (.ok c.length, r₁) ∧
      Holds e { r₁ with rStream := r₁.rStream.wIncrease c.length } pre (mid ++ c)
        (stale.drop c.length) chunks := by
  obtain ⟨k, hk, hcut⟩ := h.cut
  have hroom := h.room
  rw [List.flatten_cons, List.length_append] at hroom
  have hlen : c.length < r.rStream.wSliceSize := StreamBuffer.lt_wSliceSize_iff.mpr (by omega)
  have hfill := hcut.fill (Nat.le_of_lt hlen)
  have hread : (Inlet.read r.rStream.wSliceSize).run r.io = .ok (.ok c, .thenFail chunks e) := by
    rw [h.io]
    exact if_pos (Nat.le_of_lt hlen)
  refine ⟨_, run_readSlice_of_ok hread, ?_, ?_, ?_, ?_, rfl, ?_, ?_⟩
  · -- a chunk longer than what was left behind takes some of the zeros
    have hle := hcut.wSliceSize_le
    rw [List.length_append, List.length_replicate] at hle
    refine ⟨k - (c.length - stale.length), by omega, ?_⟩
    rwa [List.drop_append, List.drop_replicate] at hfill
  · have hreach := h.reach
    have hfilled := hfill.reach
    rw [List.length_append] at hfilled ⊢
    rw [List.length_drop]
    omega
  · show _ < ((r.rStream.store c).wIncrease c.length).wRemaining
    rw [hfill.wRemaining, hcut.capacity_fill (Nat.le_of_lt hlen), List.length_append]
    rw [hcut.wRemaining] at hroom
    omega
  · exact (hcut.asserted_fill (Nat.le_of_lt hlen)).trans h.asserted
  · exact fun d hd => h.nonempty d (List.mem_cons_of_mem _ hd)
  · have htext := h.text
    simp only [List.flatten_cons, List.mem_append, not_or] at htext ⊢
    obtain ⟨⟨⟨hpre, hmid⟩, hstale⟩, hc, hchunks⟩ := htext
    exact ⟨⟨⟨hpre, hmid, hc⟩, fun hd => hstale (List.mem_of_mem_drop hd)⟩, hchunks⟩

/-! ## `read_until` -/

variable {flag : Bytes}

theorem Holds.notMem (h : Holds e r pre mid stale chunks) : 0 ∉ mid ++ stale := fun hmem =>
  h.text (List.mem_append_left _ (List.append_assoc pre mid stale ▸ List.mem_append_right _ hmem))

/-- The search covers what was left behind the bytes received. -/
theorem Holds.findFlag (h : Holds e r pre mid stale chunks) (hflag : flag ≠ []) :
    r.rStream.findFlagAndReturnSlice flag = through flag (mid ++ stale) := by
  obtain ⟨k, -, hcut⟩ := h.cut
  rw [StreamBuffer.findFlag_eq _ hflag, hcut.drop_rPos, ← List.append_assoc,
    StreamBuffer.cString_append_of_notMem h.notMem, StreamBuffer.cString_replicate,
    List.append_nil]

/-- A pass that finds the flag leaves with everything through it. -/
theorem Holds.run_readUntilPass_of_some (h : Holds e r pre mid stale chunks) (hflag : flag ≠ [])
    {pos : Nat} (hfind : find flag (mid ++ stale) = some pos) (buf : Bytes) :
    (readUntilPass buf flag ()).run r
      = .ok (.leave (buf ++ (mid ++ stale).take (pos + flag.length),
          .ok (buf ++ (mid ++ stale).take (pos + flag.length)).length),
        { r with rStream := r.rStream.rIncrease (pos + flag.length) }) := by
  have hslice : r.rStream.findFlagAndReturnSlice flag
      = (mid ++ stale).take (pos + flag.length) := by
    rw [h.findFlag hflag, through_of_find hfind]
  have hlen : ((mid ++ stale).take (pos + flag.length)).length = pos + flag.length :=
    List.length_take_of_le (find_le hfind hflag)
  have hne : r.rStream.findFlagAndReturnSlice flag ≠ [] := by
    rw [h.findFlag hflag, through_ne_nil_iff hflag, hfind]
    exact Option.some_ne_none pos
  rw [run_readUntilPass_of_found buf hne, hslice, hlen]

/-- A pass that finds nothing takes the next chunk. -/
theorem Holds.run_readUntilPass_of_none {c : Bytes} (h : Holds e r pre mid stale (c :: chunks))
    (hflag : flag ≠ []) (hfind : find flag (mid ++ stale) = none) (buf : Bytes) :
    ∃ r₁, (readUntilPass buf flag ()).run r = .ok (.again (), r₁) ∧
      Holds e r₁ pre (mid ++ c) (stale.drop c.length) chunks := by
  have hslice : r.rStream.findFlagAndReturnSlice flag = [] := by
    rw [h.findFlag hflag, through_of_find_none hfind]
  obtain ⟨r₁, hread, hr₁⟩ := h.run_readSlice
  exact ⟨_, run_readUntilPass_of_read buf hslice hread, hr₁⟩

/-- A pass that finds nothing behind the last chunk fails. -/
theorem Holds.run_readUntilPass_of_end (h : Holds e r pre mid stale []) (hflag : flag ≠ [])
    (hfind : find flag (mid ++ stale) = none) (buf : Bytes) :
    (readUntilPass buf flag ()).run r
      = .ok (.leave (buf, .error e), { r with io := ⟨[]⟩ }) := by
  have hslice : r.rStream.findFlagAndReturnSlice flag = [] := by
    rw [h.findFlag hflag, through_of_find_none hfind]
  have hread : (Inlet.read r.rStream.wSliceSize).run r.io = .ok (.error e, ⟨[]⟩) := by
    rw [h.io]
    rfl
  exact run_readUntilPass_of_fail buf hslice (run_readSlice_of_error hread)

/-- Once the chunks `front` are received, the flag is not in the bytes received,
but in these and what is left behind them. -/
def Overruns (flag mid stale : Bytes) (front : List Bytes) : Prop :=
  find flag (mid ++ front.flatten) = none ∧
    find flag (mid ++ front.flatten ++ stale.drop front.flatten.length) ≠ none

theorem overruns_cons {c : Bytes} {front : List Bytes} :
    Overruns flag mid stale (c :: front) ↔
      Overruns flag (mid ++ c) (stale.drop c.length) front := by
  unfold Overruns
  rw [List.flatten_cons, List.append_assoc mid c, List.drop_drop, List.length_append]

/-- The search stays within the bytes received, whenever it runs. -/
def Within (flag mid stale : Bytes) (chunks : List Bytes) : Prop :=
  ∀ front back, chunks = front ++ back → ¬ Overruns flag mid stale front

theorem Within.cons {c : Bytes} (h : Within flag mid stale (c :: chunks)) :
    Within flag (mid ++ c) (stale.drop c.length) chunks := by
  intro front back hsplit hover
  exact h (c :: front) back (by rw [hsplit]; rfl) (overruns_cons.mpr hover)

/-- With nothing left behind there is nothing to run into. -/
theorem within_nil : Within flag mid [] chunks := by
  rintro front back - ⟨hnone, hsome⟩
  rw [List.drop_nil, List.append_nil] at hsome
  exact hsome hnone

theorem Within.find_eq (h : Within flag mid stale chunks) (hflag : flag ≠ []) :
    find flag (mid ++ stale) = find flag mid := by
  have h0 : ¬ Overruns flag mid stale [] := h [] chunks rfl
  unfold Overruns at h0
  rw [List.flatten_nil, List.append_nil, List.length_nil, List.drop_zero] at h0
  cases hmid : find flag mid with
  | some pos => exact find_append_right hflag hmid stale
  | none =>
    by_contra hne
    exact h0 ⟨hmid, hne⟩

/-- A flag among the bytes received is found in the next pass. -/
theorem Holds.loop_of_received (h : Holds e r pre mid stale chunks) (hflag : flag ≠ [])
    {pos : Nat} (hfind : find flag mid = some pos) (buf : Bytes) {fuel : Nat} (hfuel : 0 < fuel) :
    ∃ r', (loop .spin (readUntilPass buf flag) fuel ()).run r
        = .ok ((buf ++ mid.take (pos + flag.length),
          .ok (buf ++ mid.take (pos + flag.length)).length), r') ∧
      Holds e r' (pre ++ mid.take (pos + flag.length)) (mid.drop (pos + flag.length)) stale
        chunks := by
  have hlen := find_le hfind hflag
  have hpass := h.run_readUntilPass_of_some hflag (find_append_right hflag hfind stale) buf
  rw [List.take_append_of_le_length hlen] at hpass
  obtain ⟨fuel, rfl⟩ := Nat.exists_eq_add_one.mpr hfuel
  obtain ⟨k, hk, hcut⟩ := h.cut
  have hinc := hcut.rIncrease hlen
  refine ⟨_, run_loop_leave hpass, ⟨k, hk, hinc⟩, ?_, h.room,
    (hcut.asserted_rIncrease hlen).trans h.asserted, h.io, h.nonempty, ?_⟩
  · have hreach := h.reach
    rw [List.length_append, List.length_take_of_le hlen, List.length_drop]
    omega
  · have htext := h.text
    rwa [List.append_assoc pre (mid.take _), List.take_append_drop]

/-- **A flag that is found** within the bytes received, by the loop of `read_until`
in the first pass in which they contain it. -/
theorem Holds.loop_of_some (h : Holds e r pre mid stale chunks) (hflag : flag ≠ [])
    (hwithin : Within flag mid stale chunks) {pos : Nat}
    (hfind : find flag (mid ++ chunks.flatten) = some pos) (buf : Bytes) {fuel : Nat}
    (hfuel : chunks.length < fuel) :
    ∃ r' front back taken mid', chunks = front ++ back ∧ mid ++ front.flatten = taken ++ mid' ∧
      taken.length = pos + flag.length ∧
      (∀ a b, front = a ++ b → b ≠ [] → find flag (mid ++ a.flatten) = none) ∧
      (loop .spin (readUntilPass buf flag) fuel ()).run r
        = .ok ((buf ++ taken, .ok (buf ++ taken).length), r') ∧
      Holds e r' (pre ++ taken) mid' (stale.drop front.flatten.length) back := by
  induction chunks generalizing r mid stale fuel with
  | nil =>
    rw [List.flatten_nil, List.append_nil] at hfind
    obtain ⟨r', hrun, hr'⟩ := h.loop_of_received hflag hfind buf hfuel
    refine ⟨r', [], [], _, _, rfl, ?_, List.length_take_of_le (find_le hfind hflag),
      fronts_nil (P := fun s => find flag s = none), hrun, hr'⟩
    rw [List.flatten_nil, List.append_nil, List.take_append_drop]
  | cons c chunks ih =>
    cases hmid : find flag mid with
    | some pos' =>
      obtain rfl : pos = pos' := by
        have := find_append_right hflag hmid (c :: chunks).flatten
        rw [hfind] at this
        exact Option.some.inj this
      obtain ⟨r', hrun, hr'⟩ := h.loop_of_received hflag hmid buf (Nat.zero_lt_of_lt hfuel)
      refine ⟨r', [], _, _, _, rfl, ?_, List.length_take_of_le (find_le hmid hflag),
        fronts_nil (P := fun s => find flag s = none), hrun, hr'⟩
      rw [List.flatten_nil, List.append_nil, List.take_append_drop]
    | none =>
      -- nor is it behind the bytes received, so the next chunk is taken
      have hnone := (hwithin.find_eq hflag).trans hmid
      obtain ⟨r₁, hpass, hr₁⟩ := h.run_readUntilPass_of_none hflag hnone buf
      rw [List.flatten_cons, ← List.append_assoc] at hfind
      obtain ⟨fuel, rfl⟩ := Nat.exists_eq_add_one.mpr (Nat.zero_lt_of_lt hfuel)
      obtain ⟨r', front, back, taken, mid', hsplit, hbytes, hlen, hmin, hrun, hr'⟩ :=
        ih hr₁ hwithin.cons hfind (Nat.lt_of_succ_lt_succ hfuel)
      refine ⟨r', c :: front, back, taken, mid', ?_, ?_, hlen,
        fronts_cons (P := fun s => find flag s = none) hmid hmin, ?_, ?_⟩
      · rw [hsplit]
        rfl
      · rw [List.flatten_cons, ← List.append_assoc, hbytes]
      · rw [run_loop_again hpass, hrun]
      · rwa [List.drop_drop, ← List.length_append, ← List.flatten_cons] at hr'

/-- A flag that never comes: everything stays to be read, next to the error. -/
theorem Holds.loop_of_none (h : Holds e r pre mid stale chunks) (hflag : flag ≠ [])
    (hwithin : Within flag mid stale chunks) (hfind : find flag (mid ++ chunks.flatten) = none)
    (buf : Bytes) {fuel : Nat} (hfuel : chunks.length < fuel) :
    ∃ r', (loop .spin (readUntilPass buf flag) fuel ()).run r = .ok ((buf, .error e), r') ∧
      r'.unread = mid ++ chunks.flatten ∧ r'.rStream.asserted = true := by
  induction chunks generalizing r mid stale fuel with
  | nil =>
    obtain ⟨fuel, rfl⟩ := Nat.exists_eq_add_one.mpr hfuel
    rw [List.flatten_nil, List.append_nil] at hfind
    have hpass := h.run_readUntilPass_of_end hflag ((hwithin.find_eq hflag).trans hfind) buf
    obtain ⟨k, -, hcut⟩ := h.cut
    exact ⟨_, run_loop_leave hpass, unread_of_cut hcut, h.asserted⟩
  | cons c chunks ih =>
    obtain ⟨fuel, rfl⟩ := Nat.exists_eq_add_one.mpr (Nat.zero_lt_of_lt hfuel)
    have hnone := (hwithin.find_eq hflag).trans (find_eq_none_of_append hflag hfind)
    obtain ⟨r₁, hpass, hr₁⟩ := h.run_readUntilPass_of_none hflag hnone buf
    rw [List.flatten_cons, ← List.append_assoc] at hfind
    obtain ⟨r', hrun, hun, hassert⟩ := ih hr₁ hwithin.cons hfind (Nat.lt_of_succ_lt_succ hfuel)
    refine ⟨r', ?_, ?_, hassert⟩
    · rw [run_loop_again hpass, hrun]
    · rw [hun, List.flatten_cons, List.append_assoc]

theorem Holds.loop_beyond (h : Holds e r pre mid stale chunks) (hflag : flag ≠ [])
    (hmid : find flag mid = none) (hsome : find flag (mid ++ stale) ≠ none) (buf : Bytes)
    {fuel : Nat} (hfuel : 0 < fuel) :
    ∃ out r', (loop .spin (readUntilPass buf flag) fuel ()).run r = .ok (out, r') ∧
      r'.rStream.asserted = false := by
  obtain ⟨fuel, rfl⟩ := Nat.exists_eq_add_one.mpr hfuel
  obtain ⟨pos, hpos⟩ := Option.ne_none_iff_exists'.mp hsome
  have hle := find_le hpos hflag
  -- the flag found ends behind the bytes received, or these would contain it
  have hbeyond : mid.length < pos + flag.length := by
    by_contra hle
    have := find_of_append hpos (Nat.le_of_not_lt hle)
    rw [hmid] at this
    cases this
  obtain ⟨k, -, hcut⟩ := h.cut
  refine ⟨_, _, run_loop_leave (h.run_readUntilPass_of_some hflag hpos buf), ?_⟩
  show (r.rStream.asserted &&
    decide (r.rStream.rPos + castInt (pos + flag.length) ≤ r.rStream.wPos)) = false
  have hint : pos + flag.length ≤ intMax := by
    have hreach := h.reach
    rw [List.length_append] at hle
    omega
  rw [castInt_of_le hint, hcut.rPos, hcut.wPos, Bool.and_eq_false_iff]
  refine Or.inr (decide_eq_false ?_)
  omega

/-- **A search that runs past the bytes received** sets `r_pos_` beyond `w_pos_`. -/
theorem Holds.loop_of_overruns (h : Holds e r pre mid stale chunks) (hflag : flag ≠ [])
    {front back : List Bytes} (hsplit : chunks = front ++ back)
    (hover : Overruns flag mid stale front) (buf : Bytes) {fuel : Nat}
    (hfuel : chunks.length < fuel) :
    ∃ out r', (loop .spin (readUntilPass buf flag) fuel ()).run r = .ok (out, r') ∧
      r'.rStream.asserted = false := by
  induction front generalizing r mid stale chunks fuel with
  | nil =>
    obtain ⟨hnone, hsome⟩ := hover
    rw [List.flatten_nil, List.append_nil] at hnone hsome
    exact h.loop_beyond hflag hnone hsome buf (Nat.zero_lt_of_lt hfuel)
  | cons c front ih =>
    have hmid := find_eq_none_of_append hflag hover.1
    by_cases hnone : find flag (mid ++ stale) = none
    · obtain ⟨fuel, rfl⟩ := Nat.exists_eq_add_one.mpr (Nat.zero_lt_of_lt hfuel)
      subst hsplit
      obtain ⟨r₁, hpass, hr₁⟩ := h.run_readUntilPass_of_none hflag hnone buf
      rw [run_loop_again hpass]
      exact ih hr₁ rfl (overruns_cons.mp hover) (Nat.lt_of_succ_lt_succ hfuel)
    · -- the search runs past the bytes received already here
      exact h.loop_beyond hflag hmid hnone buf (Nat.zero_lt_of_lt hfuel)

/-! ## `read_exact` -/

/-- A refill for a short request does not compact: there is room for a chunk. -/
theorem Holds.run_refill {c : Bytes} (h : Holds e r pre mid stale (c :: chunks)) {n : Nat}
    (hn : n ≤ 2) :
    ∃ r₁, (refill n).run r = .ok (.ok c.length, r₁) ∧
      Holds e r₁ pre (mid ++ c) (stale.drop c.length) chunks := by
  have hc := List.length_pos_iff.mpr (h.nonempty c List.mem_cons_self)
  have hcompact : ¬ r.rStream.wRemaining < castInt n := by
    have hroom := h.room
    rw [List.flatten_cons, List.length_append] at hroom
    rw [castInt_of_le (Nat.le_trans hn (by decide))]
    omega
  obtain ⟨r₁, hread, hr₁⟩ := h.run_readSlice
  refine ⟨_, ?_, hr₁⟩
  have hstay : (onStream fun b => ((), if b.wRemaining < castInt n then b.resetData else b)).run r
      = .ok ((), r) := by
    show Except.ok ((), { r with rStream := if r.rStream.wRemaining < castInt n then _ else _ }) = _
    rw [if_neg hcompact]
  unfold refill
  rw [Prog.run_bind_of_ok hstay, Prog.run_bind_of_ok hread]
  rfl

/-- A refill behind the last chunk fails, whether or not it compacts. -/
theorem Holds.run_refill_of_end (h : Holds e r pre mid stale []) (n : Nat) :
    ∃ r₁, (refill n).run r = .ok (.error e, r₁) ∧ r₁.unread = mid ∧ r₁.rStream.asserted = true := by
  obtain ⟨k, -, hcut⟩ := h.cut
  obtain ⟨pre', post', hcut', -⟩ := cut_compact n hcut
  have hread : (Inlet.read (compact n r.rStream).wSliceSize).run r.io = .ok (.error e, ⟨[]⟩) := by
    rw [h.io]
    rfl
  refine ⟨⟨⟨[]⟩, compact n r.rStream⟩, run_refill_of_error hread, ?_, ?_⟩
  · rw [unread_of_cut hcut']
    exact List.append_nil mid
  · show (compact n r.rStream).asserted = true
    unfold compact
    split
    · exact h.asserted
    · exact h.asserted

variable {buf : Bytes}

theorem Holds.castInt_le_rRemaining (h : Holds e r pre mid stale chunks) (hbuf : buf.length ≤ 2) :
    castInt buf.length ≤ r.rStream.rRemaining ↔ buf.length ≤ mid.length := by
  obtain ⟨k, -, hcut⟩ := h.cut
  rw [hcut.rRemaining, castInt_of_le (Nat.le_trans hbuf (by decide)), Int.ofNat_le]

/-- What is left after a read that took the first bytes received. -/
def Left (e : Error) (r : BufReader) (pre mid stale : Bytes) (chunks : List Bytes) : Prop :=
  (mid = [] → Holds e r [] [] (pre ++ stale) chunks) ∧ (mid ≠ [] → Holds e r pre mid stale chunks)

/-- The outcome of a `read_exact` of `n` bytes that are all there: it returns them,
and has received no more chunks than it needed. -/
def Exact (e : Error) (outcome : Except Stop ((Bytes × Result Unit) × BufReader)) (n : Nat)
    (pre mid stale : Bytes) (chunks : List Bytes) : Prop :=
  ∃ r' front back taken mid', chunks = front ++ back ∧ mid ++ front.flatten = taken ++ mid' ∧
    taken.length = n ∧
    (∀ a b, front = a ++ b → b ≠ [] → (mid ++ a.flatten).length < n) ∧
    outcome = .ok ((taken, .ok ()), r') ∧
    Left e r' (pre ++ taken) mid' (stale.drop front.flatten.length) back

theorem Exact.cons {outcome : Except Stop ((Bytes × Result Unit) × BufReader)} {c : Bytes} {n : Nat}
    (hmid : mid.length < n) (h : Exact e outcome n pre (mid ++ c) (stale.drop c.length) chunks) :
    Exact e outcome n pre mid stale (c :: chunks) := by
  obtain ⟨r', front, back, taken, mid', hsplit, hbytes, hlen, hmin, hout, hleft⟩ := h
  refine ⟨r', c :: front, back, taken, mid', ?_, ?_, hlen,
    fronts_cons (P := fun s => s.length < n) hmid hmin, hout, ?_⟩
  · rw [hsplit]
    rfl
  · rw [List.flatten_cons, ← List.append_assoc, hbytes]
  · rwa [List.drop_drop, ← List.length_append, ← List.flatten_cons] at hleft

/-- Handing over what is received. If that is everything, all of it stays behind. -/
theorem Holds.writeTo (h : Holds e r pre mid stale chunks) (hlen : buf.length ≤ mid.length) :
    ∃ r', (onStream fun b => b.writeTo buf).run r = .ok ((mid.take buf.length, buf.length), r') ∧
      Exact e (.ok ((mid.take buf.length, .ok ()), r')) buf.length pre mid stale chunks := by
  obtain ⟨k, hk, hcut⟩ := h.cut
  have hreach := h.reach
  have hcap : (r.rStream.writeTo buf).2.capacity = r.rStream.capacity :=
    StreamBuffer.length_buf_writeTo _ _
  have hassert := (hcut.asserted_writeTo buf).trans h.asserted
  have hrun : (onStream fun b => b.writeTo buf).run r
      = .ok ((r.rStream.writeTo buf).1, { r with rStream := (r.rStream.writeTo buf).2 }) := rfl
  rw [hcut.writeTo_fst_full hlen] at hrun
  refine ⟨_, hrun, _, [], chunks, mid.take buf.length, mid.drop buf.length, rfl, ?_,
    List.length_take_of_le hlen, fronts_nil (P := fun s => s.length < buf.length), rfl,
    fun hnil => ?_, fun hne => ?_⟩
  · rw [List.flatten_nil, List.append_nil, List.take_append_drop]
  · have hmid : mid.take buf.length = mid := by
      rw [← List.append_nil (mid.take _), ← hnil, List.take_append_drop]
    have hall := hcut.writeTo_all (List.drop_eq_nil_iff.mp hnil)
    have hroom := hcut.wRemaining_mono hall hcap (Nat.zero_le _)
    rw [← List.append_assoc] at hall
    rw [hmid]
    refine ⟨⟨k, hk, hall⟩, ?_, Int.lt_of_lt_of_le h.room hroom, hassert, h.io, h.nonempty, h.text⟩
    show 0 + 0 + (pre ++ mid ++ stale).length ≤ intMax
    rw [List.length_append, List.length_append]
    omega
  · have hlt : buf.length < mid.length := by
      by_contra hge
      exact hne (List.drop_eq_nil_of_le (Nat.le_of_not_lt hge))
    have hpart := hcut.writeTo_part hlt
    have hlength : (pre ++ mid.take buf.length).length + (mid.drop buf.length).length
        = pre.length + mid.length := by
      rw [List.length_append, List.length_take_of_le hlen, List.length_drop]
      omega
    have hroom := hcut.wRemaining_mono hpart hcap (Nat.le_of_eq hlength)
    refine ⟨⟨k, hk, hpart⟩, ?_, Int.lt_of_lt_of_le h.room hroom, hassert, h.io, h.nonempty, ?_⟩
    · rw [hlength]
      exact hreach
    · rw [List.append_assoc pre (mid.take _), List.take_append_drop]
      exact h.text

/-- The loop of `read_exact`, while less than asked for is received. -/
theorem Holds.loop_exact (h : Holds e r pre mid stale chunks) (hbuf : buf.length ≤ 2)
    (hmid : mid.length < buf.length) (hlen : buf.length ≤ (mid ++ chunks.flatten).length)
    {fuel : Nat} (hfuel : chunks.length < fuel) :
    Exact e ((loop .spin (readExactPass buf) fuel ()).run r) buf.length pre mid stale chunks := by
  induction chunks generalizing r mid stale fuel with
  | nil =>
    rw [List.flatten_nil, List.append_nil] at hlen
    omega
  | cons c chunks ih =>
    obtain ⟨fuel, rfl⟩ := Nat.exists_eq_add_one.mpr (Nat.zero_lt_of_lt hfuel)
    obtain ⟨r₁, hrefill, hr₁⟩ := h.run_refill hbuf
    rw [List.flatten_cons, ← List.append_assoc] at hlen
    refine Exact.cons hmid ?_
    by_cases hdone : buf.length ≤ (mid ++ c).length
    · obtain ⟨r', hwrite, hexact⟩ := hr₁.writeTo hdone
      have hfull := (hr₁.castInt_le_rRemaining hbuf).mpr hdone
      rw [run_loop_leave (run_readExactPass_of_full hrefill hfull hwrite)]
      exact hexact
    · have hshort := fun hle => hdone ((hr₁.castInt_le_rRemaining hbuf).mp hle)
      rw [run_loop_again (run_readExactPass_of_short hrefill hshort)]
      exact ih hr₁ (Nat.lt_of_not_le hdone) hlen (Nat.lt_of_succ_lt_succ hfuel)

/-- The loop of `read_exact` when the chunks end too early. -/
theorem Holds.loop_short (h : Holds e r pre mid stale chunks) (hbuf : buf.length ≤ 2)
    (hlen : (mid ++ chunks.flatten).length < buf.length) {fuel : Nat}
    (hfuel : chunks.length < fuel) :
    ∃ r', (loop .spin (readExactPass buf) fuel ()).run r = .ok ((buf, .error e), r') ∧
      r'.unread = mid ++ chunks.flatten ∧ r'.rStream.asserted = true := by
  induction chunks generalizing r mid stale fuel with
  | nil =>
    obtain ⟨fuel, rfl⟩ := Nat.exists_eq_add_one.mpr hfuel
    obtain ⟨r₁, hrefill, hun, hassert⟩ := h.run_refill_of_end buf.length
    refine ⟨r₁, run_loop_leave (run_readExactPass_of_fail hrefill), ?_, hassert⟩
    rw [hun, List.flatten_nil, List.append_nil]
  | cons c chunks ih =>
    obtain ⟨fuel, rfl⟩ := Nat.exists_eq_add_one.mpr (Nat.zero_lt_of_lt hfuel)
    obtain ⟨r₁, hrefill, hr₁⟩ := h.run_refill hbuf
    rw [List.flatten_cons, ← List.append_assoc] at hlen
    have hshort : ¬ buf.length ≤ (mid ++ c).length := by
      rw [List.length_append] at hlen
      omega
    have hpass := run_readExactPass_of_short hrefill
      fun hle => hshort ((hr₁.castInt_le_rRemaining hbuf).mp hle)
    obtain ⟨r', hrun, hun, hassert⟩ := ih hr₁ hlen (Nat.lt_of_succ_lt_succ hfuel)
    refine ⟨r', ?_, ?_, hassert⟩
    · rw [run_loop_again hpass, hrun]
    · rw [hun, List.flatten_cons, List.append_assoc]

/-! ## The two calls -/

theorem Holds.run_readUntil_of_some (h : Holds e r pre mid stale chunks) (hflag : flag ≠ [])
    (hwithin : Within flag mid stale chunks) {pos : Nat}
    (hfind : find flag (mid ++ chunks.flatten) = some pos) (buf : Bytes) :
    ∃ r' front back taken mid', chunks = front ++ back ∧ mid ++ front.flatten = taken ++ mid' ∧
      taken.length = pos + flag.length ∧
      (∀ a b, front = a ++ b → b ≠ [] → find flag (mid ++ a.flatten) = none) ∧
      (readUntil buf flag).run r = .ok ((buf ++ taken, .ok (buf ++ taken).length), r') ∧
      Holds e r' (pre ++ taken) mid' (stale.drop front.flatten.length) back :=
  h.loop_of_some hflag hwithin hfind buf h.length_lt_passes

theorem Holds.run_readUntil_of_none (h : Holds e r pre mid stale chunks) (hflag : flag ≠ [])
    (hwithin : Within flag mid stale chunks) (hfind : find flag (mid ++ chunks.flatten) = none)
    (buf : Bytes) :
    ∃ r', (readUntil buf flag).run r = .ok ((buf, .error e), r') ∧
      r'.unread = mid ++ chunks.flatten ∧ r'.rStream.asserted = true :=
  h.loop_of_none hflag hwithin hfind buf h.length_lt_passes

theorem Holds.run_readUntil_of_overruns (h : Holds e r pre mid stale chunks) (hflag : flag ≠ [])
    {front back : List Bytes} (hsplit : chunks = front ++ back)
    (hover : Overruns flag mid stale front) (buf : Bytes) :
    ∃ out r', (readUntil buf flag).run r = .ok (out, r') ∧ r'.rStream.asserted = false :=
  h.loop_of_overruns hflag hsplit hover buf h.length_lt_passes

theorem Holds.run_readExact_of_le (h : Holds e r pre mid stale chunks) (hbuf : buf.length ≤ 2)
    (hcap : buf.length ≤ r.rStream.capacity) (hlen : buf.length ≤ (mid ++ chunks.flatten).length) :
    Exact e ((readExact buf).run r) buf.length pre mid stale chunks := by
  unfold readExact
  rw [Prog.run_bind_of_ok (Prog.run_get r), if_neg (Nat.not_lt.mpr hcap)]
  by_cases hmid : buf.length ≤ mid.length
  · obtain ⟨r', hwrite, hexact⟩ := h.writeTo hmid
    rw [if_pos ((h.castInt_le_rRemaining hbuf).mpr hmid), Prog.run_bind_of_ok hwrite]
    exact hexact
  · rw [if_neg fun hle => hmid ((h.castInt_le_rRemaining hbuf).mp hle)]
    exact h.loop_exact hbuf (Nat.lt_of_not_le hmid) hlen h.length_lt_passes

theorem Holds.run_readExact_of_lt (h : Holds e r pre mid stale chunks) (hbuf : buf.length ≤ 2)
    (hcap : buf.length ≤ r.rStream.capacity) (hlen : (mid ++ chunks.flatten).length < buf.length) :
    ∃ r', (readExact buf).run r = .ok ((buf, .error e), r') ∧
      r'.unread = mid ++ chunks.flatten ∧ r'.rStream.asserted = true := by
  have hmid : ¬ buf.length ≤ mid.length := by
    rw [List.length_append] at hlen
    omega
  unfold readExact
  rw [Prog.run_bind_of_ok (Prog.run_get r), if_neg (Nat.not_lt.mpr hcap),
    if_neg fun hle => hmid ((h.castInt_le_rRemaining hbuf).mp hle)]
  exact h.loop_short hbuf hlen h.length_lt_passes

end Holds

end BufReader

end Uvio.Io
