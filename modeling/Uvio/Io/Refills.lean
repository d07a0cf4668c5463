import Uvio.Io.AnySource

/-!
# The refill loop of `read_exact`

A destination of `n` bytes that fits the buffer is filled by the loop, whose passes
refill the buffer until it holds `n` bytes. Both `n` and the capacity go through an
`int` on the way.

- `loop_refills_iff`: the loop always has room to read into, and is left after at
  most `n` reads of a source that brings something each time, exactly if the
  capacity, as an `int`, is at least `n`.
-/

namespace Uvio.Io

open Program

namespace Inlet

/-- Every read brings something or fails. -/
def Lively (s : Inlet) : Prop := .data [] ∉ s.events

theorem read_lively {s : Inlet} (h : s.Lively) {n : Nat} (hn : 0 < n) :
    Meets (read n) s
      (fun r s' => s'.Lively ∧ ((∃ bs, r = .ok bs ∧ bs ≠ [] ∧ bs.length ≤ n) ∨ ∃ e, r = .error e))
      (fun e => e = .pending) := by
  obtain ⟨events⟩ := s
  cases events with
  | nil => exact rfl
  | cons ev rest =>
    have hrest : (⟨rest⟩ : Inlet).Lively := fun hmem => h (List.mem_cons_of_mem _ hmem)
    cases ev with
    | fail e => exact ⟨hrest, Or.inr ⟨e, rfl⟩⟩
    | data bs =>
      have hbs : bs ≠ [] := by
        rintro rfl
        exact h List.mem_cons_self
      by_cases hlen : bs.length ≤ n
      · have hrun : (read n).run ⟨.data bs :: rest⟩ = .ok (.ok bs, ⟨rest⟩) := if_pos hlen
        exact (meets_of_ok hrun).mpr ⟨hrest, Or.inl ⟨bs, rfl, hbs, hlen⟩⟩
      · have hrun : (read n).run ⟨.data bs :: rest⟩
            = .ok (.ok (bs.take n), ⟨.data (bs.drop n) :: rest⟩) := if_neg hlen
        refine (meets_of_ok hrun).mpr ⟨fun hmem => ?_, Or.inl ⟨_, rfl, ?_, List.length_take_le _ _⟩⟩
        · rcases List.mem_cons.mp hmem with hnil | hmem
          · injection hnil with hnil
            exact hlen (List.drop_eq_nil_iff.mp hnil.symm)
          · exact hrest hmem
        · intro hnil
          have := congrArg List.length hnil
          rw [List.length_take, List.length_nil] at this
          omega

end Inlet

namespace BufReader

/-! ## Room to read into -/

section Room

variable {b : StreamBuffer} {pre mid post : Bytes} {n : Nat}

/-- Filling the buffer does not change its size. -/
theorem capacity_fill (h : b.Cut pre mid post) {bs : Bytes} (hbs : bs.length ≤ b.wSliceSize) :
    ((b.store bs).wIncrease bs.length).capacity = b.capacity := by
  have hle := h.wSliceSize_le
  have hfill := (h.fill hbs).length
  have hlen := h.length
  simp only [List.length_append, List.length_drop] at hfill
  unfold StreamBuffer.capacity
  omega

theorem capacity_compact (h : b.Cut pre mid post) (n : Nat) :
    (compact n b).capacity = b.capacity := by
  obtain ⟨pre', post', hc, hlen'⟩ := cut_compact n h
  have hc := hc.length
  have hlen := h.length
  unfold StreamBuffer.capacity
  omega

/-- The room behind `w_pos_` after compacting. It is what the refill passes to the
underlying read. -/
theorem wRemaining_compact (h : b.Cut pre mid post) :
    (compact n b).wRemaining = castInt b.capacity - mid.length ∨
      castInt n ≤ (compact n b).wRemaining ∧ (compact n b).wRemaining = b.wRemaining := by
  by_cases hw : b.wRemaining < castInt n
  · left
    have hcap := capacity_compact h n
    have hc : compact n b = b.resetData := if_pos hw
    rw [hc] at hcap ⊢
    rw [h.resetData.wRemaining, hcap]
    simp
  · have hc : compact n b = b := if_neg hw
    rw [hc]
    exact Or.inr ⟨by omega, rfl⟩

/-- As long as less than `n` bytes are in the buffer, there is room, if the capacity
reaches `n` as an `int`. -/
theorem room_of_le (h : b.Cut pre mid post) (hlt : mid.length < castInt n)
    (hcap : castInt n ≤ castInt b.capacity) : 0 < (compact n b).wRemaining := by
  rcases wRemaining_compact (n := n) h with hw | ⟨hw, -⟩
  · omega
  · omega

/-- A buffer that holds as many bytes as its capacity is as an `int`, and is asked for
more, has none. -/
theorem no_room (h : b.Cut pre mid post) (hn : castInt b.capacity < castInt n)
    (hmid : castInt b.capacity ≤ mid.length) : ¬ 0 < (compact n b).wRemaining := by
  rcases wRemaining_compact (n := n) h with hw | ⟨hw, heq⟩
  · omega
  · rw [h.wRemaining] at heq
    omega

end Room

/-- One refill from a lively source, with room for it, brings something or fails. -/
theorem refill_lively {r : BufReader} {pre mid post : Bytes} (h : r.rStream.Cut pre mid post)
    (hio : r.io.Lively) {n : Nat} (hroom : 0 < (compact n r.rStream).wRemaining) :
    Meets (refill n) r
      (fun ret r' => r'.io.Lively ∧ ((∃ e, ret = .error e) ∨ ∃ bs pre' post', ret = .ok bs.length ∧
        bs ≠ [] ∧ r'.rStream.Cut pre' (mid ++ bs) post' ∧
        r'.rStream.capacity = r.rStream.capacity))
      (fun e => e = .pending) := by
  obtain ⟨pre', post', hc, -⟩ := cut_compact n h
  have hpos := StreamBuffer.wSliceSize_pos hroom
  have hread := Inlet.read_lively hio hpos
  cases hrun : (Inlet.read (compact n r.rStream).wSliceSize).run r.io with
  | error e =>
    exact (meets_of_error (run_refill_of_stop hrun)).mpr ((meets_of_error hrun).mp hread)
  | ok p =>
    obtain ⟨ret, io'⟩ := p
    obtain ⟨hio', ⟨bs, rfl, hbs, hlen⟩ | ⟨e, rfl⟩⟩ := hread.of_ok hrun
    · refine (meets_of_ok (run_refill_of_ok hrun)).mpr ⟨hio', Or.inr ⟨bs, pre', _, rfl, hbs,
        hc.fill hlen, ?_⟩⟩
      exact (capacity_fill hc hlen).trans (capacity_compact h n)
    · exact (meets_of_ok (run_refill_of_error hrun)).mpr ⟨hio', Or.inl ⟨e, rfl⟩⟩

/-- The buffer after a refill that got `bs`. -/
def refilled (n : Nat) (bs : Bytes) (b : StreamBuffer) : StreamBuffer :=
  ((compact n b).store bs).wIncrease bs.length

/-- A pass that got `bs`: it hands over what is asked for if it is there now. -/
theorem run_readExactPass {buf bs : Bytes} {io io' : Inlet} {b : StreamBuffer}
    (h : (Inlet.read (compact buf.length b).wSliceSize).run io = .ok (.ok bs, io')) :
    (readExactPass buf ()).run ⟨io, b⟩
      = if castInt buf.length ≤ (refilled buf.length bs b).rRemaining then
          .ok (.leave (((refilled buf.length bs b).writeTo buf).1.1, .ok ()),
            ⟨io', ((refilled buf.length bs b).writeTo buf).2⟩)
        else .ok (.again (), ⟨io', refilled buf.length bs b⟩) := by
  have hrefill := run_refill_of_ok h
  by_cases hfull : castInt buf.length ≤ (refilled buf.length bs b).rRemaining
  · rw [if_pos hfull]
    exact run_readExactPass_of_full hrefill hfull rfl
  · rw [if_neg hfull]
    exact run_readExactPass_of_short hrefill hfull

/-- Over any source that brings something with each read or fails: every read of the
loop has room to read into, and the loop is left after at most as many reads as the
destination has bytes. A pass of the loop is one read. -/
def LoopRefills (b : StreamBuffer) (buf : Bytes) : Prop :=
  ∀ io : Inlet, io.Lively →
    (∀ fuel, EachPass (readExactPass buf)
      (fun _ r => 0 < (compact buf.length r.rStream).wRemaining) fuel () ⟨io, b⟩) ∧
    Meets (loop .spin (readExactPass buf) buf.length ()) ⟨io, b⟩ (fun _ _ => True)
      (fun e => e = .pending)

/-- The state in which a pass begins if the capacity reaches the `n` bytes asked for:
fewer than `n` bytes are in the buffer. -/
structure Short (n : Nat) (r : BufReader) : Prop where
  cut : ∃ pre mid post, r.rStream.Cut pre mid post ∧ (mid.length : Int) < castInt n
  capacity : castInt n ≤ castInt r.rStream.capacity
  lively : r.io.Lively

theorem Short.room {n : Nat} {r : BufReader} (h : Short n r) :
    0 < (compact n r.rStream).wRemaining := by
  obtain ⟨pre, mid, post, hcut, hlt⟩ := h.cut
  exact room_of_le hcut hlt h.capacity

/-- A pass leaves, or brings the buffer nearer to `n` bytes. -/
theorem Short.pass {buf : Bytes} {r : BufReader} (h : Short buf.length r) :
    Meets (readExactPass buf ()) r
      (passPost (fun _ r' => Short buf.length r' ∧ r.rStream.rRemaining < r'.rStream.rRemaining)
        fun _ _ => True) (fun e => e = .pending) := by
  obtain ⟨pre, mid, post, hcut, hlt⟩ := h.cut
  unfold readExactPass
  refine (refill_lively hcut h.lively h.room).bind (fun _ he => he) ?_
  rintro ret r₁ ⟨hio₁, ⟨e, rfl⟩ | ⟨bs, pre₁, post₁, rfl, hbs, hcut₁, hcap₁⟩⟩
  · trivial
  · dsimp only
    rw [meets_bind, meets_get]
    by_cases hdone : castInt buf.length ≤ r₁.rStream.rRemaining
    · rw [if_pos hdone, meets_bind, meets_onStream]
      trivial
    · rw [if_neg hdone]
      rw [hcut₁.rRemaining] at hdone
      have hpos := List.length_pos_iff.mpr hbs
      refine ⟨⟨⟨_, _, _, hcut₁, by omega⟩, hcap₁ ▸ h.capacity, hio₁⟩, ?_⟩
      rw [hcut.rRemaining, hcut₁.rRemaining, List.length_append]
      omega

theorem loop_refills_of_le {b : StreamBuffer} (h : b.Valid) {buf : Bytes}
    (hlt : b.rRemaining < castInt buf.length) (hcap : castInt buf.length ≤ castInt b.capacity) :
    LoopRefills b buf := by
  intro io hio
  obtain ⟨pre, mid, post, hcut⟩ := h.cut
  rw [hcut.rRemaining] at hlt
  have hshort : Short buf.length ⟨io, b⟩ := ⟨⟨_, _, _, hcut, hlt⟩, hcap, hio⟩
  constructor
  · intro fuel
    refine EachPass.of_invariant (fun _ => Short buf.length) (fun _ _ hs => hs.room) ?_ hshort
    intro _ r _ r' hs hrun
    exact (hs.pass.of_ok hrun).1
  · -- the variant is what is missing, less the byte the last pass brings
    refine Meets.loop (fun m (_ : Unit) r => Short buf.length r ∧
      (m : Int) + r.rStream.rRemaining + 1 = castInt buf.length) ?_
      (n := (castInt buf.length - mid.length - 1).toNat) ⟨hshort, ?_⟩ ?_
    · rintro m ⟨⟩ r ⟨hs, hm⟩
      refine hs.pass.mono ?_ fun _ he => he
      rintro (_ | _) r' hpost
      · obtain ⟨hs', hlt'⟩ := hpost
        obtain ⟨pre', mid', post', hcut', hmid'⟩ := hs'.cut
        rw [hcut'.rRemaining] at hlt'
        refine ⟨(castInt buf.length - mid'.length - 1).toNat, ?_, hs', ?_⟩
        · omega
        · rw [hcut'.rRemaining]
          omega
      · trivial
    · show _ + b.rRemaining + 1 = _
      rw [hcut.rRemaining]
      omega
    · have := castInt_le buf.length
      omega

/-- A capacity that does not reach the bytes asked for, as an `int`, is used up by a
source that brings as much. -/
theorem not_loop_refills {b : StreamBuffer} (h : b.Valid) {buf : Bytes}
    (hcap : castInt b.capacity < castInt buf.length) : ¬ LoopRefills b buf := by
  intro hloop
  obtain ⟨pre, mid, post, hcut⟩ := h.cut
  by_cases hfull : castInt b.capacity ≤ mid.length
  · have hpasses := (hloop ⟨[]⟩ List.not_mem_nil).1 1
    exact no_room hcut hcap hfull hpasses.1
  · -- one chunk fills the buffer, the next pass has nowhere to read to
    obtain ⟨pre', post', hc, -⟩ := cut_compact buf.length hcut
    have hroom : (compact buf.length b).wRemaining = castInt b.capacity - mid.length := by
      rcases wRemaining_compact (n := buf.length) hcut with hw | ⟨hw, heq⟩
      · exact hw
      · rw [hcut.wRemaining] at heq
        omega
    have hsize : (compact buf.length b).wSliceSize = (castInt b.capacity - mid.length).toNat := by
      rw [← hroom]
      rfl
    let bs : Bytes := List.replicate (compact buf.length b).wSliceSize 1
    have hlen : bs.length = (compact buf.length b).wSliceSize := List.length_replicate
    have hlively : (⟨[.data bs]⟩ : Inlet).Lively := by
      intro hmem
      rw [List.mem_singleton] at hmem
      injection hmem with hnil
      rw [← hnil, List.length_nil] at hlen
      omega
    have hread : (Inlet.read (compact buf.length b).wSliceSize).run ⟨[.data bs]⟩
        = .ok (.ok bs, ⟨[]⟩) := if_pos hlen.le
    have hfill := hc.fill hlen.le
    have hcap' := (capacity_fill hc hlen.le).trans (capacity_compact hcut buf.length)
    have hmid : ((mid ++ bs).length : Int) = castInt b.capacity := by
      rw [List.length_append]
      omega
    have hpass := run_readExactPass hread
    rw [if_neg (by
      unfold refilled
      rw [hfill.rRemaining]
      omega)] at hpass
    have hpasses := (hloop ⟨[.data bs]⟩ hlively).1 2
    refine no_room hfill (hcap' ▸ hcap) ?_ (hpasses.2 _ _ hpass).1
    rw [hcap']
    exact Int.le_of_eq hmid.symm

/-- **The refill loop** always has room to read into, and is left in time, exactly if
the capacity reaches the bytes asked for as an `int`, or the buffer holds them already
and the loop is not entered. -/
theorem loop_refills_iff {b : StreamBuffer} (h : b.Valid) (buf : Bytes) :
    (b.rRemaining < castInt buf.length → LoopRefills b buf) ↔
      castInt buf.length ≤ b.rRemaining ∨ castInt buf.length ≤ castInt b.capacity := by
  constructor
  · intro hloop
    by_contra hnot
    rw [not_or, Int.not_le, Int.not_le] at hnot
    exact not_loop_refills h hnot.2 (hloop hnot.1)
  · intro hcond hlt
    exact loop_refills_of_le h hlt (hcond.resolve_left (Int.not_le.mpr hlt))

/-- Two bytes in a buffer of four, four bytes asked for. -/
theorem loop_refills_iff_four :
    (twoOfFour.rRemaining < castInt 4 → LoopRefills twoOfFour [0, 0, 0, 0]) ↔
      castInt 4 ≤ twoOfFour.rRemaining ∨ castInt 4 ≤ castInt twoOfFour.capacity :=
  loop_refills_iff valid_twoOfFour [0, 0, 0, 0]

/-- A fresh buffer of 2^32 bytes, whose size is 0 as an `int`, has no room for one
byte. -/
theorem not_refills :
    ¬ ∀ (b : StreamBuffer) (buf : Bytes), b.Valid → buf.length ≤ b.capacity →
      b.rRemaining < castInt buf.length → LoopRefills b buf := by
  intro h
  have hcap : (StreamBuffer.new (2 ^ 32)).capacity = 2 ^ 32 := List.length_replicate
  have hvalid : (StreamBuffer.new (2 ^ 32)).Valid := (StreamBuffer.cut_new _).valid
  refine not_loop_refills hvalid ?_
    (h _ [0] hvalid (by rw [hcap]; decide) (by decide))
  rw [hcap]
  decide

end BufReader

end Uvio.Io
