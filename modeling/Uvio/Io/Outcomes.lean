import Uvio.Io.Refills
import Uvio.Io.Gather

/-!
# `read_exact` through buffers of different capacities

A fresh reader hands a `read_exact` of more bytes than its capacity to the source. Any
other goes through the buffer, whose loop waits for the size of the destination as an
`int`, and has room for the capacity as an `int`.

- `outcome_bypassed`, `outcome_buffered`: the outcome of either as a function of the
  events to come.
- `outcome_eq_iff`: when it is the same for two capacities. The loop takes a read that
  gets nothing for nothing at all, the `read_exact` of the source takes it for the end
  of the stream; and beyond `INT_MAX` the loop may have no room for what it waits for, or
  not wait for all of it.
-/

namespace Uvio.Io

open Program

namespace BufReader

/-- The result of a `read_exact`, with the bytes if it succeeds. -/
def resultOf (x : Except Stop ((Bytes × Result Unit) × BufReader)) : Except Stop (Result Bytes) :=
  x.map fun p => p.1.2.map fun _ => p.1.1

/-- The outcome of `read_exact(buf)` on a fresh reader. -/
def outcome (io : Inlet) (size : Nat) (buf : Bytes) : Except Stop (Result Bytes) :=
  resultOf ((readExact buf).run (new io size))

/-- Past the buffer, the outcome is that of the `read_exact` of the source. -/
theorem outcome_bypassed (io : Inlet) {size : Nat} {buf : Bytes} (h : size < buf.length) :
    outcome io size buf = Inlet.exactlyOutcome buf.length io.events := by
  have hcapacity : (new io size).rStream.capacity = size := List.length_replicate
  have hfst : ((StreamBuffer.new size).writeTo buf).1 = _ :=
    (StreamBuffer.cut_new size).writeTo_fst_short (Nat.zero_le _)
  unfold outcome
  rw [run_readExact_bypass (hcapacity.symm ▸ h)]
  show resultOf (((Inlet.readExact (((StreamBuffer.new size).writeTo buf).1.1.drop
    ((StreamBuffer.new size).writeTo buf).1.2)).run io).map _) = _
  rw [hfst]
  show resultOf (((Inlet.readExact buf).run io).map _) = _
  rw [Inlet.run_readExact]
  unfold Inlet.exactlyOutcome
  cases hex : Inlet.exactly buf.length io.events with
  | error e => rfl
  | ok p =>
    obtain ⟨⟨bs, e | _⟩, left⟩ := p
    · rfl
    · show Except.ok (Except.ok (((StreamBuffer.new size).writeTo buf).1.1.take
        ((StreamBuffer.new size).writeTo buf).1.2 ++ ([] ++ bs ++ buf.drop bs.length))) = _
      rw [hfst, Inlet.exactly_length hex, List.drop_length, List.append_nil]
      rfl

/-! ## Through the buffer -/

/-- A size as an `int`, or 0 if that is negative. -/
def clamped (n : Nat) : Nat := (castInt n).toNat

/-- The destination after `got` was in the buffer for it. -/
def handOver (buf got : Bytes) : Bytes := blit buf 0 (got.take buf.length)

section Fill

variable {buf bs mid post : Bytes} {rest : List ReadEvent} {io : Inlet} {b : StreamBuffer}

/-- What is left of the capacity, as an `int`, behind `k` bytes. -/
def room (b : StreamBuffer) (k : Nat) : Nat := clamped b.capacity - k

/-- Behind nothing that was read already, all of it is room, and compacting is of no use. -/
theorem compact_front (h : b.Cut [] mid post) (n : Nat) :
    (∃ post', (compact n b).Cut [] mid post') ∧ (compact n b).wSliceSize = room b mid.length := by
  have hsize : ∀ {b' : StreamBuffer} {post' : Bytes}, b'.Cut [] mid post' →
      b'.capacity = b.capacity → b'.wSliceSize = room b mid.length := by
    intro b' post' hcut hcap
    unfold StreamBuffer.wSliceSize room clamped
    rw [hcut.wRemaining, hcap, List.length_nil]
    omega
  have hcap := capacity_compact h n
  by_cases hw : b.wRemaining < castInt n
  · have hc : compact n b = b.resetData := if_pos hw
    rw [hc] at hcap ⊢
    exact ⟨⟨_, h.resetData⟩, hsize h.resetData hcap⟩
  · have hc : compact n b = b := if_neg hw
    rw [hc]
    exact ⟨⟨_, h⟩, hsize h rfl⟩

theorem refilled_front (h : b.Cut [] mid post) (n : Nat) (hbs : bs.length ≤ room b mid.length) :
    (∃ post', (refilled n bs b).Cut [] (mid ++ bs) post') ∧
      room (refilled n bs b) (mid ++ bs).length = room b mid.length - bs.length := by
  obtain ⟨⟨post', hc⟩, hsize⟩ := compact_front h n
  have hcap : (refilled n bs b).capacity = b.capacity :=
    (capacity_fill hc (hbs.trans_eq hsize.symm)).trans (capacity_compact h n)
  refine ⟨⟨_, hc.fill (hbs.trans_eq hsize.symm)⟩, ?_⟩
  unfold room
  rw [hcap, List.length_append, Nat.sub_sub]

/-- A chunk is there, and no room for it. -/
structure Starved (mid bs : Bytes) (rest : List ReadEvent) (r : BufReader) : Prop where
  io : r.io = ⟨.data bs :: rest⟩
  front : ∃ post, r.rStream.Cut [] mid post ∧ room r.rStream mid.length = 0

/-- Without room, a chunk that is there is asked for over and over. -/
theorem loop_starves {r : BufReader} (h : Starved mid bs rest r)
    (hlt : (mid.length : Int) < castInt buf.length) (hbs : bs ≠ []) (fuel : Nat) :
    (loop .spin (readExactPass buf) fuel ()).run r = .error .spin := by
  refine loop_spins (fun _ => Starved mid bs rest) ?_ fuel h
  rintro ⟨⟩ ⟨io, b⟩ ⟨hio, post, hcut, hroom⟩
  change io = _ at hio
  subst hio
  have hread : (Inlet.read (compact buf.length b).wSliceSize).run ⟨.data bs :: rest⟩
      = .ok (.ok [], ⟨.data bs :: rest⟩) := by
    rw [(compact_front hcut _).2, hroom]
    exact if_neg (by simpa using hbs)
  obtain ⟨⟨post', hfill⟩, hroom'⟩ := refilled_front hcut buf.length
    (show ([] : Bytes).length ≤ _ from Nat.zero_le _)
  have hpass := run_readExactPass hread
  rw [List.append_nil] at hfill hroom'
  rw [hfill.rRemaining, if_neg (Int.not_le.mpr hlt)] at hpass
  exact ⟨(), _, hpass, rfl, _, hfill, hroom'.trans hroom⟩

/-- A chunk that there is not room enough for fills the buffer, and that is enough or will
never be. -/
theorem run_readExact_overfull {fuel need : Nat} (h : b.Cut [] mid post)
    (hlt : (mid.length : Int) < castInt buf.length)
    (hneed : clamped buf.length - mid.length = need + 1) (hbig : room b mid.length < bs.length) :
    resultOf ((loop .spin (readExactPass buf) (fuel + 1) ()).run ⟨⟨.data bs :: rest⟩, b⟩)
      = (Inlet.fill (need + 1) (room b mid.length) (.data bs :: rest)).map
        fun r => r.map fun got => handOver buf (mid ++ got) := by
  have hclamped : (clamped buf.length : Int) = castInt buf.length :=
    Int.toNat_of_nonneg (by omega)
  have hread : (Inlet.read (compact buf.length b).wSliceSize).run ⟨.data bs :: rest⟩
      = .ok (.ok (bs.take (room b mid.length)),
        ⟨.data (bs.drop (room b mid.length)) :: rest⟩) := by
    rw [(compact_front h buf.length).2]
    exact if_neg (Nat.not_le.mpr hbig)
  have hlen : (bs.take (room b mid.length)).length = room b mid.length :=
    List.length_take_of_le (Nat.le_of_lt hbig)
  obtain ⟨⟨post', hfill⟩, hroom⟩ := refilled_front h buf.length hlen.le
  have hpass := run_readExactPass hread
  rw [hfill.rRemaining, List.length_append, hlen] at hpass
  rw [Inlet.fill, if_pos hbig]
  by_cases henough : need < room b mid.length
  · rw [if_pos (by omega), hfill.writeTo_fst] at hpass
    rw [if_pos henough, run_loop_leave hpass]
    rfl
  · rw [if_neg (by omega)] at hpass
    rw [if_neg henough, run_loop_again hpass]
    refine congrArg resultOf (loop_starves ⟨rfl, _, hfill, ?_⟩ ?_ ?_ fuel)
    · exact hroom.trans (Nat.sub_eq_zero_of_le hlen.ge)
    · rw [List.length_append, hlen]
      omega
    · intro hnil
      exact absurd (List.drop_eq_nil_iff.mp hnil) (Nat.not_le.mpr hbig)

/-- **The loop fills the buffer**, and hands over what it has then. -/
theorem run_readExact_loop {fuel : Nat} (h : b.Cut [] mid post)
    (hlt : (mid.length : Int) < castInt buf.length) (hfuel : io.weight < fuel) :
    resultOf ((loop .spin (readExactPass buf) fuel ()).run ⟨io, b⟩)
      = (Inlet.fill (clamped buf.length - mid.length) (room b mid.length) io.events).map
        fun r => r.map fun got => handOver buf (mid ++ got) := by
  induction fuel generalizing io b mid post with
  | zero => exact absurd hfuel (Nat.not_lt_zero _)
  | succ fuel ih =>
    obtain ⟨-, hsize⟩ := compact_front h buf.length
    have hclamped : (clamped buf.length : Int) = castInt buf.length :=
      Int.toNat_of_nonneg (by omega)
    obtain ⟨need, hneed⟩ := Nat.exists_eq_add_one.mpr
      (show 0 < clamped buf.length - mid.length by omega)
    rw [hneed]
    obtain ⟨events⟩ := io
    cases events with
    | nil => exact congrArg resultOf (Prog.run_bind_of_error
        (Prog.run_bind_of_error (run_refill_of_stop rfl)))
    | cons ev rest =>
      cases ev with
      | fail e =>
        have hpass : (readExactPass buf ()).run ⟨⟨.fail e :: rest⟩, b⟩
            = .ok (.leave (buf, .error e), ⟨⟨rest⟩, compact buf.length b⟩) :=
          (Prog.run_bind_of_ok (run_refill_of_error rfl)).trans rfl
        exact congrArg resultOf (run_loop_leave hpass)
      | data bs =>
        by_cases hbig : room b mid.length < bs.length
        · exact run_readExact_overfull h hlt hneed hbig
        · have hle := Nat.le_of_not_lt hbig
          have hread : (Inlet.read (compact buf.length b).wSliceSize).run ⟨.data bs :: rest⟩
              = .ok (.ok bs, ⟨rest⟩) := by
            rw [hsize]
            exact if_pos hle
          obtain ⟨⟨post', hfill⟩, hroom⟩ := refilled_front h buf.length hle
          have hpass := run_readExactPass hread
          rw [hfill.rRemaining, List.length_append] at hpass
          rw [Inlet.fill, if_neg hbig]
          by_cases hdone : need < bs.length
          · rw [if_pos (by omega), hfill.writeTo_fst] at hpass
            rw [run_loop_leave hpass, Nat.sub_eq_zero_of_le hdone, Inlet.fill]
            show _ = Except.ok (Except.ok (handOver buf (mid ++ (bs ++ []))))
            rw [List.append_nil]
            rfl
          · rw [if_neg (by omega)] at hpass
            have hlt' : ((mid ++ bs).length : Int) < castInt buf.length := by
              rw [List.length_append]
              omega
            have hweight : (⟨rest⟩ : Inlet).weight < fuel := by
              rw [Inlet.weight_data] at hfuel
              omega
            rw [run_loop_again hpass, ih hfill hlt' hweight, hroom, List.length_append,
              ← Nat.sub_sub, hneed]
            -- what was got before is in front of what comes
            rcases Inlet.fill (need + 1 - bs.length) (room b mid.length - bs.length) rest
              with e | e | got
            · rfl
            · rfl
            · show Except.ok (Except.ok (handOver buf (mid ++ bs ++ got))) = _
              rw [List.append_assoc]
              rfl

end Fill

theorem clamped_le (n : Nat) : clamped n ≤ n := by
  have := castInt_le n
  unfold clamped
  omega

/-- What an `int` reaches is an `int`. -/
theorem clamped_of_le {n size : Nat} (h : n ≤ clamped size) : clamped n = n := by
  have := castInt_le_intMax size
  unfold clamped at h ⊢
  rw [castInt_of_le (by omega), Int.toNat_natCast]

theorem outcome_buffered (io : Inlet) {size : Nat} {buf : Bytes} (h : buf.length ≤ size) :
    outcome io size buf = (Inlet.fill (clamped buf.length) (clamped size) io.events).map
      fun r => r.map (handOver buf) := by
  have hcut := StreamBuffer.cut_new size
  have hcapacity : (StreamBuffer.new size).capacity = size := List.length_replicate
  have hcap : buf.length ≤ (new io size).rStream.capacity := h.trans_eq hcapacity.symm
  have hrem : (new io size).rStream.rRemaining = 0 := hcut.rRemaining
  unfold outcome
  by_cases hpos : castInt buf.length ≤ 0
  · have hzero : clamped buf.length = 0 := Int.toNat_of_nonpos hpos
    rw [run_readExact_enough hcap (hrem.symm ▸ hpos), hzero, Inlet.fill]
    show Except.ok (Except.ok ((StreamBuffer.new size).writeTo buf).1.1) = _
    rw [hcut.writeTo_fst]
    rfl
  · rw [run_readExact_short hcap (hrem.symm ▸ hpos)]
    refine (run_readExact_loop hcut (Int.not_le.mp hpos) (Nat.lt_succ_self io.weight)).trans ?_
    unfold room
    rw [hcapacity]
    rfl

section Outcomes

variable {n need cap lo hi : Nat} {events : List ReadEvent}

/-- Behind what was handed over, the destination is as it was. -/
theorem getElem?_handOver_of_le {buf got : Bytes} {i : Nat} (hi : i < buf.length)
    (h : got.length ≤ i) : (handOver buf got)[i]? = buf[i]? := by
  unfold handOver
  rw [blit_zero, List.take_of_length_le (by omega), List.getElem?_append_right h,
    List.getElem?_drop, Nat.add_sub_cancel' h]

theorem getElem?_handOver_of_lt {buf got : Bytes} {i : Nat} (hi : i < buf.length)
    (h : i < got.length) : (handOver buf got)[i]? = got[i]? := by
  unfold handOver
  rw [blit_zero, List.getElem?_append_left (by rw [List.length_take]; omega),
    List.getElem?_take_of_lt hi]

/-- Nobody else knows the byte of a destination behind what was handed over. -/
theorem not_known {got : Bytes} (h : got.length < n) (c : Option Byte) :
    ¬ ∀ buf : Bytes, buf.length = n → (handOver buf got)[got.length]? = c := by
  intro hall
  have h₀ := hall (List.replicate n 0) List.length_replicate
  have h₁ := hall (List.replicate n 1) List.length_replicate
  rw [getElem?_handOver_of_le (by rwa [List.length_replicate]) (Nat.le_refl _)] at h₀ h₁
  rw [← h₁] at h₀
  simp [h] at h₀

theorem not_same_handOver {got : Bytes} (h : got.length < n) (dst : Bytes) :
    ¬ ∀ buf : Bytes, buf.length = n → handOver buf got = dst := fun hall =>
  not_known h dst[got.length]? fun buf hbuf => by rw [hall buf hbuf]

/-- It matters how much of a text is handed over unless that is enough anyway. -/
theorem handOver_eq_iff {text : Bytes} {k l : Nat} (hkl : k ≤ l) (hl : l ≤ text.length) :
    (∀ buf : Bytes, buf.length = n → handOver buf (text.take k) = handOver buf (text.take l)) ↔
      n ≤ k ∨ k = l := by
  have hk : (text.take k).length = k := List.length_take_of_le (hkl.trans hl)
  have hl' : (text.take l).length = l := List.length_take_of_le hl
  constructor
  · intro h
    by_contra hnot
    rw [not_or, Nat.not_le] at hnot
    refine not_known (hk.trans_lt hnot.1) (text.take l)[k]? fun buf hbuf => ?_
    rw [h buf hbuf, hk]
    exact getElem?_handOver_of_lt (by omega) (by omega)
  · rintro (hn | rfl) buf rfl
    · unfold handOver
      rw [List.take_take, List.take_take, Nat.min_eq_left hn, Nat.min_eq_left (hn.trans hkl)]
    · rfl

/-- A destination that the buffer has room for is filled. -/
theorem fill_enough (h : n ≤ cap) {buf : Bytes} (hbuf : buf.length = n) :
    ((Inlet.fill n cap events).map fun r => r.map (handOver buf)) = Inlet.gather n events := by
  subst hbuf
  by_cases harr : Inlet.Arrive (min buf.length (cap + 1)) events
  · rw [Inlet.fill_of_arrive harr, if_pos h]
    rw [Nat.min_eq_left (by omega)] at harr
    have hbrought := Inlet.le_brought harr
    have hund := Inlet.brought_le buf.length events
    rw [Inlet.gather_of_arrive harr]
    show Except.ok (Except.ok (handOver buf _)) = _
    unfold handOver
    rw [List.take_take, Nat.min_eq_left (by omega), blit_all (List.length_take_of_le (by omega))]
  · rw [Inlet.fill_of_not_arrive harr, Inlet.map_gather_of_not_arrive harr,
      Nat.min_eq_left (by omega)]

/-- Past the buffer, and through one of `cap` bytes that waits for `need` of the `n` bytes:
the destination is filled or what is waited for does not come, and no read gets nothing
in time unless the source then fails as if it had ended. -/
def AgreesPast (n need cap : Nat) (events : List ReadEvent) : Prop :=
  (n ≤ cap ∨ ¬ Inlet.Arrive (min need (cap + 1)) events) ∧
    (¬ Inlet.Before n (.data []) events ∨ Inlet.Before n (.fail .unexpectedEOF) events)

theorem agreesPast_iff (events : List ReadEvent) (hneed : need ≤ n) (hfull : n ≤ cap → need = n) :
    (∀ buf : Bytes, buf.length = n → Inlet.exactlyOutcome n events
      = (Inlet.fill need cap events).map fun r => r.map (handOver buf)) ↔
      AgreesPast n need cap events := by
  obtain ⟨buf₀, hbuf₀⟩ : ∃ buf : Bytes, buf.length = n :=
    ⟨List.replicate n 0, List.length_replicate⟩
  unfold AgreesPast
  rw [← Inlet.exactly_eq_gather_iff]
  by_cases hn : n ≤ cap
  · obtain rfl := hfull hn
    constructor
    · intro h
      exact ⟨Or.inl hn, (h buf₀ hbuf₀).trans (fill_enough hn hbuf₀)⟩
    · rintro ⟨-, h⟩ buf hbuf
      exact h.trans (fill_enough hn hbuf).symm
  · by_cases harr : Inlet.Arrive (min need (cap + 1)) events
    · refine ⟨fun h => ?_, fun ⟨hor, _⟩ => (hor.elim hn fun hnot => hnot harr).elim⟩
      simp only [Inlet.fill_of_arrive harr] at h
      by_cases hcap : need ≤ cap
      · -- the loop is left before the destination is full
        rw [if_pos hcap] at h
        have hlen : ((⟨events⟩ : Inlet).undelivered.take
            (min cap (Inlet.brought need events))).length < n := by
          rw [List.length_take]
          omega
        generalize (⟨events⟩ : Inlet).undelivered.take _ = got at h hlen
        refine (not_same_handOver hlen (handOver buf₀ got) fun buf hbuf => ?_).elim
        have hsame := (h buf hbuf).symm.trans (h buf₀ hbuf₀)
        injection hsame with hsame
        injection hsame
      · -- it is never left
        rw [if_neg hcap] at h
        exact absurd (h buf₀ hbuf₀) (Inlet.exactlyOutcome_ne_spin n events)
    · -- both fail with what stops the bytes from arriving
      simp only [Inlet.fill_of_not_arrive harr, Inlet.map_gather_of_not_arrive harr,
        Inlet.gather_of_not_arrive harr (show _ ≤ n by omega)]
      exact ⟨fun h => ⟨Or.inr harr, h buf₀ hbuf₀⟩, fun h _ _ => h.2⟩

/-- Through two buffers, of `lo` and of more than that, `hi`, bytes, that wait for `need` of
the `n` bytes: what the smaller waits for does not come; or it comes, and either fills the
destination or has room in the smaller, too; or it comes, and there is room in neither. -/
def AgreesThrough (n need lo hi : Nat) (events : List ReadEvent) : Prop :=
  lo = hi ∨ ¬ Inlet.Arrive (min need (lo + 1)) events ∨
    if need ≤ lo then n ≤ lo ∨ Inlet.brought need events ≤ lo
    else hi < need ∧ Inlet.Arrive (hi + 1) events

theorem agreesThrough_iff (n need : Nat) (events : List ReadEvent) (hle : lo ≤ hi) :
    (∀ buf : Bytes, buf.length = n → ((Inlet.fill need lo events).map fun r => r.map (handOver buf))
      = (Inlet.fill need hi events).map fun r => r.map (handOver buf)) ↔
      AgreesThrough n need lo hi events := by
  obtain ⟨buf₀, hbuf₀⟩ : ∃ buf : Bytes, buf.length = n :=
    ⟨List.replicate n 0, List.length_replicate⟩
  unfold AgreesThrough
  by_cases heq : lo = hi
  · subst heq
    simp
  by_cases harr : Inlet.Arrive (min need (lo + 1)) events
  · simp only [heq, harr, not_true, false_or, Inlet.fill_of_arrive harr]
    by_cases hlo : need ≤ lo
    · -- both loops are left, with as much as there was room for
      rw [Nat.min_eq_left (by omega)] at harr
      have harr' : Inlet.Arrive (min need (hi + 1)) events := by rwa [Nat.min_eq_left (by omega)]
      have hund := Inlet.brought_le need events
      have hiff : n ≤ lo ∨ Inlet.brought need events ≤ lo ↔
          n ≤ min lo (Inlet.brought need events) ∨
            min lo (Inlet.brought need events) = min hi (Inlet.brought need events) := by
        omega
      rw [if_pos hlo, if_pos hlo, Inlet.fill_of_arrive harr', if_pos (hlo.trans hle), hiff,
        ← handOver_eq_iff (by omega) ((Nat.min_le_right _ _).trans hund)]
      refine forall₂_congr fun buf hbuf => ?_
      simp [Except.map]
    · -- one loop goes round for ever
      rw [if_neg hlo, if_neg hlo, ← Inlet.fill_eq_spin_iff]
      refine ⟨fun h => ?_, fun h buf hbuf => by rw [h]⟩
      have hspin := h buf₀ hbuf₀
      cases hfill : Inlet.fill need hi events with
      | error e =>
        rw [hfill] at hspin
        exact hspin.symm
      | ok r =>
        rw [hfill] at hspin
        cases hspin
  · -- both fail with what stops the bytes from arriving
    have harr' : ¬ Inlet.Arrive (min need (hi + 1)) events := fun h =>
      harr (Inlet.arrive_of_le (by omega) h)
    simp only [heq, harr, not_false_iff, true_or, or_true,
      Inlet.fill_of_not_arrive harr, Inlet.fill_of_not_arrive harr',
      Inlet.gather_of_not_arrive harr (show _ ≤ min need (hi + 1) by omega), implies_true]

end Outcomes

/-- **The outcome does not depend on the capacity**, whatever the destination holds, if
both requests go past the buffer; if one does, and the two ways agree; or if none does,
and the two buffers agree. -/
theorem outcome_eq_iff (io : Inlet) (n size₁ size₂ : Nat) :
    (∀ buf : Bytes, buf.length = n → outcome io size₁ buf = outcome io size₂ buf) ↔
      size₁ < n ∧ size₂ < n ∨
      size₁ < n ∧ n ≤ size₂ ∧ AgreesPast n (clamped n) (clamped size₂) io.events ∨
      n ≤ size₁ ∧ size₂ < n ∧ AgreesPast n (clamped n) (clamped size₁) io.events ∨
      n ≤ size₁ ∧ n ≤ size₂ ∧ AgreesThrough n (clamped n) (min (clamped size₁) (clamped size₂))
        (max (clamped size₁) (clamped size₂)) io.events := by
  have hpast : ∀ size, size < n → ∀ buf : Bytes, buf.length = n →
      outcome io size buf = Inlet.exactlyOutcome n io.events := by
    rintro size hlt buf rfl
    exact outcome_bypassed io hlt
  have hthrough : ∀ size, n ≤ size → ∀ buf : Bytes, buf.length = n → outcome io size buf
      = (Inlet.fill (clamped n) (clamped size) io.events).map fun r => r.map (handOver buf) := by
    rintro size hle buf rfl
    exact outcome_buffered io hle
  by_cases h₁ : size₁ < n
  · by_cases h₂ : size₂ < n
    · refine ⟨fun _ => Or.inl ⟨h₁, h₂⟩, fun _ buf hbuf => ?_⟩
      rw [hpast _ h₁ _ hbuf, hpast _ h₂ _ hbuf]
    · have hagree := agreesPast_iff io.events (clamped_le n)
        fun hle : n ≤ clamped size₂ => clamped_of_le hle
      have hle := Nat.not_lt.mp h₂
      simp only [h₁, h₂, hle, Nat.not_le.mpr h₁, true_and, and_false, false_and, or_false,
        false_or, ← hagree]
      exact forall₂_congr fun buf hbuf => by rw [hpast _ h₁ _ hbuf, hthrough _ hle _ hbuf]
  · have hle₁ := Nat.not_lt.mp h₁
    by_cases h₂ : size₂ < n
    · have hagree := agreesPast_iff io.events (clamped_le n)
        fun hle : n ≤ clamped size₁ => clamped_of_le hle
      simp only [h₁, h₂, hle₁, Nat.not_le.mpr h₂, true_and, and_false, false_and, or_false,
        false_or, ← hagree]
      exact forall₂_congr fun buf hbuf => by
        rw [hpast _ h₂ _ hbuf, hthrough _ hle₁ _ hbuf, eq_comm]
    · have hle₂ := Nat.not_lt.mp h₂
      have hminmax : min (clamped size₁) (clamped size₂) ≤ max (clamped size₁) (clamped size₂) := by
        omega
      have hagree := agreesThrough_iff n (clamped n) io.events hminmax
      simp only [h₁, h₂, hle₁, hle₂, true_and, and_false, false_and, false_or, ← hagree]
      refine forall₂_congr fun buf hbuf => ?_
      rw [hthrough _ hle₁ _ hbuf, hthrough _ hle₂ _ hbuf]
      rcases Nat.le_total (clamped size₁) (clamped size₂) with hle | hle
      · rw [Nat.min_eq_left hle, Nat.max_eq_right hle]
      · rw [Nat.min_eq_right hle, Nat.max_eq_left hle, eq_comm]

/-- One byte that comes after a read that got nothing. -/
theorem not_outcome_eq :
    ¬ ∀ (io : Inlet) (buf : Bytes) (size₁ size₂ : Nat),
      outcome io size₁ buf = outcome io size₂ buf := by
  intro h
  have h01 := h ⟨[.data [], .data [7]]⟩ [0] 0 1
  have hzero : outcome ⟨[.data [], .data [7]]⟩ 0 [0] = .ok (.error .unexpectedEOF) := rfl
  have hone : outcome ⟨[.data [], .data [7]]⟩ 1 [0] = .ok (.ok [7]) := rfl
  rw [hzero, hone] at h01
  cases h01

end BufReader

end Uvio.Io
