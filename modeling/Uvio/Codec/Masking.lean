import Uvio.Codec.Base

/-!
# `apply_mask`

The payload of a frame is masked in place, by a loop over words of four bytes and one over
the bytes that are left. The counter of the first is an `unsigned int`, the length it is
compared with a `std::size_t`.

- `run_applyMask`, `run_applyMask_of_ge`: masking xors with the repeated mask, up to the
  2^32 bytes the counter can count, and never ends above.
- `applyMaskRecording`: the two loops with a record of the indices they touch.
- `masks_iff`: the lengths that are masked, each byte once.
-/

namespace Uvio.Codec.Websocket

open Program

variable {ρ : Type}

/-- `data[i] = static_cast<char>(data[i] ^ m)`. -/
def xorAt (data : Bytes) (i : Nat) (m : Byte) : Bytes :=
  data.modify i fun b => toChar (charToInt b ^^^ charToInt m)

/-- One pass of the first loop of `apply_mask`, four bytes at a time; the counter
is an `unsigned int`. -/
def maskWordPass (mask : Bytes) (length : Nat) :
    BitVec 32 × Bytes → Task ρ (Pass (BitVec 32 × Bytes) Bytes)
  | (i, data) =>
    if i.toNat < length - length % 4 then
      -- the indices are computed in `unsigned int`, too
      let data := xorAt data (i + 0).toNat (mask.getD 0 0)
      let data := xorAt data (i + 1).toNat (mask.getD 1 0)
      let data := xorAt data (i + 2).toNat (mask.getD 2 0)
      let data := xorAt data (i + 3).toNat (mask.getD 3 0)
      pure (.again (i + 4, data))
    else pure (.leave data)

/-- One pass of the second loop, a byte at a time. -/
def maskBytePass (mask : Bytes) : Nat × Bytes → Task ρ (Pass (Nat × Bytes) Bytes)
  | (i, data) =>
    if i < data.length then pure (.again (i + 1, xorAt data i (mask.getD (i % 4) 0)))
    else pure (.leave data)

/-- `apply_mask(data, mask)`. If the first loop has not left after `length / 4 + 1`
passes its counter wrapped, and it never leaves (`run_applyMask_of_ge`). -/
def applyMask (data mask : Bytes) : Task ρ Bytes := do
  let length := data.length
  let data ← loop .spin (maskWordPass mask length) (length / 4 + 1) (0, data)
  loop .spin (maskBytePass mask) (length % 4 + 1) (length - length % 4, data)

/-! ## The indices that are touched -/

/-- The indices a pass of the first loop touches. -/
def wordIndices (p : BitVec 32 × Bytes) : List Nat :=
  [(p.1 + 0).toNat, (p.1 + 1).toNat, (p.1 + 2).toNat, (p.1 + 3).toNat]

/-- The index a pass of the second loop touches. -/
def byteIndices (p : Nat × Bytes) : List Nat := [p.1]

/-- `apply_mask` with a record of the indices it touches. -/
def applyMaskRecording (data mask : Bytes) : Task ρ (Bytes × List Nat) := do
  let length := data.length
  let (data, touched) ←
    loop .spin (recording wordIndices (maskWordPass mask length)) (length / 4 + 1) ((0, data), [])
  loop .spin (recording byteIndices (maskBytePass mask)) (length % 4 + 1)
    ((length - length % 4, data), touched)

/-- The record changes nothing. -/
theorem run_applyMask_eq (data mask : Bytes) (s : ρ) :
    (applyMask data mask).run s
      = ((applyMaskRecording data mask).run s).map fun p => (p.1.1, p.2) := by
  unfold applyMask applyMaskRecording
  have hwords := run_loop_recording .spin wordIndices (maskWordPass mask data.length)
    (data.length / 4 + 1) (0, data) [] s
  cases hrecord : (loop .spin (recording wordIndices (maskWordPass mask data.length))
      (data.length / 4 + 1) ((0, data), [])).run s with
  | error e =>
    rw [hrecord] at hwords
    rw [Prog.run_bind_of_error hwords, Prog.run_bind_of_error hrecord]
    rfl
  | ok p =>
    obtain ⟨⟨data', touched⟩, s'⟩ := p
    rw [hrecord] at hwords
    rw [Prog.run_bind_of_ok hwords, Prog.run_bind_of_ok hrecord]
    exact run_loop_recording _ _ _ _ _ _ _

/-- Xor one byte with the mask. -/
def touch (mask data : Bytes) (i : Nat) : Bytes := xorAt data i (mask.getD (i % 4) 0)

/-- A pass of the first loop touches what it says, if it begins at a whole word. -/
theorem maskWordPass_touches (mask data : Bytes) {i : BitVec 32} (hmod : i.toNat % 4 = 0)
    (length : Nat) (s : ρ) :
    Meets (maskWordPass mask length (i, data)) s
      (passPost (fun p _ => p.1.toNat % 4 = 0 ∧
        p.2 = (wordIndices (i, data)).foldl (touch mask) data) fun data' _ => data' = data)
      fun _ => True := by
  have hadd : ∀ k : BitVec 32, (i + k).toNat % 4 = k.toNat % 4 := by
    intro k
    rw [BitVec.toNat_add]
    omega
  unfold maskWordPass
  dsimp only
  split
  · refine ⟨(hadd 4).trans rfl, ?_⟩
    simp only [wordIndices, touch, List.foldl_cons, List.foldl_nil, hadd]
    rfl
  · exact rfl

/-- **The record is of the indices that were touched**: the data afterwards is what touching
these makes of the data before. -/
theorem applyMaskRecording_touches (data mask : Bytes) (s : ρ) :
    Meets (applyMaskRecording data mask) s
      (fun out _ => out.1 = out.2.foldl (touch mask) data) fun _ => True := by
  rw [applyMaskRecording, meets_bind]
  refine (Meets.loop_invariant (fun (p : (BitVec 32 × Bytes) × List Nat) _ =>
      p.1.1.toNat % 4 = 0 ∧ p.1.2 = p.2.foldl (touch mask) data)
    (Q := fun out _ => out.1 = out.2.foldl (touch mask) data) True.intro ?_ ⟨rfl, rfl⟩).mono ?_
    fun _ h => h
  · rintro ⟨⟨i, d⟩, touched⟩ s₁ ⟨hmod, hd⟩
    dsimp only at hmod hd
    refine (maskWordPass_touches mask d hmod data.length s₁).bind (fun _ h => h) ?_
    rintro (⟨i', d'⟩ | d') s₂ hpass
    · obtain ⟨hmod', hd'⟩ := hpass
      dsimp only at hmod' hd'
      refine ⟨hmod', ?_⟩
      dsimp only
      rw [List.foldl_append, ← hd, hd']
    · exact hpass.trans hd
  · rintro ⟨d, touched⟩ s₁ hd
    refine Meets.loop_invariant (fun (p : (Nat × Bytes) × List Nat) _ =>
      p.1.2 = p.2.foldl (touch mask) data) True.intro ?_ hd
    rintro ⟨⟨i, d⟩, touched⟩ s₂ hd
    dsimp only at hd
    unfold recording maskBytePass
    dsimp only
    split
    · show xorAt d i _ = (touched ++ [i]).foldl (touch mask) data
      rw [List.foldl_append, ← hd]
      rfl
    · exact hd

/-! ## What masking does -/

theorem xor_promoted (b m : Byte) : toChar (charToInt b ^^^ charToInt m) = b ^^^ m := by
  rw [charToInt, charToInt, ← BitVec.signExtend_xor]
  exact toChar_charToInt _

/-- The first `n` bytes masked. -/
def masked (mask : Bytes) (n : Nat) (data : Bytes) : Bytes :=
  data.mapIdx fun j b => if j < n then b ^^^ mask.getD (j % 4) 0 else b

@[simp] theorem length_masked (mask : Bytes) (n : Nat) (data : Bytes) :
    (masked mask n data).length = data.length := List.length_mapIdx

@[simp] theorem masked_zero (mask data : Bytes) : masked mask 0 data = data := by
  apply List.ext_getElem?
  intro j
  simp [masked]

/-- Masking one more byte. -/
theorem xorAt_masked (mask : Bytes) (n : Nat) (data : Bytes) :
    xorAt (masked mask n data) n (mask.getD (n % 4) 0) = masked mask (n + 1) data := by
  apply List.ext_getElem?
  intro j
  simp only [xorAt, masked, List.getElem?_modify, List.getElem?_mapIdx, xor_promoted]
  cases data[j]? with
  | none => rfl
  | some b =>
    simp only [Option.map_some, Option.map_eq_map]
    by_cases hj : n = j
    · subst hj
      simp
    · have : j < n ↔ j < n + 1 := by omega
      simp [hj, this]

/-- Masking twice restores the data. -/
theorem masked_masked (mask : Bytes) (n : Nat) (data : Bytes) :
    masked mask n (masked mask n data) = data := by
  apply List.ext_getElem?
  intro j
  simp only [masked, List.getElem?_mapIdx]
  cases data[j]? with
  | none => rfl
  | some b =>
    by_cases hj : j < n
    · simp only [Option.map_some, hj, if_true, BitVec.xor_assoc, BitVec.xor_self, BitVec.xor_zero]
    · simp only [Option.map_some, hj, if_false]

/-- A pass of the first loop masks the next four bytes. -/
theorem run_maskWordPass (mask data : Bytes) {i : BitVec 32} {length : Nat}
    (hi : i.toNat < length - length % 4) (hmod : i.toNat % 4 = 0) (hlt : i.toNat + 4 ≤ 2 ^ 32 - 1)
    (s : ρ) :
    (maskWordPass mask length (i, masked mask i.toNat data)).run s
      = .ok (.again (i + 4, masked mask (i.toNat + 4) data), s) := by
  -- none of the four indices wraps
  have hadd : ∀ k : BitVec 32, k.toNat ≤ 4 → (i + k).toNat = i.toNat + k.toNat := by
    intro k hk
    rw [BitVec.toNat_add, Nat.mod_eq_of_lt (by omega)]
  have hstep : ∀ k, k < 4 → xorAt (masked mask (i.toNat + k) data) (i.toNat + k) (mask.getD k 0)
      = masked mask (i.toNat + (k + 1)) data := by
    intro k hk
    have := xorAt_masked mask (i.toNat + k) data
    rwa [show (i.toNat + k) % 4 = k by omega] at this
  unfold maskWordPass
  dsimp only
  rw [if_pos hi, hadd 0 (by decide), hadd 1 (by decide), hadd 2 (by decide), hadd 3 (by decide)]
  show Except.ok (Pass.again (i + 4, xorAt (xorAt (xorAt (xorAt (masked mask (i.toNat + 0) data)
    (i.toNat + 0) _) (i.toNat + 1) _) (i.toNat + 2) _) (i.toNat + 3) _), s) = _
  rw [hstep 0 (by decide), hstep 1 (by decide), hstep 2 (by decide), hstep 3 (by decide)]

theorem run_maskWordPass_leave (mask data : Bytes) {i : BitVec 32} {length : Nat}
    (hi : ¬ i.toNat < length - length % 4) (s : ρ) :
    (maskWordPass mask length (i, data)).run s = .ok (.leave data, s) := by
  rw [maskWordPass, if_neg hi]
  rfl

theorem range_wordIndices {i : BitVec 32} (hlt : i.toNat + 4 ≤ 2 ^ 32 - 1) (data : Bytes) :
    List.range i.toNat ++ wordIndices (i, data) = List.range (i.toNat + 4) := by
  have hadd : ∀ k : BitVec 32, k.toNat ≤ 4 → (i + k).toNat = i.toNat + k.toNat := by
    intro k hk
    rw [BitVec.toNat_add, Nat.mod_eq_of_lt (by omega)]
  rw [wordIndices, hadd 0 (by decide), hadd 1 (by decide), hadd 2 (by decide), hadd 3 (by decide)]
  simp only [List.range_succ, List.append_assoc]
  rfl

/-- The first loop masks the whole words, index by index: the counter stays below 2^32, so
it does not wrap. -/
theorem run_maskWords (mask : Bytes) {data : Bytes} (h : data.length < 2 ^ 32) (s : ρ) :
    (loop .spin (recording wordIndices (maskWordPass mask data.length)) (data.length / 4 + 1)
        ((0, data), []) : Task ρ _).run s
      = .ok ((masked mask (data.length - data.length % 4) data,
          List.range (data.length - data.length % 4)), s) := by
  rw [run_eq_ok_iff]
  refine Meets.loop (fun n (p : (BitVec 32 × Bytes) × List Nat) s' =>
      4 * n + p.1.1.toNat = data.length - data.length % 4 ∧ p.1.1.toNat % 4 = 0 ∧
      p.1.2 = masked mask p.1.1.toNat data ∧ p.2 = List.range p.1.1.toNat ∧ s' = s) ?_
    (n := data.length / 4) (b := ((0, data), []))
    ⟨?_, rfl, (masked_zero _ _).symm, rfl, rfl⟩ (Nat.lt_succ_self _)
  · rintro n ⟨⟨i, d⟩, touched⟩ s' ⟨hn, hmod, hd, ht, rfl⟩
    dsimp only at hn hmod hd ht
    subst hd ht
    by_cases hi : i.toNat < data.length - data.length % 4
    · refine (meets_of_ok (run_recording_again
        (run_maskWordPass mask data hi hmod (by omega) s'))).mpr ?_
      have hnext : (i + 4).toNat = i.toNat + 4 := by
        rw [BitVec.toNat_add]
        exact Nat.mod_eq_of_lt (by show i.toNat + 4 < 2 ^ 32; omega)
      refine ⟨n - 1, by omega, ?_, ?_, ?_, ?_, rfl⟩
      · dsimp only
        omega
      · dsimp only
        omega
      · rw [hnext]
      · rw [hnext]
        exact range_wordIndices (by omega) _
    · have hend : i.toNat = data.length - data.length % 4 := by omega
      refine (meets_of_ok (run_recording_leave (run_maskWordPass_leave mask _ hi s'))).mpr ?_
      rw [hend]
      exact ⟨rfl, rfl⟩
  · show 4 * (data.length / 4) + 0 = _
    omega

/-- The second loop masks the bytes behind the first `n`. -/
theorem run_maskBytes (mask data : Bytes) {n fuel : Nat} (hn : n ≤ data.length)
    (hfuel : data.length - n < fuel) (s : ρ) :
    (loop .spin (recording byteIndices (maskBytePass mask)) fuel
        ((n, masked mask n data), List.range n) : Task ρ _).run s
      = .ok ((masked mask data.length data, List.range data.length), s) := by
  rw [run_eq_ok_iff]
  refine Meets.loop (fun m (p : (Nat × Bytes) × List Nat) s₁ => m + p.1.1 = data.length ∧
      p.1.2 = masked mask p.1.1 data ∧ p.2 = List.range p.1.1 ∧ s₁ = s) ?_
    (n := data.length - n) ⟨?_, rfl, rfl, rfl⟩ hfuel
  · rintro m ⟨⟨i, d⟩, touched⟩ s₁ ⟨hm, hd, ht, rfl⟩
    dsimp only at hm hd ht
    subst hd ht
    unfold recording maskBytePass
    dsimp only
    rw [length_masked]
    by_cases hi : i < data.length
    · rw [if_pos hi]
      exact ⟨m - 1, by omega, by dsimp only; omega, xorAt_masked mask i data,
        List.range_succ.symm, rfl⟩
    · rw [if_neg hi]
      obtain rfl : i = data.length := by omega
      exact ⟨rfl, rfl⟩
  · dsimp only
    omega

theorem run_applyMaskRecording (mask : Bytes) {data : Bytes} (h : data.length < 2 ^ 32) (s : ρ) :
    (applyMaskRecording data mask).run s
      = .ok ((masked mask data.length data, List.range data.length), s) := by
  rw [applyMaskRecording, Prog.run_bind_of_ok (run_maskWords mask h s)]
  exact run_maskBytes mask data (Nat.sub_le _ _) (by omega) s

/-- **`apply_mask`** masks all of the data if there are fewer than 2^32 bytes. -/
theorem run_applyMask (mask : Bytes) {data : Bytes} (h : data.length < 2 ^ 32) (s : ρ) :
    (applyMask data mask).run s = .ok (masked mask data.length data, s) := by
  rw [run_applyMask_eq, run_applyMaskRecording mask h]
  rfl

/-- From 2^32 bytes on the counter wraps, and the first loop goes on for any number of
passes. -/
theorem run_maskWords_of_ge (mask : Bytes) {length : Nat} (h : 2 ^ 32 ≤ length) (fuel : Nat)
    (p : BitVec 32 × Bytes) (s : ρ) :
    (loop .spin (maskWordPass mask length) fuel p).run s = .error .spin := by
  refine loop_spins (fun _ _ => True) ?_ fuel True.intro
  rintro ⟨i, d⟩ s' -
  have hi := i.isLt
  rw [maskWordPass, if_pos (by omega)]
  exact ⟨_, _, rfl, True.intro⟩

theorem run_applyMask_of_ge (mask : Bytes) {data : Bytes} (h : 2 ^ 32 ≤ data.length) (s : ρ) :
    (applyMask data mask).run s = .error .spin :=
  Prog.run_bind_of_error (run_maskWords_of_ge mask h _ _ s)

/-- Masking keeps the length, if it ends. -/
theorem applyMask_length (data mask : Bytes) (s : ρ) :
    Meets (applyMask data mask) s (fun out _ => out.length = data.length)
      fun e => e = .spin := by
  by_cases h : data.length < 2 ^ 32
  · exact (meets_of_ok (run_applyMask mask h s)).mpr (length_masked _ _ _)
  · exact (meets_of_error (run_applyMask_of_ge mask (Nat.le_of_not_lt h) s)).mpr rfl

/-! ## The lengths that are masked -/

/-- What masking should make of the data, with the indices it touches. -/
structure MaskedTo (mask data data' : Bytes) (touched : List Nat) : Prop where
  each : ∀ i : Nat, data'[i]? = data[i]?.map fun b => b ^^^ mask.getD (i % 4) 0
  once : touched.Perm (List.range data.length)

/-- `apply_mask` comes back with each byte masked, and touches each index once; applied once
more it restores the data. -/
def Masks (data mask : Bytes) : Prop :=
  ∀ {ρ : Type} (s : ρ), ∃ data' touched,
    (applyMask data mask).run s = .ok (data', s) ∧
    (applyMaskRecording data mask).run s = .ok ((data', touched), s) ∧
    MaskedTo mask data data' touched ∧ (applyMask data' mask).run s = .ok (data, s)

theorem length_of_masks {data mask : Bytes} (h : Masks data mask) : data.length < 2 ^ 32 := by
  by_contra hge
  obtain ⟨data', touched, hrun, -⟩ := h ()
  rw [run_applyMask_of_ge mask (Nat.le_of_not_lt hge)] at hrun
  cases hrun

/-- **The data that is masked**: less than 2^32 bytes. -/
theorem masks_iff (data mask : Bytes) : Masks data mask ↔ data.length < 2 ^ 32 := by
  constructor
  · exact length_of_masks
  · intro h ρ s
    refine ⟨_, _, run_applyMask mask h s, run_applyMaskRecording mask h s, ⟨fun i => ?_, .refl _⟩,
      ?_⟩
    · rw [masked, List.getElem?_mapIdx]
      by_cases hi : i < data.length
      · simp [hi]
      · simp [Nat.le_of_not_lt hi]
    · have hlen : (masked mask data.length data).length = data.length := length_masked _ _ _
      rw [run_applyMask mask (hlen.symm ▸ h) s, hlen, masked_masked]

/-- 2^32 bytes are never all masked. -/
theorem not_masks_long : ¬ ∀ data mask : Bytes, mask.length = 4 → Masks data mask := by
  intro h
  have hlt := length_of_masks (h (List.replicate (2 ^ 32) 0) [1, 1, 1, 1] rfl)
  rw [List.length_replicate] at hlt
  exact Nat.lt_irrefl _ hlt

end Uvio.Codec.Websocket
