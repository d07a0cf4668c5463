import Uvio.Io.AnySource
import Uvio.Program.Runs

/-!
# The search for a flag

`find_flag_and_return_slice` looks for the flag in the text that starts at
`r_begin()` and ends at the first NUL, not in the readable slice. A NUL among the
readable bytes hides what is behind it; without one, the search runs on into the
bytes left over behind `w_pos_`, and past the vector if it finds no NUL there.

- `searchesSlice_iff`: the states in which the search is one of the readable slice.
- `readUntil_of_clear`: a `read_until` all of whose searches are, appends the unread
  bytes through the first flag.
- `searches_along`: so it does in every state that calls lead to, if the searches of
  earlier `read_until`s were such, too.
-/

namespace Uvio.Io

open Program

namespace StreamBuffer

/-- The text behind `w_pos_`. -/
def leftOver (b : StreamBuffer) : Bytes := cString (b.buf.drop b.wPos.toNat)

/-- The search ends within the vector, and what it returns is the shortest front of the
readable slice that ends in the flag, or nothing if the flag is not in the slice. -/
def SearchesSlice (b : StreamBuffer) (flag : Bytes) : Prop :=
  0 ∈ b.buf.drop b.rPos.toNat ∧
    (flag <:+: b.rSlice → ShortestThrough flag b.rSlice (b.findFlagAndReturnSlice flag)) ∧
    (¬ flag <:+: b.rSlice → b.findFlagAndReturnSlice flag = [])

/-- There is a NUL for the search to end at, none in front of the end of the first flag
in the readable slice, and if there is no flag, none is completed by the text behind
the slice. -/
def Clear (b : StreamBuffer) (flag : Bytes) : Prop :=
  0 ∈ b.buf.drop b.rPos.toNat ∧
    match find flag b.rSlice with
    | some pos => 0 ∉ b.rSlice.take (pos + flag.length)
    | none => 0 ∈ b.rSlice ∨ find flag (b.rSlice ++ b.leftOver) = none

/-! ## What the search finds -/

variable {b : StreamBuffer} {pre mid post flag : Bytes}

/-- The search of the readable slice, as it should be. -/
theorem searchesSlice_iff_through (b : StreamBuffer) (flag : Bytes) :
    b.SearchesSlice flag ↔ 0 ∈ b.buf.drop b.rPos.toNat ∧
      through flag b.rSlice = b.findFlagAndReturnSlice flag := by
  unfold SearchesSlice
  rw [through_spec]

/-- **When the search is one of the readable slice.** -/
theorem searchesSlice_iff (h : b.Cut pre mid post) (hflag : flag ≠ []) :
    b.SearchesSlice flag ↔ b.Clear flag := by
  rw [searchesSlice_iff_through]
  unfold Clear
  refine and_congr_right fun _ => ?_
  rw [findFlag_eq b hflag, h.drop_rPos, h.rSlice]
  by_cases hnul : 0 ∈ mid
  · -- the text ends within the slice, so it may miss a flag
    obtain ⟨text, rest, rfl, htext⟩ := List.eq_append_cons_of_mem hnul
    rw [List.append_assoc, List.cons_append, cString_front htext, through_append_iff hflag]
    cases hfind : find flag (text ++ 0 :: rest) with
    | none => simp
    | some pos =>
      simp only [reduceCtorEq, imp_false]
      constructor
      · intro hsome
        obtain ⟨pos', hpos'⟩ := Option.ne_none_iff_exists'.mp hsome
        rw [find_append_right hflag hpos'] at hfind
        cases hfind
        rw [List.take_append_of_le_length (find_le hpos' hflag)]
        exact fun hmem => htext (List.mem_of_mem_take hmem)
      · intro hmem hnone
        have hle : pos + flag.length ≤ text.length := by
          by_contra hlt
          refine hmem (List.mem_take_iff_getElem.mpr ⟨text.length, ?_, ?_⟩)
          · rw [List.length_append, List.length_cons]
            omega
          · simp
        rw [find_of_append hfind hle] at hnone
        cases hnone
  · -- the text goes on behind the slice, so it may find a flag that is not there
    have hleft : cString post = b.leftOver := by
      have hdrop : b.buf.drop b.wPos.toNat = post := by
        have hpos : b.wPos.toNat = (pre ++ mid).length := by
          rw [h.wPos, List.length_append]
          omega
        rw [hpos, h.buf, List.drop_left]
      unfold leftOver
      rw [hdrop]
    rw [cString_append_of_notMem hnul, hleft, eq_comm, through_append_iff hflag]
    cases hfind : find flag mid with
    | none => exact ⟨fun hnone => Or.inr (hnone rfl), fun hor _ => hor.resolve_left hnul⟩
    | some pos => exact ⟨fun _ hmem => hnul (List.mem_of_mem_take hmem), fun _ h => by cases h⟩

end StreamBuffer

namespace BufReader

/-! ## `read_until` -/

/-- What a `read_until` should do: append the unread bytes through the first flag, or
fail and leave everything where it was. -/
def Until (buf flag : Bytes) (r : BufReader) (out : Bytes × Result Nat) (r' : BufReader) : Prop :=
  match out.2 with
  | .ok n => n = out.1.length ∧ ∃ x, out.1 = buf ++ x ∧ ShortestThrough flag r.unread x ∧
      r.unread = x ++ r'.unread
  | .error _ => out.1 = buf ∧ Kept r r'

theorem Until.of_kept {buf flag : Bytes} {r r₁ r' : BufReader} {out : Bytes × Result Nat}
    (hkept : Kept r r₁) (h : Until buf flag r₁ out r') : Until buf flag r out r' := by
  unfold Until at h ⊢
  rw [hkept.unread] at h
  obtain ⟨dst, e | n⟩ := out
  · exact ⟨h.1, hkept.trans h.2⟩
  · exact h

/-- A pass that finds nothing receives bytes, or fails. -/
theorem readUntilPass_of_nil {r : BufReader} (h : r.rStream.Valid) {flag : Bytes}
    (hnil : r.rStream.findFlagAndReturnSlice flag = []) (buf : Bytes) :
    Meets (readUntilPass buf flag ()) r
      (passPost (fun _ r' => r'.rStream.Valid ∧ Kept r r')
        fun out r' => r'.rStream.Valid ∧ Until buf flag r out r')
      (fun e => e = .pending) := by
  obtain ⟨pre, mid, post, hcut⟩ := h.cut
  unfold readUntilPass
  rw [meets_bind, meets_get, hnil]
  refine (readSlice_any hcut).bind (fun _ he => he) ?_
  rintro ret r₁ (⟨bs, rfl, hfill, hdel⟩ | ⟨⟨e, rfl⟩, hr₁, hdel⟩)
  · refine ⟨hfill.valid, bs, hdel, ?_⟩
    show (r₁.rStream.wIncrease bs.length).rSlice = _
    rw [hfill.rSlice, hcut.rSlice]
  · refine ⟨hr₁ ▸ h, rfl, [], hdel.symm, ?_⟩
    rw [hr₁, List.append_nil]

/-- One pass whose search is one of the readable slice. -/
theorem readUntilPass_of_clear {r : BufReader} (h : r.rStream.Valid) {flag : Bytes}
    (hflag : flag ≠ []) (hclear : r.rStream.Clear flag) (buf : Bytes) :
    Meets (readUntilPass buf flag ()) r
      (passPost (fun _ r' => r'.rStream.Valid ∧ Kept r r')
        fun out r' => r'.rStream.Valid ∧ Until buf flag r out r')
      (fun e => e = .pending) := by
  obtain ⟨pre, mid, post, hcut⟩ := h.cut
  obtain ⟨-, hfound, hnone⟩ := (StreamBuffer.searchesSlice_iff hcut hflag).mpr hclear
  rw [hcut.rSlice] at hfound hnone
  by_cases hocc : flag <:+: mid
  · have hx := hfound hocc
    unfold readUntilPass
    rw [meets_bind, meets_get]
    generalize r.rStream.findFlagAndReturnSlice flag = x at hx
    have hne : x ≠ [] := by
      rintro rfl
      exact hflag (List.suffix_nil.mp hx.2.1)
    have hcut' := hcut.rIncrease hx.1.length_le
    dsimp only
    rw [if_pos (by simpa using hne), meets_bind, meets_onStream]
    refine ⟨hcut'.valid, rfl, x, rfl, unread_of_cut hcut ▸ hx.append r.io.undelivered, ?_⟩
    obtain ⟨rest, rfl⟩ := hx.1
    rw [List.drop_left] at hcut'
    rw [unread_of_cut hcut, List.append_assoc]
    show _ = x ++ ((r.rStream.rIncrease x.length).rSlice ++ r.io.undelivered)
    rw [hcut'.rSlice]
  · exact readUntilPass_of_nil h (hnone hocc) buf

/-- The searches a `read_until` makes meet the condition. -/
def ClearSearches (buf flag : Bytes) (r : BufReader) : Prop :=
  EachPass (readUntilPass buf flag) (fun _ r => r.rStream.Clear flag) r.passes () r

/-- **A `read_until` whose searches are of the readable slice** appends the unread bytes
through the first flag. -/
theorem readUntil_of_clear {r : BufReader} (h : r.rStream.Valid) {flag : Bytes}
    (hflag : flag ≠ []) {buf : Bytes} (hclear : ClearSearches buf flag r) :
    Meets (readUntil buf flag) r (fun out r' => r'.rStream.Valid ∧ Until buf flag r out r')
      fun _ => True := by
  unfold readUntil
  rw [meets_bind, meets_get]
  refine Meets.loop_of_eachPass (fun _ r₁ => r₁.rStream.Valid ∧ Kept r r₁) True.intro ?_
    ⟨h, kept_refl r⟩ hclear
  rintro ⟨⟩ r₁ ⟨hv₁, hk₁⟩ hc₁
  refine (readUntilPass_of_clear hv₁ hflag hc₁ buf).mono ?_ fun _ _ => True.intro
  rintro (_ | out) r₂ ⟨hv₂, hpost⟩
  · exact ⟨hv₂, hk₁.trans hpost⟩
  · exact ⟨hv₂, hpost.of_kept hk₁⟩

/-- The states in which its passes begin have their positions in order, and its searches
are of the readable slice. -/
theorem searches_of_clear {r : BufReader} (h : r.rStream.Valid) {flag : Bytes}
    (hflag : flag ≠ []) {buf : Bytes} (hclear : ClearSearches buf flag r) :
    EachPass (readUntilPass buf flag)
      (fun _ r => r.rStream.Bounded ∧ r.rStream.SearchesSlice flag) r.passes () r := by
  refine EachPass.mono (fun _ r => r.rStream.Valid) ?_ ?_ h hclear
  · intro _ r₁ hv₁ hc₁
    obtain ⟨pre, mid, post, hcut⟩ := hv₁.cut
    exact ⟨hv₁.bounded, (StreamBuffer.searchesSlice_iff hcut hflag).mpr hc₁⟩
  · intro _ r₁ _ r₂ hv₁ hc₁ hrun
    exact ((readUntilPass_of_clear hv₁ hflag hc₁ buf).of_ok hrun).1

/-! ## Runs of calls -/

/-- A call on a reader. -/
inductive Request where
  | read (buf : Bytes)
  | readExact (buf : Bytes)
  | readUntil (buf endFlag : Bytes)
deriving DecidableEq, Repr

/-- The reader after a call that returned. -/
def Request.after (r : BufReader) : Request → Option BufReader
  | .read buf => ((BufReader.read buf).run r).toOption.map Prod.snd
  | .readExact buf => ((BufReader.readExact buf).run r).toOption.map Prod.snd
  | .readUntil buf endFlag => ((BufReader.readUntil buf endFlag).run r).toOption.map Prod.snd

/-- The condition on a call: the searches of a `read_until` meet theirs. Without a flag
it makes none that finds anything. -/
def Request.Searchable (r : BufReader) : Request → Prop
  | .readUntil buf endFlag => endFlag ≠ [] → ClearSearches buf endFlag r
  | _ => True

/-- A `read_until` without a flag goes on until a read fails. -/
theorem readUntil_nil_valid {r : BufReader} (h : r.rStream.Valid) (buf : Bytes) :
    Meets (readUntil buf []) r (fun _ r' => r'.rStream.Valid) fun _ => True := by
  unfold readUntil
  rw [meets_bind, meets_get]
  refine Meets.loop_invariant (fun _ r₁ => r₁.rStream.Valid) True.intro ?_ h
  rintro ⟨⟩ r₁ hv₁
  have hnil : r₁.rStream.findFlagAndReturnSlice [] = [] := by
    unfold StreamBuffer.findFlagAndReturnSlice
    split
    · rfl
    next pos hpos =>
      -- no flag is found at the very front
      have hmin := (find_eq_some_iff.mp hpos).2
      obtain rfl : pos = 0 := by
        by_contra hne
        exact hmin 0 (Nat.pos_of_ne_zero hne) List.nil_prefix
      rfl
  refine (readUntilPass_of_nil hv₁ hnil buf).mono ?_ fun _ _ => True.intro
  rintro (_ | out) r₂ ⟨hv₂, -⟩
  · exact hv₂
  · exact hv₂

theorem Request.after_valid {r r' : BufReader} {c : Request} (h : r.rStream.Valid)
    (hc : c.Searchable r) (hafter : c.after r = some r') : r'.rStream.Valid := by
  cases c with
  | read buf =>
    obtain ⟨out, hrun⟩ := toOption_map_snd_eq_some hafter
    exact (read_valid h buf).of_ok hrun
  | readExact buf =>
    obtain ⟨out, hrun⟩ := toOption_map_snd_eq_some hafter
    exact (readExact_valid h buf).of_ok hrun
  | readUntil buf endFlag =>
    obtain ⟨out, hrun⟩ := toOption_map_snd_eq_some hafter
    by_cases hflag : endFlag = []
    · subst hflag
      exact (readUntil_nil_valid h buf).of_ok hrun
    · exact ((readUntil_of_clear h hflag (hc hflag)).of_ok hrun).1

/-- **In every run of calls whose searches meet the condition**, every state reached has
its positions in order, a search in it is one of the readable slice exactly if the
condition holds, and a `read_until` whose searches meet it does what it should. -/
theorem searches_along {size : Nat} {io : Inlet} {past : List Request} {r : BufReader}
    (h : Run Request.after Request.Searchable (new io size) past r)
    {flag : Bytes} (hflag : flag ≠ []) :
    r.rStream.Bounded ∧ (r.rStream.SearchesSlice flag ↔ r.rStream.Clear flag) ∧
      ∀ buf, ClearSearches buf flag r →
        EachPass (readUntilPass buf flag)
          (fun _ r => r.rStream.Bounded ∧ r.rStream.SearchesSlice flag) r.passes () r ∧
        Meets (readUntil buf flag) r
          (fun out r' => r'.rStream.Bounded ∧ Until buf flag r out r') fun _ => True := by
  have hvalid : r.rStream.Valid :=
    h.invariant (fun _ r => r.rStream.Valid) (StreamBuffer.cut_new size).valid
      fun _ _ _ _ hv hc hafter => Request.after_valid hv hc hafter
  obtain ⟨pre, mid, post, hcut⟩ := hvalid.cut
  refine ⟨hvalid.bounded, StreamBuffer.searchesSlice_iff hcut hflag, fun buf hclear =>
    ⟨searches_of_clear hvalid hflag hclear, ?_⟩⟩
  exact (readUntil_of_clear hvalid hflag hclear).mono (fun _ _ hq => ⟨hq.1.bounded, hq.2⟩)
    fun _ he => he

/-- A byte and a line were taken from `"AB\nC\n"`, the second line is in the buffer. -/
def secondLine : BufReader := ⟨⟨[]⟩, ⟨[65, 66, 10, 67, 10, 0, 0, 0], 3, 5, true⟩⟩

theorem searches_along_line :
    secondLine.rStream.Bounded ∧
      (secondLine.rStream.SearchesSlice [10] ↔ secondLine.rStream.Clear [10]) ∧
      ∀ buf, ClearSearches buf [10] secondLine →
        EachPass (readUntilPass buf [10])
          (fun _ r => r.rStream.Bounded ∧ r.rStream.SearchesSlice [10]) secondLine.passes ()
          secondLine ∧
        Meets (readUntil buf [10]) secondLine
          (fun out r' => r'.rStream.Bounded ∧ Until buf [10] secondLine out r') fun _ => True := by
  have hfirst : Run Request.after Request.Searchable
      (new (Inlet.ofChunks [[65, 66, 10, 67, 10]]) 8) [.readExact [0]]
      ⟨⟨[]⟩, ⟨[65, 66, 10, 67, 10, 0, 0, 0], 1, 5, true⟩⟩ := .snoc .nil trivial rfl
  have hclear : ClearSearches [] [10] ⟨⟨[]⟩, ⟨[65, 66, 10, 67, 10, 0, 0, 0], 1, 5, true⟩⟩ :=
    ⟨⟨by decide, (by decide : (0 : Byte) ∉ ([66, 10] : Bytes))⟩, fun _ _ _ => trivial⟩
  have hrun : Run Request.after Request.Searchable
      (new (Inlet.ofChunks [[65, 66, 10, 67, 10]]) 8) [.readExact [0], .readUntil [] [10]]
      secondLine := .snoc hfirst (fun _ => hclear) rfl
  exact searches_along hrun (by decide)

/-- A NUL in front of the line end hides it: after one byte of `"A\0\n"` was taken, the
search for the line end returns nothing. -/
theorem not_searches :
    ¬ ∀ (size : Nat) (io : Inlet) (past : List Request) (r : BufReader) (flag : Bytes),
      Run Request.after (fun _ _ => True) (new io size) past r → flag ≠ [] →
        r.rStream.SearchesSlice flag := by
  intro h
  have hrun : Run Request.after (fun _ _ => True) (new (Inlet.ofChunks [[65, 0, 10]]) 8)
      [.readExact [0]] ⟨⟨[]⟩, ⟨[65, 0, 10, 0, 0, 0, 0, 0], 1, 3, true⟩⟩ := .snoc .nil trivial rfl
  obtain ⟨-, hfound, -⟩ := h _ _ _ _ [10] hrun (by decide)
  have hsuffix := (hfound (by decide)).2.1
  revert hsuffix
  decide

end BufReader

end Uvio.Io
