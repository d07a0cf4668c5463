import Uvio.Io.Refills
import Uvio.Program.Pieces

/-!
# What a reader fetches

How far a buffered reader is through a connection that delivers chunks and then fails, or
delivers nothing more.

- `Through`: it handed over `n` bytes and fetched `f`.
- `Through.readExact_meets`: what a `read_exact` hands over. It fetches no chunk more than
  it has to.
- `Through.slice_nil_iff`: if it handed over what it was asked for and the buffer was large
  enough, nothing is left in the buffer exactly if a chunk ended there.
-/

namespace Uvio.Io

open Program

/-- A connection that delivers the given chunks, and fails `k` times after that. -/
def Inlet.closing (chunks : List Bytes) (k : Nat) (e : Error) : Inlet :=
  ⟨chunks.map .data ++ List.replicate k (.fail e)⟩

namespace Inlet

variable {x : Bytes} {rest : List Bytes} {k n : Nat} {e : Error}

theorem closing_cons (x : Bytes) (rest : List Bytes) (k : Nat) (e : Error) :
    closing (x :: rest) k e = ⟨.data x :: (closing rest k e).events⟩ := rfl

theorem undelivered_closing (chunks : List Bytes) (k : Nat) (e : Error) :
    (closing chunks k e).undelivered = chunks.flatten := by
  induction chunks with
  | nil =>
    show (List.replicate k (ReadEvent.fail e)).flatMap ReadEvent.payload = _
    rw [List.flatMap_eq_nil_iff.mpr fun ev hev => by rw [List.eq_of_mem_replicate hev]; rfl]
    rfl
  | cons x rest ih => rw [closing_cons, undelivered_data, List.flatten_cons, ← ih]

theorem length_le_weight (s : Inlet) : s.undelivered.length ≤ s.weight := by
  obtain ⟨events⟩ := s
  induction events with
  | nil => exact Nat.le_refl _
  | cons ev events ih =>
    simp only [undelivered, weight, List.flatMap_cons, List.map_cons, List.sum_cons,
      List.length_append] at ih ⊢
    omega

theorem run_read_closing_of_le (h : x.length ≤ n) :
    (read n).run (closing (x :: rest) k e) = .ok (.ok x, closing rest k e) := if_pos h

theorem run_read_closing_of_lt (h : n < x.length) :
    (read n).run (closing (x :: rest) k e) =
      .ok (.ok (x.take n), closing (x.drop n :: rest) k e) :=
  if_neg (Nat.not_le.mpr h)

theorem run_read_closed (n k : Nat) (e : Error) :
    (read n).run (closing [] (k + 1) e) = .ok (.error e, closing [] k e) := rfl

theorem run_read_idle (n : Nat) (e : Error) : (read n).run (closing [] 0 e) = .error .pending := rfl

/-- **A read of such a connection** gets a front of what is left, and fails or waits behind
it. -/
theorem read_closing_meets {chunks : List Bytes} (hne : ∀ x ∈ chunks, x ≠ []) (hn : 0 < n) :
    Meets (read n) (closing chunks k e)
      (fun ret s => (∃ bs rest, ret = .ok bs ∧ bs ≠ [] ∧ chunks.flatten = bs ++ rest.flatten ∧
          (∀ x ∈ rest, x ≠ []) ∧ s = closing rest k e) ∨
        ret = .error e ∧ chunks = [] ∧ s = closing [] (k - 1) e)
      fun stop => stop = .pending ∧ chunks = [] ∧ k = 0 := by
  cases chunks with
  | nil =>
    cases k with
    | zero => exact (meets_of_error (run_read_idle n e)).mpr ⟨rfl, rfl, rfl⟩
    | succ k => exact (meets_of_ok (run_read_closed n k e)).mpr (Or.inr ⟨rfl, rfl, rfl⟩)
  | cons x rest =>
    obtain ⟨hx, hrest⟩ := List.forall_mem_cons.mp hne
    rcases Nat.lt_or_ge n x.length with hlt | hge
    · refine (meets_of_ok (run_read_closing_of_lt hlt)).mpr (Or.inl ⟨_, _, rfl, ?_, ?_, ?_, rfl⟩)
      · exact List.ne_nil_of_length_pos (by rw [List.length_take]; omega)
      · rw [List.flatten_cons, List.flatten_cons, ← List.append_assoc, List.take_append_drop]
      · refine List.forall_mem_cons.mpr ⟨List.ne_nil_of_length_pos ?_, hrest⟩
        rw [List.length_drop]
        omega
    · exact (meets_of_ok (run_read_closing_of_le hge)).mpr
        (Or.inl ⟨x, rest, rfl, hx, List.flatten_cons, hrest, rfl⟩)

end Inlet

namespace BufReader

/-- The bytes `n` to `f` of a stream. -/
def window (all : Bytes) (n f : Nat) : Bytes := (all.take f).drop n

section Window

variable {all x rest : Bytes} {n f : Nat}

theorem length_window (hf : f ≤ all.length) : (window all n f).length = f - n := by
  rw [window, List.length_drop, List.length_take_of_le hf]

/-- More is fetched. -/
theorem window_add (hn : n ≤ f) (hf : f ≤ all.length) (hdrop : all.drop f = x ++ rest) {j : Nat}
    (hj : j ≤ x.length) : window all n (f + j) = window all n f ++ x.take j := by
  have hle : n ≤ (all.take f).length := by rwa [List.length_take_of_le hf]
  rw [window, List.take_add, hdrop, List.take_append_of_le_length hj,
    List.drop_append_of_le_length hle, window]

/-- A front is handed over. -/
theorem take_window {len : Nat} (hlen : n + len ≤ f) :
    (window all n f).take len = (all.drop n).take len := by
  rw [window, List.drop_take, List.take_take, Nat.min_eq_left (by omega)]

theorem drop_window (all : Bytes) (n f len : Nat) :
    (window all n f).drop len = window all (n + len) f := by
  rw [window, List.drop_drop, window]

end Window

/-- The buffer a refill reads into has room for what is missing. -/
theorem laid_compact {b : StreamBuffer} {pre mid post : Bytes} (h : b.Laid pre mid post)
    {need : Nat} (hneed : need ≤ b.capacity) (hlt : mid.length < need) :
    ∃ pre' post', (compact need b).Laid pre' mid post' ∧ pre'.length ≤ pre.length ∧
      pre'.length + mid.length + post'.length = b.capacity ∧ post' ≠ [] := by
  have hcap : b.capacity = pre.length + mid.length + post.length := h.length
  have hsize : b.capacity ≤ intMax := h.size
  unfold compact
  by_cases hw : b.wRemaining < castInt need
  · rw [if_pos hw]
    have hlen : ((pre ++ mid ++ post).drop mid.length).length = pre.length + post.length := by
      rw [List.length_drop, List.length_append, List.length_append]
      omega
    refine ⟨_, _, h.resetData, Nat.zero_le _, ?_, List.ne_nil_of_length_pos (by omega)⟩
    rw [hlen, List.length_nil]
    omega
  · rw [if_neg hw]
    rw [h.wRemaining, castInt_of_le (by omega)] at hw
    exact ⟨_, _, h, Nat.le_refl _, hcap.symm, List.ne_nil_of_length_pos (by omega)⟩

/-- The reader has handed over the first `n` bytes and fetched the first `f`. What it
fetched in part, it did for want of room. -/
structure Through (chunks : List Bytes) (e : Error) (size k n f : Nat) (r : BufReader) : Prop where
  laid : ∃ pre post, r.rStream.Laid pre (window chunks.flatten n f) post ∧ pre.length ≤ n
  capacity : r.rStream.capacity = size
  io : r.io = .closing (dropPieces f chunks) k e
  order : n ≤ f
  le : f ≤ chunks.flatten.length
  edge : Edge chunks f ∨ size ≤ f

theorem through_new {chunks : List Bytes} (e : Error) {size : Nat} (k : Nat) (hsize : size ≤ intMax)
    (hne : ∀ x ∈ chunks, x ≠ []) :
    Through chunks e size k 0 0 (new (.closing chunks k e) size) where
  laid := ⟨_, _, StreamBuffer.laid_new hsize, Nat.le_refl _⟩
  capacity := List.length_replicate ..
  io := by rw [dropPieces_zero hne, new]
  order := Nat.le_refl _
  le := Nat.zero_le _
  edge := Or.inl (edge_zero _)

section Through

variable {chunks : List Bytes} {e : Error} {size k n f : Nat} {r : BufReader}

theorem Through.unread (h : Through chunks e size k n f r) : r.unread = chunks.flatten.drop n := by
  obtain ⟨pre, post, hl, -⟩ := h.laid
  rw [unread_of_laid hl, h.io, Inlet.undelivered_closing, flatten_dropPieces, window,
    List.drop_take]
  have hdrop : chunks.flatten.drop f = (chunks.flatten.drop n).drop (f - n) := by
    rw [List.drop_drop, Nat.add_sub_cancel' h.order]
  rw [hdrop, List.take_append_drop]

/-- **One refill** fetches the rest of the next chunk, or as much of it as there is room
for. -/
theorem Through.refill_of_lt (h : Through chunks e size k n f r) (hne : ∀ x ∈ chunks, x ≠ [])
    {need : Nat} (hneed : f < n + need) (hsize : need ≤ size)
    (hmore : f < chunks.flatten.length) :
    ∃ j f' r', (refill need).run r = .ok (.ok j, r') ∧ Through chunks e size k n f' r' ∧ f < f' ∧
      ∀ m, Edge chunks m → f < m → f' ≤ m := by
  obtain ⟨pre, post, hl, hpre⟩ := h.laid
  have hlen := length_window (n := n) h.le
  have horder := h.order
  obtain ⟨pre', post', hl', hpre', hsum, hroom⟩ :=
    laid_compact hl (h.capacity ▸ hsize) (show _ < need by omega)
  have hcap := (capacity_compact hl.cut need).trans h.capacity
  rw [h.capacity] at hsum
  have hpos := List.length_pos_iff.mpr hroom
  cases hdrop : dropPieces f chunks with
  | nil =>
    have := congrArg List.length (flatten_dropPieces f chunks)
    rw [hdrop, List.flatten_nil, List.length_nil, List.length_drop] at this
    omega
  | cons x rest =>
    have hx : x ≠ [] := ne_nil_of_mem_dropPieces hne f x (hdrop ▸ .head _)
    have hflat : chunks.flatten.drop f = x ++ rest.flatten := by
      rw [← flatten_dropPieces, hdrop, List.flatten_cons]
    have hbound : f + x.length ≤ chunks.flatten.length := by
      have := congrArg List.length hflat
      rw [List.length_drop, List.length_append] at this
      omega
    obtain ⟨io, b⟩ := r
    have hio := h.io
    dsimp only at hio hl hl'
    subst hio
    have hnext : ∀ m, Edge chunks m → f < m → f + x.length ≤ m := fun m hm hlt =>
      edge_le hdrop hm hlt
    rw [hdrop]
    rcases Nat.lt_or_ge post'.length x.length with hlt | hge
    · -- the chunk is cut where the buffer ends
      have hread : (Inlet.read (compact need b).wSliceSize).run (.closing (x :: rest) k e) =
          .ok (.ok (x.take post'.length), .closing (x.drop post'.length :: rest) k e) := by
        rw [hl'.wSliceSize]
        exact Inlet.run_read_closing_of_lt hlt
      have htake : (x.take post'.length).length = post'.length :=
        List.length_take_of_le (Nat.le_of_lt hlt)
      have hfill := hl'.fill (Nat.le_of_eq htake)
      rw [← window_add h.order h.le hflat (Nat.le_of_lt hlt)] at hfill
      refine ⟨_, f + post'.length, _, run_refill_of_ok hread, ⟨⟨_, _, hfill, by omega⟩,
        (capacity_fill hl'.cut (hl'.wSliceSize ▸ htake.le)).trans hcap, ?_, by omega, by omega,
        Or.inr (by omega)⟩, by omega, fun m hm hfm => ?_⟩
      · rw [dropPieces_add hdrop hlt]
      · have := hnext m hm hfm
        omega
    · have hread : (Inlet.read (compact need b).wSliceSize).run (.closing (x :: rest) k e) =
          .ok (.ok x, .closing rest k e) := by
        rw [hl'.wSliceSize]
        exact Inlet.run_read_closing_of_le hge
      have hxpos := List.length_pos_iff.mpr hx
      have hfill := hl'.fill hge
      have hwindow := window_add h.order h.le hflat (Nat.le_refl _)
      rw [List.take_length] at hwindow
      rw [← hwindow] at hfill
      refine ⟨_, f + x.length, _, run_refill_of_ok hread, ⟨⟨_, _, hfill, by omega⟩,
        (capacity_fill hl'.cut (hl'.wSliceSize ▸ hge)).trans hcap, ?_, by omega, hbound,
        Or.inl (edge_add hdrop)⟩, by omega, hnext⟩
      rw [dropPieces_add_length hne hdrop]

/-- A refill behind the last chunk fails, or waits for ever. -/
theorem Through.refill_of_eq (h : Through chunks e size k n f r) (hne : ∀ x ∈ chunks, x ≠ [])
    {need : Nat} (hneed : f < n + need) (hsize : need ≤ size) (hend : f = chunks.flatten.length) :
    k = 0 ∧ (refill need).run r = .error .pending ∨
      0 < k ∧ ∃ r', (refill need).run r = .ok (.error e, r') ∧
        Through chunks e size (k - 1) n f r' := by
  obtain ⟨pre, post, hl, hpre⟩ := h.laid
  have hlen := length_window (n := n) h.le
  have horder := h.order
  obtain ⟨pre', post', hl', hpre', -, -⟩ :=
    laid_compact hl (h.capacity ▸ hsize) (show _ < need by omega)
  have hcap := (capacity_compact hl.cut need).trans h.capacity
  have hdrop : dropPieces f chunks = [] := by
    cases hdrop : dropPieces f chunks with
    | nil => rfl
    | cons x rest =>
      have hx := ne_nil_of_mem_dropPieces hne f x (hdrop ▸ .head _)
      have hflat := flatten_dropPieces f chunks
      rw [hdrop, hend, List.drop_length, List.flatten_cons] at hflat
      exact absurd (List.append_eq_nil_iff.mp hflat).1 hx
  obtain ⟨io, b⟩ := r
  have hio := h.io
  dsimp only at hio hl hl'
  rw [hdrop] at hio
  subst hio
  cases k with
  | zero => exact Or.inl ⟨rfl, run_refill_of_stop (Inlet.run_read_idle _ e)⟩
  | succ k =>
    refine Or.inr ⟨Nat.succ_pos k, _, run_refill_of_error (Inlet.run_read_closed _ k e),
      ⟨_, _, hl', Nat.le_trans hpre' hpre⟩, hcap, ?_, h.order, h.le, h.edge⟩
    rw [hdrop]
    rfl

/-- What was fetched is handed over. -/
theorem Through.writeTo (h : Through chunks e size k n f r) {buf : Bytes}
    (hbuf : n + buf.length ≤ f) :
    (r.rStream.writeTo buf).1.1 = (chunks.flatten.drop n).take buf.length ∧
      Through chunks e size k (n + buf.length) f ⟨r.io, (r.rStream.writeTo buf).2⟩ := by
  obtain ⟨pre, post, hl, hpre⟩ := h.laid
  have hlen := length_window (n := n) h.le
  have hle : buf.length ≤ (window chunks.flatten n f).length := by omega
  refine ⟨?_, ?_, (StreamBuffer.length_buf_writeTo _ _).trans h.capacity, h.io, hbuf, h.le, h.edge⟩
  · rw [hl.writeTo_fst_full hle, take_window hbuf]
  · rcases Nat.lt_or_ge buf.length (window chunks.flatten n f).length with hlt | hge
    · have hpart := hl.writeTo_part hlt
      rw [drop_window] at hpart
      refine ⟨_, _, hpart, ?_⟩
      rw [List.length_append, List.length_take_of_le hle]
      omega
    · have hall := hl.writeTo_all hge
      have hnil : window chunks.flatten (n + buf.length) f = [] := by
        rw [← drop_window, List.drop_eq_nil_of_le hge]
      rw [hnil]
      exact ⟨_, _, hall, Nat.zero_le _⟩

/-- What a `read_exact` comes to: it hands over the next bytes, and has fetched what it did
not have up to the end of a chunk; or the connection failed. -/
def Comes (chunks : List Bytes) (e : Error) (size k n f : Nat) (buf : Bytes)
    (out : Bytes × Result Unit) (r' : BufReader) : Prop :=
  (n + buf.length ≤ chunks.flatten.length ∧
    out = ((chunks.flatten.drop n).take buf.length, .ok ()) ∧
    ∃ f', Through chunks e size k (n + buf.length) f' r' ∧
      ∀ m, Edge chunks m → n + buf.length ≤ m → f ≤ m → f' ≤ m) ∨
  (chunks.flatten.length < n + buf.length ∧ 0 < k ∧ out = (buf, .error e) ∧
    Through chunks e size (k - 1) n chunks.flatten.length r')

/-- **`read_exact`** through such a connection; it waits for ever only if the connection
does not deliver what is asked for, nor fails. -/
theorem Through.readExact_meets (h : Through chunks e size k n f r) (hne : ∀ x ∈ chunks, x ≠ [])
    {buf : Bytes} (hbuf : buf.length ≤ size) :
    Meets (readExact buf) r (Comes chunks e size k n f buf)
      fun s => s = .pending ∧ k = 0 ∧ chunks.flatten.length < n + buf.length := by
  obtain ⟨pre, post, hl, hpre⟩ := h.laid
  have hcap : buf.length ≤ r.rStream.capacity := h.capacity ▸ hbuf
  have hcast : castInt buf.length = buf.length := castInt_of_le (by
    have : r.rStream.capacity ≤ intMax := hl.size
    omega)
  have hlen := length_window (n := n) h.le
  have horder := h.order
  by_cases hhave : castInt buf.length ≤ r.rStream.rRemaining
  · rw [hl.rRemaining, hcast] at hhave
    have hle : n + buf.length ≤ f := by omega
    obtain ⟨hout, hthrough⟩ := h.writeTo hle
    refine (meets_of_ok (run_readExact_enough hcap (by rw [hl.rRemaining, hcast]; exact hhave))).mpr
      (Or.inl ⟨Nat.le_trans hle h.le, ?_, f, hthrough, fun m _ _ hm => hm⟩)
    rw [hout]
  · rw [hl.rRemaining, hcast] at hhave
    unfold Meets
    rw [run_readExact_short hcap (by rw [hl.rRemaining, hcast]; exact hhave)]
    have hfuel : chunks.flatten.length - f < r.passes := by
      have hweight := Inlet.length_le_weight r.io
      rw [h.io, Inlet.undelivered_closing, flatten_dropPieces, List.length_drop, ← h.io] at hweight
      exact Nat.lt_succ_of_le hweight
    -- the variant is what is left to fetch
    refine Meets.loop (fun v (_ : Unit) r₁ => ∃ f₁, v = chunks.flatten.length - f₁ ∧
      Through chunks e size k n f₁ r₁ ∧ f₁ < n + buf.length ∧
        ∀ m, Edge chunks m → n + buf.length ≤ m → f₁ ≤ m) ?_
      ⟨f, rfl, h, by omega, fun m _ hm => by omega⟩ hfuel
    rintro v ⟨⟩ r₁ ⟨f₁, rfl, h₁, hlt₁, hedge₁⟩
    have hle₁ := h₁.le
    rcases Nat.lt_or_ge f₁ chunks.flatten.length with hmore | hend
    · obtain ⟨j, f₂, r₂, hrefill, h₂, hgrow, hnext⟩ := h₁.refill_of_lt hne hlt₁ hbuf hmore
      have hedge₂ : ∀ m, Edge chunks m → n + buf.length ≤ m → f₂ ≤ m := fun m hm hle =>
        hnext m hm (by omega)
      obtain ⟨pre₂, post₂, hl₂, -⟩ := h₂.laid
      have hlen₂ := length_window (n := n) h₂.le
      have hle₂ := h₂.le
      by_cases hfull : castInt buf.length ≤ r₂.rStream.rRemaining
      · have hwrite : (onStream fun b => b.writeTo buf).run r₂ =
            .ok (((r₂.rStream.writeTo buf).1.1, (r₂.rStream.writeTo buf).1.2),
              ⟨r₂.io, (r₂.rStream.writeTo buf).2⟩) := rfl
        have hpass := run_readExactPass_of_full hrefill hfull hwrite
        rw [hl₂.rRemaining, hcast] at hfull
        have hdone : n + buf.length ≤ f₂ := by omega
        obtain ⟨hout, hthrough⟩ := h₂.writeTo hdone
        refine (meets_of_ok hpass).mpr (Or.inl ⟨Nat.le_trans hdone hle₂, ?_, f₂, hthrough,
          fun m hm hle _ => hedge₂ m hm hle⟩)
        rw [hout]
      · have hpass := run_readExactPass_of_short hrefill hfull
        rw [hl₂.rRemaining, hcast] at hfull
        exact (meets_of_ok hpass).mpr ⟨_, by omega, f₂, rfl, h₂, by omega, hedge₂⟩
    · have hend : f₁ = chunks.flatten.length := Nat.le_antisymm hle₁ hend
      rcases h₁.refill_of_eq hne hlt₁ hbuf hend with ⟨rfl, hrefill⟩ | ⟨hk, r₂, hrefill, h₂⟩
      · have hpass : (readExactPass buf ()).run r₁ = .error .pending :=
          Prog.run_bind_of_error hrefill
        exact (meets_of_error hpass).mpr ⟨rfl, rfl, by omega⟩
      · exact (meets_of_ok (run_readExactPass_of_fail hrefill)).mpr
          (Or.inr ⟨by omega, hk, rfl, hend ▸ h₂⟩)

/-- Nothing is left in the buffer exactly if a chunk ended where the last byte handed over
was, for what was fetched beyond was fetched up to the end of a chunk. -/
theorem Through.slice_nil_iff (h : Through chunks e size k n f r) (hsize : n < size)
    (hearly : Edge chunks n → f ≤ n) : r.rStream.rSlice = [] ↔ Edge chunks n := by
  obtain ⟨pre, post, hl, -⟩ := h.laid
  have hlen := length_window (n := n) h.le
  have horder := h.order
  rw [hl.rSlice, ← List.length_eq_zero_iff, hlen]
  constructor
  · intro hzero
    obtain rfl : n = f := by omega
    exact h.edge.resolve_right (Nat.not_le.mpr hsize)
  · intro hedge
    have := hearly hedge
    omega

end Through

end BufReader

end Uvio.Io
