import Uvio.Codec.WebsocketErrors

/-!
# `WebsocketFramed`

`send`, `recv` and `close`, over any reader and any writer. `send` hands the codec a view
of the caller's buffer; a codec on the client side masks the message there, in place.

- `encode_span`: what becomes of the caller's buffer.
- `keepsMessage_iff`: when a buffer can be sent again.
-/

namespace Uvio.Net.Websocket

open Program Codec Codec.Websocket

variable {ρ ω : Type}

/-- `send(message)`: the caller's buffer afterwards, and the result. -/
def send [Writer ω] (order : ByteOrder) (clientSide : Bool) (message : Bytes) :
    Task ω (Bytes × Result Unit) :=
  encode order clientSide ⟨.text, message⟩

/-- `close()`. -/
def close [Writer ω] (order : ByteOrder) (clientSide : Bool) : Task ω (Result Unit) := do
  let (_, ret) ← encode order clientSide ⟨.close, []⟩
  pure ret

/-- `recv()`. -/
def recv [Reader ρ] (order : ByteOrder) (ndebug clientSide : Bool) : Task ρ (Result Bytes) := do
  let (payload, res) ← decode order ndebug clientSide []
  match res with
  | .error e => pure (.error e)
  | .ok () => pure (.ok payload)

/-! ## The caller's buffer -/

/-- The caller's buffer after an `encode` that completed. -/
def spanAfter (clientSide : Bool) (message : Bytes) : Bytes :=
  if clientSide then masked encodeMask message.length message else message

/-- Over any writer, `encode` leaves `spanAfter`; a client that comes back has masked. -/
theorem encode_span [Writer ω] (order : ByteOrder) (clientSide : Bool) (frame : WebsocketFrame)
    (s : ω) :
    Meets (encode order clientSide frame) s
      (fun out _ => out.1 = spanAfter clientSide frame.message ∧
        (clientSide = true → frame.message.length < 2 ^ 32)) fun _ => True := by
  unfold encode
  refine (Meets.trivial _ s).bind (fun _ h => h) fun _ s₁ _ => ?_
  cases clientSide with
  | false =>
    rw [if_neg (by decide)]
    refine (Meets.trivial _ s₁).bind (fun _ h => h) fun _ s₂ _ => ?_
    refine (Meets.trivial _ s₂).bind (fun _ h => h) fun _ s₃ _ => ?_
    exact ⟨rfl, fun hc => Bool.noConfusion hc⟩
  | true =>
    rw [if_pos rfl]
    refine (Meets.trivial _ s₁).bind (fun _ h => h) fun _ s₂ _ => ?_
    by_cases hlt : frame.message.length < 2 ^ 32
    · rw [meets_bind]
      refine (meets_of_ok (run_applyMask _ hlt s₂)).mpr ?_
      refine (Meets.trivial _ s₂).bind (fun _ h => h) fun _ s₃ _ => ?_
      refine (Meets.trivial _ s₃).bind (fun _ h => h) fun _ s₄ _ => ?_
      exact ⟨rfl, fun _ => hlt⟩
    · rw [meets_bind]
      exact (meets_of_error (run_applyMask_of_ge _ (Nat.le_of_not_lt hlt) s₂)).mpr True.intro

theorem spanAfter_eq_iff (clientSide : Bool) (message : Bytes) :
    spanAfter clientSide message = message ↔ clientSide = false ∨ message = [] := by
  cases clientSide with
  | false => exact ⟨fun _ => Or.inl rfl, fun _ => rfl⟩
  | true =>
    cases message with
    | nil => exact ⟨fun _ => Or.inr rfl, fun _ => rfl⟩
    | cons b message =>
      -- the first byte is xored with one
      have hfirst : ∀ b : Byte, b ^^^ 1 ≠ b := by decide
      have hne : spanAfter true (b :: message) ≠ b :: message := by
        intro heq
        have hhead := congrArg List.head? heq
        simp only [spanAfter, masked, if_true, List.mapIdx_cons, List.head?_cons,
          Option.some.injEq] at hhead
        exact hfirst b hhead
      simp [hne]

/-! ## Sending a buffer again -/

/-- The payload a frame carries, by the format. -/
def carried (clientSide : Bool) (frame : Bytes) : Bytes :=
  unmasked clientSide (frame.drop (headerLength frame))

/-- Send the same buffer so many times: the buffer afterwards, and what each `send` wrote. -/
def sendAgain (order : ByteOrder) (clientSide : Bool) :
    Nat → Bytes → Task Record (Bytes × List Bytes)
  | 0, message => pure (message, [])
  | n + 1, message => do
    let before ← get
    let (message, _) ← send order clientSide message
    let after ← get
    let (message, frames) ← sendAgain order clientSide n message
    pure (message, after.written.drop before.written.length :: frames)

/-- A `send` that completes, over any writer, leaves the caller's bytes alone, and
however often the buffer is sent, each frame carries it and the peer makes the same of
each. -/
structure KeepsMessage (order : ByteOrder) (clientSide : Bool) (message : Bytes) : Prop where
  span : ∀ {ω : Type} [Writer ω] {s s' : ω} {out : Bytes} {ret : Result Unit},
    (send order clientSide message).run s = .ok ((out, ret), s') → out = message
  again : ∀ {n : Nat} {s s' : Record} {out : Bytes} {frames : List Bytes},
    (sendAgain order clientSide n message).run s = .ok ((out, frames), s') →
      ∀ fr ∈ frames, carried (!clientSide) fr = message
  received : ∀ {n : Nat} {s s' : Record} {out : Bytes} {frames : List Bytes},
    (sendAgain order clientSide n message).run s = .ok ((out, frames), s') →
      ∀ fr ∈ frames, ∀ fr' ∈ frames, ∀ (peer : ByteOrder) (ndebug : Bool) (rest : Bytes)
        (ending : Option Error),
        (recv peer ndebug (!clientSide)).run (⟨fr ++ rest, ending⟩ : Feed)
          = (recv peer ndebug (!clientSide)).run ⟨fr' ++ rest, ending⟩

theorem lengthCode_header (order : ByteOrder) (clientSide : Bool) (opcode : Opcode)
    (length : BitVec 64) (rest : Bytes) :
    lengthCode (header order clientSide opcode length ++ rest)
      = if length.toNat < 126 then length.toNat else if length.toNat < 65536 then 126 else 127 := by
  rw [header_eq]
  show (second clientSide length &&& 0b01111111).toNat = _
  unfold second
  have h126 : length < 126 ↔ length.toNat < 126 := Iff.rfl
  have h65536 : length < 65536 ↔ length.toNat < 65536 := Iff.rfl
  by_cases h₁ : length.toNat < 126
  · have hchar : (toChar length).toNat = length.toNat := by
      rw [toChar, BitVec.toNat_setWidth, Nat.mod_eq_of_lt (by omega)]
    rw [if_pos (h126.mpr h₁), if_pos h₁, second_low clientSide _ (by omega), hchar]
  · rw [if_neg (fun h => h₁ (h126.mp h)), if_neg h₁]
    by_cases h₂ : length.toNat < 65536
    · rw [if_pos (h65536.mpr h₂), if_pos h₂, second_low clientSide _ (by decide)]
      rfl
    · rw [if_neg (fun h => h₂ (h65536.mp h)), if_neg h₂, second_low clientSide _ (by decide)]
      rfl

/-- The format finds the end of a header that `encode` wrote. -/
theorem headerLength_header (order : ByteOrder) (clientSide : Bool) (opcode : Opcode)
    (length : BitVec 64) (rest : Bytes) :
    headerLength (header order clientSide opcode length ++ rest)
      = (header order clientSide opcode length).length := by
  rw [headerLength, lengthCode_header, header_eq, List.length_append, extended]
  have h126 : length < 126 ↔ length.toNat < 126 := Iff.rfl
  have h65536 : length < 65536 ↔ length.toNat < 65536 := Iff.rfl
  by_cases h₁ : length.toNat < 126
  · rw [if_pos (h126.mpr h₁), if_pos h₁, if_neg (by omega), if_neg (by omega)]
    rfl
  · rw [if_neg (fun h => h₁ (h126.mp h)), if_neg h₁]
    by_cases h₂ : length.toNat < 65536
    · rw [if_pos (h65536.mpr h₂), if_pos h₂, if_pos rfl, length_toLE]
      rfl
    · rw [if_neg (fun h => h₂ (h65536.mp h)), if_neg h₂, if_neg (by decide), if_pos rfl,
        length_toLE]
      rfl

/-- What the body of a frame carries is the message. -/
theorem unmasked_body (clientSide : Bool) (message : Bytes) :
    unmasked (!clientSide) (body clientSide message) = message := by
  cases clientSide with
  | false => rfl
  | true =>
    show masked encodeMask (masked encodeMask message.length message).length
      (masked encodeMask message.length message) = message
    rw [length_masked, masked_masked]

theorem carried_frame (order : ByteOrder) (clientSide : Bool) (message : Bytes) :
    carried (!clientSide) (frame order clientSide message) = message := by
  rw [carried, frame, headerLength_header, List.drop_left, unmasked_body]

/-- A buffer that a `send` which completes leaves alone goes out as the same frame every
time. -/
theorem sendAgain_frames {order : ByteOrder} {clientSide : Bool} {message : Bytes}
    (h : (clientSide = true → message.length < 2 ^ 32) → spanAfter clientSide message = message)
    {n : Nat} {s s' : Record} {out : Bytes}
    {frames : List Bytes}
    (hrun : (sendAgain order clientSide n message).run s = .ok ((out, frames), s')) :
    ∀ fr ∈ frames, fr = frame order clientSide message := by
  induction n generalizing s frames with
  | zero =>
    cases hrun
    exact fun fr hfr => absurd hfr List.not_mem_nil
  | succ n ih =>
    unfold sendAgain at hrun
    rw [Prog.run_bind_of_ok (Prog.run_get s)] at hrun
    obtain ⟨⟨message', ret⟩, s₁, hsend, hrun⟩ := Prog.run_bind_eq_ok.mp hrun
    obtain ⟨hspan, hmask⟩ := (encode_span order clientSide ⟨.text, message⟩ s).of_ok hsend
    dsimp only at hspan
    -- the record has grown by the frame
    obtain ⟨span, henc⟩ := run_encode order clientSide ⟨.text, message⟩ hmask s
    have hs₁ := Except.ok.inj (hsend.symm.trans henc)
    cases hs₁
    dsimp only at hrun
    rw [Prog.run_bind_of_ok (Prog.run_get _), hspan, h hmask] at hrun
    obtain ⟨⟨out', frames'⟩, s₂, hrest, hrun⟩ := Prog.run_bind_eq_ok.mp hrun
    cases hrun
    intro fr hfr
    rcases List.mem_cons.mp hfr with rfl | hfr
    · rw [List.drop_left]
      rfl
    · exact ih hrest fr hfr

/-- **The buffers that can be sent again**: all of a server's, and of a client's the empty
one, and those with which `send` does not complete. -/
theorem keepsMessage_iff (order : ByteOrder) (clientSide : Bool) (message : Bytes) :
    KeepsMessage order clientSide message ↔
      clientSide = false ∨ message = [] ∨ 2 ^ 32 ≤ message.length := by
  constructor
  · intro hkeeps
    by_cases hlt : message.length < 2 ^ 32
    · obtain ⟨span, henc⟩ :=
        run_encode order clientSide ⟨.text, message⟩ (fun _ => hlt) Record.blank
      obtain ⟨hspan, -⟩ := (encode_span order clientSide ⟨.text, message⟩ Record.blank).of_ok henc
      have heq := hspan.symm.trans (hkeeps.span henc)
      rcases (spanAfter_eq_iff clientSide message).mp heq with hserver | hnil
      · exact Or.inl hserver
      · exact Or.inr (Or.inl hnil)
    · exact Or.inr (Or.inr (Nat.le_of_not_lt hlt))
  · intro hcond
    have hkept : (clientSide = true → message.length < 2 ^ 32) →
        spanAfter clientSide message = message := by
      intro hmask
      rw [spanAfter_eq_iff]
      rcases hcond with hserver | hnil | hge
      · exact Or.inl hserver
      · exact Or.inr hnil
      · exact Or.inl (Bool.eq_false_iff.mpr fun hc => absurd (hmask hc) (Nat.not_lt.mpr hge))
    refine ⟨fun {ω _ s s' out ret} hrun => ?_, fun hrun fr hfr => ?_,
      fun hrun fr hfr fr' hfr' peer ndebug rest ending => ?_⟩
    · obtain ⟨hspan, hmask⟩ := (encode_span order clientSide ⟨.text, message⟩ s).of_ok hrun
      exact hspan.trans (hkept hmask)
    · rw [sendAgain_frames hkept hrun fr hfr]
      exact carried_frame order clientSide message
    · rw [sendAgain_frames hkept hrun fr hfr, sendAgain_frames hkept hrun fr' hfr']

/-- A client's one-byte message is not the same after `send`. -/
theorem not_keepsMessage :
    ¬ ∀ (order : ByteOrder) (clientSide : Bool) (message : Bytes),
      KeepsMessage order clientSide message := by
  intro h
  have hrun : (send .littleEndian true (ascii "h")).run Record.blank
      = .ok ((ascii "i", .ok ()), _) := rfl
  exact absurd ((h .littleEndian true (ascii "h")).span hrun) (by decide)

end Uvio.Net.Websocket
