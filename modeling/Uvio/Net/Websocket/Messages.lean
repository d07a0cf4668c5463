import Uvio.Codec.Conversation
import Uvio.Net.Websocket.WebsocketFrame

/-!
# Messages in both directions

`send` and `recv` of two `WebsocketFramed`, a client and a server, over one connection.

- `decode_bisimilar`: readers that read alike are decoded from alike.
- `encode_simulates`: through a buffered writer a frame goes out as on an ideal one.
- `exchanges_iff`: the messages that arrive, in every order of sends, deliveries and
  receives, between hosts of one byte order.
-/

namespace Uvio.Net.Websocket

open Program Io Codec Codec.Websocket

/-! ## Reading alike -/

section Bisimilar

variable {ρ τ : Type} {E : Stop → Prop} {R : ρ → τ → Prop}

theorem applyMask_bisimilar (data mask : Bytes) :
    Bisimilar E R R Eq (applyMask data mask : Task ρ _) (applyMask data mask : Task τ _) := by
  have hword : ∀ p, Bisimilar E R R Eq (maskWordPass mask data.length p : Task ρ _)
      (maskWordPass mask data.length p : Task τ _) := fun _ =>
    Bisimilar.ite (Bisimilar.pure (fun _ _ h => h) rfl) (Bisimilar.pure (fun _ _ h => h) rfl)
  have hbyte : ∀ p, Bisimilar E R R Eq (maskBytePass mask p : Task ρ _)
      (maskBytePass mask p : Task τ _) := fun _ =>
    Bisimilar.ite (Bisimilar.pure (fun _ _ h => h) rfl) (Bisimilar.pure (fun _ _ h => h) rfl)
  exact (Bisimilar.loop hword _ _).bind_eq fun _ => Bisimilar.loop hbyte _ _

variable [Reader ρ] [Reader τ]

theorem decodeLength_bisimilar (h : ReadSame E R) (order : ByteOrder) (buf : Bytes) :
    Bisimilar E R R Eq (decodeLength order buf : Task ρ _) (decodeLength order buf : Task τ _) := by
  refine Bisimilar.ite ?_ (Bisimilar.ite ?_ (Bisimilar.pure (fun _ _ h => h) rfl))
  · exact (h _).bind_eq fun _ => Bisimilar.pure (fun _ _ h => h) rfl
  · exact (h _).bind_eq fun _ => Bisimilar.pure (fun _ _ h => h) rfl

theorem decodePayload_bisimilar (h : ReadSame E R) (clientSide : Bool) (length : BitVec 64)
    (payload : Bytes) :
    Bisimilar E R R Eq (decodePayload clientSide length payload : Task ρ _)
      (decodePayload clientSide length payload : Task τ _) := by
  refine Bisimilar.ite ?_ ?_
  · refine (resize_bisimilar _ _).bind_eq fun payload => ?_
    exact (h payload).bind_eq fun _ => Bisimilar.pure (fun _ _ h => h) rfl
  · refine (h _).bind_eq fun maskBits => ?_
    refine (resize_bisimilar _ _).bind_eq fun payload => ?_
    refine (h payload).bind_eq fun out => ?_
    exact (applyMask_bisimilar _ _).bind_eq fun _ => Bisimilar.pure (fun _ _ h => h) rfl

/-- Readers that read alike are decoded from alike. -/
theorem decode_bisimilar (h : ReadSame E R) (order : ByteOrder) (ndebug clientSide : Bool)
    (payload : Bytes) :
    Bisimilar E R R Eq (decode order ndebug clientSide payload : Task ρ _)
      (decode order ndebug clientSide payload : Task τ _) := by
  refine (h _).bind_eq fun out => ?_
  refine (assertion_bisimilar _ _).bind_eq fun _ => ?_
  refine (assertion_bisimilar _ _).bind_eq fun _ => ?_
  refine (decodeLength_bisimilar h order _).bind_eq fun length => ?_
  exact decodePayload_bisimilar h clientSide length payload

theorem recv_bisimilar (h : ReadSame E R) (order : ByteOrder) (ndebug clientSide : Bool) :
    Bisimilar E R R Eq (recv order ndebug clientSide : Task ρ _)
      (recv order ndebug clientSide : Task τ _) := by
  refine (decode_bisimilar h order ndebug clientSide []).bind_eq ?_
  rintro ⟨payload, e | _⟩
  · exact Bisimilar.pure (fun _ _ h => h) rfl
  · exact Bisimilar.pure (fun _ _ h => h) rfl

end Bisimilar

/-! ## Writing -/

theorem header_length_le (order : ByteOrder) (clientSide : Bool) (opcode : Opcode)
    (length : BitVec 64) : (header order clientSide opcode length).length ≤ intMax := by
  have hextended : (extended order length).length ≤ 8 := by
    unfold extended
    split
    · exact Nat.zero_le 8
    · split
      · exact (length_toLE 2 _).le.trans (by decide)
      · exact (length_toLE 8 _).le
  rw [header_eq, List.length_append]
  exact (Nat.add_le_add_left hextended 2).trans (by decide)

/-- Masking gives the same whatever the state, and of the same length. -/
theorem applyMask_masks {σ τ : Type} {R : σ → τ → Prop} {data : Bytes} (mask : Bytes)
    (h : data.length < 2 ^ 32) :
    Simulates R (fun a b => a = b ∧ b.length = data.length) (applyMask data mask : Task σ _)
      (applyMask data mask : Task τ _) := by
  intro s t hst b t' hrun
  rw [run_applyMask mask h] at hrun
  cases hrun
  exact ⟨_, s, run_applyMask mask h s, ⟨rfl, length_masked _ _ _⟩, hst⟩

/-- Through a buffered writer a frame goes out as on an ideal one: what the writes report is
not looked at. -/
theorem encode_simulates (order : ByteOrder) (clientSide : Bool) {frame : WebsocketFrame}
    (h : frame.message.length ≤ intMax) :
    Simulates Backs Eq (encode order clientSide frame : Task BufWriter _)
      (encode order clientSide frame : Task Record _) := by
  refine (write_simulates (header_length_le _ _ _ _)).bind fun _ _ _ => ?_
  refine Simulates.ite ?_ ?_
  · refine (write_simulates (by decide : List.length [1, 1, 1, 1] ≤ intMax)).bind fun _ _ _ => ?_
    have hlt : frame.message.length < 2 ^ 32 := Nat.lt_of_le_of_lt h (by decide)
    refine (applyMask_masks _ hlt).bind ?_
    rintro message _ ⟨rfl, hlen⟩
    refine (write_simulates (hlen.le.trans h)).bind fun _ _ _ => ?_
    exact flush_simulates.bind_eq fun _ => Simulates.pure rfl
  · refine (write_simulates h).bind fun _ _ _ => ?_
    exact flush_simulates.bind_eq fun _ => Simulates.pure rfl

/-! ## Two peers -/

/-- `send` of a message from `S`, from the client or from the server, and `recv` by the
other one. What becomes of the caller's buffer is dropped. -/
def framing (order : ByteOrder) (ndebug : Bool) (S : Bytes → Prop) (clientSide : Bool) :
    Framing { message : Bytes // S message } where
  send message := do
    let (_, ret) ← send order clientSide message.1
    pure ret
  recv := recv order ndebug (!clientSide)
  content message := message.1
  frame message := frame order clientSide message.1

section Framing

variable (order : ByteOrder) (ndebug clientSide : Bool) {S : Bytes → Prop}

theorem frame_ne_nil (message : Bytes) : frame order clientSide message ≠ [] := by
  rw [frame, header_eq]
  exact List.cons_ne_nil _ _

theorem sends (hS : ∀ m, S m → m.length < 2 ^ 31) :
    (framing order ndebug S clientSide).Sends := by
  refine Framing.sends_of_ideal (z := fun message => do
    let (_, ret) ← encode order clientSide ⟨.text, message.1⟩
    pure ret) (fun message => ?_) fun message s => ?_
  · have hle : message.1.length ≤ intMax := Nat.le_pred_of_lt (hS _ message.2)
    exact (encode_simulates order clientSide hle).bind_eq fun _ => Simulates.pure rfl
  · obtain ⟨span, hrun⟩ := run_encode order clientSide ⟨.text, message.1⟩
      (fun _ => Nat.lt_trans (hS _ message.2) (by decide)) s
    exact Prog.run_bind_of_ok hrun

/-- What a header carries comes back. -/
theorem run_recv {message : Bytes} (h : message.length < 2 ^ 31)
    (hcarried : Carried order message.length) (rest : Bytes) :
    (recv order ndebug (!clientSide)).run
        (⟨frame order clientSide message ++ rest, none⟩ : Feed) =
      .ok (.ok message, ⟨rest, none⟩) :=
  Prog.run_bind_of_ok ((run_decode_iff order ndebug clientSide
    (fun _ => Nat.lt_trans h (by decide)) rest [] none).mpr
      ⟨Nat.le_trans h.le (by decide), hcarried⟩)

/-- And nothing else does, whatever is left unread. -/
theorem carried_of_recv {message : Bytes} (h : message.length < 2 ^ 31) {s : Feed}
    (hrun : (recv order ndebug (!clientSide)).run
      (⟨frame order clientSide message, none⟩ : Feed) = .ok (.ok message, s)) :
    Carried order message.length := by
  obtain ⟨⟨payload, res⟩, s₁, hdecode, hres⟩ := Prog.run_bind_eq_ok.mp hrun
  rcases res with e | _
  · cases hres
  · cases hres
    rw [frame, run_header] at hdecode
    obtain ⟨hlen, -⟩ := (decodePayload_length Feed.readExact_length _ _ _ _).of_ok hdecode
    have hlt : message.length < 2 ^ 64 := Nat.lt_trans h (by decide)
    refine (heard_eq_iff order hlt).mp (BitVec.eq_of_toNat_eq ?_)
    rw [← hlen, BitVec.toNat_ofNat, Nat.mod_eq_of_lt hlt]

theorem lawful (hsome : ∃ m, S m) (hS : ∀ m, S m → m.length < 2 ^ 31)
    (hcarried : ∀ m, S m → Carried order m.length) : (framing order ndebug S clientSide).Lawful :=
  Framing.lawful_of_ideal (nonempty_subtype.mpr hsome)
    (fun message => frame_ne_nil order clientSide message.1) (sends order ndebug clientSide hS)
    (recv_bisimilar serves_readSame order ndebug (!clientSide))
    (fun q => recv_bisimilar (longer_readSame q) order ndebug (!clientSide))
    fun message rest =>
      run_recv order ndebug clientSide (hS _ message.2) (hcarried _ message.2) rest

end Framing

/-- Messages arrive in both directions, in every run over connections that take what they are
given. -/
def Exchanges (order : ByteOrder) (ndebug : Bool) (S : Bytes → Prop) (wsize rsize : Nat) : Prop :=
  ∀ io : Bool → Outlet, (∀ side, (io side).Willing) → (∀ side, (io side).taken = []) →
    ∀ past s, Run (Talk.step (framing order ndebug S)) (fun _ _ => True)
        (Talk.start wsize rsize io) past s →
      ∀ side, Line.Arrives (framing order ndebug S side) (s side)

/-- **The messages that arrive**: what client and server send each other comes once each and in
order, in every run of sends, receives and deliveries of any size, exactly if the headers
carry the lengths of all they may send. Both hosts have the byte order `order`, and the
connection takes what it is given. -/
theorem exchanges_iff (order : ByteOrder) (ndebug : Bool) {S : Bytes → Prop} (hsome : ∃ m, S m)
    (hS : ∀ m, S m → m.length < 2 ^ 31) {wsize rsize : Nat} (hw : wsize ≤ intMax)
    (hr : rsize ≤ intMax) :
    Exchanges order ndebug S wsize rsize ↔ ∀ m, S m → Carried order m.length := by
  constructor
  · intro h m hm
    have hio : ∀ side : Bool, ((fun _ => Outlet.steady) side).Willing := fun _ =>
      Outlet.willing_steady
    obtain ⟨r, r', hsound, hun, hrun⟩ := Framing.comes_of_arrives (F := framing order ndebug S)
      (m := ⟨m, hm⟩) hw hr hio (fun _ => rfl) (sends order ndebug true hS)
      (fun past s hpast => h _ hio (fun _ => rfl) past s hpast true) (frame_ne_nil order true m)
    -- an ideal reader gets the same
    rcases (recv_bisimilar (serves_readSame (E := fun _ => False)) order ndebug false r
        ⟨frame order true m, none⟩ ⟨hsound, hun, rfl⟩).cases with
      ⟨a, _, b, s, hx, hy, rfl, -⟩ | ⟨e, hx, -⟩ | ⟨e, -, hfalse⟩
    · cases hrun.symm.trans hx
      exact carried_of_recv order ndebug true (hS m hm) hy
    · cases hrun.symm.trans hx
    · exact hfalse.elim
  · intro hcarried io hio htaken past s hpast side
    exact Framing.arrives (fun side => lawful order ndebug side hsome hS hcarried) hw hr hio htaken
      hpast side

/-- Short messages. -/
theorem exchanges_iff_short :
    Exchanges .littleEndian true (fun m => m.length < 126) 1024 1024 ↔
      ∀ m : Bytes, m.length < 126 → Carried .littleEndian m.length :=
  exchanges_iff .littleEndian true ⟨[], by decide⟩
    (fun _ h => Nat.lt_trans h (by decide)) (by decide) (by decide)

end Uvio.Net.Websocket
