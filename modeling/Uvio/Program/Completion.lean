import Uvio.Program.Awaitable
import Mathlib.Data.List.Induction

/-!
# Awaitables that are told when they are over

A library for awaitables whose callbacks report parts of an outcome and, with the last
of them, that the operation is over. It names no program.

- `told`, `awaited`: what the callbacks of a list of events said, and whether it has
  the `co_await`.
- `Answers`: the awaiter keeps what it was told, is ready exactly when it was told the
  last of it, and resumes the handle it finds then.
- `run_answers`: the coroutine is let go on once, with the answer to all that was told,
  and not before. Neither order of the callbacks and the `co_await` loses it.
-/

namespace Uvio.Program

namespace Awaitable

variable {A κ ρ : Type}

/-- What the callbacks said, in order. -/
def told (events : List (Event A κ)) : List κ :=
  events.filterMap fun
    | .callback said => some said
    | _ => none

def awaited (events : List (Event A κ)) : Bool :=
  events.any fun
    | .await => true
    | _ => false

@[simp] theorem told_snoc_callback (events : List (Event A κ)) (said : κ) :
    told (events ++ [.callback said]) = told events ++ [said] := by simp [told]

@[simp] theorem told_snoc_await (events : List (Event A κ)) :
    told (events ++ [.await]) = told events := by simp [told]

@[simp] theorem awaited_snoc_callback (events : List (Event A κ)) (said : κ) :
    awaited (events ++ [.callback said]) = awaited events := by simp [awaited]

@[simp] theorem awaited_snoc_await (events : List (Event A κ)) :
    awaited (events ++ [.await]) = true := by simp [awaited]

/-- An awaitable of whose callbacks `Allowed` is asked. `Going b ks a`: the awaiter `a`
was told `ks`, without the last, and has a handle if `b`. -/
structure Answers (aw : Awaitable A κ ρ) (init : A) (Allowed : κ → Prop) (last : κ → Bool)
    (answer : List κ → ρ) (Going : Bool → List κ → A → Prop) : Prop where
  init : Going false [] init
  ready : ∀ {b ks a}, Going b ks a → aw.ready a = false
  suspend : ∀ {ks a}, Going false ks a → Going true ks (aw.suspend a)
  part : ∀ {b ks a said out}, Going b ks a → Allowed said → last said = false →
    aw.callback a said = some out → Going b (ks ++ [said]) out.1 ∧ out.2 = false
  ended : ∀ {b ks a said out}, Going b ks a → Allowed said → last said = true →
    aw.callback a said = some out → out.2 = b ∧ aw.ready out.1 = true ∧
      (aw.resume out.1).1 = answer (ks ++ [said])

/-- What a coroutine is given that awaits an operation. -/
def given (last : κ → Bool) (answer : List κ → ρ) (awaited : Bool) (ks : List κ) : List ρ :=
  if awaited && ks.any last then [answer ks] else []

/-- Where it is. -/
def whereabouts (last : κ → Bool) (awaited : Bool) (ks : List κ) : Coroutine :=
  if awaited then if ks.any last then .resumed else .suspended else .notAwaiting

variable {aw : Awaitable A κ ρ} {init : A} {Allowed : κ → Prop} {last : κ → Bool}
  {answer : List κ → ρ} {Going : Bool → List κ → A → Prop}

/-- What an operation is after `b`, whether it was awaited, and `ks`, what it was told. -/
structure Follows (aw : Awaitable A κ ρ) (last : κ → Bool) (answer : List κ → ρ)
    (Going : Bool → List κ → A → Prop) (b : Bool) (ks : List κ) (op : Operation A ρ) : Prop where
  results : op.results = given last answer b ks
  coroutine : op.coroutine = whereabouts last b ks
  going : ks.any last = false → Going b ks op.awaiter
  ended : ks.any last = true → b = false →
    aw.ready op.awaiter = true ∧ (aw.resume op.awaiter).1 = answer ks

/-- A callback while the operation goes on. -/
theorem Follows.callback (h : Answers aw init Allowed last answer Going) {b : Bool} {ks : List κ}
    {op : Operation A ρ} (hop : Follows aw last answer Going b ks op)
    (hgoing : ks.any last = false) {said : κ} {out : A × Bool} (hallowed : Allowed said)
    (hcall : aw.callback op.awaiter said = some out) :
    Follows aw last answer Going b (ks ++ [said]) (aw.afterCallback op out.1 out.2) := by
  have hany : (ks ++ [said]).any last = last said := by simp [hgoing]
  have hresults := hop.results
  have hcoroutine := hop.coroutine
  rw [given, hgoing, Bool.and_false, if_neg (by decide)] at hresults
  rw [whereabouts, hgoing] at hcoroutine
  cases hsaid : last said with
  | false =>
    obtain ⟨hpart, hout⟩ := h.part (hop.going hgoing) hallowed hsaid hcall
    rw [afterCallback, hout, if_neg (by decide)]
    refine ⟨?_, ?_, fun _ => hpart, fun hover => ?_⟩
    · rw [given, hany, hsaid, Bool.and_false, if_neg (by decide)]
      exact hresults
    · rw [whereabouts, hany, hsaid]
      exact hcoroutine
    · rw [hany, hsaid] at hover
      cases hover
  | true =>
    obtain ⟨hout, hready, hanswer⟩ := h.ended (hop.going hgoing) hallowed hsaid hcall
    have hnot : (ks ++ [said]).any last ≠ false := by rw [hany, hsaid]; decide
    rw [afterCallback, hout]
    cases b with
    | true =>
      refine ⟨?_, ?_, fun hno => absurd hno hnot, nofun⟩
      · rw [given, hany, hsaid, Bool.and_true, if_pos rfl, if_pos rfl]
        show op.results ++ [(aw.resume out.1).1] = _
        rw [hresults, hanswer, List.nil_append]
      · rw [whereabouts, hany, hsaid]
        rfl
    | false =>
      rw [if_neg (by decide)]
      refine ⟨?_, hcoroutine, fun hno => absurd hno hnot, fun _ _ => ⟨hready, hanswer⟩⟩
      rw [given, Bool.false_and, if_neg (by decide)]
      exact hresults

/-- The `co_await`. -/
theorem Follows.await (h : Answers aw init Allowed last answer Going) {ks : List κ}
    {op : Operation A ρ} (hop : Follows aw last answer Going false ks op) :
    Follows aw last answer Going true ks (aw.afterAwait op) := by
  have hresults : op.results = [] := hop.results
  unfold afterAwait
  cases hany : ks.any last with
  | false =>
    have hgoing := hop.going hany
    rw [h.ready hgoing, if_neg (by decide)]
    refine ⟨?_, ?_, fun _ => h.suspend hgoing, nofun⟩
    · rw [given, hany]
      exact hresults
    · rw [whereabouts, hany]
      rfl
  | true =>
    obtain ⟨hready, hanswer⟩ := hop.ended hany rfl
    rw [hready, if_pos rfl]
    refine ⟨?_, ?_, fun hno => ?_, nofun⟩
    · show op.results ++ [(aw.resume op.awaiter).1] = _
      rw [given, hany, hresults, hanswer]
      rfl
    · rw [whereabouts, hany]
      rfl
    · cases hany.symm.trans hno

/-- An operation can be awaited once. -/
theorem Follows.not_awaited {b : Bool} {ks : List κ} {op : Operation A ρ}
    (hop : Follows aw last answer Going b ks op) (hnot : op.coroutine = .notAwaiting) :
    b = false := by
  have hcoroutine := hop.coroutine
  rw [hnot] at hcoroutine
  cases b with
  | false => rfl
  | true =>
    rw [whereabouts, if_pos rfl] at hcoroutine
    split at hcoroutine <;> cases hcoroutine

/-- **An operation that is told its outcome answers it**: in every order of callbacks and
`co_await` in which nothing comes after the last callback, the coroutine goes on once it
has awaited and the operation is over, once, and with the answer to all that was told. -/
theorem run_answers (h : Answers aw init Allowed last answer Going) {events : List (Event A κ)}
    {s : Option (Operation A ρ)}
    (hrun : Run aw.act (fun _ _ => True) none (.start init true :: events) s)
    (hallowed : ∀ said ∈ told events, Allowed said)
    (hlast : (told events).Pairwise fun said _ => last said = false) :
    ∃ op, s = some op ∧ op.owed = true ∧
      Follows aw last answer Going (awaited events) (told events) op := by
  have hfold := hrun.foldlM_eq
  rw [foldlM_cons_eq_some] at hfold
  obtain ⟨s₁, hstart, hfold⟩ := hfold
  obtain rfl := Option.some.inj hstart
  clear hrun hstart
  induction events using List.reverseRecOn generalizing s with
  | nil =>
    obtain rfl := Option.some.inj hfold
    exact ⟨_, rfl, rfl, rfl, rfl, fun _ => h.init, nofun⟩
  | append_singleton events event ih =>
    rw [List.foldlM_append, Option.bind_eq_bind, Option.bind_eq_some_iff] at hfold
    obtain ⟨s₁, hevents, hstep⟩ := hfold
    rw [foldlM_cons_eq_some] at hstep
    obtain ⟨s₂, hstep, hend⟩ := hstep
    obtain rfl := Option.some.inj hend
    cases event with
    | start a taken =>
      obtain ⟨op, rfl, -⟩ := ih (fun said hsaid => hallowed said (by simpa [told] using hsaid))
        (by simpa [told] using hlast) hevents
      cases hstep
    | callback said =>
      rw [told_snoc_callback] at hallowed hlast
      rw [List.pairwise_append] at hlast
      obtain ⟨op, rfl, howed, hop⟩ :=
        ih (fun k hk => hallowed k (List.mem_append_left _ hk)) hlast.1 hevents
      -- nothing that was told before this callback was the last
      have hgoing : (told events).any last = false := by
        rw [List.any_eq_false]
        exact fun ks hks => by simp [hlast.2.2 ks hks said (.head _)]
      simp only [act, howed, if_true, Option.map_eq_some_iff] at hstep
      obtain ⟨out, hcall, rfl⟩ := hstep
      refine ⟨_, rfl, ?_, ?_⟩
      · unfold afterCallback complete
        split <;> exact howed
      · rw [awaited_snoc_callback, told_snoc_callback]
        exact hop.callback h hgoing (hallowed said (by simp)) hcall
    | await =>
      rw [told_snoc_await] at hallowed hlast
      obtain ⟨op, rfl, howed, hop⟩ := ih hallowed hlast hevents
      simp only [act, Option.ite_none_right_eq_some] at hstep
      obtain ⟨hnot, hstep⟩ := hstep
      obtain rfl := Option.some.inj hstep
      have hfalse := hop.not_awaited hnot
      rw [hfalse] at hop
      refine ⟨_, rfl, ?_, ?_⟩
      · unfold afterAwait complete
        split <;> exact howed
      · rw [awaited_snoc_await, told_snoc_await]
        exact hop.await h

/-- **Along a script**: the callbacks say `parts` and then `final`, as far as the run goes. -/
theorem run_script (h : Answers aw init Allowed last answer Going) (parts : List κ) {final : κ}
    (hparts : ∀ said ∈ parts, Allowed said ∧ last said = false) (hfinal : Allowed final)
    (hlast : last final = true) {events : List (Event A κ)} {s : Option (Operation A ρ)}
    (hrun : Run aw.act (fun _ _ => True) none (.start init true :: events) s)
    (hscript : told events <+: parts ++ [final]) :
    ∃ op, s = some op ∧
      (told events = parts ++ [final] ∧ awaited events = true →
        op.coroutine = .resumed ∧ op.results = [answer (parts ++ [final])]) ∧
      (¬ (told events = parts ++ [final] ∧ awaited events = true) →
        op.coroutine ≠ .resumed ∧ op.results = []) := by
  have hall : ∀ said ∈ parts ++ [final], Allowed said := by
    intro said hsaid
    rcases List.mem_append.mp hsaid with hmem | hmem
    · exact (hparts said hmem).1
    · obtain rfl := List.mem_singleton.mp hmem
      exact hfinal
  have hpair : (parts ++ [final]).Pairwise fun said _ => last said = false :=
    List.pairwise_append.mpr ⟨List.pairwise_of_forall_mem_list fun a ha _ _ => (hparts a ha).2,
      List.pairwise_singleton _ _, fun a ha _ _ => (hparts a ha).2⟩
  obtain ⟨op, hop, -, hfollows⟩ := run_answers h hrun
    (fun said hsaid => hall said (hscript.subset hsaid)) (hpair.sublist hscript.sublist)
  -- the last is among what was told exactly at the end of the script
  have hany : (told events).any last = true ↔ told events = parts ++ [final] := by
    constructor
    · intro hsaid
      rcases List.prefix_concat_iff.mp hscript with heq | hpre
      · exact heq
      · obtain ⟨said, hmem, hsaid⟩ := List.any_eq_true.mp hsaid
        rw [(hparts said (hpre.subset hmem)).2] at hsaid
        cases hsaid
    · intro heq
      rw [heq, List.any_append]
      simp [hlast]
  refine ⟨op, hop, ?_, ?_⟩
  · rintro ⟨heq, hawaited⟩
    have hsaid := hany.mpr heq
    refine ⟨?_, ?_⟩
    · rw [hfollows.coroutine, whereabouts, hawaited, hsaid]
      rfl
    · rw [hfollows.results, given, hawaited, hsaid, heq]
      rfl
  · intro hnot
    have hsaid : awaited events = true → (told events).any last = false := by
      intro hawaited
      by_contra hno
      exact hnot ⟨hany.mp (by simpa using hno), hawaited⟩
    rw [hfollows.coroutine, hfollows.results]
    unfold given whereabouts
    cases hawaited : awaited events with
    | false => exact ⟨nofun, rfl⟩
    | true =>
      rw [hsaid hawaited]
      exact ⟨nofun, rfl⟩

end Awaitable

end Uvio.Program
