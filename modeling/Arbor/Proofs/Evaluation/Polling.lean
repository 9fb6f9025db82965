import Arbor.Proofs.Evaluation.Audit

/-!
# Recorded events

Events that are attached to a session are handed out once each and in order, whatever polls for them:
the call of a node, one on the machine, or one in a program that a program runs. A call that is denied
or rejected takes none, and behind the last event every poll finds the idle one. The host is not asked
for events then (`Polled.events_in_order`).
-/

namespace Arbor

variable {σ : Type}

/-! ## 1. What waits -/

namespace Replay

variable (events : List UiEvent) (k : Nat)

theorem next_drop :
    (⟨events.drop k⟩ : Replay).next = (events[k]?.getD .idle, ⟨events.drop (k + 1)⟩) := by
  by_cases hk : k < events.length
  · rw [List.drop_eq_getElem_cons hk, List.getElem?_eq_getElem hk]
    rfl
  · have hend : events.length ≤ k := Nat.le_of_not_lt hk
    rw [List.drop_of_length_le hend, List.drop_of_length_le (Nat.le_succ_of_le hend),
      List.getElem?_eq_none hend]
    rfl

theorem remaining_drop : (⟨events.drop k⟩ : Replay).remaining = events.length - k :=
  List.length_drop

end Replay

/-- The answers to polls from the first event on, up to a number of them. -/
def answers (events : List UiEvent) (polls : Nat) : List (Except Halt Value) :=
  (List.range polls).map fun k => .ok (.node (events[k]?.getD .idle).toNode)

/-- The polls among the calls have taken the events in order, and no other call has taken one. -/
structure Delivers (events : List UiEvent) (replay? : Option Replay) (calls : List Attempt) : Prop where
  waiting : replay? = some ⟨events.drop (calls.countP Attempt.isPoll)⟩
  answered : (calls.filter Attempt.isPoll).map Attempt.ending =
    answers events (calls.countP Attempt.isPoll)
  behind : ∀ earlier a later, calls = earlier ++ a :: later →
    a.behind? = some ⟨events.drop ((earlier ++ [a]).countP Attempt.isPoll)⟩

namespace Delivers

variable {events : List UiEvent} {calls : List Attempt}

theorem start : Delivers events (some ⟨events⟩) [] where
  waiting := rfl
  answered := rfl
  behind earlier a later h := by simp at h

/-- A call that leaves what waits as it must is one more that the events are delivered to. -/
theorem concat {replay? replay?' : Option Replay} (h : Delivers events replay? calls) {a : Attempt}
    (hwaiting : replay?' = if a.isPoll then replay?.map fun r => r.next.2 else replay?)
    (hanswer : a.isPoll = true → ∀ r, replay? = some r → a.ending = .ok (.node r.next.1.toNode))
    (hbehind : a.behind? = replay?') : Delivers events replay?' (calls ++ [a]) := by
  have hafter : replay?' = some ⟨events.drop ((calls ++ [a]).countP Attempt.isPoll)⟩ := by
    rw [hwaiting, h.waiting, List.countP_append, List.countP_singleton]
    cases a.isPoll with
    | false => rfl
    | true =>
      rw [if_pos rfl, Option.map_some, Replay.next_drop]
      rfl
  refine ⟨hafter, ?_, fun earlier b later hsplit => ?_⟩
  · rw [List.filter_append, List.map_append, h.answered, List.countP_append, List.countP_singleton,
      List.filter_singleton]
    cases hpoll : a.isPoll with
    | false => simp
    | true =>
      have hending := hanswer hpoll _ h.waiting
      rw [Replay.next_drop] at hending
      unfold answers
      simp [List.range_succ, hending]
  · obtain rfl | ⟨later, c, rfl⟩ := List.eq_nil_or_concat later
    · obtain ⟨rfl, rfl⟩ : calls = earlier ∧ a = b := by simpa using List.append_inj' hsplit rfl
      rw [hbehind, hafter]
    · have hsplit : calls ++ [a] = (earlier ++ b :: later) ++ [c] := by simpa using hsplit
      exact h.behind earlier b later (List.append_inj' hsplit rfl).1

end Delivers

/-- The recorded events are delivered to the calls noted. -/
def Activation.Delivers (events : List UiEvent) (t : Activation (Annotated (List Attempt) σ)) : Prop :=
  Arbor.Delivers events t.session.replay? t.notes

theorem accounted_delivers (events : List UiEvent) :
    Accounted (Activation.Delivers events : Activation (Annotated (List Attempt) σ) → Prop) where
  of_eq := by
    intro t u ht _ hreplay hnotes
    unfold Activation.Delivers
    rwa [hreplay, hnotes]
  settled := by
    intro t u a ht hsettles
    unfold Activation.Delivers
    rw [hsettles.notes_concat]
    exact ht.concat hsettles.replay hsettles.answer hsettles.behind

/-! ## 2. What is asked of the host -/

/-- While there are recorded events, the host is asked for none, and so it stays. -/
def AsksForNoEvent (t u : Activation (Logged σ)) : Prop :=
  t.session.replay?.isSome = true → u.session.replay?.isSome = true ∧
    ∃ calls, u.session.host.calls = t.session.host.calls ++ calls ∧
      ∀ call ∈ calls, ∀ window, call ≠ .uiPollEvent window

section Host

variable [Host σ]

omit [Host σ] in
theorem asksForNoEvent_of_host_eq {t u : Activation (Logged σ)}
    (hreplay : u.session.replay? = t.session.replay?) (hhost : u.session.host = t.session.host) :
    AsksForNoEvent t u :=
  fun hsome => ⟨hreplay ▸ hsome, [], by rw [hhost, List.append_nil], nofun⟩

theorem asksForNoEvent_ask (t : Activation (Logged σ)) {call : HostCall}
    (hcall : ∀ window, call ≠ .uiPollEvent window) : AsksForNoEvent t (Eval.ask call t).2 := by
  intro hsome
  have hcalls : (Host.perform call t.session.host).2.calls = t.session.host.calls ++ [call] := rfl
  refine ⟨?_, [call], ?_, fun c hc => ?_⟩
  · unfold Eval.ask
    split <;> exact hsome
  · unfold Eval.ask
    split <;> simp_all
  · rw [List.mem_singleton.mp hc]
    exact hcall

theorem asksForNoEvent_serveHost (t : Activation (Logged σ)) (target : String) (args : List Value) :
    AsksForNoEvent t (Eval.serveHost target args t).2 := by
  intro hsome
  obtain ⟨hhost, -⟩ := serveHost_host target args t
  rw [invoke_logged, hsome] at hhost
  refine ⟨?_, ?_⟩
  · rw [Eval.serveHost_replay?, Dispatch.invoke_replay?]
    split
    · rwa [Option.isSome_map]
    · exact hsome
  · dsimp only at hhost
    split at hhost
    · next call value haction =>
      refine ⟨[call], by rw [hhost], fun c hc => ?_⟩
      rw [List.mem_singleton.mp hc]
      exact Dispatch.ne_uiPollEvent_of_action haction
    · exact ⟨[], by rw [hhost, List.append_nil], nofun⟩

theorem invariant_asksForNoEvent :
    Eval.Invariant (AsksForNoEvent : Activation (Logged σ) → Activation (Logged σ) → Prop) where
  refl t := asksForNoEvent_of_host_eq rfl rfl
  trans := by
    intro t u v h h' hsome
    obtain ⟨hmiddle, calls, hcalls, hall⟩ := h hsome
    obtain ⟨hend, calls', hcalls', hall'⟩ := h' hmiddle
    refine ⟨hend, calls ++ calls', by rw [hcalls', hcalls, List.append_assoc], fun c hc => ?_⟩
    exact (List.mem_append.mp hc).elim (hall c) (hall' c)
  note t n := asksForNoEvent_of_host_eq rfl rfl
  assign t f := by
    unfold Activation.mapEnv
    split <;> exact asksForNoEvent_of_host_eq rfl rfl
  serial t k := asksForNoEvent_of_host_eq rfl rfl
  record t f _ := asksForNoEvent_of_host_eq rfl rfl
  exported t name v := by
    unfold Activation.addExport
    split <;> exact asksForNoEvent_of_host_eq rfl rfl
  resolve t path := asksForNoEvent_ask t nofun
  read t path := asksForNoEvent_ask t nofun
  serve t target args _ := asksForNoEvent_serveHost t target args
  nest h := h
  isolate h := h
  call h := h
  load _ _ h := ⟨h, fun _ => h⟩

/-- A run with recorded events, over a host that keeps its calls: it is the same run, and asks for no
event. -/
theorem Run.asks_for_no_event (run : Run) (fuel : Nat) (s : Session σ)
    (hreplay : s.replay?.isSome = true) :
    ∃ calls, run.perform fuel (s.withHost (⟨s.host, []⟩ : Logged σ)) =
        ((run.perform fuel s).1, (run.perform fuel s).2.1,
          (run.perform fuel s).2.2.withHost ⟨(run.perform fuel s).2.2.host, calls⟩) ∧
      ∀ call ∈ calls, ∀ window, call ≠ .uiPollEvent window := by
  obtain ⟨⟨host, calls⟩, hlogged, hrun⟩ := @Likeness.perform_withHost _ _ _ _
    (Likeness.logging s.permissions) rfl rfl run fuel s (⟨s.host, []⟩ : Logged σ) rfl rfl
  obtain rfl : host = (run.perform fuel s).2.2.host := hlogged
  obtain ⟨-, grown, hgrown, hall⟩ := run.keeps invariant_asksForNoEvent fuel
    ⟨s.withHost (⟨s.host, []⟩ : Logged σ), run.frames⟩ hreplay
  have hbehind := congrArg (fun r => r.2.2.host.calls) hrun
  rw [perform_eq] at hbehind
  obtain rfl : calls = grown := hbehind.symm.trans hgrown
  exact ⟨calls, hrun, hall⟩

/-! ## 3. Sessions that poll -/

/-- The session has been used since the events were attached to it, and these are the calls of
capabilities that have ended since then. Between the runs everything but the recorded events may
change. -/
inductive Polled (events : List UiEvent) : Session σ → List Attempt → Prop
  | attached {s : Session σ} (h : s.replay? = some ⟨events⟩) : Polled events s []
  | adjusted {s u : Session σ} {calls : List Attempt} (h : Polled events s calls)
      (hreplay : u.replay? = s.replay?) : Polled events u calls
  | ran {s : Session σ} {calls : List Attempt} (h : Polled events s calls) (run : Run) (fuel : Nat) :
      Polled events (run.perform fuel s).2.2 (run.audited fuel s calls).2

namespace Polled

variable {events : List UiEvent} {s : Session σ} {calls : List Attempt}

theorem delivers (h : Polled events s calls) : Delivers events s.replay? calls := by
  induction h with
  | attached h => exact h ▸ .start
  | adjusted _ hreplay ih => rwa [hreplay]
  | @ran s calls _ run fuel ih =>
    have hbehind := (accounted_delivers events).ran run fuel ⟨s.annotated calls, run.frames⟩ ih
    rw [← run.audited_eq_perform fuel s calls]
    exact hbehind

/-- Recorded events are delivered once and in order. Whatever has run since the events were attached,
the polls that pass the checks, on every path and at every depth, have come to the events in order and
then to idle ones, and behind every call as many events wait as the polls so far have left, so that
calls of other kinds, denied ones and rejected ones have taken none. However a run goes on from there,
it asks the host for no event. -/
theorem events_in_order (h : Polled events s calls) :
    (calls.filter Attempt.isPoll).map Attempt.ending =
        answers events (calls.countP Attempt.isPoll) ∧
      s.replay?.map Replay.remaining = some (events.length - calls.countP Attempt.isPoll) ∧
      (∀ earlier a later, calls = earlier ++ a :: later →
        a.behind?.map Replay.remaining =
          some (events.length - (earlier ++ [a]).countP Attempt.isPoll)) ∧
      ∀ (run : Run) (fuel : Nat), (run.audited fuel s calls).1 = run.perform fuel s ∧
        ∃ asked, run.perform fuel (s.withHost (⟨s.host, []⟩ : Logged σ)) =
            ((run.perform fuel s).1, (run.perform fuel s).2.1,
              (run.perform fuel s).2.2.withHost ⟨(run.perform fuel s).2.2.host, asked⟩) ∧
          ∀ call ∈ asked, ∀ window, call ≠ .uiPollEvent window := by
  have hdelivers := h.delivers
  refine ⟨hdelivers.answered, ?_, fun earlier a later hsplit => ?_, fun run fuel => ⟨?_, ?_⟩⟩
  · rw [hdelivers.waiting, Option.map_some, Replay.remaining_drop]
  · rw [hdelivers.behind earlier a later hsplit, Option.map_some, Replay.remaining_drop]
  · exact run.audited_eq_perform fuel s calls
  · exact run.asks_for_no_event fuel s (by rw [hdelivers.waiting]; rfl)

end Polled

end Host

theorem Session.replay?_grant (s : Session σ) (permission : String) :
    (s.grant permission).replay? = s.replay? := by
  unfold grant
  split <;> rfl

/-- A program that polls four times, once with an argument that is no window. -/
def pollingOften : Node where
  kind := "Program"
  id := "p"
  children := [poll "a" (.int 1), poll "b" (.string "x"), poll "c" (.int 2), poll "d" (.int 3)]
where
  poll (id : String) (window : AttrValue) : Node :=
    { kind := "Call", id, attrs := attrs [("target", .identifier "sys.ui_pollEvent")]
      children := [{ kind := "Lit", id := id ++ "w", attrs := attrs [("value", window)] }] }

/-- The polls are denied at first. With the permissions two of three get an event, in a program that is
run by another. -/
theorem Polled.events_in_order_pollingOften :
    let click : UiEvent := { UiEvent.idle with kind := "click" }
    let key : UiEvent := { UiEvent.idle with kind := "key" }
    let s : Session LocalHost := { Session.fresh "" with replay? := some ⟨[click, key]⟩ }
    let first : Run := .evaluate pollingOften
    let granted := ((first.perform 9 s).2.2.grant "sys").grant "compiler"
    let second : Run := .callCapability "compiler.run" [.node pollingOften]
    let calls := (second.audited 9 granted (first.audited 9 s []).2).2
    Polled [click, key] (second.perform 9 granted).2.2 calls ∧
      calls.map (fun a => a.phase.name) =
        ["denied", "denied", "denied", "denied", "replay", "rejected", "replay", "replay", "ok"] ∧
      (calls.filter Attempt.isPoll).map Attempt.ending =
        [.ok (.node click.toNode), .ok (.node key.toNode), .ok (.node UiEvent.idle.toNode)] ∧
      (second.perform 9 granted).2.2.replay?.map Replay.remaining = some 0 := by
  intro click key s first granted second calls
  have hfirst : Polled [click, key] (first.perform 9 s).2.2 (first.audited 9 s []).2 :=
    .ran (.attached rfl) first 9
  have hgranted : granted.replay? = (first.perform 9 s).2.2.replay? := by
    rw [Session.replay?_grant, Session.replay?_grant]
  have hused : Polled [click, key] (second.perform 9 granted).2.2 calls :=
    .ran (.adjusted hfirst hgranted) second 9
  have hpolls : calls.countP Attempt.isPoll = 3 := by decide +kernel
  obtain ⟨hanswers, hremaining, -⟩ := hused.events_in_order
  rw [hpolls] at hanswers hremaining
  exact ⟨hused, by decide +kernel, hanswers, hremaining⟩

end Arbor
