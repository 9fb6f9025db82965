import Arbor.Proofs.Capability.Actions
import Arbor.Proofs.Capability.Annotated
import Arbor.Proofs.Evaluation.Frames

/-!
# Audited runs

An audited evaluation notes every call of a capability that there is, once it has ended: the `Attempt`
tells who was called with which arguments, whether the permission was held and how the call ended. The
notes are taken around the calls and not where these are recorded or where recorded events are handed
out, and they make no difference to a run (`Run.audited_eq_perform`).

`Attempt.Settles` says what a call does to the recorded calls and events, apart from what it evaluates.
A property of these and of the notes that each call keeps so is kept by every audited run
(`Accounted.ran`).
-/

namespace Arbor

variable {σ : Type}

/-! ## 1. Calls that have ended -/

/-- A call of a capability that has come to an end. A call in a program whose permission is missing has
no arguments, since they are not evaluated. -/
structure Attempt where
  contract : Contract
  args : List Value
  permitted : Bool
  /-- Were there recorded events when it started, waiting or not? -/
  replaying : Bool
  ending : Except Halt Value
  /-- The recorded events behind it. -/
  behind? : Option Replay

/-- The call that starts at `t` and ends at `u`. -/
def Attempt.ofCall (contract : Contract) (args : List Value) (t : Activation σ) (o : Outcome Value)
    (u : Activation σ) : Attempt where
  contract := contract
  args := args
  permitted := t.session.hasPermission contract.permission
  replaying := t.session.replay?.isSome
  ending := Session.conclude o
  behind? := u.session.replay?

namespace Attempt

variable (a : Attempt)

/-- Are the arguments known, and of the kinds that the contract asks for? -/
def fits : Bool :=
  !(a.args.any Value.isUnknown || !(a.contract.check (a.args.map Value.kind)).isEmpty)

/-- Does the call pass both checks? -/
def isServed : Bool := a.permitted && a.fits

/-- Is it a poll for an event that passes both checks? -/
def isPoll : Bool := a.isServed && a.contract.target == "sys.ui_pollEvent"

/-- What became of the call. -/
def phase : CallPhase :=
  if !a.permitted then .denied
  else if !a.fits then .rejected
  else
    match a.ending with
    | .error _ => .failed
    | .ok _ => if a.isPoll && a.replaying then .replay else .ok

/-- The value of the call, which is unknown when it ends the run. -/
def result : Value :=
  match a.ending with
  | .ok v => v
  | .error _ => .unknown

/-- The calls that leave a record. A fault inside of `compiler.run` ends the call before it is recorded,
and so does the end of the run by the host. -/
def isRecorded : Bool :=
  match a.ending with
  | .ok _ => true
  | .error (.fault _) => a.contract.target != "compiler.run"
  | .error _ => false

/-- The arguments that the record of the call shows. -/
def shownArgs : List Value := if a.permitted then a.args else []

/-- What the call does apart from what it evaluates: it records itself, and a poll takes the next of the
recorded events and answers with it. -/
structure Settles {ν : Type} (t u : Activation (Annotated ν σ)) : Prop where
  recorder : u.session.recorder? =
    if a.isRecorded then t.session.recorder?.map fun r =>
      r.recordSyscall a.contract.target (a.shownArgs.map Value.render) a.result.render a.phase.name
    else t.session.recorder?
  replay : u.session.replay? =
    if a.isPoll then t.session.replay?.map fun r => r.next.2 else t.session.replay?
  answer : a.isPoll = true → ∀ r, t.session.replay? = some r →
    a.ending = .ok (.node r.next.1.toNode)
  behind : a.behind? = u.session.replay?
  notes : u.notes = t.notes

end Attempt

/-! ## 2. Audited evaluation -/

namespace Eval

/-- Does a step and notes it as a call of the target, if there is a capability of this name. -/
def attempting (target : String) (args : List Value)
    (step : Eval (Annotated (List Attempt) σ) Value) : Eval (Annotated (List Attempt) σ) Value :=
  fun t =>
    match Contract.lookup? target with
    | none => step t
    | some contract =>
      let (o, u) := step t
      (o, u.annotate fun calls => calls ++ [.ofCall contract args t o u])

/-- The target of a `Call` whose permission is missing. -/
def denied? (s : Session σ) (n : Node) : Option String :=
  match n.ident? "target" with
  | none => none
  | some target =>
    match Contract.lookup? target with
    | none => none
    | some contract => if s.hasPermission contract.permission then none else some target

theorem denied?_eq_some_iff {s : Session σ} {n : Node} {target : String} :
    denied? s n = some target ↔ n.ident? "target" = some target ∧
      ∃ contract, Contract.lookup? target = some contract ∧
        s.hasPermission contract.permission = false := by
  unfold denied?
  cases n.ident? "target" with
  | none => simp
  | some name =>
    cases hlookup : Contract.lookup? name with
    | none =>
      dsimp only
      grind
    | some contract =>
      dsimp only
      cases hheld : s.hasPermission contract.permission <;> grind

section Audited

variable [Host σ]

/-- Calls a capability on values. -/
def auditedCapability (self : Node → Eval (Annotated (List Attempt) σ) Value) (steps : Nat) :
    Nat → String → List Value → Eval (Annotated (List Attempt) σ) Value
  | 0, target, args => attempting target args (callChecked (fun _ _ => halt .outOfFuel) target args)
  | nesting + 1, target, args =>
    attempting target args
      (callChecked (serveMeta self (auditedCapability self steps nesting) steps) target args)

/-- Evaluates a `Call`. One that is denied is a call of the capability all the same. -/
def auditedCall (self : Node → Eval (Annotated (List Attempt) σ) Value) (steps : Nat) (n : Node) :
    Eval (Annotated (List Attempt) σ) Value := fun t =>
  let call := evalCall self (auditedCapability self steps steps) (callClosure self) n
  match denied? t.session n with
  | some target => attempting target [] call t
  | none => call t

/-- Evaluates a node by its form. -/
def auditedForm (self : Node → Eval (Annotated (List Attempt) σ) Value) (steps : Nat) (n : Node) :
    Eval (Annotated (List Attempt) σ) Value :=
  if n.form? = some .call then auditedCall self steps n else evalForm self steps n

/-- Evaluates a node. -/
def audited : Nat → Node → Eval (Annotated (List Attempt) σ) Value
  | 0, _ => halt .outOfFuel
  | fuel + 1, n => entering n (auditedForm (audited fuel) fuel n)

end Audited

end Eval

namespace Run

variable [Host σ]

/-- The evaluation step that the audited run consists of. -/
def auditedStep (run : Run) (fuel : Nat) : Eval (Annotated (List Attempt) σ) Value :=
  let call := Eval.auditedCapability (Eval.audited fuel) fuel fuel
  match run with
  | evaluate n => Eval.audited fuel n
  | evaluateInFrame n _ => Eval.audited fuel n
  | callCapability target args => call target args
  | runProgram p entry args => Eval.runMachine call fuel p entry args
  | runBytecode bytecode entry args => Eval.runBytecode call fuel bytecode entry args

/-- Runs it, and adds the calls of capabilities that have ended to the ones before, in the order in
which they ended. -/
def audited (run : Run) (fuel : Nat) (s : Session σ) (calls : List Attempt) :
    (Except Halt Value × Env × Session σ) × List Attempt :=
  let (o, t) := run.auditedStep fuel ⟨s.annotated calls, run.frames⟩
  ((Session.conclude o, run.frameBehind t.frames, t.session.bare), t.notes)

end Run

/-! ## 3. The audit makes no difference -/

namespace Likeness

variable [Host σ] {L : Likeness σ (Annotated (List Attempt) σ)} (hnotes : L.IgnoresNotes)
include hnotes

theorem attempting {step : Eval σ Value} {step' : Eval (Annotated (List Attempt) σ) Value}
    (hstep : L.Steps L.Values step step') (target : String) (args : List Value) :
    L.Steps L.Values step (Eval.attempting target args step') := by
  intro t u ht
  have hends := hstep ht
  unfold Eval.attempting
  cases Contract.lookup? target with
  | none => exact hends
  | some contract =>
    dsimp only
    generalize step t = x at hends ⊢
    generalize step' u = y at hends ⊢
    cases hends with
    | value hv hact => exact .value hv (hnotes.annotate hact _)
    | returned hv hact => exact .returned hv (hnotes.annotate hact _)
    | halted hact => exact .halted (hnotes.annotate hact _)

section Nested

variable {self : Node → Eval σ Value} {self' : Node → Eval (Annotated (List Attempt) σ) Value}
  (hself : ∀ {n m}, L.Nodes n m → L.Steps L.Values (self n) (self' m))
include hself

theorem auditedCapability (steps nesting : Nat) (target : String) {vs ws : List Value}
    (hvs : L.ValueLists vs ws) :
    L.Steps L.Values (Eval.callCapability self steps nesting target vs)
      (Eval.auditedCapability self' steps nesting target ws) := by
  induction nesting generalizing target vs ws with
  | zero => exact attempting hnotes (callChecked (fun _ _ => halt _) target hvs) target ws
  | succ nesting ih =>
    refine attempting hnotes (callChecked (serveMeta hself ?_ steps) target hvs) target ws
    exact fun target _ _ hvs => ih target hvs

theorem auditedForm (steps : Nat) {n m : Node} (hn : L.Nodes n m) :
    L.Steps L.Values (Eval.evalForm self steps n) (Eval.auditedForm self' steps m) := by
  unfold Eval.auditedForm
  by_cases hcall : m.form? = some .call
  · have hform : n.form? = some .call := hn.form.trans hcall
    rw [if_pos hcall]
    unfold Eval.evalForm
    rw [hform]
    have hplain := evalCall hself (auditedCapability hnotes hself steps steps) (callClosure hself) hn
      hform
    intro t u ht
    unfold Eval.auditedCall
    dsimp only
    split
    · exact attempting hnotes hplain _ _ ht
    · exact hplain ht
  · rw [if_neg hcall]
    exact evalForm hself steps hn

end Nested

theorem audited (fuel : Nat) : ∀ {n m : Node}, L.Nodes n m →
    L.Steps L.Values (Eval.eval fuel n) (Eval.audited fuel m) := by
  induction fuel with
  | zero => exact fun _ => halt _
  | succ fuel ih => exact fun hn => entering hn (auditedForm hnotes ih fuel hn)

end Likeness

theorem Run.audited_eq_perform [Host σ] (run : Run) (fuel : Nat) (s : Session σ)
    (calls : List Attempt) : (run.audited fuel s calls).1 = run.perform fuel s := by
  refine run.perform_of_alike fuel s calls rfl ?_
  have hnotes : (Likeness.ofAnnotated (List Attempt) s.permissions : Likeness σ _).IgnoresNotes :=
    Likeness.ofAnnotated_ignoresNotes _
  have hself {n m : Node} (hn : Likeness.Nodes _ n m) := Likeness.audited hnotes fuel hn
  have hcall (target : String) (vs ws : List Value) (hvs : Likeness.ValueLists _ vs ws) :=
    Likeness.auditedCapability hnotes hself fuel fuel target hvs
  cases run with
  | evaluate n => exact hself rfl
  | evaluateInFrame n _ => exact hself rfl
  | callCapability target args => exact hcall target args args rfl
  | runProgram p entry args => exact Likeness.runMachine hcall fuel p entry rfl
  | runBytecode bytecode entry args => exact Likeness.runBytecode hcall fuel bytecode entry args

/-! ## 4. What one call does -/

namespace Contract

theorem isMeta_of_run {c : Contract} (h : c.target = "compiler.run") : c.isMeta = true := by
  unfold isMeta
  rw [h]
  decide

theorem not_isMeta_of_poll {c : Contract} (h : c.target = "sys.ui_pollEvent") :
    c.isMeta = false := by
  unfold isMeta
  rw [h]
  decide

end Contract

theorem Attempt.not_isPoll_of_isMeta (a : Attempt) (h : a.contract.isMeta = true) :
    a.isPoll = false := by
  have htarget : a.contract.target ≠ "sys.ui_pollEvent" := fun htarget =>
    absurd (h.symm.trans (Contract.not_isMeta_of_poll htarget)) (by decide)
  simp [isPoll, htarget]

namespace Eval

/-- How a call that the session itself serves may end: it is not left by a `Return`, and only
`compiler.run` ends with a fault. -/
inductive ServedBySession (target : String) : Outcome Value → Prop where
  | value (v : Value) : ServedBySession target (.value v)
  | fault (f : Fault) (h : target = "compiler.run") : ServedBySession target (.halted (.fault f))
  | stopped : ServedBySession target (.halted .stopped)
  | outOfFuel : ServedBySession target (.halted .outOfFuel)

namespace ServedBySession

theorem runNested (self : Node → Eval σ Value) (n : Node) (t : Activation σ) :
    ServedBySession "compiler.run" (Eval.runNested self n t).1 := by
  unfold Eval.runNested catchReturn
  dsimp only
  rcases self n { t with frames := [∅] } with ⟨v | v | f | _ | _, u⟩
  · exact .value v
  · exact .value v
  · exact .fault f rfl
  · exact .stopped
  · exact .outOfFuel

theorem runBytecode (call : String → List Value → Eval σ Value) (steps : Nat) (bytecode : Node)
    (entry : String) (args : Node) (target : String) (t : Activation σ) :
    ServedBySession target (faultAsValue (Eval.runBytecode call steps bytecode entry args) t).1 := by
  unfold faultAsValue Eval.runBytecode
  cases BytecodeProgram.load bytecode with
  | error e => exact .value _
  | ok p =>
    dsimp only
    unfold runMachine
    rcases Machine.run (machineRunner call) steps p entry (args.children.map argumentValue) t with
      ⟨(e | (f | _ | _) | _) | v, u⟩
    · exact .value _
    · exact .value _
    · exact .stopped
    · exact .outOfFuel
    · exact .outOfFuel
    · exact .value v

theorem serveMeta (self : Node → Eval σ Value) (call : String → List Value → Eval σ Value)
    (steps : Nat) (target : String) (args : List Value) (t : Activation σ) :
    ServedBySession target (Eval.serveMeta self call steps target args t).1 := by
  unfold Eval.serveMeta
  split
  · exact .value _
  · exact .value _
  · exact .value _
  · exact .value _
  · exact runNested self _ t
  · exact runBytecode call steps _ _ _ _ t
  · exact .value _

end ServedBySession

end Eval

namespace Attempt

variable {ν : Type} {t : Activation (Annotated ν σ)} {a : Attempt}

/-- A call other than a poll settles when it makes the record that it should make. -/
theorem settles_of_not_isPoll (hpoll : a.isPoll = false) {u : Activation (Annotated ν σ)}
    (hrecorder : u.session.recorder? =
      if a.isRecorded then
        (t.session.recordCall a.contract.target a.shownArgs a.result a.phase).recorder?
      else t.session.recorder?)
    (hreplay : u.session.replay? = t.session.replay?) (hbehind : a.behind? = u.session.replay?)
    (hnotes : u.notes = t.notes) : a.Settles t u where
  recorder := hrecorder
  replay := by rw [hpoll, hreplay]; rfl
  answer h := absurd (h.symm.trans hpoll) (by decide)
  behind := hbehind
  notes := hnotes

theorem settles_of_denied (hdenied : a.permitted = false) (hending : a.ending = .ok .unknown)
    (hbehind : a.behind? = t.session.replay?) : a.Settles t (t.recordDenied a.contract) := by
  have hpoll : a.isPoll = false := by simp [isPoll, isServed, hdenied]
  refine settles_of_not_isPoll hpoll ?_ rfl hbehind rfl
  simp [isRecorded, shownArgs, phase, result, hdenied, hending, Activation.recordDenied]

theorem settles_of_rejected (hpermitted : a.permitted = true) (hfits : a.fits = false)
    (hending : a.ending = .ok .unknown) (hbehind : a.behind? = t.session.replay?) :
    a.Settles t
      { t with session := t.session.recordCall a.contract.target a.args .unknown .rejected } := by
  have hpoll : a.isPoll = false := by simp [isPoll, isServed, hfits]
  refine settles_of_not_isPoll hpoll ?_ rfl hbehind rfl
  simp [isRecorded, shownArgs, phase, result, hpermitted, hfits, hending]

/-- The session was to serve the call, which has ended the run. -/
theorem settles_of_not_recorded (hmeta : a.contract.isMeta = true) (hrecorded : a.isRecorded = false)
    (hbehind : a.behind? = t.session.replay?) : a.Settles t t := by
  refine settles_of_not_isPoll (a.not_isPoll_of_isMeta hmeta) ?_ rfl hbehind rfl
  rw [hrecorded]
  rfl

/-- The session has served the call, and `t` is what it left. -/
theorem settles_of_served (hpermitted : a.permitted = true) (hfits : a.fits = true)
    (hmeta : a.contract.isMeta = true) {v : Value} (hending : a.ending = .ok v)
    (hbehind : a.behind? = t.session.replay?) :
    a.Settles t { t with session := t.session.recordCall a.contract.target a.args v .ok } := by
  have hpoll : a.isPoll = false := a.not_isPoll_of_isMeta hmeta
  refine settles_of_not_isPoll hpoll ?_ rfl hbehind rfl
  simp [isRecorded, shownArgs, phase, result, hpermitted, hfits, hending, hpoll]

end Attempt

namespace Eval

variable [Host σ]

theorem serveHost_replay? (target : String) (args : List Value) (t : Activation σ) :
    (serveHost target args t).2.session.replay? =
      (Dispatch.invoke t.session.host t.session.replay? target args).replay? := by
  unfold serveHost
  dsimp only
  split <;> rfl

theorem serveHost_poll {args : List Value} {t : Activation σ} {r : Replay}
    (hr : t.session.replay? = some r) :
    (serveHost "sys.ui_pollEvent" args t).1 = .value (.node r.next.1.toNode) := by
  unfold serveHost
  dsimp only
  rw [hr, Dispatch.invoke_poll]

end Eval

/-- The host has served the call. -/
theorem Attempt.settles_of_host [Host σ] {ν : Type} {a : Attempt}
    {t u : Activation (Annotated ν σ)} {o : Outcome Value}
    (hserve : Eval.serveHost a.contract.target a.args t = (o, u)) (hserved : a.isServed = true)
    (hhost : a.contract.isMeta = false) (hreplaying : a.replaying = t.session.replay?.isSome)
    (hending : a.ending = Session.conclude o) (hbehind : a.behind? = u.session.replay?) :
    a.Settles t u := by
  obtain ⟨rfl, rfl⟩ := Prod.ext_iff.mp hserve.symm
  obtain ⟨hpermitted, hfits⟩ : a.permitted = true ∧ a.fits = true := by
    simpa [isServed] using hserved
  have hpoll : a.isPoll = true ↔ a.contract.target = "sys.ui_pollEvent" := by
    simp [isPoll, hserved]
  refine ⟨?_, ?_, fun h r hr => ?_, hbehind, Annotated.notes_serveHost _ _ t⟩
  · have hrun : a.contract.target ≠ "compiler.run" := fun h =>
      absurd ((Contract.isMeta_of_run h).symm.trans hhost) (by decide)
    have hphase : (a.isPoll && a.replaying) =
        (a.contract.target == "sys.ui_pollEvent" && t.session.replay?.isSome) := by
      simp [isPoll, hserved, hreplaying]
    unfold Eval.serveHost at hending ⊢
    dsimp only at hending ⊢
    generalize (Dispatch.invoke t.session.host t.session.replay? a.contract.target a.args).answer =
      answer at hending ⊢
    cases answer with
    | given v =>
      have hending : a.ending = .ok v := hending
      simp [isRecorded, shownArgs, result, phase, hending, hpermitted, hfits, hphase,
        Session.recordCall, Session.record]
    | refused e =>
      have hending : a.ending = .error (.fault (.host a.contract.target e)) := hending
      simp [isRecorded, shownArgs, result, phase, hending, hpermitted, hfits, hrun,
        Session.recordCall, Session.record]
    | stopped =>
      have hending : a.ending = .error .stopped := hending
      simp [isRecorded, hending]
  · rw [Eval.serveHost_replay?, Dispatch.invoke_replay?]
    simp only [hpoll]
  · rw [hending, hpoll.mp h, Eval.serveHost_poll hr]
    rfl

namespace Eval

variable {ν : Type} [Host σ]

/-- A call settles from where it starts, or from where the session has served it. -/
theorem settles_callChecked {target : String} {contract : Contract}
    (hlookup : Contract.lookup? target = some contract)
    {serve : String → List Value → Eval (Annotated ν σ) Value} {args : List Value}
    {t u : Activation (Annotated ν σ)} {o : Outcome Value}
    (hserve : ServedBySession target (serve target args t).1)
    (hcall : callChecked serve target args t = (o, u)) :
    ∃ v, (v = t ∨ v = (serve target args t).2) ∧
      (Attempt.ofCall contract args t o u).Settles v u := by
  obtain rfl : contract.target = target := (Contract.mem_table_of_lookup? hlookup).2
  unfold callChecked at hcall
  rw [hlookup] at hcall
  dsimp only [bind_def, getSession] at hcall
  split at hcall
  · next hdenied =>
    have hdenied : t.session.hasPermission contract.permission = false := by simpa using hdenied
    cases hcall
    exact ⟨t, .inl rfl, Attempt.settles_of_denied hdenied rfl rfl⟩
  next hheld =>
  have hpermitted : t.session.hasPermission contract.permission = true := by simpa using hheld
  split at hcall
  · next hunfit =>
    cases hcall
    exact ⟨t, .inl rfl, Attempt.settles_of_rejected hpermitted (congrArg not hunfit) rfl rfl⟩
  next hfit =>
  have hfits : (Attempt.ofCall contract args t o u).fits = true :=
    congrArg not (Bool.eq_false_of_not_eq_true hfit)
  split at hcall
  · next hmeta =>
    refine ⟨(serve contract.target args t).2, .inr rfl, ?_⟩
    -- only a call that comes to a value is recorded
    rw [bind_def] at hcall
    generalize serve contract.target args t = served at hserve hcall ⊢
    obtain ⟨o', v⟩ := served
    dsimp only at hserve
    cases hserve with
    | value w =>
      cases hcall
      exact Attempt.settles_of_served hpermitted hfits hmeta rfl rfl
    | fault f hrun =>
      cases hcall
      refine Attempt.settles_of_not_recorded hmeta ?_ rfl
      simp [Attempt.isRecorded, Attempt.ofCall, Session.conclude, hrun]
    | stopped =>
      cases hcall
      exact Attempt.settles_of_not_recorded hmeta rfl rfl
    | outOfFuel =>
      cases hcall
      exact Attempt.settles_of_not_recorded hmeta rfl rfl
  · next hhost =>
    have hserved : (Attempt.ofCall contract args t o u).isServed = true := by
      unfold Attempt.isServed
      rw [hfits, Bool.and_true]
      exact hpermitted
    have hhost : contract.isMeta = false := Bool.eq_false_of_not_eq_true hhost
    exact ⟨t, .inl rfl, Attempt.settles_of_host hcall hserved hhost rfl rfl rfl⟩

end Eval

/-! ## 5. What every audited run keeps -/

/-- What a property of the recorded calls, the recorded events and the notes needs for an audited
evaluation to keep it: each call keeps it by what it does itself. -/
structure Accounted (S : Activation (Annotated (List Attempt) σ) → Prop) : Prop where
  of_eq : ∀ {t u : Activation (Annotated (List Attempt) σ)}, S t →
    u.session.recorder?.map Recorder.syscalls = t.session.recorder?.map Recorder.syscalls →
    u.session.replay? = t.session.replay? → u.notes = t.notes → S u
  settled : ∀ {t u} {a : Attempt}, S t → a.Settles t u → S (u.annotate fun calls => calls ++ [a])

theorem Attempt.Settles.notes_concat {a : Attempt} {t u : Activation (Annotated (List Attempt) σ)}
    (h : a.Settles t u) : (u.annotate fun calls => calls ++ [a]).notes = t.notes ++ [a] :=
  congrArg (· ++ [a]) h.notes

namespace Accounted

variable {S : Activation (Annotated (List Attempt) σ) → Prop} (h : Accounted S)
include h

/-- What records no call keeps it. -/
theorem of_record {t : Activation (Annotated (List Attempt) σ)} (ht : S t) (f : Recorder → Recorder)
    (hf : ∀ r, (f r).syscalls = r.syscalls) : S { t with session := t.session.record f } := by
  refine h.of_eq ht ?_ rfl rfl
  show (t.session.recorder?.map f).map Recorder.syscalls = _
  rw [Option.map_map]
  exact congrArg (t.session.recorder?.map ·) (funext hf)

variable [Host σ]

theorem of_ask {t : Activation (Annotated (List Attempt) σ)} (ht : S t) (call : HostCall) :
    S (Eval.ask call t).2 := by
  refine h.of_eq ht ?_ ?_ (Annotated.notes_ask call t)
  · unfold Eval.ask
    split <;> rfl
  · unfold Eval.ask
    split <;> rfl

theorem offline : Eval.Offline fun t u => S t → S u where
  refl _ := id
  trans h h' ht := h' (h ht)
  note t n ht := by
    have hnoted := h.of_record ht (·.recordAstStep n t.env t.session.callStack.reverse) fun _ => rfl
    exact h.of_eq hnoted rfl rfl rfl
  serial _ _ ht := h.of_eq ht rfl rfl rfl
  observed t f hf ht := h.of_record ht f fun r => (hf r).1
  exported t name v ht := by
    unfold Activation.addExport
    split
    · exact ht
    · exact h.of_eq ht rfl rfl rfl
  resolve _ _ ht := h.of_ask ht _
  read _ _ ht := h.of_ask ht _
  assign t f ht := by
    unfold Activation.mapEnv
    split <;> exact h.of_eq ht rfl rfl rfl
  nest hkept ht := h.of_eq (hkept (h.of_eq ht rfl rfl rfl)) rfl rfl rfl
  isolate hkept ht := h.of_eq (hkept (h.of_eq ht rfl rfl rfl)) rfl rfl rfl
  call hkept ht := h.of_eq (hkept (h.of_eq ht rfl rfl rfl)) rfl rfl rfl
  load := by
    intro t u path _ _ hkept
    have hbehind (ht : S t) : S (u.leaveModule path t.session.baseDir) :=
      h.of_eq (hkept (h.of_eq ht rfl rfl rfl)) rfl rfl rfl
    exact ⟨hbehind, fun exports ht => h.of_eq (hbehind ht) rfl rfl rfl⟩

/-- A call keeps the property that the evaluation of programs for it keeps. -/
theorem attempting {target : String} {args : List Value}
    {serve : String → List Value → Eval (Annotated (List Attempt) σ) Value}
    (hends : ∀ t, Eval.ServedBySession target (serve target args t).1)
    (hserve : ∀ {t}, S t → S (serve target args t).2) :
    Eval.Keeps (fun t u => S t → S u)
      (Eval.attempting target args (Eval.callChecked serve target args)) := by
  intro t ht
  unfold Eval.attempting
  cases hlookup : Contract.lookup? target with
  | none =>
    unfold Eval.callChecked
    rw [hlookup]
    exact ht
  | some contract =>
    dsimp only
    rcases hcall : Eval.callChecked serve target args t with ⟨o, u⟩
    obtain ⟨v, hv, hsettles⟩ := Eval.settles_callChecked hlookup (hends t) hcall
    have hstart : S v := by
      obtain rfl | rfl := hv
      · exact ht
      · exact hserve ht
    exact h.settled hstart hsettles

variable {self : Node → Eval (Annotated (List Attempt) σ) Value}
  (hself : ∀ n, Eval.Keeps (fun t u => S t → S u) (self n))
include hself

theorem auditedCapability (steps nesting : Nat) (target : String) (args : List Value) :
    Eval.Keeps (fun t u => S t → S u) (Eval.auditedCapability self steps nesting target args) := by
  induction nesting generalizing target args with
  | zero => exact h.attempting (fun _ => .outOfFuel) id
  | succ nesting ih =>
    refine h.attempting (fun t => .serveMeta self _ steps target args t) fun {t} ht => ?_
    exact h.offline.serveMeta (h.offline.runNested hself) ih steps target args t ht

/-- A `Call` whose permission is missing is a call that is denied. -/
theorem auditedCall (steps : Nat) (n : Node) :
    Eval.Keeps (fun t u => S t → S u) (Eval.auditedCall self steps n) := by
  intro t ht
  unfold Eval.auditedCall
  dsimp only
  cases hdenied : Eval.denied? t.session n with
  | some target =>
    obtain ⟨htarget, contract, hlookup, hmissing⟩ := Eval.denied?_eq_some_iff.mp hdenied
    have hnot : contract.permission ∉ t.session.permissions := by
      rw [← Session.hasPermission_iff, hmissing]
      exact Bool.false_ne_true
    dsimp only
    unfold Eval.attempting
    rw [hlookup, Eval.evalCall_denied htarget hlookup hnot]
    exact h.settled ht (Attempt.settles_of_denied hmissing rfl rfl)
  | none =>
    have hcall := h.auditedCapability hself steps steps
    refine h.offline.evalCallFrom (fun c _ => hself c) (fun target contract htarget hlookup hmissing =>
      ?_) hcall (h.offline.callClosure hself) ht
    -- a permission that is missing is known to be
    have hsome := Eval.denied?_eq_some_iff.mpr ⟨htarget, contract, hlookup, hmissing⟩
    rw [hdenied] at hsome
    cases hsome

theorem auditedForm (steps : Nat) (n : Node) :
    Eval.Keeps (fun t u => S t → S u) (Eval.auditedForm self steps n) := by
  unfold Eval.auditedForm
  by_cases hcall : n.form? = some .call
  · rw [if_pos hcall]
    exact h.auditedCall hself steps n
  · rw [if_neg hcall]
    exact h.offline.evalForm hself steps n fun hform => absurd hform hcall

omit hself in
theorem audited (fuel : Nat) (n : Node) :
    Eval.Keeps (fun t u => S t → S u) (Eval.audited fuel n) := by
  induction fuel generalizing n with
  | zero => exact fun _ => id
  | succ fuel ih => exact h.offline.entering n (h.auditedForm ih fuel n)

omit hself in
/-- Every audited run keeps the property. -/
theorem ran (run : Run) (fuel : Nat) : Eval.Keeps (fun t u => S t → S u) (run.auditedStep fuel) := by
  have hcall := h.auditedCapability (h.audited fuel) fuel fuel
  cases run with
  | evaluate n => exact h.audited fuel n
  | evaluateInFrame n _ => exact h.audited fuel n
  | callCapability target args => exact hcall target args
  | runProgram p entry args => exact h.offline.runMachine hcall fuel p entry args
  | runBytecode bytecode entry args => exact h.offline.runBytecode hcall fuel bytecode entry args

end Accounted

end Arbor
