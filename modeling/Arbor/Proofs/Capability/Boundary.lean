import Arbor.Proofs.Evaluation.Runs

/-!
# The boundary to the host

A `Logged` host keeps the calls that it performs. Whatever runs, the log grows by calls that are
`Permitted`: ones behind a target of the capability table, with its permission held and with the
arguments of its contract, besides the reads of module files. Without the permissions `console`, `io`
and `sys` only those reads are left, and then the host makes no difference to a run.
-/

namespace Arbor

variable {σ τ : Type}

/-! ## 1. Sessions over another host -/

/-- The session over another host. -/
def Session.withHost (s : Session σ) (host : τ) : Session τ := { s with host }

section Hosts

variable [Host σ] [Host τ]

/-- A host inside another one that passes all calls on to it answers in its place. -/
theorem Dispatch.invoke_lift (lift : σ → τ) {host : σ}
    (hperform : ∀ c, Host.perform c (lift host) =
      ((Host.perform c host).1, lift (Host.perform c host).2))
    (replay? : Option Replay) (target : String) (args : List Value) :
    Dispatch.invoke (lift host) replay? target args =
      { answer := (Dispatch.invoke host replay? target args).answer
        host := lift (Dispatch.invoke host replay? target args).host
        replay? := (Dispatch.invoke host replay? target args).replay? } := by
  unfold Dispatch.invoke
  cases Dispatch.action replay?.isSome target args with
  | error e => rfl
  | ok action =>
    cases action with
    | value v => rfl
    | replayed => cases replay? <;> rfl
    | call c value =>
      dsimp only
      rw [hperform c]
      generalize Host.perform c host = x
      obtain ⟨answer, after⟩ := x
      cases answer <;> rfl

/-- Runs may disagree on the hosts, and on nothing else. -/
def Likeness.ofHosts (hosts : σ → τ → Prop) (permissions : List String)
    (resolve : ∀ {a b}, hosts a b → ∀ path,
      (Host.perform (.canonicalPath path) a).1 = (Host.perform (.canonicalPath path) b).1 ∧
        hosts (Host.perform (.canonicalPath path) a).2 (Host.perform (.canonicalPath path) b).2)
    (read : ∀ {a b}, hosts a b → ∀ path,
      (Host.perform (.moduleText path) a).1 = (Host.perform (.moduleText path) b).1 ∧
        hosts (Host.perform (.moduleText path) a).2 (Host.perform (.moduleText path) b).2)
    (serve : ∀ {a b}, hosts a b → ∀ replay? target args, Allowed permissions target args →
      (Dispatch.invoke a replay? target args).answer =
          (Dispatch.invoke b replay? target args).answer ∧
        (Dispatch.invoke a replay? target args).replay? =
          (Dispatch.invoke b replay? target args).replay? ∧
        hosts (Dispatch.invoke a replay? target args).host
          (Dispatch.invoke b replay? target args).host) : Likeness σ τ where
  essence := id
  place := id
  hosts := hosts
  permissions := permissions
  kind_essence _ := rfl
  id_essence _ := rfl
  span_essence h := congrArg Node.span h
  children_essence n := (List.map_id n.children).symm
  text_essence _ _ := rfl
  name_essence _ _ := rfl
  target_essence _ _ := rfl
  literal_essence _ _ := rfl
  resolve := resolve
  read := read
  serve := serve

namespace Likeness

variable {L : Likeness σ τ} (hid : L.essence = id) (hplace : L.place = id)
include hid

theorem eq_of_values {v w : Value} (h : L.Values v w) : v = w := by
  unfold Values at h
  rwa [hid, Value.mapBodies_id, Value.mapBodies_id] at h

theorem map_eq_self (d : Env) : d.map (Value.mapBodies L.essence) = d := by
  refine Dict.ext ?_
  rw [hid, Dict.entries_map]
  conv_rhs => rw [← List.map_id d.entries]
  refine List.map_congr_left fun e _ => ?_
  rw [Value.mapBodies_id]
  rfl

theorem eq_of_envs {d e : Env} (h : L.Envs d e) : d = e := by
  unfold Envs at h
  rwa [map_eq_self hid, map_eq_self hid] at h

include hplace

theorem eq_of_sessions {s : Session σ} {u : Session τ} (h : L.Sessions s u) :
    u = s.withHost u.host := by
  have hplaced : Node.placed L.place = id := by
    rw [hplace]
    exact funext fun n => by cases n; rfl
  have hrecorded : Recorder.placed L.place = id := by
    refine funext fun r => Recorder.ext rfl ?_ rfl rfl rfl rfl rfl
    show r.steps.map (Node.placed L.place) = r.steps
    rw [hplaced, Array.map_id]
  have hmap : Dict.map (Value.mapBodies L.essence) = id := funext (map_eq_self hid)
  have hcache := h.cache
  have hscopes := h.exportScopes
  rw [hmap] at hcache hscopes
  have hentries (d : Dict Exports) : d.map id = d := Dict.ext (List.map_id _)
  rw [hentries, hentries] at hcache
  rw [List.map_id, List.map_id] at hscopes
  have hglobals := eq_of_envs hid h.globals
  have hpermissions := h.permissions.trans h.permissions'.symm
  -- every other field is equal once nothing is changed in it, so the records differ in the host alone
  obtain ⟨-, -, -, hreadOnly, hbaseDir, hstrict, hmaxDepth, htrace, hsteps, hcalls, hrecorder,
    hreplay, -, -, hloading, -, hdepth, hserial⟩ := h
  rw [hplaced, Array.map_id, Array.map_id] at hsteps
  rw [hrecorded, Option.map_id_apply, Option.map_id_apply] at hrecorder
  obtain ⟨globals, permissions, readOnly, baseDir, strict, maxDepth, trace, traceSteps, callStack,
    recorder?, replay?, host, ⟨cache, loading, exportScopes⟩, depth, nextSerial⟩ := s
  obtain ⟨globals', permissions', readOnly', baseDir', strict', maxDepth', trace', traceSteps',
    callStack', recorder?', replay?', host', ⟨cache', loading', exportScopes'⟩, depth',
    nextSerial'⟩ := u
  dsimp only at *
  subst hglobals hpermissions hreadOnly hbaseDir hstrict hmaxDepth htrace hsteps hcalls hrecorder
    hreplay hloading hdepth hserial hcache hscopes
  rfl

omit hid hplace in
theorem sessions_withHost {s : Session σ} {host : τ} (hhost : L.hosts s.host host)
    (hheld : s.permissions = L.permissions) : L.Sessions s (s.withHost host) :=
  ⟨rfl, hheld, hheld, rfl, rfl, rfl, rfl, rfl, rfl, rfl, rfl, rfl, hhost, rfl, rfl, rfl, rfl, rfl⟩

/-- Steps that are alike come, over a host that answers alike, to the same result and leave the same
activation, but for the host. -/
theorem step_withHost {step : Eval σ Value} {step' : Eval τ Value}
    (hstep : L.Steps L.Values step step') (t : Activation σ) (host : τ)
    (hhost : L.hosts t.session.host host) (hheld : t.session.permissions = L.permissions) :
    ∃ host', L.hosts (step t).2.session.host host' ∧
      step' ⟨t.session.withHost host, t.frames⟩ =
        ((step t).1, ⟨(step t).2.session.withHost host', (step t).2.frames⟩) := by
  have hends := hstep (t := t) (u := ⟨t.session.withHost host, t.frames⟩)
    ⟨sessions_withHost hhost hheld, rfl⟩
  generalize step t = x at hends ⊢
  generalize step' ⟨t.session.withHost host, t.frames⟩ = y at hends ⊢
  have hbehind {t : Activation σ} {u : Activation τ} (h : L.Activations t u) :
      u = ⟨t.session.withHost u.session.host, t.frames⟩ := by
    have hmap : Dict.map (Value.mapBodies L.essence) = id := funext (map_eq_self hid)
    have hframes := h.frames
    rw [hmap, List.map_id, List.map_id] at hframes
    obtain ⟨s, frames⟩ := u
    obtain rfl : t.frames = frames := hframes
    exact congrArg (Activation.mk · _) (eq_of_sessions hid hplace h.session)
  cases hends with
  | value hv hact =>
    exact ⟨_, hact.session.host, by rw [eq_of_values hid hv]; exact congrArg _ (hbehind hact)⟩
  | returned hv hact =>
    exact ⟨_, hact.session.host, by rw [eq_of_values hid hv]; exact congrArg _ (hbehind hact)⟩
  | halted hact => exact ⟨_, hact.session.host, congrArg _ (hbehind hact)⟩

/-- A run over a host that answers alike ends in the same way, but for the host. -/
theorem perform_withHost (run : Run) (fuel : Nat) (s : Session σ) (host : τ)
    (hhost : L.hosts s.host host) (hheld : s.permissions = L.permissions) :
    ∃ host', L.hosts (run.perform fuel s).2.2.host host' ∧
      run.perform fuel (s.withHost host) =
        ((run.perform fuel s).1, (run.perform fuel s).2.1,
          (run.perform fuel s).2.2.withHost host') := by
  obtain ⟨host', hhost', hrun⟩ := step_withHost hid hplace (Run.step_alike run fuel)
    ⟨s, run.frames⟩ host hhost hheld
  refine ⟨host', ?_, ?_⟩
  · rw [Run.perform_eq]
    exact hhost'
  · rw [Run.perform_eq, Run.perform_eq, hrun]

end Likeness

/-! ## 2. Logging -/

/-- A host that keeps the calls it performs, in order. -/
structure Logged (σ : Type) where
  host : σ
  calls : List HostCall

instance : Host (Logged σ) where
  perform call logged :=
    let (answer, host) := Host.perform call logged.host
    (answer, ⟨host, logged.calls ++ [call]⟩)

/-- The runtime's own reads when it loads a module. -/
def HostCall.IsModuleRead (call : HostCall) : Prop :=
  ∃ path, call = .canonicalPath path ∨ call = .moduleText path

/-- A call of the host that a run may make: a module read, or what an allowed capability call
stands for. -/
inductive Permitted (permissions : List String) : HostCall → Prop where
  | moduleRead {call} : call.IsModuleRead → Permitted permissions call
  | capability {call target args replaying value} : Allowed permissions target args →
      Dispatch.action replaying target args = .ok (.call call value) → Permitted permissions call

theorem invoke_logged (l : Logged σ) (replay? : Option Replay) (target : String)
    (args : List Value) :
    Dispatch.invoke l replay? target args =
      { answer := (Dispatch.invoke l.host replay? target args).answer
        host :=
          match Dispatch.action replay?.isSome target args with
          | .ok (.call call _) =>
            ⟨(Dispatch.invoke l.host replay? target args).host, l.calls ++ [call]⟩
          | _ => l
        replay? := (Dispatch.invoke l.host replay? target args).replay? } := by
  unfold Dispatch.invoke
  cases Dispatch.action replay?.isSome target args with
  | error e => rfl
  | ok action =>
    cases action with
    | value v => rfl
    | replayed => cases replay? <;> rfl
    -- the only action that reaches the host, and so the log
    | call c value =>
      have hperform : Host.perform c l =
          ((Host.perform c l.host).1, ⟨(Host.perform c l.host).2, l.calls ++ [c]⟩) := rfl
      dsimp only
      rw [hperform]
      generalize Host.perform c l.host = x
      obtain ⟨answer, host⟩ := x
      cases answer <;> rfl

/-- Logging makes no difference to what a host answers. -/
def Likeness.logging (permissions : List String) : Likeness σ (Logged σ) :=
  .ofHosts (fun host logged => logged.host = host) permissions
    (fun h path => by subst h; exact ⟨rfl, rfl⟩)
    (fun h path => by subst h; exact ⟨rfl, rfl⟩)
    (fun h replay? target args _ => by
      subst h
      rw [invoke_logged]
      refine ⟨rfl, rfl, ?_⟩
      unfold Dispatch.invoke
      cases Dispatch.action replay?.isSome target args with
      | error e => rfl
      | ok action =>
        cases action with
        | value v => rfl
        | replayed => cases replay? <;> rfl
        | call c value => rfl)

/-- The permissions are as they were, and the log grew by permitted calls only. -/
def StaysInside (t u : Activation (Logged σ)) : Prop :=
  u.session.permissions = t.session.permissions ∧
    ∃ calls, u.session.host.calls = t.session.host.calls ++ calls ∧
      ∀ call ∈ calls, Permitted t.session.permissions call

omit [Host σ] in
theorem staysInside_of_host_eq {t u : Activation (Logged σ)}
    (hpermissions : u.session.permissions = t.session.permissions)
    (hhost : u.session.host = t.session.host) : StaysInside t u :=
  ⟨hpermissions, [], by rw [hhost, List.append_nil], by simp⟩

theorem staysInside_ask (t : Activation (Logged σ)) {call : HostCall} (hread : call.IsModuleRead) :
    StaysInside t (Eval.ask call t).2 := by
  refine ⟨?_, [call], ?_, ?_⟩
  · unfold Eval.ask
    split <;> rfl
  · have hcalls : (Host.perform call t.session.host).2.calls = t.session.host.calls ++ [call] := rfl
    unfold Eval.ask
    split <;> simp_all
  · intro c hc
    rw [List.mem_singleton.mp hc]
    exact .moduleRead hread

theorem serveHost_host (target : String) (args : List Value) (t : Activation σ) :
    (Eval.serveHost target args t).2.session.host =
        (Dispatch.invoke t.session.host t.session.replay? target args).host ∧
      (Eval.serveHost target args t).2.session.permissions = t.session.permissions := by
  unfold Eval.serveHost
  dsimp only
  split <;> exact ⟨rfl, rfl⟩

theorem staysInside_serveHost (t : Activation (Logged σ)) {target : String} {args : List Value}
    (hallowed : Allowed t.session.permissions target args) :
    StaysInside t (Eval.serveHost target args t).2 := by
  obtain ⟨hhost, hpermissions⟩ := serveHost_host target args t
  rw [invoke_logged] at hhost
  dsimp only at hhost
  split at hhost
  · next call value haction =>
    refine ⟨hpermissions, [call], by rw [hhost], fun c hc => ?_⟩
    rw [List.mem_singleton.mp hc]
    exact .capability hallowed haction
  · exact staysInside_of_host_eq hpermissions hhost

theorem invariant_staysInside :
    Eval.Invariant (StaysInside : Activation (Logged σ) → Activation (Logged σ) → Prop) where
  refl t := staysInside_of_host_eq rfl rfl
  trans := by
    rintro t u v ⟨hp, calls, hcalls, hall⟩ ⟨hp', calls', hcalls', hall'⟩
    -- the later calls were permitted in the middle, where the permissions are the first ones
    refine ⟨hp'.trans hp, calls ++ calls', by rw [hcalls', hcalls, List.append_assoc], ?_⟩
    intro c hc
    rcases List.mem_append.mp hc with hc | hc
    · exact hall c hc
    · exact hp ▸ hall' c hc
  note t n := staysInside_of_host_eq rfl rfl
  assign t f := by
    unfold Activation.mapEnv
    split <;> exact staysInside_of_host_eq rfl rfl
  serial t k := staysInside_of_host_eq rfl rfl
  record t f _ := staysInside_of_host_eq rfl rfl
  exported t name v := by
    unfold Activation.addExport
    split <;> exact staysInside_of_host_eq rfl rfl
  resolve t path := staysInside_ask t ⟨path, .inl rfl⟩
  read t path := staysInside_ask t ⟨path, .inr rfl⟩
  serve t target args hallowed := staysInside_serveHost t hallowed
  nest h := h
  isolate h := h
  call h := h
  load _ _ h := ⟨h, fun _ => h⟩

/-! ## 3. Without permissions for the host -/

/-- The permissions for everything that a host does for a program. -/
def hostPermissions : List String := ["console", "io", "sys"]

theorem unprivileged_target : ∀ c ∈ Contract.table,
    c.permission ∈ hostPermissions ∨ c.target = "math.add" ∨ c.isMeta = true := by
  decide +kernel

theorem Allowed.eq_add {permissions : List String} {target : String} {args : List Value}
    (hallowed : Allowed permissions target args) (hnone : ∀ p ∈ hostPermissions, p ∉ permissions) :
    target = "math.add" := by
  obtain ⟨c, hlookup, hmeta, hheld, -⟩ := hallowed.contract
  obtain ⟨hmem, htarget⟩ := Contract.mem_table_of_lookup? hlookup
  -- a contract is privileged, `math.add`, or served by evaluation itself and never by a host
  rcases unprivileged_target c hmem with hprivileged | hadd | hserved
  · exact absurd hheld (hnone _ hprivileged)
  · exact htarget.symm.trans hadd
  · exact absurd (hserved.symm.trans hmeta) (by decide)

/-- An addition is an error or a value, and no call of the host. -/
theorem action_add (replaying : Bool) (args : List Value) :
    (∃ e, Dispatch.action replaying "math.add" args = .error e) ∨
      ∃ v, Dispatch.action replaying "math.add" args = .ok (.value v) := by
  have hadd : Dispatch.action replaying "math.add" args =
      (do
        let a ← Dispatch.intArg "math.add" args 0
        let b ← Dispatch.intArg "math.add" args 1
        pure (.value (.int (a + b)))) := rfl
  rw [hadd]
  cases Dispatch.intArg "math.add" args 0 with
  | error e => exact .inl ⟨e, rfl⟩
  | ok a =>
    cases Dispatch.intArg "math.add" args 1 with
    | error e => exact .inl ⟨e, rfl⟩
    | ok b => exact .inr ⟨_, rfl⟩

theorem Permitted.isModuleRead {permissions : List String} {call : HostCall}
    (h : Permitted permissions call) (hnone : ∀ p ∈ hostPermissions, p ∉ permissions) :
    call.IsModuleRead := by
  cases h with
  | moduleRead hread => exact hread
  | @capability target args replaying value hallowed haction =>
    obtain rfl := hallowed.eq_add hnone
    rcases action_add replaying args with ⟨e, he⟩ | ⟨v, hv⟩
    · rw [he] at haction
      cases haction
    · rw [hv] at haction
      cases haction

/-- Hosts that `hosts` relates know the same module files. -/
structure SameModules (hosts : σ → τ → Prop) : Prop where
  resolve : ∀ {a b}, hosts a b → ∀ path,
    (Host.perform (.canonicalPath path) a).1 = (Host.perform (.canonicalPath path) b).1 ∧
      hosts (Host.perform (.canonicalPath path) a).2 (Host.perform (.canonicalPath path) b).2
  read : ∀ {a b}, hosts a b → ∀ path,
    (Host.perform (.moduleText path) a).1 = (Host.perform (.moduleText path) b).1 ∧
      hosts (Host.perform (.moduleText path) a).2 (Host.perform (.moduleText path) b).2

/-- Local hosts with one disk and one working directory know the same module files. -/
theorem LocalHost.sameModules :
    SameModules fun a b : LocalHost => a.disk = b.disk ∧ a.cwd = b.cwd := by
  have hanswer {α : Type} {a b : LocalHost} (r : Except DiskError α)
      (hab : a.disk = b.disk ∧ a.cwd = b.cwd) :
      (a.answerDisk r).1 = (b.answerDisk r).1 ∧
        (a.answerDisk r).2.disk = (b.answerDisk r).2.disk ∧
        (a.answerDisk r).2.cwd = (b.answerDisk r).2.cwd := by
    unfold LocalHost.answerDisk
    split <;> exact ⟨rfl, hab⟩
  constructor
  · rintro a b hab path
    have ha : Host.perform (.canonicalPath path) a = a.answerDisk (a.disk.canonical a.cwd path) := rfl
    -- both read the disk from the same directory, so they come to the same answer
    have hb : Host.perform (.canonicalPath path) b = b.answerDisk (a.disk.canonical a.cwd path) := by
      rw [hab.1, hab.2]
      rfl
    rw [ha, hb]
    exact hanswer _ hab
  · rintro a b hab path
    have ha : Host.perform (.moduleText path) a = a.answerDisk (a.disk.readText a.cwd path) := rfl
    have hb : Host.perform (.moduleText path) b = b.answerDisk (a.disk.readText a.cwd path) := by
      rw [hab.1, hab.2]
      rfl
    rw [ha, hb]
    exact hanswer _ hab

/-- Without permissions for the host, hosts that know the same module files answer alike. -/
def Likeness.unprivileged {hosts : σ → τ → Prop} (hmodules : SameModules hosts)
    {permissions : List String} (hnone : ∀ p ∈ hostPermissions, p ∉ permissions) : Likeness σ τ :=
  .ofHosts hosts permissions hmodules.resolve hmodules.read
    (fun hab replay? target args hallowed => by
      -- only `math.add` is left, which comes to an error or a value without the host
      obtain rfl := hallowed.eq_add hnone
      unfold Dispatch.invoke
      rcases action_add replay?.isSome args with ⟨e, he⟩ | ⟨v, hv⟩
      · rw [he]
        exact ⟨rfl, rfl, hab⟩
      · rw [hv]
        exact ⟨rfl, rfl, hab⟩)

/-! ## 4. The boundary -/

end Hosts

end Arbor
