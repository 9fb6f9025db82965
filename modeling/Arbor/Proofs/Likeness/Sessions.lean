import Arbor.Evaluation.Run
import Arbor.Proofs.Capability.Contract
import Arbor.Proofs.Likeness.Values
import Mathlib.Data.List.Forall2

/-!
# Sessions that are alike

A `Likeness` says what two runs may disagree on: their nodes, as far as evaluation does not look at
them, and their hosts, as far as the calls that the permissions allow answer the same. Two sessions
are alike when they agree on all else. `Steps` relates two evaluation steps that keep sessions alike
and end alike; its rules for sequencing are here, those for each part of evaluation follow elsewhere.
-/

namespace Arbor

/-- A record with its span changed. -/
def Node.placed (place : Span → Span) (n : Node) : Node := { n with span := place n.span }

/-- The records with the spans of the steps changed. -/
def Recorder.placed (place : Span → Span) (r : Recorder) : Recorder :=
  { r with
    steps := r.steps.map (Node.placed place)
    counts := { r.counts with step := by rw [Array.size_map, r.counts.step] } }

/-- What two runs may disagree on. Evaluation sees of a node what `essence` keeps, and of its span
what `place` keeps; `hosts` relates hosts that answer alike. -/
structure Likeness (σ τ : Type) [Host σ] [Host τ] where
  essence : Node → Node
  place : Span → Span
  hosts : σ → τ → Prop
  permissions : List String
  kind_essence : ∀ n, (essence n).kind = n.kind
  id_essence : ∀ n, (essence n).id = n.id
  span_essence : ∀ {n m}, essence n = essence m → place n.span = place m.span
  children_essence : ∀ n, (essence n).children = n.children.map essence
  text_essence : ∀ n key, (essence n).text? key = n.text? key
  name_essence : ∀ n, n.form? = some .bind ∨ n.form? = some .var →
    (essence n).ident? "name" = n.ident? "name"
  target_essence : ∀ n, n.form? = some .call → (essence n).ident? "target" = n.ident? "target"
  literal_essence : ∀ n, n.form? = some .lit → (essence n).literal = n.literal
  resolve : ∀ {a b}, hosts a b → ∀ path,
    (Host.perform (.canonicalPath path) a).1 = (Host.perform (.canonicalPath path) b).1 ∧
      hosts (Host.perform (.canonicalPath path) a).2 (Host.perform (.canonicalPath path) b).2
  read : ∀ {a b}, hosts a b → ∀ path,
    (Host.perform (.moduleText path) a).1 = (Host.perform (.moduleText path) b).1 ∧
      hosts (Host.perform (.moduleText path) a).2 (Host.perform (.moduleText path) b).2
  serve : ∀ {a b}, hosts a b → ∀ replay? target args, Allowed permissions target args →
    (Dispatch.invoke a replay? target args).answer = (Dispatch.invoke b replay? target args).answer ∧
      (Dispatch.invoke a replay? target args).replay? =
        (Dispatch.invoke b replay? target args).replay? ∧
      hosts (Dispatch.invoke a replay? target args).host (Dispatch.invoke b replay? target args).host

namespace Likeness

variable {σ τ α β γ δ : Type} [Host σ] [Host τ] (L : Likeness σ τ)

/-! ## 1. What is alike -/

/-- Evaluation sees the same of the nodes. -/
def Nodes (n m : Node) : Prop := L.essence n = L.essence m

def Values (v w : Value) : Prop := v.mapBodies L.essence = w.mapBodies L.essence

def ValueLists (vs ws : List Value) : Prop :=
  vs.map (Value.mapBodies L.essence) = ws.map (Value.mapBodies L.essence)

def Envs (d e : Env) : Prop := d.map (Value.mapBodies L.essence) = e.map (Value.mapBodies L.essence)

/-- The sessions agree on all but the bodies of functions, the spans of recorded steps and the
host. -/
structure Sessions (s : Session σ) (u : Session τ) : Prop where
  globals : L.Envs s.globals u.globals
  permissions : s.permissions = L.permissions
  permissions' : u.permissions = L.permissions
  readOnly : s.readOnly = u.readOnly
  baseDir : s.baseDir = u.baseDir
  strict : s.strict = u.strict
  maxDepth : s.maxDepth = u.maxDepth
  trace : s.trace = u.trace
  traceSteps : s.traceSteps.map (Node.placed L.place) = u.traceSteps.map (Node.placed L.place)
  callStack : s.callStack = u.callStack
  recorder? : s.recorder?.map (Recorder.placed L.place) = u.recorder?.map (Recorder.placed L.place)
  replay? : s.replay? = u.replay?
  host : L.hosts s.host u.host
  cache : s.modules.cache.map (Dict.map (Value.mapBodies L.essence)) =
    u.modules.cache.map (Dict.map (Value.mapBodies L.essence))
  loading : s.modules.loading = u.modules.loading
  exportScopes : s.modules.exportScopes.map (Dict.map (Value.mapBodies L.essence)) =
    u.modules.exportScopes.map (Dict.map (Value.mapBodies L.essence))
  depth : s.depth = u.depth
  nextSerial : s.nextSerial = u.nextSerial

structure Activations (t : Activation σ) (u : Activation τ) : Prop where
  session : L.Sessions t.session u.session
  frames : t.frames.map (Dict.map (Value.mapBodies L.essence)) =
    u.frames.map (Dict.map (Value.mapBodies L.essence))

/-- The steps end in the same way, with results in the relation `r`. -/
inductive Ends (r : α → β → Prop) :
    Outcome α × Activation σ → Outcome β × Activation τ → Prop where
  | value {a b t u} : r a b → L.Activations t u → Ends r (.value a, t) (.value b, u)
  | returned {v w t u} : L.Values v w → L.Activations t u → Ends r (.returned v, t) (.returned w, u)
  | halted {h t u} : L.Activations t u → Ends r (.halted h, t) (.halted h, u)

/-- The steps end alike wherever they start alike. -/
def Steps (r : α → β → Prop) (step : Eval σ α) (step' : Eval τ β) : Prop :=
  ∀ ⦃t u⦄, L.Activations t u → L.Ends r (step t) (step' u)

variable {L}

/-! ## 2. Nodes, values and environments -/

theorem Values.of_eq {v w : Value} (h : v = w) : L.Values v w := by
  subst h
  rfl

theorem Nodes.kind {n m : Node} (h : L.Nodes n m) : n.kind = m.kind := by
  rw [← L.kind_essence n, ← L.kind_essence m, h]

theorem Nodes.id {n m : Node} (h : L.Nodes n m) : n.id = m.id := by
  rw [← L.id_essence n, ← L.id_essence m, h]

theorem Nodes.form {n m : Node} (h : L.Nodes n m) : n.form? = m.form? :=
  congrArg Form.ofKind? h.kind

theorem Nodes.isFn {n m : Node} (h : L.Nodes n m) : n.isFn = m.isFn :=
  congrArg (· == Form.fn.kind) h.kind

theorem Nodes.isBlock {n m : Node} (h : L.Nodes n m) : n.isBlock = m.isBlock :=
  congrArg (· == Form.block.kind) h.kind

theorem Nodes.children {n m : Node} (h : L.Nodes n m) :
    List.Forall₂ L.Nodes n.children m.children := by
  have hmap : n.children.map L.essence = m.children.map L.essence := by
    rw [← L.children_essence, ← L.children_essence, h]
  rwa [← List.forall₂_eq_eq_eq, List.forall₂_map_left_iff, List.forall₂_map_right_iff] at hmap

theorem Nodes.text {n m : Node} (h : L.Nodes n m) (key : String) : n.text? key = m.text? key := by
  rw [← L.text_essence n, ← L.text_essence m, h]

theorem Nodes.name {n m : Node} (h : L.Nodes n m)
    (hform : n.form? = some .bind ∨ n.form? = some .var) : n.ident? "name" = m.ident? "name" := by
  rw [← L.name_essence n hform, ← L.name_essence m (h.form ▸ hform), h]

theorem Nodes.target {n m : Node} (h : L.Nodes n m) (hform : n.form? = some .call) :
    n.ident? "target" = m.ident? "target" := by
  rw [← L.target_essence n hform, ← L.target_essence m (h.form ▸ hform), h]

theorem Nodes.literal {n m : Node} (h : L.Nodes n m) (hform : n.form? = some .lit) :
    n.literal = m.literal := by
  rw [← L.literal_essence n hform, ← L.literal_essence m (h.form ▸ hform), h]

theorem Values.kind {v w : Value} (h : L.Values v w) : v.kind = w.kind := by
  rw [← Value.kind_mapBodies L.essence v, h, Value.kind_mapBodies]

/-- Values that are alike are equal, or both functions. -/
theorem Values.eq_or_fn {v w : Value} (h : L.Values v w) :
    v = w ∨ ∃ f g, v = .fn f ∧ w = .fn g := by
  by_cases hv : v.kind = .function
  · have hw : w.kind = .function := h.kind ▸ hv
    cases v <;> simp only [Value.kind, reduceCtorEq] at hv
    cases w <;> simp only [Value.kind, reduceCtorEq] at hw
    exact .inr ⟨_, _, rfl, rfl⟩
  · exact .inl (Value.eq_of_mapBodies_eq h hv)

theorem Values.isUnknown {v w : Value} (h : L.Values v w) : v.isUnknown = w.isUnknown := by
  rw [← Value.isUnknown_mapBodies L.essence v, h, Value.isUnknown_mapBodies]

theorem Values.isErr {v w : Value} (h : L.Values v w) : v.isErr = w.isErr := by
  rw [← Value.isErr_mapBodies L.essence v, h, Value.isErr_mapBodies]

theorem Values.render {v w : Value} (h : L.Values v w) : v.render = w.render := by
  rw [← Value.render_mapBodies L.essence v, h, Value.render_mapBodies]

theorem ValueLists.cons {v w : Value} {vs ws : List Value} (hv : L.Values v w)
    (hvs : L.ValueLists vs ws) : L.ValueLists (v :: vs) (w :: ws) := by
  unfold ValueLists
  rw [List.map_cons, List.map_cons, hv, hvs]

theorem ValueLists.length_eq {vs ws : List Value} (h : L.ValueLists vs ws) :
    vs.length = ws.length := by
  simpa using congrArg List.length h

/-- Lists of values that are alike give the same under a function that does not look at bodies. -/
theorem map_congr {vs ws : List Value} {g : Value → α} (h : L.ValueLists vs ws)
    (hg : ∀ v : Value, g (v.mapBodies L.essence) = g v) : vs.map g = ws.map g := by
  unfold ValueLists at h
  rw [Value.mapBodies_eq_mapClosure] at h
  refine Value.map_eq_of_map_mapClosure_eq h fun v => ?_
  rw [← Value.mapBodies_eq_mapClosure]
  exact hg v

theorem Envs.find? {d e : Env} (h : L.Envs d e) (name : String) :
    (d.find? name).map (Value.mapBodies L.essence) =
      (e.find? name).map (Value.mapBodies L.essence) := by
  rw [← Dict.find?_map, ← Dict.find?_map, h]

/-- Looking a name up, a name without a binding being unknown. -/
theorem Envs.lookup {d e : Env} (h : L.Envs d e) (name : String) :
    L.Values ((d.find? name).getD .unknown) ((e.find? name).getD .unknown) := by
  have hfind := h.find? name
  unfold Values
  -- bound in both or in neither
  cases hd : d.find? name <;> cases he : e.find? name <;> simp_all

theorem Envs.insert {d e : Env} {v w : Value} (h : L.Envs d e) (hv : L.Values v w)
    (name : String) : L.Envs (d.insert name v) (e.insert name w) := by
  unfold Envs
  rw [Dict.map_insert, Dict.map_insert, h, hv]

theorem Envs.insertAll {d e : Env} {l k : List (String × Value)} (h : L.Envs d e)
    (hl : l.map (fun b => (b.1, b.2.mapBodies L.essence)) =
      k.map (fun b => (b.1, b.2.mapBodies L.essence))) : L.Envs (d.insertAll l) (e.insertAll k) := by
  unfold Envs
  rw [Dict.map_insertAll, Dict.map_insertAll, h, hl]

theorem Envs.entries {d e : Env} (h : L.Envs d e) :
    d.entries.map (fun b => (b.1, b.2.mapBodies L.essence)) =
      e.entries.map (fun b => (b.1, b.2.mapBodies L.essence)) :=
  congrArg Dict.entries h

/-! ## 3. Activations -/

namespace Activations

variable {t : Activation σ} {u : Activation τ}

theorem env (h : L.Activations t u) : L.Envs t.env u.env := by
  have hframes := h.frames
  unfold Activation.env
  cases ht : t.frames <;> cases hu : u.frames <;> simp_all [Envs]
  exact h.session.globals

theorem mapEnv (h : L.Activations t u) {f g : Env → Env}
    (hfg : ∀ {d e}, L.Envs d e → L.Envs (f d) (g e)) :
    L.Activations (t.mapEnv f) (u.mapEnv g) := by
  have hframes := h.frames
  unfold Activation.mapEnv
  cases ht : t.frames <;> cases hu : u.frames <;> rw [ht, hu] at hframes
  · exact ⟨{ h.session with globals := hfg h.session.globals }, rfl⟩
  · simp at hframes
  · simp at hframes
  · rw [List.map_cons, List.map_cons, List.cons.injEq] at hframes
    refine ⟨h.session, ?_⟩
    show _ :: _ = _ :: _
    rw [hframes.2]
    exact congrArg (· :: _) (hfg hframes.1)

theorem pushFrame (h : L.Activations t u) {d e : Env} (hde : L.Envs d e) :
    L.Activations (t.pushFrame d) (u.pushFrame e) := by
  refine ⟨h.session, ?_⟩
  show _ :: _ = _ :: _
  rw [h.frames]
  exact congrArg (· :: _) hde

theorem popFrame (h : L.Activations t u) : L.Activations t.popFrame u.popFrame := by
  refine ⟨h.session, ?_⟩
  show t.frames.tail.map _ = u.frames.tail.map _
  rw [List.map_tail, List.map_tail, h.frames]

theorem enterCall (h : L.Activations t u) (function : String) {d e : Env} (hde : L.Envs d e) :
    L.Activations (t.enterCall function d) (u.enterCall function e) := by
  have hcalls : function :: t.session.callStack = function :: u.session.callStack :=
    congrArg (function :: ·) h.session.callStack
  refine ⟨{ h.session with callStack := hcalls }, ?_⟩
  exact (h.pushFrame hde).frames

theorem leaveCall (h : L.Activations t u) : L.Activations t.leaveCall u.leaveCall :=
  popFrame ⟨{ h.session with callStack := congrArg List.tail h.session.callStack }, h.frames⟩

theorem enterModule (h : L.Activations t u) (path : String) :
    L.Activations (t.enterModule path) (u.enterModule path) := by
  have hloading : path :: t.session.modules.loading = path :: u.session.modules.loading :=
    congrArg (path :: ·) h.session.loading
  refine ⟨{ h.session with baseDir := rfl, loading := hloading, exportScopes := ?_ }, ?_⟩
  · show _ :: _ = _ :: _
    rw [h.session.exportScopes]
  · exact (h.pushFrame h.session.globals).frames

theorem leaveModule (h : L.Activations t u) (path baseDir : String) :
    L.Activations (t.leaveModule path baseDir) (u.leaveModule path baseDir) := by
  refine popFrame ⟨{ h.session with
    baseDir := rfl
    loading := congrArg (List.erase · path) h.session.loading
    exportScopes := ?_ }, h.frames⟩
  show t.session.modules.exportScopes.tail.map _ = u.session.modules.exportScopes.tail.map _
  rw [List.map_tail, List.map_tail, h.session.exportScopes]

theorem exports (h : L.Activations t u) : L.Envs t.exports u.exports := by
  have hscopes := h.session.exportScopes
  unfold Activation.exports
  cases ht : t.session.modules.exportScopes <;> cases hu : u.session.modules.exportScopes <;>
    simp_all [Envs]

theorem addExport (h : L.Activations t u) (name : String) {v w : Value} (hv : L.Values v w) :
    L.Activations (t.addExport name v) (u.addExport name w) := by
  have hscopes := h.session.exportScopes
  unfold Activation.addExport
  cases ht : t.session.modules.exportScopes <;> cases hu : u.session.modules.exportScopes <;>
    rw [ht, hu] at hscopes
  · exact h
  · simp at hscopes
  · simp at hscopes
  · rw [List.map_cons, List.map_cons, List.cons.injEq] at hscopes
    refine ⟨{ h.session with exportScopes := ?_ }, h.frames⟩
    show _ :: _ = _ :: _
    rw [hscopes.2]
    exact congrArg (· :: _) (Envs.insert hscopes.1 hv name)

theorem keepExports (h : L.Activations t u) (path : String) {d e : Exports} (hde : L.Envs d e) :
    L.Activations (t.keepExports path d) (u.keepExports path e) := by
  refine ⟨{ h.session with cache := ?_ }, h.frames⟩
  show (t.session.modules.cache.insert path d).map _ = (u.session.modules.cache.insert path e).map _
  rw [Dict.map_insert, Dict.map_insert, h.session.cache, hde]

theorem deepen (h : L.Activations t u) : L.Activations t.deepen u.deepen :=
  ⟨{ h.session with depth := congrArg (· + 1) h.session.depth }, h.frames⟩

theorem surface (h : L.Activations t u) : L.Activations t.surface u.surface :=
  ⟨{ h.session with depth := congrArg (· - 1) h.session.depth }, h.frames⟩

end Activations

/-! ## 4. What observes a run -/

theorem Sessions.record {s : Session σ} {s' : Session τ} (h : L.Sessions s s')
    {f g : Recorder → Recorder}
    (hfg : ∀ r r', r.placed L.place = r'.placed L.place →
      (f r).placed L.place = (g r').placed L.place) :
    L.Sessions (s.record f) (s'.record g) := by
  refine { h with recorder? := ?_ }
  have hrecorder := h.recorder?
  unfold Session.record
  cases hs : s.recorder? <;> cases hs' : s'.recorder? <;> rw [hs, hs'] at hrecorder
  · rfl
  · cases hrecorder
  · cases hrecorder
  · exact congrArg some (hfg _ _ (Option.some.inj hrecorder))

theorem wantsRecord {s : Session σ} {s' : Session τ} (h : L.Sessions s s') :
    s.recorder?.isSome = s'.recorder?.isSome := by
  have hrecorder := congrArg Option.isSome h.recorder?
  rwa [Option.isSome_map, Option.isSome_map] at hrecorder

/-- Steps that agree but for their spans are recorded alike. -/
theorem placed_addStep {place : Span → Span} {r r' : Recorder}
    (h : r.placed place = r'.placed place) (step : String → Span → Node) {a b : Span}
    (hab : place a = place b) (hstep : ∀ id a, (step id a).placed place = step id (place a)) :
    (r.addStep (step · a)).placed place = (r'.addStep (step · b)).placed place := by
  unfold Recorder.placed Recorder.addStep at *
  rw [Recorder.mk.injEq] at *
  obtain ⟨hrun, hsteps, hsnapshots, hsyscalls, hevents, hdiagnostics, hcounters⟩ := h
  refine ⟨hrun, ?_, hsnapshots, hsyscalls, hevents, hdiagnostics, ?_⟩
  · rw [Array.map_push, Array.map_push, hsteps, hcounters, hstep, hstep, hab]
  · exact congrArg (fun c : Counters => { c with step := c.step + 1 }) hcounters

theorem addSnapshot_congr {d e : Env} (h : L.Envs d e) {place : Span → Span} {r r' : Recorder}
    (hr : r.placed place = r'.placed place) (engine stepNodeId : String)
    (callStack : List String) (stack locals stack' locals' : List Value)
    (hstack : stack.map Value.render = stack'.map Value.render)
    (hlocals : locals.map Value.render = locals'.map Value.render) :
    (r.addSnapshot engine stepNodeId d callStack stack locals).placed place =
      (r'.addSnapshot engine stepNodeId e callStack stack' locals').placed place := by
  have hbindings : (d.entries.map fun b => b.1 ++ "=" ++ b.2.render) =
      e.entries.map fun b => b.1 ++ "=" ++ b.2.render := by
    have hrender (l : List (String × Value)) :
        ((l.map fun b => (b.1, b.2.mapBodies L.essence)).map fun b => b.1 ++ "=" ++ b.2.render) =
          l.map fun b => b.1 ++ "=" ++ b.2.render := by
      simp [Function.comp_def]
    rw [← hrender d.entries, h.entries, hrender e.entries]
  have hsnapshot : r.addSnapshot engine stepNodeId d callStack stack locals =
      r.addSnapshot engine stepNodeId e callStack stack' locals' := by
    refine Recorder.ext rfl rfl ?_ rfl rfl rfl rfl
    unfold Recorder.addSnapshot
    dsimp only
    rw [hbindings, hstack, hlocals]
  rw [hsnapshot]
  exact congrArg (Recorder.addSnapshot · engine stepNodeId e callStack stack' locals') hr

theorem recordMachineStep_congr {d e : Env} (h : L.Envs d e) {place : Span → Span}
    {r r' : Recorder} (hr : r.placed place = r'.placed place) {v w : MachineView}
    (hview : { v with
        stack := v.stack.map (Value.mapBodies L.essence)
        locals := v.locals.map (Value.mapBodies L.essence) } =
      { w with
        stack := w.stack.map (Value.mapBodies L.essence)
        locals := w.locals.map (Value.mapBodies L.essence) }) :
    (r.recordMachineStep v d).placed place = (r'.recordMachineStep w e).placed place := by
  simp only [MachineView.mk.injEq] at hview
  obtain ⟨hfunction, hpc, hmnemonic, hstack, hlocals, hframes⟩ := hview
  have hrender := Value.render_mapBodies L.essence
  unfold Recorder.recordMachineStep
  dsimp only
  rw [hfunction, hpc, hmnemonic, hframes]
  refine addSnapshot_congr h ?_ _ _ _ _ _ _ _ (map_congr hstack hrender) (map_congr hlocals hrender)
  exact placed_addStep hr (fun id span => Recorder.stepNode id "bytecode" w.function w.mnemonic
    w.function (saturateCount w.pc) span) rfl fun _ _ => rfl

theorem recordAstStep_congr {d e : Env} (h : L.Envs d e) {r r' : Recorder}
    (hr : r.placed L.place = r'.placed L.place) {n m : Node} (hn : L.Nodes n m)
    (callStack : List String) :
    (r.recordAstStep n d callStack).placed L.place =
      (r'.recordAstStep m e callStack).placed L.place := by
  unfold Recorder.recordAstStep
  dsimp only
  rw [hn.kind, hn.id]
  refine addSnapshot_congr h ?_ _ _ _ _ _ _ _ rfl rfl
  exact placed_addStep hr (fun id span => Recorder.stepNode id "ast" m.id m.kind
    (callStack.getLast?.getD "") (-1) span) (L.span_essence hn) fun _ _ => rfl

theorem Activations.noteStep {t : Activation σ} {u : Activation τ} (h : L.Activations t u)
    {n m : Node} (hn : L.Nodes n m) : L.Activations (t.noteStep n) (u.noteStep m) := by
  have hspan : L.place n.span = L.place m.span := L.span_essence hn
  have htrace : (t.noteStep n).session.traceSteps.map (Node.placed L.place) =
      (u.noteStep m).session.traceSteps.map (Node.placed L.place) := by
    have hsteps := h.session.traceSteps
    have hsize : t.session.traceSteps.size = u.session.traceSteps.size := by
      simpa using congrArg Array.size hsteps
    unfold Activation.noteStep
    dsimp only
    rw [← h.session.trace]
    by_cases hw : t.session.trace = true
    · rw [if_pos hw, if_pos hw, Array.map_push, Array.map_push, hsteps, hn.kind, hn.id, hsize]
      unfold Node.placed
      rw [hspan]
    · rw [if_neg hw, if_neg hw, hsteps]
  have hrecord := h.session.record (f := fun r => r.recordAstStep n t.env t.session.callStack.reverse)
    (g := fun r => r.recordAstStep m u.env t.session.callStack.reverse)
    fun _ _ hr => recordAstStep_congr h.env hr hn _
  refine ⟨{ h.session with traceSteps := htrace, recorder? := ?_ }, h.frames⟩
  unfold Activation.noteStep
  dsimp only
  rw [← h.session.callStack]
  exact hrecord.recorder?

end Likeness

end Arbor
