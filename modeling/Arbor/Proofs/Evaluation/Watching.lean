import Arbor.Proofs.Capability.Boundary
import Arbor.Proofs.Value

/-!
# Watching a program

An observer stands beside the host and follows the run of a program. It notes what each node of the
program comes to, and which closures the program made, so that it knows the program's own code from
all other code that the run gets into: programs that are built and run, modules, and their functions.
A function of the program is its own code wherever it is called from.

Watching makes no difference to a run (`Eval.watch_eq_eval`).
-/

namespace Arbor

variable {σ : Type}

/-- The notes of an observer: the closures that the program made and what its nodes came to, each last
one first. -/
structure Notes where
  made : List (Closure Value) := []
  seen : List (Node × Value) := []

/-- A host, and beside it the notes of an observer. -/
structure Watched (σ : Type) where
  host : σ
  notes : Notes := {}

namespace Watched

instance [Host σ] : Host (Watched σ) where
  perform call w :=
    let (answer, host) := Host.perform call w.host
    (answer, { w with host })

/-- The closure that a node made, if it is a `Fn` that came to one. -/
def madeBy (n : Node) : Value → List (Closure Value)
  | .fn f => if n.isFn then [f] else []
  | _ => []

/-- Notes what a node came to. -/
def see (w : Watched σ) (n : Node) (v : Value) : Watched σ :=
  { w with notes := ⟨madeBy n v ++ w.notes.made, (n, v) :: w.notes.seen⟩ }

end Watched

/-! ## 1. Evaluation under observation -/

namespace Eval

/-- Does the step, and notes its value as what the node came to. -/
def watching (n : Node) (step : Eval (Watched σ) Value) : Eval (Watched σ) Value := do
  let v ← step
  modifySession fun s => { s with host := s.host.see n v }
  pure v

section Watch

variable (self : Bool → Node → Eval (Watched σ) Value)

/-- Evaluates a node whose value is about to be bound to a name. -/
def watchBound (own : Bool) (n : Node) (name : String) : Eval (Watched σ) Value :=
  if own && n.isFn then watching n (bound (self own) n name) else bound (self own) n name

/-- Calls a closure: into the program's own code if the program made it. -/
def watchClosure (f : Closure Value) (args : List Value) : Eval (Watched σ) Value :=
  fun t => callClosure (self (decide (f ∈ t.session.host.notes.made))) f args t

/-- Evaluates a node by its form. Capabilities and imports lead out of the program's own code. -/
def watchForm [Host σ] (own : Bool) (steps : Nat) (n : Node) :
    Eval (Watched σ) Value :=
  match n.form? with
  | some .bind => evalBind (watchBound self own) n
  | some .call =>
    evalCall (self own) (callCapability (self false) steps steps) (watchClosure self) n
  | some .importModule => evalImport (self false) n
  | some .exportName => evalExport (watchBound self own) n
  | _ => evalForm (self own) steps n

end Watch

/-- Evaluates a node under observation; `own` tells whether it is a node of the program. -/
def watch [Host σ] : Nat → Bool → Node → Eval (Watched σ) Value
  | 0, _, _ => halt .outOfFuel
  | fuel + 1, own, n =>
    let step := entering n (watchForm (watch fuel) own fuel n)
    if own then watching n step else step

end Eval

/-! ## 2. Watching makes no difference -/

theorem invoke_watched [Host σ] (w : Watched σ) (replay? : Option Replay) (target : String)
    (args : List Value) :
    Dispatch.invoke w replay? target args =
      { answer := (Dispatch.invoke w.host replay? target args).answer
        host := { w with host := (Dispatch.invoke w.host replay? target args).host }
        replay? := (Dispatch.invoke w.host replay? target args).replay? } :=
  Dispatch.invoke_lift (fun host => { w with host }) (fun _ => rfl) replay? target args

/-- The host gets no sight of the notes. -/
theorem Eval.notes_ask [Host σ] (call : HostCall) (t : Activation (Watched σ)) :
    (ask call t).2.session.host.notes = t.session.host.notes := by
  have hnotes : (Host.perform call t.session.host).2.notes = t.session.host.notes := rfl
  unfold ask
  split <;> next heq =>
    rw [heq] at hnotes
    exact hnotes

theorem Eval.notes_serveHost [Host σ] (target : String) (args : List Value)
    (t : Activation (Watched σ)) :
    (serveHost target args t).2.session.host.notes = t.session.host.notes := by
  have hnotes : (Dispatch.invoke t.session.host t.session.replay? target args).host.notes =
      t.session.host.notes := by
    rw [invoke_watched]
  unfold serveHost
  dsimp only
  split <;> exact hnotes

namespace Likeness

section Watch

variable [Host σ] {L : Likeness σ (Watched σ)}
  (hsee : ∀ {host w}, L.hosts host w → ∀ n v, L.hosts host (w.see n v))
include hsee

theorem watching (n : Node) {step : Eval σ Value} {step' : Eval (Watched σ) Value}
    (hstep : L.Steps L.Values step step') : L.Steps L.Values step (Eval.watching n step') := by
  intro t u ht
  have hends := hstep ht
  unfold Eval.watching
  rw [Eval.bind_def]
  generalize step t = x at hends ⊢
  generalize step' u = y at hends ⊢
  cases hends with
  | value hv hact =>
    exact .value hv ⟨{ hact.session with host := hsee hact.session.host _ _ }, hact.frames⟩
  | returned hv hact => exact .returned hv hact
  | halted hact => exact .halted hact

section Nested

variable {self : Node → Eval σ Value} {self' : Bool → Node → Eval (Watched σ) Value}
  (hself : ∀ own {n m}, L.Nodes n m → L.Steps L.Values (self n) (self' own m))
include hself

theorem watchBound (own : Bool) {n m : Node} (hn : L.Nodes n m) (name : String) :
    L.Steps L.Values (Eval.bound self n name) (Eval.watchBound self' own m name) := by
  unfold Eval.watchBound
  split
  · exact watching hsee m (bound (hself own) hn name)
  · exact bound (hself own) hn name

omit hsee in
theorem watchClosure {f g : Closure Value} {vs ws : List Value} (hfg : L.Values (.fn f) (.fn g))
    (hvs : L.ValueLists vs ws) :
    L.Steps L.Values (Eval.callClosure self f vs) (Eval.watchClosure self' g ws) :=
  fun _ _ ht => callClosure (hself _) hfg hvs ht

theorem watchForm (own : Bool) (steps : Nat) {n m : Node} (hn : L.Nodes n m) :
    L.Steps L.Values (Eval.evalForm self steps n) (Eval.watchForm self' own steps m) := by
  have hother := evalForm (hself own) steps hn
  unfold Eval.watchForm
  -- only four forms are watched in a way of their own
  split
  · next hform =>
    rw [← hn.form] at hform
    unfold Eval.evalForm
    rw [hform]
    exact evalBind (fun hn name => watchBound hsee hself own hn name) hn hform
  · next hform =>
    rw [← hn.form] at hform
    unfold Eval.evalForm
    rw [hform]
    exact evalCall (hself own)
      (fun target _ _ hvs => callCapability (hself false) steps steps target hvs)
      (watchClosure hself) hn hform
  · next hform =>
    rw [← hn.form] at hform
    unfold Eval.evalForm
    rw [hform]
    exact evalImport (hself false) hn
  · next hform =>
    rw [← hn.form] at hform
    unfold Eval.evalForm
    rw [hform]
    exact evalExport (fun hn name => watchBound hsee hself own hn name) hn
  · exact hother

end Nested

theorem watch (fuel : Nat) : ∀ own {n m : Node}, L.Nodes n m →
    L.Steps L.Values (Eval.eval fuel n) (Eval.watch fuel own m) := by
  induction fuel with
  | zero => exact fun _ _ _ _ => halt _
  | succ fuel ih =>
    intro own n m hn
    have hnode := entering hn (watchForm hsee ih own fuel hn)
    unfold Eval.watch
    dsimp only
    split
    · exact watching hsee m hnode
    · exact hnode

end Watch

/-- Runs under observation are the same but for the notes. -/
def ofWatched [Host σ] (permissions : List String) : Likeness σ (Watched σ) :=
  .ofHosts (fun host w => w.host = host) permissions
    (fun h path => by subst h; exact ⟨rfl, rfl⟩)
    (fun h path => by subst h; exact ⟨rfl, rfl⟩)
    (fun h replay? target args _ => by
      subst h
      rw [invoke_watched]
      exact ⟨rfl, rfl, rfl⟩)

end Likeness

/-- Under observation a node comes to the same and leaves the same activation, but for the notes. -/
theorem Eval.watch_eq_eval [Host σ] (fuel : Nat) (own : Bool) (n : Node) (t : Activation σ)
    (w : Watched σ) (hw : t.session.host = w.host) :
    ∃ w' : Watched σ, (Eval.eval fuel n t).2.session.host = w'.host ∧
      Eval.watch fuel own n ⟨t.session.withHost w, t.frames⟩ =
        ((Eval.eval fuel n t).1,
          ⟨(Eval.eval fuel n t).2.session.withHost w', (Eval.eval fuel n t).2.frames⟩) := by
  obtain ⟨w', hw', hrun⟩ := Likeness.step_withHost (L := .ofWatched t.session.permissions) rfl rfl
    (Likeness.watch (fun h _ _ => h) fuel own rfl) t w hw.symm rfl
  exact ⟨w', hw'.symm, hrun⟩

/-! ## 3. What the notes tell -/

namespace Eval

section Keeping

variable [Host σ] {R : Activation (Watched σ) → Activation (Watched σ) → Prop}
  {self : Bool → Node → Eval (Watched σ) Value}

theorem Invariant.watchForm (h : Invariant R) {own : Bool} (hself : ∀ n, Keeps R (self own n))
    (hother : ∀ n, Keeps R (self false n))
    (hbound : ∀ n name, Keeps R (Eval.watchBound self own n name))
    (hclosure : ∀ f args, Keeps R (Eval.watchClosure self f args)) (steps : Nat) (n : Node) :
    Keeps R (Eval.watchForm self own steps n) := by
  unfold Eval.watchForm
  split
  · exact h.evalBind (fun c _ => hbound c) fun name _ v => h.bindName name v
  · exact h.evalCall (fun c _ => hself c) (h.callCapability hother steps steps) hclosure
  · exact h.evalImport hother n
  · exact h.evalExport fun c _ => hbound c
  · exact h.evalForm hself steps n

variable (h : Invariant R)
  (hsee : ∀ t n v, R t { t with session := { t.session with host := t.session.host.see n v } })
include h hsee

theorem Invariant.watching (n : Node) {step : Eval (Watched σ) Value} (hstep : Keeps R step) :
    Keeps R (Eval.watching n step) :=
  h.bind hstep fun v => h.bind (fun t => hsee t n v) fun _ => h.pure v

/-- A watched evaluation keeps a relation that evaluation and the taking of notes keep. -/
theorem Invariant.watch (fuel : Nat) : ∀ own n, Keeps R (Eval.watch fuel own n) := by
  induction fuel with
  | zero => exact fun _ _ => h.halt _
  | succ fuel ih =>
    intro own n
    have hbound (m : Node) (name : String) :
        Keeps R (Eval.watchBound (Eval.watch fuel) own m name) := by
      unfold Eval.watchBound
      split
      · exact h.watching hsee m (h.bound (ih own m) name)
      · exact h.bound (ih own m) name
    have hform := h.watchForm (ih own) (ih false) hbound
      (fun f args t => h.callClosure (ih _) f args t) fuel n
    unfold Eval.watch
    dsimp only
    split
    · exact h.watching hsee n (h.entering n hform)
    · exact h.entering n hform

end Keeping

variable [Host σ]

/-- Notes are only added. -/
theorem seen_suffix_watch (fuel : Nat) (own : Bool) (n : Node) (t : Activation (Watched σ)) :
    t.session.host.notes.seen <:+ (watch fuel own n t).2.session.host.notes.seen := by
  have hinvariant : Invariant fun t u : Activation (Watched σ) =>
      t.session.host.notes.seen <:+ u.session.host.notes.seen := {
    refl := fun t => List.suffix_refl _
    trans := List.IsSuffix.trans
    note := fun t n => List.suffix_refl _
    serial := fun t k => List.suffix_refl _
    record := fun t f _ => List.suffix_refl _
    exported := fun t name v => by
      unfold Activation.addExport
      split <;> exact List.suffix_refl _
    resolve := fun t path => by
      rw [notes_ask]
    read := fun t path => by
      rw [notes_ask]
    serve := fun t target args _ => by
      rw [notes_serveHost]
    assign := fun t f => by
      unfold Activation.mapEnv
      split <;> exact List.suffix_refl _
    nest := fun h => h
    isolate := fun h => h
    call := fun h => h
    load := fun _ _ h => ⟨h, fun _ => h⟩ }
  exact hinvariant.watch (fun t n v => List.suffix_cons _ _) fuel own n t

/-- Whatever a node of the program comes to is noted. -/
theorem mem_seen_watch (fuel : Nat) (n : Node) (t : Activation (Watched σ)) {v : Value}
    (h : (watch fuel true n t).1 = .value v) :
    (n, v) ∈ (watch fuel true n t).2.session.host.notes.seen := by
  cases fuel with
  | zero => cases h
  | succ fuel =>
    unfold watch at h ⊢
    dsimp only at h ⊢
    rw [if_pos rfl] at h ⊢
    unfold watching at h ⊢
    rw [bind_def] at h ⊢
    generalize entering n (watchForm (watch fuel) true fuel n) t = x at h ⊢
    obtain ⟨o, u⟩ := x
    cases o with
    | value w =>
      cases h
      exact List.mem_cons_self
    | returned w => cases h
    | halted e => cases h

end Eval

end Arbor
