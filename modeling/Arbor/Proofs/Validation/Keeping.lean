import Arbor.Proofs.Evaluation.Frames
import Arbor.Proofs.Evaluation.Watching
import Arbor.Proofs.Validation.Matching

/-!
# What a watched run of a program keeps

`Flow.Sound` is what a watched run keeps: what the program's nodes have come to fits, the closures that
the program made are proper, and the globals are covered by what is in view in the program.

Code of the program goes from bindings that match one scope to bindings that match the next
(`Flow.Ready`), and changes at most the innermost bindings (`Flow.Kept`). All other code keeps out of
the frames that it did not open (`Flow.Inside`).
-/

namespace Arbor.Flow

open Eval

variable {σ α β : Type} {root : Node} {permissions : List String}

/-! ## 1. What a watched run keeps -/

/-- What the program's nodes have come to fits, the closures that it made are proper, and the globals
are covered. -/
structure Sound (root : Node) (permissions : List String) (t : Activation (Watched σ)) : Prop where
  seen : ∀ p ∈ t.session.host.notes.seen, ∃ k, kindOf? root permissions p.1 = some k ∧
    (p.1.passesOn = false → p.2.Fits k)
  made : ∀ f ∈ t.session.host.notes.made, Proper root permissions f
  globals : (programView root permissions).Covers t.session.globals

theorem Sound.of_eq {t u : Activation (Watched σ)} (h : Sound root permissions t)
    (hnotes : u.session.host.notes = t.session.host.notes)
    (hglobals : u.session.globals = t.session.globals) : Sound root permissions u :=
  ⟨hnotes ▸ h.seen, hnotes ▸ h.made, hglobals ▸ h.globals⟩

/-- The step was sound, and changed at most the innermost bindings. -/
structure Kept (root : Node) (permissions : List String) (t u : Activation (Watched σ)) : Prop where
  sound : Sound root permissions u
  outer : u.frames.tail = t.frames.tail
  framed : u.frames = [] ↔ t.frames = []
  globals : t.frames ≠ [] → u.session.globals = t.session.globals

/-- A sound step changed no bindings. -/
def Aside (root : Node) (permissions : List String) (t u : Activation (Watched σ)) : Prop :=
  Sound root permissions t →
    Sound root permissions u ∧ u.frames = t.frames ∧ u.session.globals = t.session.globals

/-- Inside of a frame, a sound step changed at most the bindings of that frame. -/
def Inside (root : Node) (permissions : List String) (t u : Activation (Watched σ)) : Prop :=
  Sound root permissions t → t.frames ≠ [] → Kept root permissions t u

namespace Kept

variable {t u v : Activation (Watched σ)}

theorem refl (h : Sound root permissions t) : Kept root permissions t t :=
  ⟨h, rfl, Iff.rfl, fun _ => rfl⟩

theorem trans (h : Kept root permissions t u) (h' : Kept root permissions u v) :
    Kept root permissions t v :=
  ⟨h'.sound, h'.outer.trans h.outer, h'.framed.trans h.framed, fun hne =>
    (h'.globals (mt h.framed.mp hne)).trans (h.globals hne)⟩

theorem of_aside (h : Sound root permissions t) (haside : Aside root permissions t u) :
    Kept root permissions t u := by
  obtain ⟨hu, hframes, hglobals⟩ := haside h
  exact ⟨hu, by rw [hframes], by rw [hframes], fun _ => hglobals⟩

end Kept

namespace Aside

variable {t u : Activation (Watched σ)}

theorem of_eq (hnotes : u.session.host.notes = t.session.host.notes) (hframes : u.frames = t.frames)
    (hglobals : u.session.globals = t.session.globals) : Aside root permissions t u :=
  fun h => ⟨h.of_eq hnotes hglobals, hframes, hglobals⟩

theorem inside (h : Aside root permissions t u) : Inside root permissions t u :=
  fun hsound _ => .of_aside hsound h

variable [Host σ]

theorem asked (call : HostCall) (t : Activation (Watched σ)) :
    Aside root permissions t (ask call t).2 := by
  refine .of_eq (notes_ask call t) ?_ ?_ <;> unfold ask <;> split <;> rfl

theorem served (t : Activation (Watched σ)) (target : String) (args : List Value) :
    Aside root permissions t (serveHost target args t).2 := by
  refine .of_eq (notes_serveHost target args t) ?_ ?_ <;> unfold serveHost <;> dsimp only <;>
    split <;> rfl

theorem calm : Calm (Aside root permissions : Activation (Watched σ) → _ → Prop) where
  refl t h := ⟨h, rfl, rfl⟩
  trans h h' hsound := by
    obtain ⟨hu, hframes, hglobals⟩ := h hsound
    obtain ⟨hv, hframes', hglobals'⟩ := h' hu
    exact ⟨hv, hframes'.trans hframes, hglobals'.trans hglobals⟩
  note t n := .of_eq rfl rfl rfl
  serial t k := .of_eq rfl rfl rfl
  record t f _ := .of_eq rfl rfl rfl
  exported t name v := by
    unfold Activation.addExport
    split <;> exact .of_eq rfl rfl rfl
  resolve t path := asked _ t
  read t path := asked _ t
  serve t target args _ := served t target args

end Aside

namespace Inside

variable {t u : Activation (Watched σ)}

/-- A program that runs in a frame of its own changes no bindings outside. -/
theorem isolated (h : Inside root permissions { t with frames := [∅] } u) :
    Aside root permissions t { u with frames := t.frames } := by
  intro hsound
  have hkept := h (hsound.of_eq rfl rfl) (List.cons_ne_nil _ _)
  exact ⟨hkept.sound.of_eq rfl rfl, rfl, hkept.globals (List.cons_ne_nil _ _)⟩

/-- So does a call. -/
theorem called {function : String} {env : Env}
    (h : Inside root permissions (t.enterCall function env) u) :
    Aside root permissions t u.leaveCall := by
  intro hsound
  have hkept := h (hsound.of_eq rfl rfl) (List.cons_ne_nil _ _)
  exact ⟨hkept.sound.of_eq rfl rfl, hkept.outer, hkept.globals (List.cons_ne_nil _ _)⟩

/-- So does the loading of a module. -/
theorem loaded {path : String} (h : Inside root permissions (t.enterModule path) u)
    (baseDir : String) :
    Aside root permissions t (u.leaveModule path baseDir) ∧
      ∀ exports, Aside root permissions t ((u.leaveModule path baseDir).keepExports path exports) := by
  have hleft : Aside root permissions t (u.leaveModule path baseDir) := by
    intro hsound
    have hkept := h (hsound.of_eq rfl rfl) (List.cons_ne_nil _ _)
    exact ⟨hkept.sound.of_eq rfl rfl, hkept.outer, hkept.globals (List.cons_ne_nil _ _)⟩
  refine ⟨hleft, fun exports hsound => ?_⟩
  obtain ⟨hu, hframes, hglobals⟩ := hleft hsound
  exact ⟨hu.of_eq rfl rfl, hframes, hglobals⟩

variable [Host σ]

theorem invariant : Invariant (Inside root permissions : Activation (Watched σ) → _ → Prop) where
  refl t h _ := .refl h
  trans h h' hsound hne := by
    have hkept := h hsound hne
    exact hkept.trans (h' hkept.sound (mt hkept.framed.mp hne))
  note t n := (Aside.calm.note t n).inside
  serial t k := (Aside.calm.serial t k).inside
  record t f hf := (Aside.calm.record t f hf).inside
  exported t name v := (Aside.calm.exported t name v).inside
  resolve t path := (Aside.asked _ t).inside
  read t path := (Aside.asked _ t).inside
  serve t target args _ := (Aside.served t target args).inside
  assign t f hsound hne := by
    obtain ⟨s, frames⟩ := t
    cases frames with
    | nil => exact absurd rfl hne
    | cons frame outer =>
      exact ⟨hsound.of_eq rfl rfl, rfl, by simp [Activation.mapEnv], fun _ => rfl⟩
  nest h hsound hne := by
    obtain ⟨hu, houter, hframed, hglobals⟩ := h (hsound.of_eq rfl rfl) hne
    exact ⟨hu.of_eq rfl rfl, houter, hframed, hglobals⟩
  isolate h := (isolated h).inside
  call h := (called h).inside
  load _ _ h := by
    obtain ⟨hleft, hkept⟩ := loaded h _
    exact ⟨hleft.inside, fun exports => (hkept exports).inside⟩

end Inside

/-! ## 2. Steps of the program's own code -/

/-- The step keeps what a run keeps, and `Q` holds of what it comes to, if it comes to a value. -/
def Does (root : Node) (permissions : List String) (t : Activation (Watched σ))
    (step : Eval (Watched σ) α) (Q : α → Activation (Watched σ) → Prop) : Prop :=
  Kept root permissions t (step t).2 ∧ ∀ a, (step t).1 = .value a → Q a (step t).2

namespace Does

variable {t : Activation (Watched σ)} {Q : α → Activation (Watched σ) → Prop}

theorem pure {a : α} (h : Sound root permissions t) (hQ : Q a t) :
    Does root permissions t (Pure.pure a) Q := by
  refine ⟨.refl h, ?_⟩
  rintro _ ⟨⟩
  exact hQ

/-- A step that comes to no value and changes nothing. -/
theorem ends {step : Eval (Watched σ) α} (h : Sound root permissions t) (hsame : (step t).2 = t)
    (hnone : ∀ a, (step t).1 ≠ .value a) : Does root permissions t step Q :=
  ⟨by rw [hsame]; exact .refl h, fun a ha => absurd ha (hnone a)⟩

theorem halt (h : Sound root permissions t) (e : Halt) : Does root permissions t (halt e) Q :=
  ends h rfl fun _ => by rintro ⟨⟩

theorem unwind (h : Sound root permissions t) (v : Value)
    {Q : Value → Activation (Watched σ) → Prop} : Does root permissions t (unwind v) Q :=
  ends h rfl fun _ => by rintro ⟨⟩

theorem bind {step : Eval (Watched σ) α} {f : α → Eval (Watched σ) β}
    {Q' : β → Activation (Watched σ) → Prop} (hstep : Does root permissions t step Q)
    (hf : ∀ a u, Kept root permissions t u → Q a u → Does root permissions u (f a) Q') :
    Does root permissions t (step >>= f) Q' := by
  obtain ⟨hkept, hQ⟩ := hstep
  unfold Does
  rw [bind_def]
  generalize step t = x at hkept hQ ⊢
  obtain ⟨o, u⟩ := x
  cases o with
  | value a =>
    obtain ⟨hkept', hQ'⟩ := hf a u hkept (hQ a rfl)
    exact ⟨hkept.trans hkept', hQ'⟩
  | returned v => exact ⟨hkept, by rintro _ ⟨⟩⟩
  | halted e => exact ⟨hkept, by rintro _ ⟨⟩⟩

theorem mono {step : Eval (Watched σ) α} {Q' : α → Activation (Watched σ) → Prop}
    (h : Does root permissions t step Q) (himp : ∀ a u, Q a u → Q' a u) :
    Does root permissions t step Q' :=
  ⟨h.1, fun a ha => himp a _ (h.2 a ha)⟩

theorem getSession (h : Sound root permissions t) :
    Does root permissions t Eval.getSession fun s u => s = t.session ∧ u = t := by
  refine ⟨.refl h, ?_⟩
  rintro _ ⟨⟩
  exact ⟨rfl, rfl⟩

theorem currentEnv (h : Sound root permissions t) :
    Does root permissions t Eval.currentEnv fun env u => env = t.env ∧ u = t := by
  refine ⟨.refl h, ?_⟩
  rintro _ ⟨⟩
  exact ⟨rfl, rfl⟩

end Does

/-- The run is ready for code in the scope `Γ`. Outside of all frames it is in the program's scope. -/
structure Ready (root : Node) (permissions : List String) (V : View) (Γ : TypeEnv)
    (t : Activation (Watched σ)) : Prop where
  sound : Sound root permissions t
  matched : Matches root permissions V Γ t.env
  program : t.frames = [] → V = programView root permissions

section Ready

variable {V : View} {Γ Γ' : TypeEnv} {t u : Activation (Watched σ)}

theorem Ready.of_eq (h : Ready root permissions V Γ t) (hu : Sound root permissions u)
    (hframes : u.frames = t.frames) (hglobals : u.session.globals = t.session.globals) :
    Ready root permissions V Γ u := by
  have henv : u.env = t.env := by
    unfold Activation.env
    rw [hframes, hglobals]
  exact ⟨hu, henv ▸ h.matched, hframes ▸ h.program⟩

theorem Ready.aside (h : Ready root permissions V Γ t) (haside : Aside root permissions t u) :
    Ready root permissions V Γ u := by
  obtain ⟨hu, hframes, hglobals⟩ := haside h.sound
  exact h.of_eq hu hframes hglobals

theorem Ready.drift (h : Ready root permissions V Γ t) (hdrift : Drift V Γ Γ') :
    Ready root permissions V Γ' t := ⟨h.sound, h.matched.drift hdrift, h.program⟩

/-- Code off the line may be left out. -/
theorem Ready.back (h : Ready root permissions V Γ t) (hdrift : Drift V Γ Γ')
    (hu : Ready root permissions V Γ' u) : Ready root permissions V Γ u :=
  ⟨hu.sound, h.matched.back hdrift hu.matched, hu.program⟩

/-- A step that changes no bindings leaves the run as ready as it was. -/
theorem Does.aside {step : Eval (Watched σ) α}
    (hstep : KeepsFrom (Aside root permissions) t step) (h : Ready root permissions V Γ t) :
    Does root permissions t step fun _ u => Ready root permissions V Γ u :=
  ⟨.of_aside h.sound hstep, fun _ _ => h.aside hstep⟩

/-- A change of the current bindings to ones that match a scope leads to that scope. -/
theorem Ready.mapEnv (h : Ready root permissions V Γ t) {f : Env → Env}
    (hmatched : Matches root permissions V Γ' (f t.env)) :
    Kept root permissions t (t.mapEnv f) ∧ Ready root permissions V Γ' (t.mapEnv f) := by
  have hmatched' : Matches root permissions V Γ' (t.mapEnv f).env := by
    rw [Activation.env_mapEnv]
    exact hmatched
  obtain ⟨s, frames⟩ := t
  cases frames with
  | nil =>
    -- the current bindings are the globals, and the view is that of the program
    obtain rfl := h.program rfl
    have hsound : Sound root permissions ((⟨s, []⟩ : Activation (Watched σ)).mapEnv f) :=
      ⟨h.sound.seen, h.sound.made, hmatched.covers⟩
    exact ⟨⟨hsound, rfl, Iff.rfl, fun hne => absurd rfl hne⟩, hsound, hmatched', fun _ => rfl⟩
  | cons frame outer =>
    have hsound : Sound root permissions ((⟨s, frame :: outer⟩ : Activation (Watched σ)).mapEnv f) :=
      h.sound.of_eq rfl rfl
    exact ⟨⟨hsound, rfl, by simp [Activation.mapEnv], fun _ => rfl⟩, hsound, hmatched',
      fun hnil => by cases hnil⟩

theorem Does.bindName (h : Ready root permissions V Γ t) {x : String} {k : ValueKind} {v : Value}
    (hk : V.Binds x k) (hv : v.Fits k) :
    Does root permissions t (Eval.bindName x v) fun _ u =>
      Ready root permissions V (Γ.insert x k) u := by
  obtain ⟨hkept, hready⟩ := h.mapEnv (f := (·.insert x v)) (h.matched.insert hk hv)
  exact ⟨hkept, fun _ _ => hready⟩

end Ready

/-- What a node of the program comes to: a value of the computed kind, a proper closure if it is a
function, and the scope behind it. In the line, an error node leads to the end of the scope. -/
structure Yields (root : Node) (permissions : List String) (V : View) (inLine : Bool) (Γ : TypeEnv)
    (n : Node) (k : ValueKind) (v : Value) (t : Activation (Watched σ)) : Prop where
  fits : n.passesOn = false → v.Fits k
  proper : n.isFn = true → ∀ f, v = .fn f → Proper root permissions f
  ready : inLine = false ∨ v.isErr = false → Ready root permissions V Γ t

/-- Nodes of the program come to what their derivations say. -/
def OwnSound (root : Node) (permissions : List String)
    (self : Bool → Node → Eval (Watched σ) Value) : Prop :=
  ∀ ⦃V inLine Γ n k Γ' t⦄, Typed root permissions V inLine Γ n k Γ' → Ready root permissions V Γ t →
    Does root permissions t (self true n) (Yields root permissions V inLine Γ' n k)

/-- All other code keeps out of the frames that it did not open. -/
def OtherSound (root : Node) (permissions : List String)
    (self : Bool → Node → Eval (Watched σ) Value) : Prop :=
  ∀ n, Keeps (Inside root permissions) (self false n)

end Arbor.Flow
