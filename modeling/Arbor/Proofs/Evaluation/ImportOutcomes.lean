import Arbor.Proofs.Evaluation.Bookkeeping
import Arbor.Proofs.Evaluation.Isolation
import Arbor.Proofs.Evaluation.Loading

/-!
# What an import leaves behind

An import that comes to an error, or in which the run ends, leaves nothing behind: no binding, no export,
and no knowledge of the module, so that a later import starts over (`Eval.failed_import_untraced`).
Whether it does depends on how the program of the module ends (`Eval.import_settles`): an error node that
it ends with is what the import ends with, and otherwise its exports are kept and bound. A `Return` at
the top of the program is a success, whatever it returns.
-/

namespace Arbor

variable {σ : Type}

/-! ## 1. Steps that leave no trace -/

/-- All that was entered is left, nothing is bound, and nothing is exported. -/
structure Untraced [Host σ] (t u : Activation σ) : Prop where
  restores : Restores t u
  session : t.session.Balanced u.session
  bindings : SameBindings t u
  exportScopes : u.session.modules.exportScopes = t.session.modules.exportScopes

namespace Untraced

variable [Host σ]

theorem refl (t : Activation σ) : Untraced t t := ⟨.refl t, .refl _, .refl t, rfl⟩

theorem trans {t u v : Activation σ} (h : Untraced t u) (h' : Untraced u v) : Untraced t v :=
  ⟨h.restores.trans h'.restores, h.session.trans h'.session, h.bindings.trans h'.bindings,
    h'.exportScopes.trans h.exportScopes⟩

theorem asked (t : Activation σ) (call : HostCall) : Untraced t (Eval.ask call t).2 :=
  ⟨.asked t call, Eval.balanced_ask call t, .asked t call,
    congrArg Modules.exportScopes (Eval.modules_ask call t)⟩

theorem noted (t : Activation σ) (n : Node) : Untraced t (t.noteStep n) :=
  ⟨Eval.invariant_restores.note t n, t.balanced_noteStep n, ⟨rfl, rfl⟩, rfl⟩

theorem nest {t u : Activation σ} (h : Untraced t.deepen u) : Untraced t u.surface :=
  ⟨Eval.invariant_restores.nest h.restores, { h.session with },
    ⟨h.bindings.frames, h.bindings.globals⟩, h.exportScopes⟩

end Untraced

/-- Modules that are being loaded and have no exports kept for them do not get any. -/
structure KeepsUncached (t u : Activation σ) : Prop where
  loading : u.session.modules.loading = t.session.modules.loading
  cache : ∀ path ∈ t.session.modules.loading, t.session.modules.cache.find? path = none →
    u.session.modules.cache.find? path = none

namespace KeepsUncached

theorem of_modules {t u : Activation σ} (h : u.session.modules = t.session.modules) :
    KeepsUncached t u :=
  ⟨congrArg Modules.loading h, fun _ _ hnew => h ▸ hnew⟩

theorem leaveModule {t u : Activation σ} {path : String}
    (h : KeepsUncached (t.enterModule path) u) :
    KeepsUncached t (u.leaveModule path t.session.baseDir) where
  loading := by
    have hloading : u.session.modules.loading = path :: t.session.modules.loading := h.loading
    show u.session.modules.loading.erase path = t.session.modules.loading
    rw [hloading, List.erase_cons_head]
  cache other hother hnew := h.cache other (List.mem_cons_of_mem _ hother) hnew

theorem keepExports {t u : Activation σ} {path : String} (h : KeepsUncached t u)
    (hidle : path ∉ t.session.modules.loading) (exports : Exports) :
    KeepsUncached t (u.keepExports path exports) where
  loading := h.loading
  cache other hother hnew := by
    have hne : other ≠ path := fun heq => hidle (heq ▸ hother)
    show (u.session.modules.cache.insert path exports).find? other = none
    rw [Dict.find?_insert_of_ne _ hne]
    exact h.cache other hother hnew

end KeepsUncached

namespace Eval

variable [Host σ]

theorem invariant_keepsUncached :
    Invariant (KeepsUncached : Activation σ → Activation σ → Prop) where
  refl _ := .of_modules rfl
  trans h h' := ⟨h'.loading.trans h.loading, fun path hpath hnew =>
    h'.cache path (h.loading ▸ hpath) (h.cache path hpath hnew)⟩
  note _ _ := .of_modules rfl
  assign t f := .of_modules (t.modules_mapEnv f)
  serial _ _ := .of_modules rfl
  record _ _ _ := .of_modules rfl
  exported t name v := by
    unfold Activation.addExport
    split
    · exact .of_modules rfl
    · exact ⟨rfl, fun _ _ hnew => hnew⟩
  resolve t _ := .of_modules (modules_ask _ t)
  read t _ := .of_modules (modules_ask _ t)
  serve t target args _ := by
    unfold serveHost
    dsimp only
    split <;> exact .of_modules rfl
  nest h := ⟨h.loading, h.cache⟩
  isolate h := ⟨h.loading, h.cache⟩
  call h := ⟨h.loading, h.cache⟩
  load hidle _ h :=
    ⟨h.leaveModule, fun exports => h.leaveModule.keepExports (by simpa using hidle) exports⟩

/-- Once the program of a module has been left, only what the session knows of other modules has grown. -/
theorem untraced_leaveModule {t : Activation σ} {path : String}
    (hfresh : t.session.modules.standing path = .fresh) (fuel : Nat) (program : Node) :
    let u := (eval fuel program (t.enterModule path)).2.leaveModule path t.session.baseDir
    Untraced t u ∧ u.session.modules.cache.find? path = none := by
  obtain ⟨hnew, hidle⟩ := Modules.of_standing_fresh hfresh
  have hrun := restores_eval fuel program (t.enterModule path)
  have hsession := invariant_balanced.eval fuel program (t.enterModule path)
  have hleft := (invariant_restores.load (by simpa using hidle) hnew hrun).1
  have huncached := (invariant_keepsUncached.eval fuel program (t.enterModule path)).cache path
    List.mem_cons_self hnew
  exact ⟨⟨hleft, Activation.balanced_leaveModule hsession, .of_load hrun _, hsession.outerScopes⟩,
    huncached⟩

/-! ## 2. Failed imports -/

theorem resolveModule_snd (path : String) (t : Activation σ) :
    (resolveModule path t).2 =
      (ask (.canonicalPath (Path.join t.session.baseDir path)) t).2 := by
  unfold resolveModule
  rw [bind_def]
  unfold getSession
  dsimp only
  rw [bind_def]
  generalize ask (.canonicalPath (Path.join t.session.baseDir path)) t = x
  obtain ⟨o, u⟩ := x
  cases o with
  | value reply => cases reply <;> rfl
  | returned v => rfl
  | halted e => rfl

theorem resolveModule_of_canonical {path resolved : String} {t u : Activation σ}
    (h : ask (.canonicalPath (Path.join t.session.baseDir path)) t = (.value (.ok resolved), u)) :
    resolveModule path t = (.value resolved, u) := by
  unfold resolveModule
  rw [bind_def]
  unfold getSession
  dsimp only
  rw [bind_def, h]
  rfl

/-- What a path resolves to depends on the host and the directory alone. -/
theorem resolveModule_fst_congr {t u : Activation σ} (hhost : u.session.host = t.session.host)
    (hdir : u.session.baseDir = t.session.baseDir) (path : String) :
    (resolveModule path u).1 = (resolveModule path t).1 := by
  unfold resolveModule
  rw [bind_def, bind_def]
  unfold getSession
  dsimp only
  rw [bind_def, bind_def, hdir]
  unfold ask
  rw [hhost]
  rcases Host.perform (.canonicalPath (Path.join t.session.baseDir path)) t.session.host with
    ⟨answer, host⟩
  cases answer <;> rfl

/-- Unless it yields exports, the import of a module leaves no trace, and the module is not known as
loaded. -/
theorem importModule_untraced {fuel : Nat} {path importId : String} {t u : Activation σ}
    {o : Outcome (Except Node Exports)} (h : importModule (eval fuel) path importId t = (o, u))
    (hfails : ∀ exports, o ≠ .value (.ok exports)) :
    Untraced t u ∧ t.session.modules.cache.find? path = none ∧
      u.session.modules.cache.find? path = none := by
  rw [importModule_eq] at h
  cases hstanding : t.session.modules.standing path with
  | loaded exports =>
    rw [hstanding] at h
    cases h
    exact absurd rfl (hfails exports)
  | underWay =>
    have hnew : t.session.modules.cache.find? path = none := by
      unfold Modules.standing at hstanding
      split at hstanding
      · cases hstanding
      · assumption
    rw [hstanding] at h
    cases h
    exact ⟨.refl t, hnew, hnew⟩
  | fresh =>
    have hnew := (Modules.of_standing_fresh hstanding).1
    have hasked : Untraced t (ask (.moduleText path) t).2 := .asked t _
    have hsame := modules_ask (.moduleText path) t
    rw [hstanding] at h
    -- the file holds no program, or the program is run
    rcases importAs_fresh path importId t with ⟨o', hends⟩ | ⟨program, hloads⟩
    · rw [hends] at h
      cases h
      exact ⟨hasked, hnew, by rwa [hsame]⟩
    · rw [hloads, bind_def] at h
      generalize (ask (.moduleText path) t).2 = s at h hasked hsame
      obtain ⟨hleft, huncached⟩ := untraced_leaveModule (hsame ▸ hstanding) fuel program
      unfold runModule at h
      rcases hrun : eval fuel program (s.enterModule path) with ⟨o', w⟩
      rw [hrun] at h hleft huncached
      dsimp only at h hleft huncached
      by_cases hsucceeds : o'.succeeds = true
      · rw [settleModule_of_succeeds hsucceeds] at h
        cases h
        exact absurd rfl (hfails _)
      · have hu := settleModule_of_fails (Bool.not_eq_true _ ▸ hsucceeds) path w.exports
          (w.leaveModule path s.session.baseDir)
        rw [h] at hu
        obtain rfl := hu
        exact ⟨hasked.trans hleft, hnew, huncached⟩

omit [Host σ] in
theorem known_snd (n : Node) (v : Value) (t : Activation σ) : (known n v t).2 = t := by
  unfold known
  split <;> rfl

/-- An import binds exports, or it leaves no trace; then the module is not known as loaded. -/
theorem evalImport_untraced {fuel : Nat} {n : Node} {t u : Activation σ} {o : Outcome Value}
    (h : evalImport (eval fuel) n t = (o, u)) :
    o = .value .void ∨ Untraced t u ∧ ∀ path resolved, n.text? "path" = some path →
      (resolveModule path t).1 = .value resolved →
        t.session.modules.cache.find? resolved = none ∧
          u.session.modules.cache.find? resolved = none := by
  unfold evalImport at h
  cases hpath : n.text? "path" with
  | none =>
    rw [hpath] at h
    cases h
    exact .inr ⟨.refl t, nofun⟩
  | some path =>
    have hresolved := resolveModule_snd path t
    have hasked : Untraced t (resolveModule path t).2 := hresolved ▸ .asked t _
    have hmodules : (resolveModule path t).2.session.modules = t.session.modules :=
      hresolved ▸ modules_ask _ t
    rw [hpath] at h
    dsimp only at h
    rw [bind_def] at h
    rcases hstart : resolveModule path t with ⟨o₁, t₁⟩
    rw [hstart] at h hasked hmodules
    cases o₁ with
    | returned v =>
      cases h
      exact .inr ⟨hasked, by rintro _ _ ⟨⟩; rw [hstart]; nofun⟩
    | halted e =>
      cases h
      exact .inr ⟨hasked, by rintro _ _ ⟨⟩; rw [hstart]; nofun⟩
    | value resolved =>
      dsimp only at h
      rw [bind_def] at h
      rcases himport : importModule (eval fuel) resolved n.id t₁ with ⟨o₂, t₂⟩
      rw [himport] at h
      by_cases hfails : ∀ exports, o₂ ≠ .value (.ok exports)
      · obtain ⟨hleft, hnew, huncached⟩ := importModule_untraced himport hfails
        -- what is left to do changes nothing
        have hu : u = t₂ := by
          cases o₂ with
          | value imported =>
            cases imported with
            | error e =>
              cases h
              rfl
            | ok exports => exact absurd rfl (hfails exports)
          | returned v =>
            cases h
            rfl
          | halted e =>
            cases h
            rfl
        subst hu
        refine .inr ⟨hasked.trans hleft, ?_⟩
        rintro _ resolved' ⟨⟩ heq
        rw [hstart] at heq
        cases heq
        exact ⟨hmodules ▸ hnew, huncached⟩
      · push Not at hfails
        obtain ⟨exports, rfl⟩ := hfails
        cases h
        exact .inl rfl

/-- The evaluation of an import node is the import, one level deeper. -/
theorem eval_import {n : Node} (hform : n.form? = some .importModule) {t : Activation σ}
    (hdepth : t.session.depth < t.session.maxDepth) (fuel : Nat) :
    eval (fuel + 1) n t =
      match evalImport (eval fuel) n (t.noteStep n).deepen with
      | (.value v, u) => known n v u.surface
      | (.returned v, u) => (.returned v, u.surface)
      | (.halted e, u) => (.halted e, u.surface) := by
  rw [eval_succ, evalWith_eq hdepth, bind_def]
  unfold nested between evalForm
  rw [hform]
  dsimp only
  rcases evalImport (eval fuel) n (t.noteStep n).deepen with ⟨o, u⟩
  cases o <;> rfl

/-- An import node that comes to no success has left no trace, and the module is not known as loaded. -/
theorem eval_import_untraced {n : Node} (hform : n.form? = some .importModule) {fuel : Nat}
    {t u : Activation σ} (hdepth : t.session.depth < t.session.maxDepth) {o : Outcome Value}
    (heval : eval (fuel + 1) n t = (o, u)) (hfails : o.succeeds = false) :
    Untraced t u ∧ ∀ path resolved, n.text? "path" = some path →
      (resolveModule path t).1 = .value resolved →
        t.session.modules.cache.find? resolved = none ∧
          u.session.modules.cache.find? resolved = none := by
  rw [eval_import hform hdepth] at heval
  rcases himport : evalImport (eval fuel) n (t.noteStep n).deepen with ⟨o₁, u₁⟩
  rw [himport] at heval
  have hu : u = u₁.surface ∧ o₁ ≠ .value .void := by
    cases o₁ with
    | value v =>
      refine ⟨?_, ?_⟩
      · have hknown := known_snd n v u₁.surface
        dsimp only at heval
        rw [heval] at hknown
        exact hknown
      · rintro ⟨⟩
        cases heval
        cases hfails
    | returned v =>
      cases heval
      cases hfails
    | halted e =>
      cases heval
      exact ⟨rfl, nofun⟩
  obtain ⟨rfl, hvoid⟩ := hu
  -- noting the step and counting the depth leave no trace, either
  obtain hbound | ⟨hleft, hcache⟩ := evalImport_untraced himport
  · exact absurd hbound hvoid
  · refine ⟨(Untraced.noted t n).trans hleft.nest, fun path resolved hpath hresolves => ?_⟩
    have hsame : (resolveModule path (t.noteStep n).deepen).1 = (resolveModule path t).1 :=
      resolveModule_fst_congr (t := t) (u := (t.noteStep n).deepen) rfl rfl path
    exact hcache path resolved hpath (hsame.trans hresolves)

/-- A failed import leaves no trace. If an `Import` comes to an error node, or the run ends in it, then
all bindings are as before, in every frame and in the globals, and so are the directory, the modules that
are being loaded and the scopes of exports with all that is in them; everything that was entered is left.
The module at the path is as well known as before. Unless the import was refused for its depth, it was not
loaded and is not loaded: a later import of the path reads its file and evaluates it afresh, or is a cycle
as long as the module is being loaded. -/
theorem failed_import_untraced {n : Node} (hform : n.form? = some .importModule) {fuel : Nat}
    {t u : Activation σ} {o : Outcome Value} (heval : eval (fuel + 1) n t = (o, u))
    (hfails : o.succeeds = false) :
    t.Balanced u ∧ SameBindings t u ∧
      u.session.modules.exportScopes = t.session.modules.exportScopes ∧
      ∀ path resolved, n.text? "path" = some path → (resolveModule path t).1 = .value resolved →
        u.session.modules.standing resolved = t.session.modules.standing resolved ∧
        (t.session.depth < t.session.maxDepth →
          t.session.modules.cache.find? resolved = none ∧
          u.session.modules.cache.find? resolved = none ∧
          ∀ (v : Activation σ), v.session.modules = u.session.modules →
            ∀ (k : Nat) (importId : String), importModule (eval k) resolved importId v =
              importAs (fun program => runModule (eval k) resolved program >>= settleModule resolved)
                resolved importId
                (if t.session.modules.loading.contains resolved then .underWay else .fresh) v) := by
  by_cases hdepth : t.session.depth < t.session.maxDepth
  swap
  · rw [eval_succ, evalWith_of_le (by omega)] at heval
    -- at the limit of the depth nothing is done
    cases heval
    exact ⟨.of_restores (.refl t) (.refl _), .refl t, rfl, fun _ _ _ _ =>
      ⟨rfl, fun h => absurd h hdepth⟩⟩
  obtain ⟨hafter, hcache⟩ := eval_import_untraced hform hdepth heval hfails
  refine ⟨.of_restores hafter.restores hafter.session, hafter.bindings, hafter.exportScopes, ?_⟩
  intro path resolved hpath hresolves
  obtain ⟨hnew, hnew'⟩ := hcache path resolved hpath hresolves
  have hstanding := Modules.standing_of_uncached hnew'
  rw [hafter.session.loading] at hstanding
  refine ⟨hstanding.trans (Modules.standing_of_uncached hnew).symm, fun _ =>
    ⟨hnew, hnew', fun v hv k importId => ?_⟩⟩
  rw [importModule_eq, hv, hstanding]

end Eval

/-- A program that exports `x` and ends with the node. -/
def exporting (last : Node) : Node where
  kind := "Program"
  id := "p"
  children :=
    [{ kind := "Export", id := "e", attrs := attrs [("name", .identifier "x")]
       children := [{ kind := "Lit", id := "l", attrs := attrs [("value", .int 1)] }] }, last]

/-- A node that makes an error. -/
def failing : Node where
  kind := "MakeErr"
  id := "m"
  children := ["bad", "E1", "msg", "n"].map fun text =>
    { kind := "Lit", id := "a", attrs := attrs [("value", .string text)] }

/-- An import of the module `m`. -/
def importM : Node := { kind := "Import", id := "i", attrs := attrs [("path", .string "m.aos")] }

/-- The text of the module `m` is on the disk. -/
def withM (text : String) : Activation LocalHost := ⟨.withFiles [("/m.aos", text)], []⟩

/-- The import is about to load the module: reading its file has changed nothing. -/
def enteringM (text : String) : Activation LocalHost := ((withM text).noteStep importM).deepen

theorem resolveModule_enteringM (text : String) :
    Eval.resolveModule "m.aos" (enteringM text) = (.value "/m.aos", enteringM text) := by
  have hjoined : Path.join "." "m.aos" = "./m.aos" := by decide
  have hcanonical : Eval.ask (.canonicalPath "./m.aos") (enteringM text) =
      (.value (.ok "/m.aos"), enteringM text) := rfl
  exact Eval.resolveModule_of_canonical (hjoined ▸ hcanonical)

namespace Eval

theorem failed_import_untraced_failing :
    let text := (exporting failing).format
    let done := eval 10 importM (withM text)
    done.1.succeeds = false ∧ SameBindings (withM text) done.2 ∧
      (resolveModule "m.aos" (withM text)).1 = .value "/m.aos" ∧
      ∀ (k : Nat) (importId : String), importModule (eval k) "/m.aos" importId done.2 =
        importAs (fun program => runModule (eval k) "/m.aos" program >>= settleModule "/m.aos")
          "/m.aos" importId .fresh done.2 := by
  intro text done
  have hfails : done.1.succeeds = false := by decide +kernel
  have hresolves : (resolveModule "m.aos" (withM text)).1 = .value "/m.aos" :=
    (resolveModule_fst_congr (t := enteringM text) (u := withM text) rfl rfl "m.aos").trans
      (congrArg Prod.fst (resolveModule_enteringM text))
  have heval : eval 10 importM (withM text) = (done.1, done.2) := Prod.mk.eta.symm
  obtain ⟨-, hbindings, -, hmodule⟩ := failed_import_untraced (by decide) heval hfails
  obtain ⟨-, hafresh⟩ := hmodule "m.aos" "/m.aos" rfl hresolves
  obtain ⟨-, -, hagain⟩ := hafresh (show 0 < 4096 by decide)
  exact ⟨hfails, hbindings, hresolves, hagain done.2 rfl⟩

end Eval

/-! ## 3. Imports by the end of the module's program -/

namespace Eval

variable [Host σ]

/-- From `t` on, the import comes to load a module that the session does not know: its path, its
program, and the activation in which the program is entered. -/
structure ComesToLoad (n : Node) (t : Activation σ) (resolved : String) (program : Node)
    (s : Activation σ) : Prop where
  form : n.form? = some .importModule
  depth : t.session.depth < t.session.maxDepth
  fresh : t.session.modules.standing resolved = .fresh
  loads : ∃ path text u, n.text? "path" = some path ∧
    resolveModule path (t.noteStep n).deepen = (.value resolved, u) ∧
    ask (.moduleText resolved) u = (.value (.ok text), s) ∧ moduleProgram resolved text = .ok program

/-- The import has come to the value without binding anything and without keeping any exports. -/
structure Refuses (t : Activation σ) (resolved : String) (v : Value)
    (done : Outcome Value × Activation σ) : Prop where
  outcome : done.1 = .value v
  bindings : SameBindings t done.2
  uncached : done.2.session.modules.cache.find? resolved = none

/-- The import has come to nothing. Just the exports are bound, under their qualified names, and they
are kept. -/
structure Loads (t : Activation σ) (resolved ns : String) (exports : Exports)
    (done : Outcome Value × Activation σ) : Prop where
  outcome : done.1 = .value .void
  bindings : SameBindings (t.mapEnv fun env =>
    env.insertAll (exports.entries.map fun e => (ns ++ "." ++ e.1, e.2))) done.2
  cached : done.2.session.modules.cache.find? resolved = some exports

/-- What an import node comes to when it is evaluated, if that is not unknown. -/
theorem eval_of_evalImport {n : Node} (hform : n.form? = some .importModule) {t u : Activation σ}
    (hdepth : t.session.depth < t.session.maxDepth) {fuel : Nat} {o : Outcome Value}
    (himport : evalImport (eval fuel) n (t.noteStep n).deepen = (o, u))
    (hknown : ∀ v, o = .value v → v.isUnknown = false) :
    eval (fuel + 1) n t = (o, u.surface) := by
  rw [eval_import hform hdepth, himport]
  cases o with
  | value v =>
    unfold known
    dsimp only
    rw [hknown v rfl, Bool.false_and]
    rfl
  | returned v => rfl
  | halted e => rfl

namespace ComesToLoad

variable {n program : Node} {t s : Activation σ} {resolved : String}
  (h : ComesToLoad n t resolved program s)
include h

theorem untraced : Untraced (t.noteStep n).deepen s ∧
    s.session.modules = t.session.modules := by
  obtain ⟨path, text, u, -, hresolves, hreads, -⟩ := h.loads
  have hu : u = (ask (.canonicalPath (Path.join (t.noteStep n).deepen.session.baseDir path))
      (t.noteStep n).deepen).2 := by
    rw [← resolveModule_snd, hresolves]
  have hs : s = (ask (.moduleText resolved) u).2 := by
    rw [hreads]
  refine ⟨?_, ?_⟩
  · rw [hs, hu]
    exact (Untraced.asked _ _).trans (.asked _ _)
  · rw [hs, modules_ask, hu, modules_ask]
    rfl

/-- The import is what is made of the run of the program. -/
theorem evalImport_eq {fuel : Nat} {o : Outcome Value} {w : Activation σ}
    (hrun : eval fuel program (s.enterModule resolved) = (o, w)) :
    evalImport (eval fuel) n (t.noteStep n).deepen =
      (settleModule resolved (o, w.exports) >>=
        bindImport (moduleNamespace resolved (n.text? "as")))
          (w.leaveModule resolved s.session.baseDir) := by
  obtain ⟨path, text, u, hpath, hresolves, hreads, hprogram⟩ := h.loads
  have hmodules : u.session.modules = t.session.modules := by
    rw [← modules_ask (.moduleText resolved) u, hreads]
    exact h.untraced.2
  have hloads : importModule (eval fuel) resolved n.id u =
      settleModule resolved (o, w.exports) (w.leaveModule resolved s.session.baseDir) := by
    rw [importModule_eq, hmodules, h.fresh, importAs_of_reads hreads hprogram, bind_def]
    unfold runModule
    rw [hrun]
  unfold evalImport
  rw [hpath]
  dsimp only
  rw [bind_def, hresolves]
  dsimp only
  rw [bind_def, bind_def, hloads]

/-- Apart from what is known of the module, the import leaves no trace until its exports are bound. -/
theorem left {fuel : Nat} {o : Outcome Value} {w : Activation σ}
    (hrun : eval fuel program (s.enterModule resolved) = (o, w)) :
    Untraced (t.noteStep n).deepen (w.leaveModule resolved s.session.baseDir) ∧
      (w.leaveModule resolved s.session.baseDir).session.modules.cache.find? resolved = none := by
  obtain ⟨huntraced, hmodules⟩ := h.untraced
  obtain ⟨hleft, huncached⟩ := untraced_leaveModule (hmodules ▸ h.fresh) fuel program
  rw [hrun] at hleft huncached
  exact ⟨huntraced.trans hleft, huncached⟩

theorem refuses {fuel : Nat} {v : Value} {w : Activation σ}
    (hrun : eval fuel program (s.enterModule resolved) = (.value v, w)) (herr : v.isErr = true) :
    Refuses t resolved v (eval (fuel + 1) n t) := by
  obtain ⟨e, rfl⟩ : ∃ e, v = .node e := by
    cases v with
    | node e => exact ⟨e, rfl⟩
    | _ => cases herr
  obtain ⟨hleft, huncached⟩ := h.left hrun
  have himport := h.evalImport_eq hrun
  rw [bind_def] at himport
  unfold settleModule at himport
  dsimp only at himport
  rw [if_pos (show e.isErr = true from herr)] at himport
  rw [eval_of_evalImport h.form h.depth himport (by rintro _ ⟨⟩; rfl)]
  exact ⟨rfl, ((Untraced.noted t n).trans hleft.nest).bindings, huncached⟩

theorem loads_of_succeeds {fuel : Nat} {o : Outcome Value} {w : Activation σ}
    (hrun : eval fuel program (s.enterModule resolved) = (o, w)) (hsucceeds : o.succeeds = true) :
    Loads t resolved (moduleNamespace resolved (n.text? "as")) w.exports (eval (fuel + 1) n t) := by
  obtain ⟨hleft, -⟩ := h.left hrun
  have himport := h.evalImport_eq hrun
  rw [bind_def, settleModule_of_succeeds hsucceeds] at himport
  rw [eval_of_evalImport h.form h.depth himport (by rintro _ ⟨⟩; rfl)]
  have hbindings := ((Untraced.noted t n).trans hleft.nest).bindings
  refine ⟨rfl, ?_, ?_⟩
  · have hkept : SameBindings t ((w.leaveModule resolved s.session.baseDir).keepExports resolved
        w.exports) := ⟨hbindings.frames, hbindings.globals⟩
    exact ⟨(hkept.mapEnv _).frames, (hkept.mapEnv _).globals⟩
  · dsimp only [Activation.surface]
    rw [Activation.modules_mapEnv]
    exact Dict.find?_insert_self _ _ _

theorem halts {fuel : Nat} {e : Halt} {w : Activation σ}
    (hrun : eval fuel program (s.enterModule resolved) = (.halted e, w)) :
    (eval (fuel + 1) n t).1 = .halted e := by
  have himport := h.evalImport_eq hrun
  rw [bind_def] at himport
  rw [eval_of_evalImport h.form h.depth himport nofun]

end ComesToLoad

/-- The end of a module's program decides the import of it. If the program comes to an error node, so does
the import: it binds nothing and does not keep the module. If the program comes to any other value, then
the import binds just the exports and keeps them, and where the run ends, it ends. So it is for a value
that the program falls through to and for one that it returns, but for an error node that it returns:
then the module is loaded like any other. -/
theorem import_settles {n program : Node} {t s : Activation σ} {resolved : String}
    (h : ComesToLoad n t resolved program s) {fuel : Nat} {o : Outcome Value} {w : Activation σ}
    (hrun : eval fuel program (s.enterModule resolved) = (o, w)) :
    let ns := moduleNamespace resolved (n.text? "as")
    let done := eval (fuel + 1) n t
    ((∀ v, o = .returned v → v.isErr = false) → ∀ v, Session.conclude o = .ok v →
        (v.isErr = true → Refuses t resolved v done) ∧
        (v.isErr = false → Loads t resolved ns w.exports done)) ∧
      (∀ e, Session.conclude o = .error e → done.1 = .halted e) ∧
      (∀ v, o = .returned v → v.isErr = true → Loads t resolved ns w.exports done) := by
  intro ns done
  -- the import never sees a value that is returned, only that one is
  refine ⟨fun hreturned v hends => ?_, fun e hends => ?_, fun v hreturned _ => ?_⟩
  · cases o with
    | value v' =>
      cases hends
      exact ⟨h.refuses hrun, fun hok => h.loads_of_succeeds hrun (by simp [Outcome.succeeds, hok])⟩
    | returned v' =>
      cases hends
      have hok := hreturned v rfl
      exact ⟨fun herr => absurd herr (by simp [hok]), fun _ => h.loads_of_succeeds hrun rfl⟩
    | halted e => cases hends
  · cases o with
    | halted e' =>
      cases hends
      exact h.halts hrun
    | _ => cases hends
  · subst hreturned
    exact h.loads_of_succeeds hrun rfl

end Eval

/-- The program that the text holds. -/
def programM (text : String) : Node := (moduleProgram "/m.aos" text).toOption.getD default

theorem comesToLoad_importM {text : String}
    (hread : (moduleProgram "/m.aos" text).toOption.isSome = true) :
    Eval.ComesToLoad importM (withM text) "/m.aos" (programM text) (enteringM text) := by
  have hreads : Eval.ask (.moduleText "/m.aos") (enteringM text) = (.value (.ok text), enteringM text) :=
    rfl
  refine ⟨by decide, show 0 < 4096 by decide, rfl, "m.aos", text, enteringM text, rfl,
    resolveModule_enteringM text, hreads, ?_⟩
  unfold programM
  cases hprogram : moduleProgram "/m.aos" text with
  | error e =>
    rw [hprogram] at hread
    cases hread
  | ok program => rfl

namespace Eval

theorem import_settles_failing :
    let text := (exporting failing).format
    let run := eval 9 (programM text) ((enteringM text).enterModule "/m.aos")
    let done := eval 10 importM (withM text)
    ComesToLoad importM (withM text) "/m.aos" (programM text) (enteringM text) ∧
      run.2.exports.contains "x" = true ∧
      ∃ v, run.1 = .value v ∧ v.isErr = true ∧ Refuses (withM text) "/m.aos" v done := by
  intro text run done
  obtain ⟨hread, hexports, herr, hfails⟩ :
      (moduleProgram "/m.aos" text).toOption.isSome = true ∧ run.2.exports.contains "x" = true ∧
        (Session.conclude run.1).toOption.any Value.isErr = true ∧ run.1.succeeds = false := by
    decide +kernel
  have hload := comesToLoad_importM hread
  refine ⟨hload, hexports, ?_⟩
  rcases hends : run.1 with v | v | e
  · rw [hends] at herr
    have hrun : eval 9 (programM text) ((enteringM text).enterModule "/m.aos") = (.value v, run.2) :=
      Prod.ext hends rfl
    exact ⟨v, rfl, herr, ((import_settles hload hrun).1 nofun v rfl).1 herr⟩
  · rw [hends] at hfails
    cases hfails
  · rw [hends] at herr
    cases herr

end Eval

/-- An import binds the exports of a module whose program returns an error node. -/
theorem not_import_settles :
    ¬∀ (n program : Node) (t s : Activation LocalHost) (resolved : String) (fuel : Nat)
        (o : Outcome Value) (w : Activation LocalHost), Eval.ComesToLoad n t resolved program s →
      Eval.eval fuel program (s.enterModule resolved) = (o, w) →
      ∀ v, Session.conclude o = .ok v → v.isErr = true →
        Eval.Refuses t resolved v (Eval.eval (fuel + 1) n t) := by
  intro hall
  let text := (exporting { kind := "Return", id := "r", children := [failing] }).format
  let run := Eval.eval 9 (programM text) ((enteringM text).enterModule "/m.aos")
  obtain ⟨hread, herr, hsucceeds⟩ : (moduleProgram "/m.aos" text).toOption.isSome = true ∧
      (Session.conclude run.1).toOption.any Value.isErr = true ∧ run.1.succeeds = true := by
    decide +kernel
  have hload := comesToLoad_importM hread
  cases hends : Session.conclude run.1 with
  | error e =>
    rw [hends] at herr
    cases herr
  | ok v =>
    rw [hends] at herr
    -- refused, the import comes to the error node, but it is void
    have hrefuses := hall _ _ _ _ _ 9 run.1 run.2 hload rfl v hends herr
    have hvoid := (hload.loads_of_succeeds (w := run.2) rfl hsucceeds).outcome
    rw [hrefuses.outcome] at hvoid
    cases hvoid
    cases herr

end Arbor
