import Arbor.Evaluation.Evaluator

/-!
# Imports by what is known of a module

A session knows a module as loaded, as being loaded, or not at all, and that decides what an import of
it does (`Eval.importModule_eq`). A module that is not known is read, and what is read decides whether
there is a program to load (`Eval.importAs_fresh`).
-/

namespace Arbor

/-- What is known of a module when it is imported. -/
inductive Standing where
  | loaded (exports : Exports)
  | underWay
  | fresh

/-- What the modules of a session tell of a path. -/
def Modules.standing (m : Modules) (path : String) : Standing :=
  match m.cache.find? path with
  | some exports => .loaded exports
  | none => if m.loading.contains path then .underWay else .fresh

theorem Modules.of_standing_fresh {m : Modules} {path : String} (h : m.standing path = .fresh) :
    m.cache.find? path = none ∧ path ∉ m.loading := by
  unfold Modules.standing at h
  split at h
  · cases h
  · next hfind =>
    split at h
    · cases h
    · next hidle => exact ⟨hfind, by simpa using hidle⟩

theorem Modules.standing_of_uncached {m : Modules} {path : String} (h : m.cache.find? path = none) :
    m.standing path = if m.loading.contains path then .underWay else .fresh := by
  unfold standing
  rw [h]

namespace Eval

variable {σ : Type} [Host σ]

/-- The exports of a module by what is known of it. The file of a loaded one is not read, and one that
is being loaded is a cycle. -/
def importAs (load : Node → Eval σ (Except Node Exports)) (path importId : String) :
    Standing → Eval σ (Except Node Exports)
  | .loaded exports => pure (.ok exports)
  | .underWay => fault (.importCycle path)
  | .fresh => do
    match ← ask (.moduleText path) with
    | .error e => pure (.error ((ModuleError.unreadable path e.message).toErrNode importId))
    | .ok text =>
      match moduleProgram path text with
      | .error e => pure (.error (e.toErrNode importId))
      | .ok program => load program

theorem importModule_eq (self : Node → Eval σ Value) (path importId : String) (t : Activation σ) :
    importModule self path importId t =
      importAs (fun program => runModule self path program >>= settleModule path) path importId
        (t.session.modules.standing path) t := by
  show (match t.session.modules.cache.find? path with
    | some exports => pure (.ok exports)
    | none => loadModule self path importId : Eval σ (Except Node Exports)) t = _
  unfold Modules.standing
  cases t.session.modules.cache.find? path with
  | some exports => rfl
  | none =>
    show (if t.session.modules.loading.contains path then fault (.importCycle path) else
      _ : Eval σ (Except Node Exports)) t = _
    dsimp only
    split
    · rfl
    · rfl

theorem modules_ask (call : HostCall) (t : Activation σ) :
    (ask call t).2.session.modules = t.session.modules := by
  unfold ask
  split <;> rfl

/-- What the import of an unknown module makes of what its file holds. -/
theorem importAs_fresh_eq (load : Node → Eval σ (Except Node Exports)) (path importId : String)
    (t : Activation σ) :
    importAs load path importId .fresh t =
      match ask (.moduleText path) t with
      | (.value (.error e), u) =>
        (.value (.error ((ModuleError.unreadable path e.message).toErrNode importId)), u)
      | (.value (.ok text), u) =>
        match moduleProgram path text with
        | .error e => (.value (.error (e.toErrNode importId)), u)
        | .ok program => load program u
      | (.returned v, u) => (.returned v, u)
      | (.halted e, u) => (.halted e, u) := by
  refine (bind_def (ask (.moduleText path)) _ t).trans ?_
  generalize ask (.moduleText path) t = x
  obtain ⟨o, u⟩ := x
  cases o with
  | returned v => rfl
  | halted e => rfl
  | value reply =>
    cases reply with
    | error e => rfl
    | ok text =>
      dsimp only
      cases moduleProgram path text <;> rfl

theorem importAs_of_reads {path text : String} {program : Node} {t u : Activation σ}
    (hreads : ask (.moduleText path) t = (.value (.ok text), u))
    (hprogram : moduleProgram path text = .ok program) (load : Node → Eval σ (Except Node Exports))
    (importId : String) : importAs load path importId .fresh t = load program u := by
  rw [importAs_fresh_eq, hreads]
  dsimp only
  rw [hprogram]

/-- The import of an unknown module ends behind the reading of its file, or loads the program that the
file holds. -/
theorem importAs_fresh (path importId : String) (t : Activation σ) :
    (∃ o, ∀ load, importAs load path importId .fresh t = (o, (ask (.moduleText path) t).2)) ∨
      ∃ program, ∀ load,
        importAs load path importId .fresh t = load program (ask (.moduleText path) t).2 := by
  simp only [importAs_fresh_eq]
  rcases ask (.moduleText path) t with ⟨o, u⟩
  cases o with
  | returned v => exact .inl ⟨.returned v, fun _ => rfl⟩
  | halted e => exact .inl ⟨.halted e, fun _ => rfl⟩
  | value reply =>
    cases reply with
    | error e => exact .inl ⟨_, fun _ => rfl⟩
    | ok text =>
      dsimp only
      cases moduleProgram path text with
      | error e => exact .inl ⟨_, fun _ => rfl⟩
      | ok program => exact .inr ⟨program, fun _ => rfl⟩

end Eval

end Arbor
