import Arbor.Proofs.Capability.Annotated
import Arbor.Proofs.Evaluation.Agreement

/-!
# Loading modules

What an import does depends on the modules of the session: those that are loaded, and those that are
being loaded. A `Chronicle` tells the same story without them. It lists the programs of modules that
were evaluated to success, and the loads that are under way at a node are those that the evaluation of
the node is inside of. At every moment the modules of the session are in step with it, and an import
that goes by it does the same (`Used.in_step`).
-/

namespace Arbor

/-! ## 1. The chronicle -/

/-- The modules of a session at a moment, with the paths of the loads under way, the innermost first,
and of the programs that were evaluated to success, each with what it exported, the last first. -/
structure Moment where
  active : List String
  finished : List (String × Exports)
  modules : Modules

/-- Each load under way is of another path, is the only one that the session knows of, has a scope of
exports, and is not cached. The cache holds what the programs of modules have exported, each of which
succeeded once. -/
structure Moment.InStep (m : Moment) : Prop where
  loading : m.modules.loading = m.active
  distinct : m.active.Nodup
  scopes : m.modules.exportScopes.length = m.active.length
  apart : ∀ path ∈ m.active, m.modules.cache.find? path = none
  cached : ∀ path exports, m.modules.cache.find? path = some exports ↔ (path, exports) ∈ m.finished
  once : (m.finished.map Prod.fst).Nodup

/-- The programs of modules that were evaluated to success, and the moments so far, each last one
first. -/
structure Chronicle where
  finished : List (String × Exports) := []
  moments : List Moment := []

/-- What the chronicle tells of a path, with the loads under way. -/
def Chronicle.standing (c : Chronicle) (active : List String) (path : String) : Standing :=
  if path ∈ active then .underWay
  else
    match Dict.lookupIn? path c.finished with
    | some exports => .loaded exports
    | none => .fresh

namespace Activation

variable {σ : Type}

def moment (active : List String) (t : Activation (Annotated Chronicle σ)) : Moment :=
  ⟨active, t.notes.finished, t.session.modules⟩

/-- Notes the moment. -/
def observe (active : List String) (t : Activation (Annotated Chronicle σ)) :
    Activation (Annotated Chronicle σ) :=
  t.annotate fun c => { c with moments := t.moment active :: c.moments }

end Activation

/-- Has a program been evaluated to success? A `Return` at its top ends it, too. -/
def Outcome.succeeds : Outcome Value → Bool
  | .value v => !v.isErr
  | .returned _ => true
  | .halted _ => false

/-- How to find out what is known of a module, with the loads under way. -/
abbrev Judge (σ : Type) := List String → Activation (Annotated Chronicle σ) → String → Standing

/-- By the modules of the session. -/
def Judge.session {σ : Type} : Judge σ := fun _ t path => t.session.modules.standing path

/-- By the chronicle alone. -/
def Judge.history {σ : Type} : Judge σ := fun active t path => t.notes.standing active path

namespace Eval

variable {σ : Type}

/-- Evaluates the program of a module and settles the import of it. A success is noted. -/
def loadNoted (self : Node → Eval (Annotated Chronicle σ) Value) (path : String) (program : Node) :
    Eval (Annotated Chronicle σ) (Except Node Exports) := do
  let ran ← runModule self path program
  annotating fun c =>
    if ran.1.succeeds then { c with finished := (path, ran.2) :: c.finished } else c
  settleModule path ran

section Chronicled

variable [Host σ] (judge : Judge σ) (self : List String → Node → Eval (Annotated Chronicle σ) Value)
  (active : List String)

/-- The exports of a module. Inside of its program one more load is under way. -/
def importNoted (path importId : String) : Eval (Annotated Chronicle σ) (Except Node Exports) :=
  fun t => importAs (loadNoted (self (path :: active)) path) path importId (judge active t path) t

def chronicledImport (n : Node) : Eval (Annotated Chronicle σ) Value :=
  match n.text? "path" with
  | none => pure .unknown
  | some path => do
    let resolved ← resolveModule path
    let imported ← importNoted judge self active resolved n.id
    bindImport (moduleNamespace resolved (n.text? "as")) imported

def chronicledForm (steps : Nat) (n : Node) : Eval (Annotated Chronicle σ) Value :=
  if n.form? = some .importModule then chronicledImport judge self active n
  else evalForm (self active) steps n

/-- Evaluates a node with the loads `active` under way and keeps the chronicle, in which the moments
before and behind every node are noted. -/
def chronicled : Nat → List String → Node → Eval (Annotated Chronicle σ) Value
  | 0, _, _ => halt .outOfFuel
  | fuel + 1, active, n =>
    between (·.observe active) (·.observe active)
      (entering n (chronicledForm judge (chronicled fuel) active fuel n))

end Chronicled

end Eval

/-! ## 2. The chronicle makes no difference -/

variable {σ : Type}

namespace Likeness

variable [Host σ] {L : Likeness σ (Annotated Chronicle σ)} (hnotes : L.IgnoresNotes)
include hnotes

theorem loadNoted {self : Node → Eval σ Value} {self' : Node → Eval (Annotated Chronicle σ) Value}
    (hself : ∀ {n m}, L.Nodes n m → L.Steps L.Values (self n) (self' m)) (path : String)
    (program : Node) :
    L.Steps (Loaded (L := L)) (Eval.runModule self path program >>= Eval.settleModule path)
      (Eval.loadNoted self' path program) :=
  bind (runModule hself path program) fun _ _ hr => hnotes.annotating _ (settleModule path hr)

section Nested

variable {self : Node → Eval σ Value}
  {self' : List String → Node → Eval (Annotated Chronicle σ) Value}
  (hself : ∀ active {n m}, L.Nodes n m → L.Steps L.Values (self n) (self' active m))
include hself

theorem importNoted (active : List String) (path importId : String) :
    L.Steps (Loaded (L := L)) (Eval.importModule self path importId)
      (Eval.importNoted .session self' active path importId) := by
  intro t u ht
  rw [Eval.importModule_eq]
  exact importAs (loadNoted hnotes (hself _) path) path importId (standings ht.session path) ht

theorem chronicledForm (active : List String) (steps : Nat) {n m : Node} (hn : L.Nodes n m) :
    L.Steps L.Values (Eval.evalForm self steps n)
      (Eval.chronicledForm .session self' active steps m) := by
  unfold Eval.chronicledForm
  by_cases himport : m.form? = some .importModule
  · have hform : n.form? = some .importModule := hn.form.trans himport
    rw [if_pos himport]
    unfold Eval.evalForm Eval.evalImport Eval.chronicledImport
    rw [hform]
    dsimp only
    rw [hn.text, hn.text, hn.id]
    cases m.text? "path" with
    | none => exact same _
    | some path =>
      refine bind (resolveModule path) fun resolved resolved' hresolved => ?_
      obtain rfl := hresolved
      exact bind (importNoted hnotes hself active resolved m.id) fun r r' hr => bindImport _ hr
  · rw [if_neg himport]
    exact evalForm (hself active) steps hn

end Nested

theorem chronicled (fuel : Nat) : ∀ (active : List String) {n m : Node}, L.Nodes n m →
    L.Steps L.Values (Eval.eval fuel n) (Eval.chronicled .session fuel active m) := by
  induction fuel with
  | zero => exact fun _ _ _ _ => halt _
  | succ fuel ih =>
    intro active n m hn
    have hnode := entering hn (chronicledForm hnotes ih active fuel hn)
    -- an evaluation that takes no notes does nothing before and behind a node
    show L.Steps L.Values (Eval.between id id (Eval.evalWith (Eval.eval fuel) fuel n)) _
    exact between hnode (fun ht => hnotes.annotate ht _) fun ht => hnotes.annotate ht _

end Likeness

/-! ## 3. The modules are in step -/

/-- The moment is in step, and so was every one before, with no success that is not known by now. -/
structure Activation.InStep (active : List String) (t : Activation (Annotated Chronicle σ)) :
    Prop where
  now : (t.moment active).InStep
  past : ∀ m ∈ t.notes.moments, m.InStep ∧ m.finished <:+ t.notes.finished

namespace Activation.InStep

variable {active : List String} {path : String} {t : Activation (Annotated Chronicle σ)}

/-- The modules of the session tell the same of a path as the chronicle does. -/
theorem judge_eq (h : t.InStep active) (path : String) :
    Judge.history active t path = Judge.session active t path := by
  have hcached := h.now.cached path
  unfold Judge.history Judge.session Chronicle.standing Modules.standing
  have hloading : t.session.modules.loading = active := h.now.loading
  rw [hloading]
  by_cases hactive : path ∈ active
  · have hfind : t.session.modules.cache.find? path = none := h.now.apart path hactive
    rw [if_pos hactive, hfind]
    simp [hactive]
  · have hfind : t.session.modules.cache.find? path = Dict.lookupIn? path t.notes.finished := by
      refine Option.ext fun exports => ?_
      exact (hcached exports).trans (Dict.lookupIn?_eq_some_iff h.now.once).symm
    rw [if_neg hactive, hfind]
    cases Dict.lookupIn? path t.notes.finished with
    | some exports => rfl
    | none => simp [hactive]

theorem of_eq {u : Activation (Annotated Chronicle σ)} (h : t.InStep active)
    (hmodules : u.session.modules = t.session.modules) (hnotes : u.notes = t.notes) :
    u.InStep active := by
  have hmoment : u.moment active = t.moment active := by
    unfold Activation.moment
    rw [hmodules, hnotes]
  exact ⟨hmoment ▸ h.now, hnotes ▸ h.past⟩

theorem observe (h : t.InStep active) : (t.observe active).InStep active :=
  ⟨{ h.now with }, List.forall_mem_cons.mpr ⟨⟨h.now, List.suffix_refl _⟩, h.past⟩⟩

theorem enterModule (h : t.InStep active) (hactive : path ∉ active)
    (hnew : t.session.modules.cache.find? path = none) :
    (t.enterModule path).InStep (path :: active) where
  now :=
    { h.now with
      loading := congrArg (path :: ·) h.now.loading
      distinct := List.nodup_cons.mpr ⟨hactive, h.now.distinct⟩
      scopes := congrArg (· + 1) h.now.scopes
      apart := List.forall_mem_cons.mpr ⟨hnew, h.now.apart⟩ }
  past := h.past

theorem leaveModule (h : t.InStep (path :: active)) (baseDir : String) :
    (t.leaveModule path baseDir).InStep active := by
  have hloading : t.session.modules.loading.erase path = active := by
    rw [show t.session.modules.loading = path :: active from h.now.loading, List.erase_cons_head]
  have hscopes : t.session.modules.exportScopes.tail.length = active.length := by
    rw [List.length_tail, show t.session.modules.exportScopes.length = active.length + 1 from
      h.now.scopes]
    omega
  exact ⟨{ h.now with
    loading := hloading
    distinct := h.now.distinct.of_cons
    scopes := hscopes
    apart := fun other hother => h.now.apart other (List.mem_cons_of_mem _ hother) }, h.past⟩

/-- A program that has succeeded had not done so before, since it was not cached when it was loaded. -/
theorem finish (h : t.InStep (path :: active)) (baseDir : String) (exports : Exports) :
    (((t.leaveModule path baseDir).annotate fun c =>
      { c with finished := (path, exports) :: c.finished }).keepExports path exports).InStep
        active := by
  have hleft := h.leaveModule baseDir
  have hnew : t.session.modules.cache.find? path = none := h.now.apart path List.mem_cons_self
  -- a path under way is not cached, so no success of its program has been noted
  have hunfinished (other : Exports) : (path, other) ∉ t.notes.finished := by
    intro hmem
    have hfound : t.session.modules.cache.find? path = some other := (h.now.cached path other).mpr hmem
    rw [hnew] at hfound
    cases hfound
  refine ⟨{ hleft.now with apart := ?_, cached := ?_, once := ?_ }, fun m hm => ?_⟩
  · intro other hother
    have hne : other ≠ path := fun heq => (List.nodup_cons.mp h.now.distinct).1 (heq ▸ hother)
    show (t.session.modules.cache.insert path exports).find? other = none
    rw [Dict.find?_insert_of_ne _ hne]
    exact hleft.now.apart other hother
  · intro other found
    show (t.session.modules.cache.insert path exports).find? other = some found ↔
      (other, found) ∈ (path, exports) :: t.notes.finished
    by_cases heq : other = path
    · subst heq
      simp [hunfinished, eq_comm]
    · rw [Dict.find?_insert_of_ne _ heq, List.mem_cons, Prod.mk.injEq]
      have hother : t.session.modules.cache.find? other = some found ↔
          (other, found) ∈ t.notes.finished := h.now.cached other found
      simpa [heq] using hother
  · refine List.nodup_cons.mpr ⟨fun hmem => ?_, h.now.once⟩
    obtain ⟨⟨_, other⟩, hother, rfl⟩ := List.mem_map.mp hmem
    exact hunfinished other hother
  · exact ⟨(h.past m hm).1, (h.past m hm).2.trans (List.suffix_cons _ _)⟩

end Activation.InStep

namespace Eval

variable [Host σ]

theorem steady_inStep (active : List String) :
    Steady (Activation.InStep active : Activation (Annotated Chronicle σ) → Prop) := by
  refine ⟨fun ht hmodules hhost => ?_, fun {t} name v ht => ?_, fun {t} call ht => ?_,
    fun {t} target args ht => ?_⟩
  · exact ht.of_eq hmodules (congrArg Annotated.notes hhost)
  · unfold Activation.addExport
    split
    · exact ht
    · next hscopes =>
      have hlength := ht.now.scopes
      exact ⟨{ ht.now with scopes := by simpa [Activation.moment, hscopes] using hlength }, ht.past⟩
  · exact ht.of_eq (modules_ask call t) (Annotated.notes_ask call t)
  · refine ht.of_eq ?_ (Annotated.notes_serveHost target args t)
    unfold serveHost
    dsimp only
    split <;> rfl

omit [Host σ] in
theorem settleModule_of_succeeds {o : Outcome Value} (h : o.succeeds = true) (path : String)
    (exports : Exports) (t : Activation σ) :
    settleModule path (o, exports) t = (.value (.ok exports), t.keepExports path exports) := by
  cases o with
  | value v =>
    cases v with
    | node n =>
      have hok : n.isErr = false := by simpa [Outcome.succeeds, Value.isErr] using h
      unfold settleModule
      dsimp only
      rw [if_neg (by simp [hok])]
      rfl
    | _ => rfl
  | returned v => rfl
  | halted e => cases h

omit [Host σ] in
theorem settleModule_of_fails {o : Outcome Value} (h : o.succeeds = false) (path : String)
    (exports : Exports) (t : Activation σ) : (settleModule path (o, exports) t).2 = t := by
  cases o with
  | value v =>
    cases v with
    | node n =>
      have herr : n.isErr = true := by simpa [Outcome.succeeds, Value.isErr] using h
      unfold settleModule
      dsimp only
      rw [if_pos herr]
      rfl
    | _ => cases h
  | returned v => cases h
  | halted e => rfl

omit [Host σ] in
theorem loadNoted_eq {self : Node → Eval (Annotated Chronicle σ) Value} {path : String}
    {program : Node} {t u : Activation (Annotated Chronicle σ)} {o : Outcome Value}
    (h : self program (t.enterModule path) = (o, u)) :
    loadNoted self path program t =
      settleModule path (o, u.exports) ((u.leaveModule path t.session.baseDir).annotate fun c =>
        if o.succeeds then { c with finished := (path, u.exports) :: c.finished } else c) := by
  unfold loadNoted
  rw [bind_def]
  unfold runModule
  rw [h]
  rfl

section Nested

variable {self self' : List String → Node → Eval (Annotated Chronicle σ) Value}
  (hself : ∀ active n, Agrees (Activation.InStep active) (self active n) (self' active n))
  (active : List String)
include hself

omit [Host σ] in
/-- However the program of a module ends, the modules are in step behind it. -/
theorem agrees_loadNoted {path : String} (program : Node) {t : Activation (Annotated Chronicle σ)}
    (ht : t.InStep active) (hactive : path ∉ active)
    (hnew : t.session.modules.cache.find? path = none) :
    loadNoted (self' (path :: active)) path program t =
        loadNoted (self (path :: active)) path program t ∧
      (loadNoted (self (path :: active)) path program t).2.InStep active := by
  obtain ⟨hsame, hbehind⟩ := hself (path :: active) program _ (ht.enterModule hactive hnew)
  rcases hrun : self (path :: active) program (t.enterModule path) with ⟨o, u⟩
  rw [hrun] at hsame hbehind
  rw [loadNoted_eq hrun, loadNoted_eq hsame]
  refine ⟨rfl, ?_⟩
  by_cases hsucceeds : o.succeeds = true
  · rw [settleModule_of_succeeds hsucceeds, hsucceeds]
    exact hbehind.finish t.session.baseDir u.exports
  · rw [Bool.not_eq_true] at hsucceeds
    rw [settleModule_of_fails hsucceeds, hsucceeds]
    exact hbehind.leaveModule t.session.baseDir

theorem agrees_importNoted (path importId : String) :
    Agrees (Activation.InStep active) (importNoted .session self active path importId)
      (importNoted .history self' active path importId) := by
  intro t ht
  unfold importNoted
  rw [ht.judge_eq]
  cases hstanding : Judge.session active t path with
  | loaded exports => exact ⟨rfl, ht⟩
  | underWay => exact ⟨rfl, ht⟩
  | fresh =>
    obtain ⟨hnew, hidle⟩ := Modules.of_standing_fresh hstanding
    have hactive : path ∉ active := by
      rwa [show t.session.modules.loading = active from ht.now.loading] at hidle
    have hasked := (steady_inStep active).asked (.moduleText path) ht
    have hsame := modules_ask (.moduleText path) t
    -- both sides read the file in the same state, so both load its program or neither does
    rcases importAs_fresh path importId t with ⟨o, hends⟩ | ⟨program, hloads⟩
    · rw [hends, hends]
      exact ⟨rfl, hasked⟩
    · rw [hloads, hloads]
      exact agrees_loadNoted hself active program hasked hactive (by rwa [hsame])

theorem agrees_chronicledForm (steps : Nat) (n : Node) :
    Agrees (Activation.InStep active) (chronicledForm .session self active steps n)
      (chronicledForm .history self' active steps n) := by
  have hsteady := steady_inStep (σ := σ) active
  unfold chronicledForm
  by_cases himport : n.form? = some .importModule
  · rw [if_pos himport, if_pos himport]
    unfold chronicledImport
    split
    · exact .pure _
    · next path _ =>
      have hbind (ns : String) (imported : Except Node Exports) :
          Agrees (Activation.InStep active : Activation (Annotated Chronicle σ) → Prop)
            (bindImport ns imported) (bindImport ns imported) := by
        unfold bindImport
        split
        · exact .pure _
        · next exports =>
          have hbound : Keeps (fun t u => t.InStep active → u.InStep active)
              (bindExports ns exports : Eval (Annotated Chronicle σ) Unit) := by
            intro t ht
            unfold bindExports
            dsimp only
            exact hsteady.mapEnv ht _
          exact (Agrees.of_keeps hbound).bind fun _ => .pure _
      exact .bind (.of_keeps (hsteady.calm.resolveModule path)) fun resolved =>
        (agrees_importNoted hself active resolved n.id).bind fun imported => hbind _ imported
  · rw [if_neg himport, if_neg himport]
    exact .evalForm hsteady (hself active) steps himport

end Nested

/-- An import may go by the chronicle alone. -/
theorem agrees_chronicled (fuel : Nat) : ∀ (active : List String) (n : Node),
    Agrees (Activation.InStep active) (chronicled .session fuel active n)
      (chronicled .history fuel active n : Eval (Annotated Chronicle σ) Value) := by
  induction fuel with
  | zero => exact fun _ _ => .halt _
  | succ fuel ih =>
    intro active n
    have hnode := Agrees.entering (steady_inStep active) n (agrees_chronicledForm ih active fuel n)
    exact .between (fun ht => ht.observe) hnode fun ht => ht.observe

end Eval

/-! ## 4. Whole runs -/

variable [Host σ]

namespace Run

/-- Runs it in a session with a chronicle, and tells what it ends with and the chronicle behind it. -/
def chronicle (judge : Judge σ) (run : Run) (fuel : Nat) (s : Session σ) (c : Chronicle) :
    (Except Halt Value × Env × Session σ) × Chronicle :=
  let (o, t) := run.stepWith (Eval.chronicled judge fuel []) fuel ⟨s.annotated c, run.frames⟩
  ((Session.conclude o, run.frameBehind t.frames, t.session.bare), t.notes)

theorem chronicle_eq_perform (run : Run) (fuel : Nat) (s : Session σ) (c : Chronicle) :
    (run.chronicle .session fuel s c).1 = run.perform fuel s := by
  refine run.perform_of_alike fuel s c rfl ?_
  rw [step_eq]
  exact stepWith_alike (Likeness.chronicled (Likeness.ofAnnotated_ignoresNotes _) fuel []) run fuel

theorem stepWith_agrees {S : Activation σ → Prop} (h : Eval.Steady S)
    {self self' : Node → Eval σ Value} (hself : ∀ n, Eval.Agrees S (self n) (self' n)) (run : Run)
    (fuel : Nat) : Eval.Agrees S (run.stepWith self fuel) (run.stepWith self' fuel) := by
  have hcall := Eval.Agrees.callCapability h hself fuel fuel
  cases run with
  | evaluate n => exact hself n
  | evaluateInFrame n _ => exact hself n
  | callCapability target args => exact hcall target args
  | runProgram p entry args => exact .runMachine h hcall fuel p entry args
  | runBytecode bytecode entry args => exact .runBytecode h hcall fuel bytecode entry args

end Run

/-- The session has been used since it had no modules, which is when it is new or its modules have been
reset, and the chronicle tells of it. Between the runs everything but the modules may change. -/
inductive Used : Session σ → Chronicle → Prop
  | fresh {s : Session σ} (h : s.modules = {}) : Used s {}
  | adjusted {s u : Session σ} {c : Chronicle} (h : Used s c) (hmodules : u.modules = s.modules) :
      Used u c
  | ran {s : Session σ} {c : Chronicle} (h : Used s c) (run : Run) (fuel : Nat) :
      Used (run.perform fuel s).2.2 (run.chronicle .session fuel s c).2

namespace Used

variable {s : Session σ} {c : Chronicle}

theorem inStep (h : Used s c) (frames : List Env) :
    (⟨s.annotated c, frames⟩ : Activation (Annotated Chronicle σ)).InStep [] := by
  induction h generalizing frames with
  | @fresh s h =>
    have hempty : (⟨[], [], {}⟩ : Moment).InStep :=
      ⟨rfl, List.nodup_nil, rfl, nofun, fun _ _ => ⟨nofun, nofun⟩, List.nodup_nil⟩
    have hmoment : Activation.moment [] ⟨s.annotated ({} : Chronicle), frames⟩ = ⟨[], [], {}⟩ :=
      congrArg (Moment.mk [] []) h
    exact ⟨hmoment ▸ hempty, nofun⟩
  | adjusted _ hmodules ih => exact (ih frames).of_eq hmodules rfl
  | @ran s c _ run fuel ih =>
    have hbehind := (run.stepWith_agrees (Eval.steady_inStep []) (Eval.agrees_chronicled fuel [])
      fuel _ (ih run.frames)).2
    refine hbehind.of_eq ?_ rfl
    show (run.perform fuel s).2.2.modules = _
    rw [← run.chronicle_eq_perform fuel s c]
    rfl

/-- The loader invariant. In a session that has been used, now and at every moment of the runs so far,
the paths that the session holds for loading are those of the loads under way, pairwise distinct and
none of them cached, with one scope of exports each; and the cache holds what the programs of modules
exported that have been evaluated to success, each once. So nothing changes if every import goes by the
chronicle: it is a cycle just if its path is that of a load under way around it, and otherwise binds
what the program of the module has exported, without a look at the file, if that has succeeded. -/
theorem in_step (h : Used s c) :
    (∀ m ∈ ⟨[], c.finished, s.modules⟩ :: c.moments, m.InStep ∧ m.finished <:+ c.finished) ∧
      ∀ (run : Run) (fuel : Nat),
        (run.chronicle .session fuel s c).1 = run.perform fuel s ∧
          run.chronicle .history fuel s c = run.chronicle .session fuel s c := by
  have hstart := h.inStep
  refine ⟨?_, fun run fuel => ⟨run.chronicle_eq_perform fuel s c, ?_⟩⟩
  · exact List.forall_mem_cons.mpr ⟨⟨(hstart []).now, List.suffix_refl _⟩, (hstart []).past⟩
  · have hsame := (run.stepWith_agrees (Eval.steady_inStep []) (Eval.agrees_chronicled fuel []) fuel _
      (hstart run.frames)).1
    unfold Run.chronicle
    rw [hsame]

/-- A program that imports the modules and exports a name. -/
def importing (paths : List String) : Node where
  kind := "Program"
  id := "p"
  children := paths.map (fun path =>
      { kind := "Import", id := "i", attrs := attrs [("path", .string path)] }) ++
    [{ kind := "Export", id := "e", attrs := attrs [("name", .identifier "x")]
       children := [{ kind := "Lit", id := "l", attrs := attrs [("value", .int 1)] }] }]

/-- A session with two modules on the disk, of which one imports the other, and one that imports
itself. -/
def shelf : Session LocalHost :=
  let file (paths : List String) : DiskEntry := .file (some (importing paths).format) 60
  let disk :=
    ⟨.ofList [("/a.aos", file ["b.aos"]), ("/b.aos", file []), ("/c.aos", file ["c.aos"])], true, []⟩
  { Session.fresh "" with host := { LocalHost.ofInput "" with disk } }

theorem in_step_shelf :
    let first : Run := .evaluate (importing ["a.aos", "b.aos"])
    let second : Run := .evaluate (importing ["b.aos", "c.aos"])
    let s := (first.perform 9 shelf).2.2
    let c := (first.chronicle .session 9 shelf {}).2
    Used s c ∧ c.finished.map Prod.fst = ["/a.aos", "/b.aos"] ∧
      ["/b.aos", "/a.aos"] ∈ c.moments.map Moment.active ∧ (∀ m ∈ c.moments, m.InStep) ∧
        (second.chronicle .history 9 s c).1 = second.perform 9 s := by
  intro first second s c
  have hused : Used s c := .ran (.fresh rfl) first 9
  obtain ⟨hmoments, hruns⟩ := hused.in_step
  obtain ⟨hreal, hhistory⟩ := hruns second 9
  refine ⟨hused, by decide +kernel, by decide +kernel, fun m hm => ?_, ?_⟩
  · exact (hmoments m (List.mem_cons_of_mem _ hm)).1
  · rw [hhistory, hreal]

end Used

end Arbor
