import Arbor.Proofs.Evaluation.Runs
import Arbor.Proofs.Validation.Derivation
import Arbor.Proofs.Validation.Steps

/-!
# Soundness of the computed kinds

In an orderly program in which the validator finds nothing, every node comes to values of the kind that
the flow pass computes for it (`Flow.kind_sound`). In programs that are not orderly a node may come to
another one (`Flow.misjudged`).
-/

namespace Arbor.Flow

open Eval

variable {σ : Type} {root : Node} {permissions : List String} [Host σ]

/-! ## 1. Runs -/

/-- Under observation nodes of the program come to what their derivations say, and all other code keeps
out of the frames that it did not open: by induction on the bound of the run, for both together, since
each calls the other. -/
theorem watch_sound (fuel : Nat) :
    OwnSound root permissions (watch fuel : Bool → Node → Eval (Watched σ) Value) ∧
      OtherSound root permissions (watch fuel : Bool → Node → Eval (Watched σ) Value) := by
  induction fuel with
  | zero => exact ⟨fun _ _ _ _ _ _ _ _ ht => .halt ht.sound _, fun _ => Inside.invariant.halt _⟩
  | succ fuel ih =>
    obtain ⟨hown, hother⟩ := ih
    refine ⟨fun V inLine Γ n k Γ' t htyped ht => ?_, fun n => ?_⟩
    · cases htyped with
      | mk hkind hform =>
        exact does_watching hkind
          (does_entering (fun u hu => does_form hown hother fuel hform hu) ht)
    · exact Inside.invariant.entering n (inside_watchForm hown hother fuel n)

omit [Host σ] in
/-- When the validator finds nothing, neither of its passes does. -/
theorem clean_of_validate (h : validate root ∅ permissions true = []) :
    structuralReport root = [] ∧ (run root ∅ permissions).findings = #[] := by
  have hpasses : (if (structuralReport root).isEmpty then (run root ∅ permissions).findings.toList
      else structuralReport root) = [] := h
  split at hpasses
  · next hempty => exact ⟨List.isEmpty_iff.mp hempty, Array.toList_eq_nil_iff.mp hpasses⟩
  · next hbroken =>
    rw [hpasses] at hbroken
    exact absurd rfl hbroken

/-- Let the validator find nothing in an orderly program, and watch a run of it that starts without
bindings. Watching makes no difference to the run, and whatever a node of the program comes to has the
kind computed for the node, or one of the two is unknown or the value is an error node. The exceptions
are the nodes that pass on the value of a program or of an If without an else. (The notes miss nothing:
`Eval.mem_seen_watch`, `Eval.seen_suffix_watch`.) -/
theorem kind_sound (hvalid : validate root ∅ permissions true = [])
    (horderly : Orderly root permissions) (t : Activation σ) (hglobals : t.session.globals = ∅)
    (henv : t.env = ∅) (fuel : Nat) :
    ∃ w : Watched σ, w.host = (eval fuel root t).2.session.host ∧
      watch fuel true root ⟨t.session.withHost { host := t.session.host }, t.frames⟩ =
        ((eval fuel root t).1,
          ⟨(eval fuel root t).2.session.withHost w, (eval fuel root t).2.frames⟩) ∧
      ∀ n v, (n, v) ∈ w.notes.seen → ∃ k, kindOf? root permissions n = some k ∧
        (n.passesOn = false → v.kind = k ∨ v.kind = .unknown ∨ k = .unknown ∨ v.isErr = true) := by
  obtain ⟨hstructure, hclean⟩ := clean_of_validate hvalid
  obtain ⟨k, Γ, htyped⟩ := typed_program horderly hclean
  obtain ⟨w, hw, hrun⟩ := watch_eq_eval fuel true root t { host := t.session.host } rfl
  refine ⟨w, hw.symm, hrun, fun n v hseen => ?_⟩
  have henv' : (⟨t.session.withHost { host := t.session.host }, t.frames⟩ :
      Activation (Watched σ)).env = ∅ := by
    rw [← henv]
    unfold Activation.env
    cases t.frames <;> rfl
  have hsound : Sound root permissions
      (⟨t.session.withHost { host := t.session.host }, t.frames⟩ : Activation (Watched σ)) := by
    refine ⟨fun _ h => (by cases h), fun _ h => (by cases h), fun x k v _ hv => ?_⟩
    have hnone : t.session.globals.find? x = some v := hv
    rw [hglobals] at hnone
    cases hnone
  have hmatched := matches_start (horderly.functions hstructure)
  have hkept := ((watch_sound fuel).1 htyped ⟨hsound, henv'.symm ▸ hmatched, fun _ => rfl⟩).1
  rw [hrun] at hkept
  exact hkept.sound.seen (n, v) hseen

/-! ## 2. Programs -/

namespace Sample

def program (children : List Node) : Node := { kind := "Program", id := "p", children }

def block (id : String) (children : List Node) : Node := { kind := "Block", id, children }

def lit (id : String) (value : AttrValue) : Node :=
  { kind := "Lit", id, attrs := attrs [("value", value)] }

def var (id name : String) : Node :=
  { kind := "Var", id, attrs := attrs [("name", .identifier name)] }

def assign (id name : String) (child : Node) : Node :=
  { kind := "Let", id, attrs := attrs [("name", .identifier name)], children := [child] }

def function (id params : String) (body : List Node) : Node :=
  { kind := "Fn", id, attrs := attrs [("params", .string params)]
    children := [block (id ++ "0") body] }

def call (id target : String) (children : List Node) : Node :=
  { kind := "Call", id, attrs := attrs [("target", .identifier target)], children }

def branch (id : String) (children : List Node) : Node := { kind := "If", id, children }

/-- An If without an else. -/
def guarded (id : String) (body : List Node) : Node :=
  branch id [lit (id ++ "1") (.bool true), block (id ++ "2") body]

/-- An error node. -/
def mistake (id : String) : Node :=
  { kind := "MakeErr", id, children :=
      ["1", "2", "3", "4"].map fun digit => lit (id ++ digit) (.string "") }

/-- A program that binds a name with the same kind in a branch as in the line. -/
def rebinding : Node := program
  [assign "a" "successor" (function "f" "n"
     [{ kind := "Add", id := "s", children := [var "n" "n", lit "i" (.int 1)] }]),
   assign "b" "x" (lit "j" (.int 2)),
   branch "c" [{ kind := "Eq", id := "e", children := [var "x" "x", lit "k" (.int 2)] },
     block "t" [assign "d" "x" (lit "l" (.int 3)), var "y" "x"],
     block "u" [lit "m" (.int 0)]],
   call "g" "successor" [var "z" "x"]]

end Sample

open Sample in
theorem kind_sound_rebinding :
    validate rebinding ∅ (Session.fresh "").permissions true = [] ∧
      Orderly rebinding (Session.fresh "").permissions ∧
      ∃ w : Watched LocalHost, w.host = (eval 9 rebinding ⟨Session.fresh "", []⟩).2.session.host ∧
        watch 9 true rebinding ⟨(Session.fresh "").withHost { host := (Session.fresh "").host }, []⟩ =
          ((eval 9 rebinding ⟨Session.fresh "", []⟩).1,
            ⟨(eval 9 rebinding ⟨Session.fresh "", []⟩).2.session.withHost w,
              (eval 9 rebinding ⟨Session.fresh "", []⟩).2.frames⟩) ∧
        ∀ n v, (n, v) ∈ w.notes.seen →
          ∃ k, kindOf? rebinding (Session.fresh "").permissions n = some k ∧
            (n.passesOn = false →
              v.kind = k ∨ v.kind = .unknown ∨ k = .unknown ∨ v.isErr = true) := by
  have hvalid : validate rebinding ∅ (Session.fresh "").permissions true = [] := by decide +kernel
  have horderly : Orderly rebinding (Session.fresh "").permissions :=
    orderly_of_scopes (by decide +kernel)
  exact ⟨hvalid, horderly, kind_sound hvalid horderly ⟨Session.fresh "", []⟩ rfl rfl 9⟩

/-- The validator finds nothing in the program, but in a run of it a node other than a program comes to
another kind than the one that is computed for it. -/
def Misjudges (session : Session LocalHost) (root : Node) (id : String)
    (computed actual : ValueKind) : Prop :=
  let run := watch 20 true root ⟨session.withHost { host := session.host }, []⟩
  validate root ∅ session.permissions true = [] ∧ ∃ p ∈ run.2.session.host.notes.seen,
    p.1.id = id ∧ p.1.isProgram = false ∧ kindOf? root session.permissions p.1 = some computed ∧
      p.2.kind = actual ∧ p.2.isErr = false ∧
        actual ≠ computed ∧ actual ≠ .unknown ∧ computed ≠ .unknown

instance {session : Session LocalHost} {root : Node} {id : String} {computed actual : ValueKind} :
    Decidable (Misjudges session root id computed actual) :=
  inferInstanceAs (Decidable (_ ∧ _))

namespace Sample

/-- A session with a module `m` on the disk, that exports a string `x`. -/
def library : Session LocalHost :=
  let source := "Program#m \x7b Export#e(name=x) \x7b Lit#s(value=\"s\") \x7d \x7d"
  let disk := ⟨.ofList [("/m.aos", .file (some source) 50)], true, []⟩
  { Session.fresh "" with host := { LocalHost.ofInput "" with disk } }

end Sample

open Sample in
/-- What the exceptions are for. In the order of the cases: an If without an else, a block that passes
on the value of a program, and a name bound to the value of an If without an else; a name bound anew in
a branch, and one whose binding is left out behind an error node; a function that learns a name bound
otherwise before, and one that learns the name of another in a scope of its own; and a qualified name
that is bound before a module is imported which exports it. -/
theorem misjudged :
    Misjudges (Session.fresh "") (program [guarded "i" [lit "a" (.int 1)]]) "i" .void .int ∧
    Misjudges (Session.fresh "")
      (program [block "b" [{ program [lit "a" (.int 1)] with id := "q" }]]) "b" .void .int ∧
    Misjudges (Session.fresh "")
      (program [assign "a" "x" (guarded "i" [lit "b" (.int 1)]), var "u" "x"]) "u" .void .int ∧
    Misjudges (Session.fresh "")
      (program [assign "a" "x" (lit "b" (.int 1)),
        guarded "i" [assign "c" "x" (lit "d" (.string "s"))], var "u" "x"]) "u" .int .string ∧
    Misjudges (Session.fresh "")
      (program [assign "a" "x" (lit "b" (.string "s")),
        assign "c" "y" (block "d" [mistake "e", assign "f" "x" (lit "g" (.int 1))]), var "u" "x"])
      "u" .int .string ∧
    Misjudges (Session.fresh "")
      (program [assign "a" "f" (lit "b" (.int 1)), assign "c" "f" (function "d" "" [var "u" "f"]),
        call "e" "f" []]) "u" .function .int ∧
    Misjudges (Session.fresh "")
      (program [assign "a" "f" (function "b" "" [var "u" "x"]), assign "c" "x" (lit "d" (.int 1)),
        call "e" "f" [],
        assign "g" "h" (function "i" "" [assign "j" "x" (function "k" "" [])])]) "u" .function .int ∧
    Misjudges library
      (program [assign "a" "m.x" (lit "b" (.int 1)),
        { kind := "Import", id := "i", attrs := attrs [("path", .string "m.aos")] }, var "u" "m.x"])
      "u" .int .string := by
  decide +kernel

end Arbor.Flow
