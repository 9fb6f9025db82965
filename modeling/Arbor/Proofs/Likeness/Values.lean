import Arbor.Operator
import Arbor.Proofs.Dict

/-!
# Values up to the bodies of their functions

`Value.mapBodies f` changes the body of every closure inside a value by `f` and nothing else. Two
values that it makes equal look the same to everything but a call: they have one kind, one short
form, compare alike, and every operator yields the same on them.

Environments are dictionaries of values, so what changes their values is a `Dict.map`; it commutes
with look-up and binding.

A change of a function itself that leaves its serial number alone, as that of `Value.uncaptured`, is
seen by no operator either (`Operator.apply_map_mapClosure`).
-/

namespace Arbor

/-! ## 1. Values -/

namespace Value

section MapClosure

/-- Changes the closure of a function, and leaves other values alone. -/
def mapClosure (g : Closure Value → Closure Value) : Value → Value
  | fn c => fn (g c)
  | v => v

variable (g : Closure Value → Closure Value)

@[simp] theorem kind_mapClosure (v : Value) : (v.mapClosure g).kind = v.kind := by cases v <;> rfl

@[simp] theorem isUnknown_mapClosure (v : Value) : (v.mapClosure g).isUnknown = v.isUnknown := by
  cases v <;> rfl

@[simp] theorem isErr_mapClosure (v : Value) : (v.mapClosure g).isErr = v.isErr := by
  cases v <;> rfl

@[simp] theorem render_mapClosure (v : Value) : (v.mapClosure g).render = v.render := by
  cases v <;> rfl

theorem mapClosure_of_kind_ne {v : Value} (h : v.kind ≠ .function) : v.mapClosure g = v := by
  cases v with
  | fn c => exact absurd rfl h
  | _ => rfl

variable {g}

/-- Values that are no functions are equal when the change makes them equal. -/
theorem eq_of_mapClosure_eq {v w : Value} (h : v.mapClosure g = w.mapClosure g)
    (hkind : v.kind ≠ .function) : v = w := by
  have hw : w.kind ≠ .function := by
    rw [← kind_mapClosure g w, ← h, kind_mapClosure]
    exact hkind
  rw [← mapClosure_of_kind_ne g hkind, h, mapClosure_of_kind_ne g hw]

theorem eq_of_map_mapClosure_eq {vs ws : List Value}
    (h : vs.map (mapClosure g) = ws.map (mapClosure g)) (hkind : ∀ v ∈ vs, v.kind ≠ .function) :
    vs = ws := by
  induction vs generalizing ws with
  | nil =>
    cases ws with
    | nil => rfl
    | cons w ws => simp at h
  | cons v vs ih =>
    cases ws with
    | nil => simp at h
    | cons w ws =>
      simp only [List.map_cons, List.cons.injEq] at h
      rw [eq_of_mapClosure_eq h.1 (hkind v List.mem_cons_self),
        ih h.2 fun u hu => hkind u (List.mem_cons_of_mem _ hu)]

/-- Lists that the change makes equal look the same to what does not see the change. -/
theorem map_eq_of_map_mapClosure_eq {α : Type} {vs ws : List Value} {r : Value → α}
    (h : vs.map (mapClosure g) = ws.map (mapClosure g)) (hr : ∀ v, r (v.mapClosure g) = r v) :
    vs.map r = ws.map r := by
  have hmap (l : List Value) : (l.map (mapClosure g)).map r = l.map r := by
    rw [List.map_map]
    exact List.map_congr_left fun v _ => hr v
  rw [← hmap vs, h, hmap ws]

/-- The value without what it has captured, if it is a function. -/
def uncaptured : Value → Value := mapClosure fun c => { c with captured := [] }

end MapClosure

variable (f : Node → Node)

mutual

/-- Changes the bodies of all closures inside the value. -/
def mapBodies : Value → Value
  | fn ⟨params, body, captured, name?, serial⟩ =>
    fn ⟨params, f body, mapBindings captured, name?, serial⟩
  | str s => str s
  | int n => int n
  | bool b => bool b
  | void => void
  | node n => node n
  | unknown => unknown
termination_by structural v => v

/-- Changes the bodies of all closures inside the bound values. -/
def mapBindings : List (String × Value) → List (String × Value)
  | [] => []
  | (name, v) :: rest => (name, mapBodies v) :: mapBindings rest
termination_by structural l => l

end

theorem mapBindings_eq_map (l : List (String × Value)) :
    mapBindings f l = l.map fun e => (e.1, e.2.mapBodies f) := by
  induction l with
  | nil => rfl
  | cons e l ih =>
    rw [List.map_cons, ← ih]
    rfl

@[simp] theorem mapBodies_void : void.mapBodies f = void := rfl

theorem mapBodies_fn (c : Closure Value) :
    (fn c).mapBodies f =
      fn ⟨c.params, f c.body, c.captured.map fun e => (e.1, e.2.mapBodies f), c.name?, c.serial⟩ := by
  rw [← mapBindings_eq_map]
  rfl

/-- The bodies are in the closures. -/
theorem mapBodies_eq_mapClosure : mapBodies f = mapClosure fun c =>
    ⟨c.params, f c.body, c.captured.map fun e => (e.1, e.2.mapBodies f), c.name?, c.serial⟩ := by
  funext v
  cases v with
  | fn c => exact mapBodies_fn f c
  | _ => rfl

@[simp] theorem kind_mapBodies (v : Value) : (v.mapBodies f).kind = v.kind := by
  rw [mapBodies_eq_mapClosure, kind_mapClosure]

@[simp] theorem isUnknown_mapBodies (v : Value) : (v.mapBodies f).isUnknown = v.isUnknown := by
  rw [mapBodies_eq_mapClosure, isUnknown_mapClosure]

@[simp] theorem isErr_mapBodies (v : Value) : (v.mapBodies f).isErr = v.isErr := by
  rw [mapBodies_eq_mapClosure, isErr_mapClosure]

@[simp] theorem render_mapBodies (v : Value) : (v.mapBodies f).render = v.render := by
  rw [mapBodies_eq_mapClosure, render_mapClosure]

theorem mapBodies_of_kind_ne {v : Value} (h : v.kind ≠ .function) : v.mapBodies f = v := by
  rw [mapBodies_eq_mapClosure, mapClosure_of_kind_ne _ h]

variable {f}

/-- Values that are no functions are alike when they are equal. -/
theorem eq_of_mapBodies_eq {v w : Value} (h : v.mapBodies f = w.mapBodies f)
    (hkind : v.kind ≠ .function) : v = w := by
  rw [mapBodies_eq_mapClosure] at h
  exact eq_of_mapClosure_eq h hkind

theorem eq_of_map_mapBodies_eq {vs ws : List Value}
    (h : vs.map (mapBodies f) = ws.map (mapBodies f)) (hkind : ∀ v ∈ vs, v.kind ≠ .function) :
    vs = ws := by
  rw [mapBodies_eq_mapClosure] at h
  exact eq_of_map_mapClosure_eq h hkind

mutual

theorem mapBodies_id : ∀ v : Value, v.mapBodies id = v
  | fn ⟨params, body, captured, name?, serial⟩ => by
    rw [mapBodies, mapBindings_id captured]
    rfl
  | str _ | int _ | bool _ | void | node _ | unknown => rfl

theorem mapBindings_id : ∀ l : List (String × Value), mapBindings id l = l
  | [] => rfl
  | (name, v) :: rest => by rw [mapBindings, mapBodies_id v, mapBindings_id rest]

end

end Value

/-! ## 2. Operators -/

namespace Operator

open Value

theorem kind_getD_ne {o : Option Value} (h : ∀ v, o = some v → v.kind ≠ .function) :
    (o.getD unknown).kind ≠ .function := by
  cases o with
  | none => exact nofun
  | some v => exact h v rfl

theorem kind_ofAttr_ne (n : Node) (index : Int32) {g : String → AttrValue → Option Value}
    (hg : ∀ key a v, g key a = some v → v.kind ≠ .function) :
    (ofAttr n index g).kind ≠ .function := by
  refine kind_getD_ne fun v hv => ?_
  obtain ⟨e, -, he⟩ := Option.bind_eq_some_iff.mp hv
  exact hg e.1 e.2 v he

/-- An operator makes no function. -/
theorem kind_apply_ne (op : Operator) (args : List Value) : (op.apply args).kind ≠ .function := by
  fun_cases Operator.apply op args
  case case1 a b =>
    unfold equal
    split <;> exact nofun
  case case16 n i =>
    refine kind_getD_ne fun v hv => ?_
    obtain ⟨c, -, rfl⟩ := Option.map_eq_some_iff.mp hv
    exact nofun
  all_goals
    first
    | refine kind_ofAttr_ne _ _ fun key a v hv => ?_
      cases a <;> cases hv <;> simp [Value.kind]
    | simp [Value.kind]

@[simp] theorem mapBodies_apply (f : Node → Node) (op : Operator) (args : List Value) :
    (op.apply args).mapBodies f = op.apply args := mapBodies_of_kind_ne f (op.kind_apply_ne args)

/-- Of a function an operator sees the serial number only. -/
theorem apply_map_mapClosure {g : Closure Value → Closure Value} (hg : ∀ c, (g c).serial = c.serial)
    (op : Operator) (args : List Value) : op.apply (args.map (mapClosure g)) = op.apply args := by
  -- Splitting each operand in turn, as far as the operator looks at it, leaves `eq` only.
  cases op
  case eq =>
    rcases args with _ | ⟨a, _ | ⟨b, _ | ⟨c, args⟩⟩⟩ <;> try rfl
    cases a <;> cases b <;> try rfl
    next c d =>
      show Operator.equal (.fn (g c)) (.fn (g d)) = Operator.equal (.fn c) (.fn d)
      simp [equal, isUnknown, same, hg]
  all_goals
    rcases args with _ | ⟨a, args⟩
    · rfl
    cases a <;> try rfl
    all_goals
      rcases args with _ | ⟨b, args⟩
      · rfl
      cases b <;> try rfl
      all_goals
        rcases args with _ | ⟨c, args⟩
        · rfl
        cases c <;> try rfl
        all_goals
          rcases args with _ | ⟨d, _ | ⟨e, args⟩⟩
          · rfl
          · cases d <;> rfl
          · cases d <;> rfl

/-- An operator looks at no body of a function. -/
theorem apply_map_mapBodies (f : Node → Node) (op : Operator) (args : List Value) :
    op.apply (args.map (mapBodies f)) = op.apply args := by
  rw [mapBodies_eq_mapClosure]
  refine apply_map_mapClosure (fun c => ?_) op args
  rfl

/-- An operator looks at nothing that a function has captured. -/
theorem apply_congr {op : Operator} {args args' : List Value}
    (h : args.map uncaptured = args'.map uncaptured) : op.apply args = op.apply args' := by
  have hmap (l : List Value) : op.apply (l.map uncaptured) = op.apply l := by
    refine apply_map_mapClosure (fun c => ?_) op l
    rfl
  rw [← hmap args, h, hmap args']

end Operator

end Arbor
