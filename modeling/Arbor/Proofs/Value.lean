import Arbor.Value

/-!
# Identical values

Two values of a program are the same when their closures carry the same serial numbers. Identical
values also agree in everything that their closures hold, and whether they do can be decided.
-/

namespace Arbor

namespace Value

mutual

/-- Are the two values identical? -/
def beq : Value → Value → Bool
  | str a, str b => a == b
  | int a, int b => a == b
  | bool a, bool b => a == b
  | void, void => true
  | unknown, unknown => true
  | node a, node b => a == b
  | fn f, fn g => beqClosure f g
  | _, _ => false

/-- Are the two closures identical? -/
def beqClosure : Closure Value → Closure Value → Bool
  | ⟨params, body, captured, name?, serial⟩, ⟨params', body', captured', name?', serial'⟩ =>
    params == params' && body == body' && beqEntries captured captured' && name? == name?' &&
      serial == serial'

/-- Are the two lists of bindings identical? -/
def beqEntries : List (String × Value) → List (String × Value) → Bool
  | [], [] => true
  | (x, v) :: rest, (y, w) :: rest' => x == y && beq v w && beqEntries rest rest'
  | _, _ => false

end

mutual

theorem eq_of_beq : ∀ {v w : Value}, beq v w = true → v = w
  | str _, w, h => by cases w <;> simp_all [beq]
  | int _, w, h => by cases w <;> simp_all [beq]
  | bool _, w, h => by cases w <;> simp_all [beq]
  | void, w, h => by cases w <;> simp_all [beq]
  | unknown, w, h => by cases w <;> simp_all [beq]
  | node _, w, h => by cases w <;> simp_all [beq]
  | fn f, fn g, h => by
    rw [beq] at h
    rw [eq_of_beqClosure h]

theorem eq_of_beqClosure : ∀ {f g : Closure Value}, beqClosure f g = true → f = g
  | ⟨_, _, _, _, _⟩, ⟨_, _, _, _, _⟩, h => by
    simp only [beqClosure, Bool.and_eq_true, beq_iff_eq] at h
    obtain ⟨⟨⟨⟨hparams, hbody⟩, hcaptured⟩, hname⟩, hserial⟩ := h
    rw [hparams, hbody, eq_of_beqEntries hcaptured, hname, hserial]

theorem eq_of_beqEntries : ∀ {l r : List (String × Value)}, beqEntries l r = true → l = r
  | [], [], _ => rfl
  | [], _ :: _, h => by simp [beqEntries] at h
  | _ :: _, [], h => by simp [beqEntries] at h
  | (_, _) :: _, (_, _) :: _, h => by
    simp only [beqEntries, Bool.and_eq_true, beq_iff_eq] at h
    obtain ⟨⟨hx, hv⟩, hrest⟩ := h
    rw [hx, eq_of_beq hv, eq_of_beqEntries hrest]

end

mutual

theorem beq_self : ∀ v : Value, beq v v = true
  | str _ | int _ | bool _ | void | unknown | node _ => by simp [beq]
  | fn f => beqClosure_self f

theorem beqClosure_self : ∀ f : Closure Value, beqClosure f f = true
  | ⟨_, _, captured, _, _⟩ => by simp [beqClosure, beqEntries_self captured]

theorem beqEntries_self : ∀ l : List (String × Value), beqEntries l l = true
  | [] => rfl
  | (_, v) :: rest => by simp [beqEntries, beq_self v, beqEntries_self rest]

end

end Value

instance : DecidableEq (Closure Value) := fun f g =>
  if h : Value.beqClosure f g = true then isTrue (Value.eq_of_beqClosure h)
  else isFalse fun heq => h (heq ▸ Value.beqClosure_self f)

end Arbor
