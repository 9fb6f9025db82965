import Arbor.Proofs.Bytecode.Rules

/-!
# Machines that do not go wrong

A machine is `Safe` for a number of steps when it fails in none of them but at a limit of the machine or
at a condition that is no truth value, whatever its capability calls are answered with. No run of a safe
machine fails in another way, whoever runs it (`Machine.exec_safe`).
-/

namespace Arbor

/-- The codes of the failures that bytecode of any compiled program can come to. -/
def runtimeCodes : List String := ["AIVM002", "AIVM004", "AIVM007"]

theorem BytecodeError.IsLimit.code_mem {e : BytecodeError} (h : e.IsLimit) :
    e.code ∈ runtimeCodes := by
  rcases h with h | h <;> rw [h] <;> decide

namespace Machine

/-- What comes of a step is safe, given what it is for a machine to be safe. -/
def Transition.Safe (SafeMachine : Machine → Prop) : Transition → Prop
  | next m => SafeMachine m
  | finished _ => True
  | failed e => e.code ∈ runtimeCodes
  | calls _ _ m function => ∀ v,
    match m.push function v with
    | .ok m => SafeMachine m
    | .error e => e.code ∈ runtimeCodes

/-- For so many steps the machine does not go wrong, whatever its calls are answered with. -/
def Safe (p : BytecodeProgram) : (steps : Nat) → Machine → Prop
  | 0, _ => True
  | steps + 1, m => (m.step p).Safe (Safe p steps)

theorem Transition.Safe.mono {S S' : Machine → Prop} (h : ∀ m, S m → S' m) {next : Transition}
    (hnext : next.Safe S) : next.Safe S' := by
  cases next with
  | next m => exact h m hnext
  | finished v => trivial
  | failed e => exact hnext
  | calls target args m function =>
    intro v
    have hv := hnext v
    split at hv
    · exact h _ hv
    · exact hv

theorem Safe.of_succ {p : BytecodeProgram} {steps : Nat} {m : Machine}
    (h : m.Safe p (steps + 1)) : m.Safe p steps := by
  induction steps generalizing m with
  | zero => trivial
  | succ steps ih => exact Transition.Safe.mono (fun m => ih) h

/-- A machine is safe for one step more than what comes of its next step. -/
theorem Safe.backwards (p : BytecodeProgram) (steps : Nat) :
    Backwards p (Safe p (steps + 1)) (Transition.Safe (Safe p steps)) where
  of_step _ h := h
  next _ h := Safe.of_succ h

theorem Safe.limit (p : BytecodeProgram) (steps : Nat) (e : BytecodeError) (he : e.IsLimit) :
    (Transition.failed e).Safe (Safe p steps) := he.code_mem

/-- However a safe machine is run, it only fails as it may. -/
theorem exec_safe {τ ε : Type} (runner : Runner τ ε) {p : BytecodeProgram} {fuel : Nat} {m : Machine}
    (h : m.Safe p fuel) {t u : τ} {e : BytecodeError}
    (hrun : exec runner p fuel m t = (.error (.failed e), u)) : e.code ∈ runtimeCodes := by
  induction fuel generalizing m t with
  | zero => cases hrun
  | succ fuel ih =>
    unfold Safe at h
    unfold exec at hrun
    dsimp only at hrun
    generalize observeNext runner p m t = t' at hrun
    cases hstep : m.step p with
    | next m' =>
      rw [hstep] at h hrun
      exact ih h hrun
    | finished v =>
      rw [hstep] at hrun
      cases hrun
    | failed e' =>
      rw [hstep] at h hrun
      cases hrun
      exact h
    | calls target args m' function =>
      rw [hstep] at h hrun
      dsimp only at hrun
      -- an error of the runner ends the run, any value goes on the stack
      split at hrun
      · cases hrun
      · next v _ _ =>
        have hv := h v
        split at hrun
        · next heq =>
          rw [heq] at hv
          exact ih hv hrun
        · next heq =>
          rw [heq] at hv
          cases hrun
          exact hv

end Machine

end Arbor
