import Arbor.Proofs.Compilation.Concordance

/-!
# Faithful programs are concordant

In a faithful program no name of a function is bound to anything else, parameters do not repeat, and the
permissions of all calls are held. So its names mean the same to evaluation and to its bytecode
(`Faithful.concordant`).
-/

namespace Arbor

open Compiler

namespace Faithful

variable {permissions : List String} {root : Node} {p : BytecodeProgram}
  (hp : Faithful permissions root p)
include hp

omit hp in
theorem scoped_of_statements {functions : List String} {defs rest : List Node} {bound : List String}
    (h : Node.ScopedStatements bound (defs ++ rest))
    (hdefs : ∀ n ∈ defs, ∃ d, definition? n = some d ∧ d.1 ∈ functions)
    (hbound : ∀ x ∈ bound, x ∈ functions) :
    (∀ n ∈ defs, ∃ bound', n.Scoped bound' ∧ ∀ x ∈ bound', x ∈ functions) ∧
      ∃ bound', Node.ScopedStatements bound' rest ∧ ∀ x ∈ bound', x ∈ functions := by
  induction defs generalizing bound with
  | nil => exact ⟨by simp, bound, h, hbound⟩
  | cons n defs ih =>
    rw [List.cons_append, Node.scopedStatements_cons] at h
    obtain ⟨⟨name, fn⟩, hdefinition, hname⟩ := hdefs n List.mem_cons_self
    obtain ⟨hform, -, -, hident⟩ := definition?_eq_some hdefinition
    have hbound' : ∀ x ∈ n.binds ++ bound, x ∈ functions := by
      rw [Node.binds_bind hform hident]
      intro x hx
      rcases List.mem_cons.mp hx with rfl | hx
      · exact hname
      · exact hbound x hx
    obtain ⟨hall, hrest⟩ := ih h.2 (fun m hm => hdefs m (List.mem_cons_of_mem n hm)) hbound'
    refine ⟨fun m hm => ?_, hrest⟩
    rcases List.mem_cons.mp hm with rfl | hm
    · exact ⟨bound, h.1, hbound⟩
    · exact hall m hm

/-- What is in scope in the definitions and behind them are functions. -/
theorem scoped_parts (hprogram : root.isProgram = true) :
    (∀ d ∈ definitions root, ∃ n bound, definition? n = some d ∧ n.Scoped bound ∧
      ∀ x ∈ bound, x ∈ (definitions root).map Prod.fst) ∧
    ∃ bound, Node.ScopedStatements bound (root.children.filter fun n => (definition? n).isNone) ∧
      ∀ x ∈ bound, x ∈ (definitions root).map Prod.fst := by
  obtain ⟨defs, rest, hchildren, hds, hrest, hdefs⟩ := Compiler.split_definitions hp.definitionsFirst
  have hscoped := hp.inScope.statements (.inl (Node.form?_of_isProgram hprogram))
  rw [hchildren] at hscoped
  obtain ⟨hall, hbound⟩ := scoped_of_statements hscoped
    (fun n hn => (hdefs n hn).imp fun d hd => ⟨hd.1, List.mem_map_of_mem hd.2⟩) (by simp)
  refine ⟨fun d hd => ?_, hrest ▸ hbound⟩
  rw [← hds] at hd
  obtain ⟨n, hn, hdefinition⟩ := List.mem_filterMap.mp hd
  obtain ⟨bound, hn', hbound'⟩ := hall n hn
  exact ⟨n, bound, hdefinition, hn', hbound'⟩

theorem scoped_body (hprogram : root.isProgram = true) {d : String × Node}
    (hd : d ∈ definitions root) {body : Node} (hbody : body ∈ d.2.children) :
    ∃ bound, body.Scoped (paramsOf d ++ bound) ∧
      ∀ x ∈ bound, x ∈ (definitions root).map Prod.fst := by
  obtain ⟨hscoped, -⟩ := hp.scoped_parts hprogram
  obtain ⟨n, bound, hdefinition, hn, hbound⟩ := hscoped d hd
  obtain ⟨hform, hchildren, hfn, -⟩ := definition?_eq_some hdefinition
  have hchild : d.2.Scoped bound :=
    hn.children hform (by decide) d.2 (by rw [hchildren]; exact List.mem_cons_self)
  exact ⟨bound, hchild.function (Node.form?_of_isFn hfn) body hbody, hbound⟩

theorem params_free {d : String × Node} (hd : d ∈ definitions root) :
    (paramsOf d).Nodup ∧ ∀ x ∈ paramsOf d, x ∉ (definitions root).map Prod.fst := by
  obtain ⟨text, htext, hparams⟩ := hp.params d hd
  unfold paramsOf
  rw [htext]
  exact hparams

/-- The names of a faithful program mean the same to evaluation and to its bytecode. -/
theorem concordant (hprogram : root.isProgram = true) : Concordant permissions root p where
  compiled := hp.compiled
  small := hp.small
  definitionsFirst := hp.definitionsFirst
  distinct := hp.distinct
  params := by
    intro d hd
    obtain ⟨text, htext, -⟩ := hp.params d hd
    rw [htext]
    rfl
  unshadowed := fun d hd name hname _ =>
    ⟨fun hparam => (hp.params_free hd).2 name hparam hname,
      fun m hm hbinds => hp.bindings d hd m hm name hbinds hname⟩
  mainUnshadowed := fun name hname _ n hn hnone m hm hbinds =>
    hp.mainBindings n hn hnone m hm name hbinds hname
  inScope := by
    intro d hd body hbody
    obtain ⟨bound, hscoped, hbound⟩ := hp.scoped_body hprogram hd hbody
    refine ⟨_, hscoped, fun x hx hvariable => ?_⟩
    have hfunction : x ∉ (definitions root).map Prod.fst := by
      rcases hvariable with hparam | ⟨m, hm, hbinds⟩
      · exact (hp.params_free hd).2 x hparam
      · exact hp.bindings d hd m (Node.mem_walk_of_mem_children hbody hm) x hbinds
    -- so the name in scope is a parameter, and parameters do not repeat
    have hparam : x ∈ paramsOf d :=
      (List.mem_append.mp hx).resolve_right fun hmem => hfunction (hbound x hmem)
    exact List.count_eq_one_of_mem (hp.params_free hd).1 hparam
  mainInScope := by
    obtain ⟨-, bound, hscoped, hbound⟩ := hp.scoped_parts hprogram
    exact ⟨bound, hscoped, fun x hx n hn hnone m hm hbinds =>
      hp.mainBindings n hn hnone m hm x hbinds (hbound x hx)⟩
  calls := fun m hm hform target htarget c hlookup =>
    .inl (hp.calls m hm hform target htarget c hlookup)

end Faithful

end Arbor
