import Arbor.Proofs.Compilation.Definitions
import Arbor.Proofs.Compilation.Simulation
import Arbor.Proofs.Form

/-!
# Concordant programs behind their definitions

Once the definitions of a concordant program are evaluated, the program is sound: the functions of its
bytecode are those of the closures (`Concordant.sound`). From there on the machine does what evaluation
does with the other statements (`Concordant.settles_main`).
-/

namespace Arbor

open Compiler Eval

variable {σ : Type} [Host σ]

/-- In the function, the name is kept: the function calls it, or is `main` while any function does. -/
def KeptIn (root : Node) (function name : String) : Prop :=
  name ∈ (definitions root).map Prod.fst ∧ (function = mainName ∧ root.Calls name ∨
    ∃ d ∈ definitions root, d.1 = function ∧ d.2.Calls name)

/-- The world of a program, once its definitions have made these closures. -/
def worldOf (permissions : List String) (root : Node) (p : BytecodeProgram)
    (closures : List (String × Closure Value)) : World :=
  ⟨p, permissions, closures, KeptIn root⟩

/-- The seat of the function of the top-level statements. -/
def mainSeat (main : BytecodeFunction) : Machine.Seat := ⟨0, main, [], []⟩

theorem calls_of_definition {root : Node} {d : String × Node} (hd : d ∈ definitions root)
    {name : String} (h : d.2.Calls name) : root.Calls name := by
  obtain ⟨hlookup, m, hm, hcall⟩ := h
  exact ⟨hlookup, m, mem_walk_of_definition hd hm, hcall⟩

namespace Concordant

variable {permissions : List String} {root : Node} {p : BytecodeProgram}
  (hp : Concordant permissions root p)
include hp

/-! ## 1. The program is sound -/

omit hp in
theorem params_of_made {d : String × Node} {f : Closure Value} (hmade : Made d f) :
    paramsOf d = f.params := by
  obtain ⟨text, htext, hparams⟩ := hmade.params
  unfold paramsOf
  rw [htext, hparams]
  rfl

/-- Nothing is bound to the names that are kept in a definition. -/
theorem not_binds_of_kept {d : String × Node} (hd : d ∈ definitions root) (hmain : d.1 ≠ mainName)
    {name : String} (hkept : KeptIn root d.1 name) :
    d.2.Calls name ∧ name ∉ paramsOf d ∧ ∀ m ∈ d.2.walk, name ∉ m.binds := by
  obtain ⟨hname, hfunction⟩ := hkept
  obtain ⟨d', hd', hsame, hcalls⟩ := hfunction.resolve_left fun h => hmain h.1
  obtain rfl : d' = d := List.inj_on_of_nodup_map hp.distinct hd' hd hsame
  exact ⟨hcalls, hp.unshadowed d' hd' name hname hcalls⟩

theorem seated {closures : List (String × Closure Value)} {i : Nat} {f : BytecodeFunction}
    (hf : p.functions[i]? = some f) : Seated (worldOf permissions root p closures) i f := by
  obtain ⟨hsize, hslots⟩ := hp.small.2 f (Array.mem_def.mp (Array.mem_of_getElem? hf))
  exact ⟨hf, hsize, hslots⟩

section Assembled

variable {main : BytecodeFunction} {fs : List BytecodeFunction} {before : List Value}
  {codes : List (List Instruction)} {s : Scope} (ha : Assembled root p main fs before codes s)
include ha

/-- The bytecode function of a definition is that of the closure which evaluation makes. -/
theorem realizes {closures : List (String × Closure Value)}
    (hnames : closures.map Prod.fst = (definitions root).map Prod.fst) {d : String × Node}
    (hd : d ∈ definitions root) {f : Closure Value} (hmade : Made d f) :
    ∃ index callee constants codes s,
      Realizes (worldOf permissions root p closures) d.1 f index callee constants codes s := by
  obtain ⟨callee, hcallee, body, constants, codes', s', hdefines⟩ := ha.function d hd
  obtain rfl : f.body = body := by simpa using hmade.body.symm.trans hdefines.children
  have hfunctions : World.functions (worldOf permissions root p closures) =
      (definitions root).map Prod.fst := hnames
  have hbuilt := hdefines.built
  rw [show Text.splitNames ((d.2.text? "params").getD "") = f.params from params_of_made hmade]
    at hbuilt
  obtain ⟨i, hi⟩ := List.mem_iff_getElem?.mp hcallee
  have hindex : p.functions[i + 1]? = some callee := by
    rw [ha.all]
    simpa using hi
  refine ⟨i + 1, callee, constants, codes', s', ?_, hdefines.name, hp.seated hindex, ?_, hbuilt.code,
    hbuilt.params, hbuilt.locals, hdefines.constants⟩
  · rw [← hdefines.name]
    exact functionIndex?_of_nodup (ha.nodup hp.distinct) hindex
  · exact hfunctions ▸ hbuilt.compiles

omit [Host σ] in
/-- Once its definitions are evaluated, the program is sound. -/
theorem sound {closures : List (String × Closure Value)} {t : Activation σ}
    (ht : Defined (definitions root) closures t) :
    World.Sound (worldOf permissions root p closures) := by
  have hfunctions : World.functions (worldOf permissions root p closures) =
      (definitions root).map Prod.fst := ht.names
  have hblock {name : String} {f : Closure Value} {fn : Node} (hd : (name, fn) ∈ definitions root)
      (hmade : Made (name, fn) f) : f.body.isBlock = true := by
    obtain ⟨callee, -, body, constants, codes', s', hdefines⟩ := ha.function _ hd
    obtain rfl : f.body = body := by simpa using hmade.body.symm.trans hdefines.children
    exact hdefines.block
  have hbody {name : String} {f : Closure Value} {fn : Node} (hmade : Made (name, fn) f) :
      f.body ∈ fn.children := by
    rw [hmade.body]
    exact List.mem_cons_self
  refine ⟨hfunctions ▸ hp.distinct, hp.small.1, ?_, ?_, ht.captured, ?_, ?_, ?_, ?_⟩ <;>
    intro name f hf <;> obtain ⟨fn, hd, hmade⟩ := ht.made name f hf
  · exact hp.realizes ha ht.names hd hmade
  · exact hmade.named
  · intro x hkept
    obtain ⟨hcalls, hparam, -⟩ := hp.not_binds_of_kept hd (ha.reserved _ hd) hkept
    refine ⟨⟨hkept.1, .inl ⟨rfl, calls_of_definition hd hcalls⟩⟩, ?_⟩
    rw [← params_of_made hmade]
    exact hparam
  · exact Node.form?_of_isBlock (hblock hd hmade)
  · intro m hm
    have hwalk : m ∈ fn.walk := Node.mem_walk_of_mem_children (hbody hmade) hm
    refine ⟨fun x hx hkept => ?_, fun hcall target htarget hlookup hmem => ?_, ?_⟩
    · exact (hp.not_binds_of_kept hd (ha.reserved _ hd) hkept).2.2 m hwalk hx
    · exact ⟨hfunctions ▸ hmem, .inr ⟨_, hd, rfl, hlookup, m, hwalk, hcall, htarget⟩⟩
    · exact hp.calls m (mem_walk_of_definition hd hwalk)
  · obtain ⟨bound, hscoped, hbound⟩ := hp.inScope _ hd f.body (hbody hmade)
    rw [params_of_made hmade] at hbound
    exact ⟨bound, hscoped, hbound⟩

/-! ## 2. The top-level statements -/

omit hp in
theorem function_main : p.functions[0]? = some main := by
  rw [ha.all]
  rfl

theorem start_main : Machine.start p mainName [] =
    .ok ((mainSeat main).machine 0 (List.replicate main.slotCount .void) []) := by
  have hmain := function_main ha
  have hindex : p.functionIndex? mainName = some 0 :=
    ha.mainName ▸ functionIndex?_of_nodup (ha.nodup hp.distinct) hmain
  have hparams : main.params = [] := ha.statements.params
  unfold Machine.start
  rw [hindex, Option.bind_some, hmain]
  dsimp only [Option.map_some]
  rw [hparams]
  rfl

theorem definable {n : Node} (hn : ∃ d, definition? n = some d ∧ d ∈ definitions root) :
    ∃ d, definition? n = some d ∧ Definable d := by
  obtain ⟨d, hd, hmem⟩ := hn
  obtain ⟨text, htext⟩ := Option.isSome_iff_exists.mp (hp.params d hmem)
  obtain ⟨_, _, body, _, _, _, hdefines⟩ := ha.function d hmem
  exact ⟨d, hd, text, body, htext, hdefines.children, hdefines.block⟩

omit hp in
/-- A slot of `main` was made for a name that a statement binds: `main` has no parameters. -/
theorem slot_main {x : String} (hx : x ∈ main.locals) :
    ∃ n ∈ root.children, definition? n = none ∧ ∃ m ∈ n.walk, x ∈ m.binds := by
  rw [ha.statements.locals] at hx
  rcases ha.statements.compiles.mem_locals hx with hx | ⟨n, hn, hbinds⟩
  · cases hx
  · obtain ⟨hchild, hnone⟩ := mem_statements hn
    exact ⟨n, hchild, hnone, hbinds⟩

omit [Host σ] hp in
/-- The machine starts with no variable in scope, and the definitions have bound the functions. -/
theorem aligned_main {closures : List (String × Closure Value)} {t : Activation σ}
    (ht : Defined (definitions root) closures t) (hstrict : t.session.strict = false)
    (hreadOnly : t.session.readOnly = []) (hpermissions : t.session.permissions = permissions)
    (hdepth : t.session.depth ≤ t.session.maxDepth) {fuel : Nat}
    (hfuel : t.session.maxDepth < fuel + t.session.depth) {bound : List String}
    (hbound : ∀ x ∈ bound, ∀ n ∈ root.children, definition? n = none → ∀ m ∈ n.walk, x ∉ m.binds) :
    Aligned (worldOf permissions root p closures) fuel (mainSeat main) bound []
      (List.replicate main.slotCount .void) t := by
  have henv : t.env = t.session.globals := by
    unfold Activation.env
    rw [ht.frames]
  refine ⟨List.length_replicate, fun x hx hvariable => ?_, fun name f hf _ => ?_,
    fun name f hf _ => ht.bound name f hf, fun _ => ha.mainName, hstrict, hreadOnly, hpermissions,
    hdepth, hfuel⟩
  · obtain ⟨n, hn, hnone, m, hm, hbinds⟩ := slot_main ha hvariable
    exact absurd hbinds (hbound x hx n hn hnone m hm)
  · rw [henv]
    exact ht.bound name f hf

/-- Behind the definitions, the machine does what evaluation does with the other statements. -/
theorem settles_main {closures : List (String × Closure Value)} {t : Activation σ}
    (ht : Defined (definitions root) closures t) (hstrict : t.session.strict = false)
    (hreadOnly : t.session.readOnly = []) (hpermissions : t.session.permissions = permissions)
    (hdepth : t.session.depth ≤ t.session.maxDepth) (fuel : Nat)
    (hfuel : t.session.maxDepth < fuel + t.session.depth) {rest : List Node}
    (hrest : root.children.filter (fun n => (definition? n).isNone) = rest)
    {Q : MachineEnd σ → Prop} (hQ : AcceptsLimits Q)
    (ho : Otherwise p Q (mainSeat main) (sequence (eval fuel) .void rest t))
    (hvalue : ∀ v u, sequence (eval fuel) .void rest t = (.value v, u) → ∀ u' : Activation σ,
      u.session.Agree u'.session → Q (.ok v, u')) :
    Settles p Q ((mainSeat main).machine 0 (List.replicate main.slotCount .void) []) t.session := by
  subst hrest
  have hcode := ha.statements.compiles
  rw [← ht.names] at hcode
  have hseated : Seated (worldOf permissions root p closures) 0 main := hp.seated (function_main ha)
  obtain ⟨hbody, hret⟩ := placed_body ha.statements.code
  have hsite : Site (worldOf permissions root p closures) (mainSeat main) 0 (sequenceCode 0 codes) s :=
    ⟨hseated, hbody, ha.statements.locals ▸ List.prefix_refl _, ha.constants ▸ List.prefix_refl _⟩
  have hplain : ∀ c ∈ root.children.filter (fun n => (definition? n).isNone),
      c.Plain (World.functions (worldOf permissions root p closures)) (KeptIn root main.name)
        permissions := by
    intro c hc m hm
    obtain ⟨hchild, hnone⟩ := mem_statements hc
    have hwalk : m ∈ root.walk := Node.mem_walk_of_mem_children hchild hm
    rw [ha.mainName, show World.functions (worldOf permissions root p closures) = _ from ht.names]
    refine ⟨fun x hx hkept => ?_, fun hcall target htarget hlookup hmem => ?_, hp.calls m hwalk⟩
    · obtain ⟨hname, ⟨-, hcalls⟩ | ⟨d, hd, -, hcalls⟩⟩ := hkept
      · exact hp.mainUnshadowed x hname hcalls c hchild hnone m hm hx
      · exact hp.mainUnshadowed x hname (calls_of_definition hd hcalls) c hchild hnone m hm hx
    · exact ⟨hmem, .inl ⟨rfl, hlookup, m, hwalk, hcall, htarget⟩⟩
  obtain ⟨bound, hscoped, hbound⟩ := hp.mainInScope
  have hcorrect : Correct _ fuel (eval fuel : Node → Eval σ Value) :=
    correct_eval (hp.sound ha ht) fuel
  have hfollows := follows_sequence (c := mainSeat main) hcorrect
    (fun n => invariant_restores.eval fuel n) hcode hscoped hplain hsite
  have haligned : Aligned (worldOf permissions root p closures) fuel (mainSeat main) bound [] _ t :=
    aligned_main ha ht hstrict hreadOnly hpermissions hdepth hfuel hbound
  refine hfollows Q [] _ t hQ haligned ho fun v u slots' hv _ => ?_
  exact Settles.ret hseated.function hret (hvalue v u hv)

/-- The machine does what evaluation does with the whole program: definitions leave no code. -/
theorem settles {t : Activation σ} (hframes : t.frames = []) (hglobals : t.session.globals = ∅)
    (hstrict : t.session.strict = false) (hreadOnly : t.session.readOnly = [])
    (hpermissions : t.session.permissions = permissions)
    (hdepth : t.session.depth ≤ t.session.maxDepth) (fuel : Nat)
    (hfuel : t.session.maxDepth < fuel + t.session.depth) {Q : MachineEnd σ → Prop}
    (hQ : AcceptsLimits Q)
    (ho : Otherwise p Q (mainSeat main) (sequence (eval fuel) .void root.children t))
    (hvalue : ∀ v u, sequence (eval fuel) .void root.children t = (.value v, u) →
      ∀ u' : Activation σ, u.session.Agree u'.session → Q (.ok v, u')) :
    Settles p Q ((mainSeat main).machine 0 (List.replicate main.slotCount .void) []) t.session := by
  obtain ⟨defs, rest, hchildren, hds, hrest, hdefs⟩ := split_definitions hp.definitionsFirst
  have hdefined : Defined [] [] t := by
    refine ⟨hframes, rfl, by simp, fun e he => ?_, by simp, by simp⟩
    rw [hglobals] at he
    cases he
  have hdistinct : (([] ++ defs.filterMap definition?).map Prod.fst).Nodup := by
    rw [List.nil_append, hds]
    exact hp.distinct
  obtain ⟨limit, id, u, hlimit⟩ | ⟨closures, u, hu, hsame, hagree, hrestores⟩ :=
    sequence_definitions fuel rest hdefined (fun n hn => hp.definable ha (hdefs n hn)) hdistinct
      hstrict hreadOnly hdepth hfuel
  -- the session is deep enough, or evaluation would have ended at the limit
  · rw [hchildren, hlimit] at ho
    exact absurd rfl (ho.shallow limit id)
  · rw [hchildren, hsame] at ho hvalue
    rw [List.nil_append, hds] at hu
    refine Settles.of_agree hagree ?_
    exact hp.settles_main ha hu (hrestores.strict.trans hstrict) (hrestores.readOnly.trans hreadOnly)
      (hrestores.permissions.trans hpermissions)
      (by rw [hrestores.depth, hrestores.maxDepth]; exact hdepth) fuel
      (by rw [hrestores.depth, hrestores.maxDepth]; exact hfuel) hrest hQ ho hvalue

end Assembled

end Concordant

end Arbor
