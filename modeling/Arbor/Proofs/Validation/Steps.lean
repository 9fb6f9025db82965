import Arbor.Proofs.Validation.Keeping

/-!
# Steps of a typed program

Given that the nodes below come to what their derivations say, and that all other code keeps out of the
frames that it did not open, each form does what its rule says (`Flow.does_form`), and so does entering
a node.
-/

namespace Arbor.Flow

open Eval

variable {σ : Type} {root : Node} {permissions : List String} [Host σ]
  {self : Bool → Node → Eval (Watched σ) Value}
  (hown : OwnSound root permissions self) (hother : OtherSound root permissions self)
  {V : View} {inLine : Bool} {Γ Γ' : TypeEnv} {t : Activation (Watched σ)}

/-! ## 1. Sequences -/

omit [Host σ] in
include hown in
theorem does_operands {ns : List Node} {ks : List ValueKind}
    (htyped : TypedAll root permissions V false Γ ns ks Γ') (ht : Ready root permissions V Γ t) :
    Does root permissions t (operands (self true) ns) fun _ u => Ready root permissions V Γ' u := by
  induction ns generalizing Γ t ks with
  | nil =>
    cases htyped
    exact .pure ht.sound ht
  | cons n ns ih =>
    cases htyped with
    | cons hn hns =>
      refine .bind (hown hn ht) fun v u _ hu => ?_
      refine .bind (ih hns (hu.ready (.inl rfl))) fun vs w _ hw => ?_
      exact .pure hw.sound hw

omit [Host σ] in
include hown in
/-- What is behind an error node off the line only changes settled names. -/
theorem does_sequence {ns : List Node} {ks : List ValueKind} {last : Value} (before : Bool)
    (k : ValueKind) (hlast : before = false → last.Fits k)
    (htyped : TypedAll root permissions V inLine Γ ns ks Γ') (ht : Ready root permissions V Γ t) :
    Does root permissions t (sequence (self true) last ns) fun v u =>
      (Node.lastPassesOn before ns = false → v.Fits (ks.getLast?.getD k)) ∧
        (inLine = false ∨ v.isErr = false → Ready root permissions V Γ' u) := by
  induction ns generalizing Γ t ks last before k with
  | nil =>
    cases htyped
    exact .pure ht.sound ⟨hlast, fun _ => ht⟩
  | cons n ns ih =>
    cases htyped with
    | @cons _ _ _ Γ₁ _ _ _ k₁ ks hn hns =>
      refine .bind (hown hn ht) fun v u hkept hu => ?_
      have hks : (k₁ :: ks).getLast?.getD k = ks.getLast?.getD k₁ := by
        rw [List.getLast?_cons, Option.getD_some]
      rw [hks]
      cases herr : v.isErr with
      | true =>
        -- the rest is left out: in the line nothing of the scope follows, and off it the rest drifts
        refine .pure hkept.sound ⟨fun _ => .of_isErr herr _, fun hready => ?_⟩
        have hoff : inLine = false := hready.resolve_right (by rw [herr]; decide)
        exact (hu.ready (.inl hoff)).drift (hns.drift hoff)
      | false => exact ih n.passesOn k₁ hu.fits hns (hu.ready (.inr herr))

/-! ## 2. Functions -/

omit [Host σ] in
theorem does_makeClosure {n : Node} {k : ValueKind} (hform : n.form? = some .fn)
    (htyped : TypedForm root permissions V inLine Γ n k Γ') {name? : Option String}
    (hlearns : ∀ x, name? = some x → V.Learns x) (ht : Ready root permissions V Γ t) :
    Does root permissions t (makeClosure n name?) (Yields root permissions V inLine Γ' n k) := by
  obtain ⟨rfl, rfl, body, k', Γ'', hchildren, hbody⟩ := htyped.function hform
  have hunknown : Yields root permissions V inLine Γ' n .function .unknown t :=
    ⟨fun _ => .unknown _, fun _ _ hf => (by cases hf), fun _ => ht⟩
  unfold makeClosure
  rw [hchildren]
  split
  · next params body' hparams heq =>
    cases heq
    split
    · refine .bind (.currentEnv ht.sound) fun env u _ hu => ?_
      obtain ⟨rfl, rfl⟩ := hu
      -- the closure captures bindings that match the scope, so it is a proper one
      refine .bind (.aside (Aside.of_eq rfl rfl rfl) ht) fun serial w _ hw => ?_
      refine .pure hw.sound ⟨fun _ => .of_kind rfl, fun _ f hf => ?_, fun _ => hw⟩
      cases hf
      exact .mk ht.matched hparams hbody hlearns
    · exact .pure ht.sound hunknown
  · exact .pure ht.sound hunknown

omit [Host σ] in
/-- Knowing that a value is not unknown changes nothing. -/
theorem does_known {Q : Value → Activation (Watched σ) → Prop} {v : Value} (n : Node)
    (ht : Sound root permissions t) (hQ : Q v t) : Does root permissions t (known n v) Q := by
  have hends : known n v t = (.value v, t) ∨
      known n v t = (.halted (.fault (.strictUnknown n.id)), t) := by
    unfold known
    split
    · exact .inr rfl
    · exact .inl rfl
  unfold Does
  obtain hvalue | hhalted := hends
  · rw [hvalue]
    refine ⟨.refl ht, ?_⟩
    rintro _ ⟨⟩
    exact hQ
  · rw [hhalted]
    exact ⟨.refl ht, by rintro _ ⟨⟩⟩

omit [Host σ] in
/-- What a node of the program comes to is noted, and fits. -/
theorem does_watching {n : Node} {k : ValueKind} {step : Eval (Watched σ) Value}
    (hkind : kindOf? root permissions n = some k)
    (hstep : Does root permissions t step (Yields root permissions V inLine Γ n k)) :
    Does root permissions t (watching n step) (Yields root permissions V inLine Γ n k) := by
  refine .bind hstep fun v u hkept hv => ?_
  have hsound : Sound root permissions
      { u with session := { u.session with host := u.session.host.see n v } } := by
    refine ⟨List.forall_mem_cons.mpr ⟨⟨k, hkind, hv.fits⟩, hkept.sound.seen⟩, fun f hf => ?_,
      hkept.sound.globals⟩
    obtain hf | hf := List.mem_append.mp hf
    · unfold Watched.madeBy at hf
      split at hf
      · split at hf
        · next hfn =>
          obtain rfl := List.mem_singleton.mp hf
          exact hv.proper hfn _ rfl
        · cases hf
      · cases hf
    · exact hkept.sound.made f hf
  refine ⟨⟨hsound, rfl, Iff.rfl, fun _ => rfl⟩, ?_⟩
  rintro _ ⟨⟩
  exact ⟨hv.fits, hv.proper, fun hready => (hv.ready hready).of_eq hsound rfl rfl⟩

include hown in
theorem does_watchBound {child : Node} {k : ValueKind} {x : String}
    (htyped : Typed root permissions V false Γ child k Γ')
    (hlearns : child.isFn = true → V.Learns x) (ht : Ready root permissions V Γ t) :
    Does root permissions t (watchBound self true child x)
      (Yields root permissions V false Γ' child k) := by
  unfold watchBound bound
  cases hfn : child.isFn with
  | false => exact hown htyped ht
  | true =>
    cases htyped with
    | mk hkind hform =>
      refine does_watching hkind (.bind (.aside (Aside.calm.noteStep child _) ht) fun _ u _ hu => ?_)
      have hname : ∀ y, some x = some y → V.Learns y := fun y hy => Option.some.inj hy ▸ hlearns hfn
      have hmade := does_makeClosure (Node.form?_of_isFn hfn) hform hname hu
      exact .bind hmade fun v w hkept hv => does_known child hkept.sound hv

include hown hother in
/-- A call of a closure changes no bindings of the caller. The program's own closures are proper. -/
theorem aside_watchClosure (f : Closure Value) (args : List Value) :
    Keeps (Aside root permissions) (watchClosure self f args) := by
  intro t hsound
  unfold watchClosure
  -- only a closure that the program made has a derivation for its body
  by_cases hmade : f ∈ t.session.host.notes.made
  · rw [decide_eq_true hmade]
    have hbody (hfit : f.params.length = args.length) : KeepsFrom (Inside root permissions)
        (t.enterCall (f.name?.getD "<fn>") (calleeEnv t.session.globals f args))
        (self true f.body) := by
      intro hentered _
      obtain ⟨V, Γ, k, Γ', htyped, hmatched⟩ := (hsound.made f hmade).callee hsound.globals hfit
      exact (hown htyped ⟨hentered, hmatched, fun hnil => by cases hnil⟩).1
    exact Aside.calm.callClosure (fun hfit => Inside.called (hbody hfit)) hsound
  · rw [decide_eq_false hmade]
    exact Aside.calm.callClosure (fun _ => Inside.called (hother f.body _)) hsound

/-! ## 3. Capabilities and modules -/

include hother in
theorem aside_callCapability (steps : Nat) (target : String) (args : List Value) :
    Keeps (Aside root permissions) (callCapability (self false) steps steps target args) :=
  Aside.calm.callCapability (fun n _ => KeepsFrom.runNested (Inside.isolated (hother n _)))
    steps steps target args

include hother in
theorem aside_importModule (path importId : String) :
    Keeps (Aside root permissions) (importModule (self false) path importId) :=
  Aside.calm.importModule (fun _ program _ _ =>
    KeepsFrom.runModule (Inside.loaded (hother program _) _)) importId

theorem namespace?_qualified (ns name : String) :
    (Text.namespace? (ns ++ "." ++ name)).isSome = true := by
  unfold Text.namespace?
  rw [if_pos (by simp)]
  rfl

omit [Host σ] in
theorem does_bindImport (ns : String) {imported : Except Node Exports}
    (herror : ∀ e, imported = .error e → e.isErr = true)
    (hview : ∀ x, (Text.namespace? x).isSome = true → V.Binds x .unknown ∧ V.Settled x)
    (ht : Ready root permissions V Γ t) :
    Does root permissions t (bindImport ns imported) fun v u =>
      v.Fits .void ∧ Ready root permissions V Γ u := by
  cases imported with
  | error e =>
    exact .pure ht.sound ⟨.of_isErr (v := .node e) (herror e rfl) _, ht⟩
  | ok exports =>
    have hqualified : ∀ p ∈ exports.entries.map fun e => (ns ++ "." ++ e.1, e.2),
        V.Binds p.1 .unknown ∧ V.Settled p.1 := by
      intro p hp
      obtain ⟨q, -, rfl⟩ := List.mem_map.mp hp
      exact hview _ (namespace?_qualified ns q.1)
    obtain ⟨hkept, hready⟩ := ht.mapEnv (f := (·.insertAll _)) (ht.matched.insertAll hqualified)
    refine .bind (Q := fun _ u => Ready root permissions V Γ u) ⟨hkept, fun _ _ => hready⟩
      fun _ u _ hu => .pure hu.sound ⟨.of_kind rfl, hu⟩

include hother in
theorem does_import (n : Node)
    (hview : ∀ x, (Text.namespace? x).isSome = true → V.Binds x .unknown ∧ V.Settled x)
    (ht : Ready root permissions V Γ t) :
    Does root permissions t (evalImport (self false) n) fun v u =>
      v.Fits .void ∧ Ready root permissions V Γ u := by
  unfold evalImport
  split
  · exact .pure ht.sound ⟨.unknown _, ht⟩
  · next path _ =>
    refine .bind (.aside (Aside.calm.resolveModule path _) ht) fun resolved u _ hu => ?_
    have himport := aside_importModule hother resolved n.id u
    refine .bind (Q := fun imported w => (∀ e, imported = .error e → e.isErr = true) ∧
      Ready root permissions V Γ w) ⟨.of_aside hu.sound himport, fun imported hvalue => ?_⟩
      fun imported w _ hw => does_bindImport _ hw.1 hview hw.2
    exact ⟨fun e he => isErr_of_importModule (he ▸ hvalue), hu.aside himport⟩

/-! ## 4. Forms -/

omit [Host σ] in
theorem does_var {n : Node} (ht : Ready root permissions V Γ t) :
    Does root permissions t (evalVar n) fun v u =>
      v.Fits (((n.ident? "name").bind Γ.find?).getD .unknown) ∧ Ready root permissions V Γ u := by
  unfold evalVar
  cases n.ident? "name" with
  | none => exact .pure ht.sound ⟨.unknown _, ht⟩
  | some name =>
    refine .bind (.currentEnv ht.sound) fun env u _ hu => ?_
    obtain ⟨rfl, rfl⟩ := hu
    refine .pure ht.sound ⟨?_, ht⟩
    rw [Option.bind_some]
    cases hkind : Γ.find? name with
    | none => exact .any _
    | some k =>
      cases hvalue : u.env.find? name with
      | none => exact .unknown _
      | some v => exact ht.matched.holds hkind hvalue

include hown in
theorem does_bind {Γ₀ Γ₁ : TypeEnv} {n child : Node} {x : String} {k : ValueKind}
    (hchildren : n.children = [child]) (hname : n.ident? "name" = some x)
    (hstart : Drift V Γ Γ₀) (hchild : Typed root permissions V false Γ₀ child k Γ₁)
    (hpass : child.passesOn = false) (hk : V.Binds x k) (hlearns : child.isFn = true → V.Learns x)
    (ht : Ready root permissions V Γ t) :
    Does root permissions t (evalBind (watchBound self true) n) fun v u =>
      v.Fits .void ∧ Ready root permissions V (Γ₁.insert x k) u := by
  unfold evalBind
  rw [hname]
  refine .bind (.getSession ht.sound) fun s u _ hu => ?_
  obtain ⟨rfl, rfl⟩ := hu
  split
  · exact .halt ht.sound _
  · rw [hchildren]
    refine .bind (does_watchBound hown hchild hlearns (ht.drift hstart)) fun v w _ hw => ?_
    refine .bind (.bindName (hw.ready (.inl rfl)) hk (hw.fits hpass)) fun _ w' _ hw' => ?_
    exact .pure hw'.sound ⟨.of_kind rfl, hw'⟩

include hown hother in
theorem does_call {steps : Nat} {n : Node} {ks : List ValueKind} {k : ValueKind}
    (hall : TypedAll root permissions V false Γ n.children ks Γ')
    (hkind : ∀ target, n.ident? "target" = some target →
      k = ((Contract.lookup? target).map Contract.returns).getD .unknown)
    (ht : Ready root permissions V Γ t) :
    Does root permissions t
      (evalCall (self true) (callCapability (self false) steps steps) (watchClosure self) n)
      fun v u => v.Fits k ∧ Ready root permissions V Γ' u := by
  have hdrift := hall.drift rfl
  unfold evalCall
  split
  · exact .pure ht.sound ⟨.unknown _, ht.drift hdrift⟩
  · next target htarget =>
    obtain rfl := hkind target htarget
    split
    · next contract hlookup =>
      refine .bind (.getSession ht.sound) fun s u _ hu => ?_
      obtain ⟨rfl, rfl⟩ := hu
      rw [hlookup]
      split
      · refine .bind (does_operands hown hall ht) fun args w _ hw => ?_
        have hcall := aside_callCapability hother steps target args w
        exact ⟨.of_aside hw.sound hcall, fun v hv =>
          ⟨callCapability_fits hlookup hv, hw.aside hcall⟩⟩
      · refine .bind (.aside (Aside.calm.recordedCall _ _ _ _ _) (ht.drift hdrift))
          fun _ w _ hw => ?_
        exact .pure hw.sound ⟨.unknown _, hw⟩
    · next hlookup =>
      rw [hlookup]
      refine .bind (.currentEnv ht.sound) fun env u _ hu => ?_
      obtain ⟨rfl, rfl⟩ := hu
      refine .bind (.getSession ht.sound) fun s w _ hw => ?_
      obtain ⟨rfl, rfl⟩ := hw
      split
      · next f _ =>
        refine .bind (does_operands hown hall ht) fun args w' _ hw' => ?_
        have hcall := aside_watchClosure hown hother f args w'
        exact ⟨.of_aside hw'.sound hcall, fun v _ => ⟨.any v, hw'.aside hcall⟩⟩
      · exact .pure ht.sound ⟨.unknown _, ht.drift hdrift⟩

omit [Host σ] in
theorem does_choose {thenStep elseStep : Eval (Watched σ) Value} {v : Value}
    {Q : Value → Activation (Watched σ) → Prop} (ht : Sound root permissions t)
    (hthen : Does root permissions t thenStep Q) (helse : Does root permissions t elseStep Q)
    (hunknown : Q .unknown t) : Does root permissions t (choose thenStep elseStep v) Q := by
  unfold choose
  split
  · exact hthen
  · exact helse
  · exact .pure ht hunknown

omit [Host σ] in
include hown in
theorem does_arm {arm : Node} {k : ValueKind}
    (harm : Typed root permissions V false Γ arm k Γ') (ht : Ready root permissions V Γ t) :
    Does root permissions t (self true arm) fun v u =>
      (arm.passesOn = false → v.Fits k) ∧ Ready root permissions V Γ u :=
  (hown harm ht).mono fun _ _ hv => ⟨hv.fits, ht.back (harm.drift rfl) (hv.ready (.inl rfl))⟩

omit [Host σ] in
include hown in
/-- Without an else the flow pass computes no kind for what the arm comes to. -/
theorem does_branch {Γ₁ : TypeEnv} {n condition thenArm : Node} {k thenKind : ValueKind}
    (hchildren : n.children = [condition, thenArm])
    (hcondition : Typed root permissions V false Γ condition k Γ₁)
    (hthen : Typed root permissions V false Γ₁ thenArm thenKind Γ')
    (ht : Ready root permissions V Γ t) :
    Does root permissions t (evalBranch (self true) n) fun _ u =>
      Ready root permissions V Γ₁ u := by
  unfold evalBranch
  rw [hchildren]
  refine .bind (hown hcondition ht) fun v u _ hv => ?_
  have hu := hv.ready (.inl rfl)
  exact does_choose hu.sound ((does_arm hown hthen hu).mono fun _ _ h => h.2) (.pure hu.sound hu) hu

omit [Host σ] in
include hown in
theorem does_branchElse {Γ₁ Γ₂ Γ₃ : TypeEnv} {n condition thenArm elseArm : Node}
    {k k' thenKind elseKind : ValueKind} (hchildren : n.children = [condition, thenArm, elseArm])
    (hcondition : Typed root permissions V false Γ condition k Γ₁)
    (hthen : Typed root permissions V false Γ₁ thenArm thenKind Γ₂)
    (helse : Typed root permissions V false Γ₁ elseArm elseKind Γ₃)
    (hkind : k' = .unknown ∨ k' = thenKind ∧ k' = elseKind) (ht : Ready root permissions V Γ t) :
    Does root permissions t (evalBranch (self true) n) fun v u =>
      ((thenArm.passesOn || elseArm.passesOn) = false → v.Fits k') ∧
        Ready root permissions V Γ₁ u := by
  have hfits {passes : Bool} {v : Value} {armKind : ValueKind} (hk : k' = .unknown ∨ k' = armKind)
      (hv : passes = false → v.Fits armKind) : passes = false → v.Fits k' := by
    obtain rfl | rfl := hk
    · exact fun _ => .any v
    · exact hv
  unfold evalBranch
  rw [hchildren]
  refine .bind (hown hcondition ht) fun v u _ hv => ?_
  have hu := hv.ready (.inl rfl)
  refine does_choose hu.sound ((does_arm hown hthen hu).mono fun w u' h => ⟨fun hpass => ?_, h.2⟩)
    ((does_arm hown helse hu).mono fun w u' h => ⟨fun hpass => ?_, h.2⟩) ⟨fun _ => .unknown _, hu⟩
  · exact hfits (hkind.imp_right And.left) h.1 (Bool.or_eq_false_iff.mp hpass).1
  · exact hfits (hkind.imp_right And.right) h.1 (Bool.or_eq_false_iff.mp hpass).2

include hown in
theorem does_export {n child : Node} {k : ValueKind} (hchildren : n.children = [child])
    (hchild : Typed root permissions V false Γ child k Γ')
    (hlearns : ∀ x, n.text? "name" = some x → child.isFn = true → V.Learns x)
    (ht : Ready root permissions V Γ t) :
    Does root permissions t (evalExport (watchBound self true) n) fun v u =>
      v.Fits .void ∧ Ready root permissions V Γ' u := by
  unfold evalExport
  split
  · exact .pure ht.sound ⟨.unknown _, ht.drift (hchild.drift rfl)⟩
  · next name hname =>
    rw [hchildren]
    refine .bind (does_watchBound hown hchild (hlearns name hname) ht) fun v u _ hu => ?_
    refine .bind (.aside (Aside.calm.addExport name v u) (hu.ready (.inl rfl))) fun _ w _ hw => ?_
    exact .pure hw.sound ⟨.of_kind rfl, hw⟩

omit [Host σ] in
/-- Only functions come to closures of their own. -/
theorem Yields.of_other {n : Node} {form : Form} {k : ValueKind} {v : Value}
    (hform : n.form? = some form) (hfn : (form.kind == Form.fn.kind) = false)
    (hfits : n.passesOn = false → v.Fits k)
    (hready : inLine = false ∨ v.isErr = false → Ready root permissions V Γ t) :
    Yields root permissions V inLine Γ n k v t :=
  ⟨hfits, fun h => absurd (h.symm.trans ((Node.isFn_of_form? hform).trans hfn)) (by decide), hready⟩

omit [Host σ] in
theorem Does.yields {n : Node} {form : Form} {k : ValueKind} {step : Eval (Watched σ) Value}
    (hform : n.form? = some form) (hfn : (form.kind == Form.fn.kind) = false)
    (hstep : Does root permissions t step fun v u => v.Fits k ∧ Ready root permissions V Γ u) :
    Does root permissions t step (Yields root permissions V inLine Γ n k) :=
  hstep.mono fun _ _ hv => .of_other hform hfn (fun _ => hv.1) fun _ => hv.2

include hown hother in
/-- A node does by its form what the rule for the form says. -/
theorem does_form (steps : Nat) {n : Node} {k : ValueKind}
    (htyped : TypedForm root permissions V inLine Γ n k Γ') (ht : Ready root permissions V Γ t) :
    Does root permissions t (watchForm self true steps n)
      (Yields root permissions V inLine Γ' n k) := by
  unfold watchForm evalForm
  cases htyped with
  | program hform hall =>
    rw [hform]
    have hpass := Node.passesOn_program hform
    refine (does_sequence hown true .void (fun h => by cases h) hall ht).mono
      fun v u hv => .of_other hform (by decide) (fun h => ?_) hv.2
    rw [hpass] at h
    cases h
  | block hform hall =>
    rw [hform]
    refine (does_sequence hown false .void (fun _ => .of_kind rfl) hall ht).mono
      fun v u hv => .of_other hform (by decide) (fun h => hv.1 ?_) hv.2
    rw [← Node.passesOn_block hform]
    exact h
  | bind hform hchildren hname hstart hchild hpass hk hlearns _ =>
    rw [hform]
    exact (does_bind hown hchildren hname hstart hchild hpass hk hlearns ht).yields hform (by decide)
  | bindNothing hform _ hname hchild =>
    rw [hform]
    dsimp only
    unfold evalBind
    rw [hname]
    -- nothing is evaluated, and what the child would have bound is settled
    exact .yields hform (by decide)
      (.pure ht.sound ⟨.unknown _, ht.drift (hchild.drift rfl)⟩)
  | var hform =>
    rw [hform]
    exact (does_var ht).yields hform (by decide)
  | lit hform =>
    rw [hform]
    exact .yields hform (by decide) (.pure ht.sound ⟨.of_kind rfl, ht⟩)
  | call hform hall hkind =>
    rw [hform]
    exact (does_call hown hother hall hkind ht).yields hform (by decide)
  | fn hform hchildren hbody =>
    rw [hform]
    exact does_makeClosure hform (.fn hform hchildren hbody) (fun _ h => by cases h) ht
  | branch hform hchildren hcondition hthen =>
    rw [hform]
    have hpass := Node.passesOn_branch hform hchildren
    refine (does_branch hown hchildren hcondition hthen ht).mono
      fun v u hu => .of_other hform (by decide) (fun h => ?_) fun _ => hu
    rw [hpass] at h
    cases h
  | branchElse hform hchildren hcondition hthen helse hkind =>
    rw [hform]
    have hpass := Node.passesOn_branchElse hform hchildren
    exact (does_branchElse hown hchildren hcondition hthen helse hkind ht).mono
      fun v u hv => .of_other hform (by decide) (fun h => hv.1 (hpass.symm.trans h)) fun _ => hv.2
  | leaveNothing hform hchildren =>
    rw [hform]
    dsimp only
    unfold evalLeave
    rw [hchildren]
    exact .unwind ht.sound _
  | leave hform hchildren hchild =>
    rw [hform]
    dsimp only
    unfold evalLeave
    rw [hchildren]
    exact .bind (hown hchild ht) fun v u hkept _ => .unwind hkept.sound v
  | importModule hform hview =>
    rw [hform]
    exact (does_import hother n hview ht).yields hform (by decide)
  | exportBound hform hchildren =>
    rw [hform]
    dsimp only
    unfold evalExport
    refine .yields hform (by decide) ?_
    split
    · exact .pure ht.sound ⟨.unknown _, ht⟩
    · next name _ =>
      rw [hchildren]
      refine .bind (.currentEnv ht.sound) fun env u _ hu => ?_
      obtain ⟨rfl, rfl⟩ := hu
      refine .bind (.aside (Aside.calm.addExport name _ _) ht) fun _ w _ hw => ?_
      exact .pure hw.sound ⟨.of_kind rfl, hw⟩
  | exportChild hform hchildren hchild hlearns =>
    rw [hform]
    exact (does_export hown hchildren hchild hlearns ht).yields hform (by decide)
  | @operator _ _ _ _ _ op _ hform hall =>
    rw [hform]
    dsimp only
    unfold evalOperator
    refine .yields hform (by cases op <;> decide) ?_
    split
    · exact .pure ht.sound ⟨.unknown _, ht.drift (hall.drift rfl)⟩
    · refine .bind (does_operands hown hall ht) fun args u _ hu => ?_
      exact .pure hu.sound ⟨Operator.apply_fits op args, hu⟩

omit [Host σ] in
theorem aside_checkDepth (n : Node) :
    KeepsFrom (Aside root permissions) t (checkDepth n : Eval (Watched σ) Unit) := by
  unfold KeepsFrom checkDepth
  dsimp only
  split <;> exact .of_eq rfl rfl rfl

/-- Entering a node does what is done for its form. -/
theorem does_entering {n : Node} {k : ValueKind} {step : Eval (Watched σ) Value}
    (hstep : ∀ u, Ready root permissions V Γ u →
      Does root permissions u step (Yields root permissions V inLine Γ' n k))
    (ht : Ready root permissions V Γ t) :
    Does root permissions t (entering n step) (Yields root permissions V inLine Γ' n k) := by
  refine .bind (.aside (aside_checkDepth n) ht) fun _ t₁ _ ht₁ => ?_
  refine .bind (.aside (Aside.calm.noteStep n t₁) ht₁) fun _ t₂ _ ht₂ => ?_
  have hnested : Does root permissions t₂ (nested step)
      (Yields root permissions V inLine Γ' n k) := by
    obtain ⟨hkept, hyields⟩ := hstep t₂.deepen
      (ht₂.of_eq (ht₂.sound.of_eq rfl rfl) rfl rfl)
    have hsound : Sound root permissions (step t₂.deepen).2.surface :=
      hkept.sound.of_eq rfl rfl
    refine ⟨⟨hsound, hkept.outer, hkept.framed, hkept.globals⟩, fun v hv => ?_⟩
    have hv := hyields v hv
    exact ⟨hv.fits, hv.proper, fun h => (hv.ready h).of_eq hsound rfl rfl⟩
  exact .bind hnested fun v u hkept hv => does_known n hkept.sound hv

include hown hother in
theorem inside_watchForm (steps : Nat) (n : Node) :
    Keeps (Inside root permissions) (watchForm self false steps n) := by
  have hinvariant : Invariant (Inside root permissions : Activation (Watched σ) → _ → Prop) :=
    Inside.invariant
  have hbound (m : Node) (name : String) :
      Keeps (Inside root permissions) (watchBound self false m name) := by
    unfold watchBound
    rw [Bool.false_and, if_neg Bool.false_ne_true]
    exact hinvariant.bound (hother m) name
  exact hinvariant.watchForm hother hother hbound
    (fun f args t => (aside_watchClosure hown hother f args t).inside) steps n

end Arbor.Flow
