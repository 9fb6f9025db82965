import Arbor.Bytecode.Compiler

/-!
# The code of a node, as a relation

`Compiles functions start n s code s'` has one rule for each form that the compiler has code for, and
`compiles_of_nodeCode` says that the compiler follows them. The code of a list of nodes is given by
`CompilesAll`, which leaves `gap` instructions between one node and the next.
-/

namespace Arbor.Compiler

mutual

/-- The node, compiled at `start` in the scope `s`, has this code and leaves the scope `s'`. -/
inductive Compiles (functions : List String) :
    Nat → Node → Scope → List Instruction → Scope → Prop where
  | sequence {start n s codes s'} : n.form? = some .program ∨ n.form? = some .block →
    CompilesAll functions 2 start n.children s codes s' →
    Compiles functions start n s (sequenceCode start codes) s'
  | bind {start n s name child code s'} : n.form? = some .bind → n.ident? "name" = some name →
    n.children = [child] → Compiles functions start child s code s' →
    Compiles functions start n s
      (code ++ [.of .storeLocal (saturateCount (s'.resolve name).1), .of .pushVoid])
      (s'.resolve name).2
  | var {start n s name slot} : n.form? = some .var → n.ident? "name" = some name →
    s.locals.findIdx? (· == name) = some slot →
    Compiles functions start n s [.of .loadLocal (saturateCount slot)] s
  | text {start n s text} : n.form? = some .lit → n.attr? "value" = some (.string text) →
    Compiles functions start n s [.of .const (saturateCount (s.constant (.str text)).1)]
      (s.constant (.str text)).2
  | int {start n s i} : n.form? = some .lit → n.attr? "value" = some (.int i) →
    Compiles functions start n s [.of .pushInt i] s
  | bool {start n s b} : n.form? = some .lit → n.attr? "value" = some (.bool b) →
    Compiles functions start n s [.of .pushBool (if b then 1 else 0)] s
  | callSys {start n s target codes s'} : n.form? = some .call → n.ident? "target" = some target →
    (Contract.lookup? target).isSome → CompilesAll functions 0 start n.children s codes s' →
    Compiles functions start n s
      (codes.flatten ++ [.of .callSys (saturateCount n.children.length) target]) s'
  | call {start n s target codes s'} : n.form? = some .call → n.ident? "target" = some target →
    Contract.lookup? target = none → target ∈ functions →
    CompilesAll functions 0 start n.children s codes s' →
    Compiles functions start n s
      (codes.flatten ++ [.of .call (saturateCount n.children.length) target]) s'
  | branch {start n s condition thenArm code s₁ thenCode s₂} : n.form? = some .branch →
    n.children = [condition, thenArm] → Compiles functions start condition s code s₁ →
    Compiles functions (start + code.length + 1) thenArm s₁ thenCode s₂ →
    Compiles functions start n s (branchCode start code thenCode [.of .pushVoid]) s₂
  | branchElse {start n s condition thenArm elseArm code s₁ thenCode s₂ elseCode s₃} :
    n.form? = some .branch → n.children = [condition, thenArm, elseArm] →
    Compiles functions start condition s code s₁ →
    Compiles functions (start + code.length + 1) thenArm s₁ thenCode s₂ →
    Compiles functions (start + code.length + 1 + thenCode.length + 1) elseArm s₂ elseCode s₃ →
    Compiles functions start n s (branchCode start code thenCode elseCode) s₃
  | leaveVoid {start n s} : n.form? = some .leave → n.children = [] →
    Compiles functions start n s [.of .pushVoid, .of .ret] s
  | leave {start n s child more code s'} : n.form? = some .leave → n.children = child :: more →
    Compiles functions start child s code s' →
    Compiles functions start n s (code ++ [.of .ret]) s'
  | operator {start n s op codes s'} : n.form? = some (.operator op) →
    n.children.length = op.arity → CompilesAll functions 0 start n.children s codes s' →
    Compiles functions start n s (codes.flatten ++ [.of (.operator op)]) s'

/-- The nodes, compiled one after the other from `start`, have these codes. -/
inductive CompilesAll (functions : List String) :
    Nat → Nat → List Node → Scope → List (List Instruction) → Scope → Prop where
  | nil {gap start s} : CompilesAll functions gap start [] s [] s
  | cons {gap start n ns s code s' codes s''} : Compiles functions start n s code s' →
    CompilesAll functions gap (start + code.length + gap) ns s' codes s'' →
    CompilesAll functions gap start (n :: ns) s (code :: codes) s''

end

/-! ## 1. The compiler follows the rules -/

theorem of_bind_ok {ε α β : Type} {x : Except ε α} {f : α → Except ε β} {b : β}
    (h : (x >>= f) = .ok b) : ∃ a, x = .ok a ∧ f a = .ok b := by
  cases x with
  | error e => cases h
  | ok a => exact ⟨a, rfl, h⟩

theorem compiles_of_litCode {functions : List String} {n : Node} {s s' : Scope}
    {code : List Instruction} (start : Nat) (hform : n.form? = some .lit)
    (h : litCode n s = .ok (code, s')) : Compiles functions start n s code s' := by
  unfold litCode at h
  split at h
  · next hvalue =>
    cases h
    exact .text hform hvalue
  · next hvalue =>
    cases h
    exact .int hform hvalue
  · next hvalue =>
    cases h
    exact .bool hform hvalue
  · cases h

theorem compiles_of_varCode {functions : List String} {n : Node} {s s' : Scope}
    {code : List Instruction} (start : Nat) (hform : n.form? = some .var)
    (h : varCode functions n s = .ok (code, s')) : Compiles functions start n s code s' := by
  unfold varCode at h
  split at h
  · cases h
  · next name hname =>
    split at h
    · next slot hslot =>
      cases h
      exact .var hform hname hslot
    · split at h <;> cases h

mutual

theorem compiles_of_nodeCode {functions : List String} : ∀ {n : Node} {start : Nat} {s s' : Scope}
    {code : List Instruction}, nodeCode functions start n s = .ok (code, s') →
    Compiles functions start n s code s'
  | ⟨kind, id, attrs, children, span⟩, start, s, s', code, h => by
    unfold nodeCode at h
    dsimp only at h
    split at h
    -- `Program` and `Block`
    · next hform =>
      obtain ⟨⟨codes, s₁⟩, hcodes, h⟩ := of_bind_ok h
      cases h
      exact .sequence (.inl hform) (compilesAll_of_nodeCodes hcodes)
    · next hform =>
      obtain ⟨⟨codes, s₁⟩, hcodes, h⟩ := of_bind_ok h
      cases h
      exact .sequence (.inr hform) (compilesAll_of_nodeCodes hcodes)
    -- `Let`
    · next hform =>
      split at h
      · cases h
      · next name child hname =>
        obtain ⟨⟨childCode, s₁⟩, hchild, h⟩ := of_bind_ok h
        cases h
        exact .bind hform hname rfl (compiles_of_nodeCode hchild)
      · cases h
    -- `Var` and `Lit`
    · next hform => exact compiles_of_varCode start hform h
    · next hform => exact compiles_of_litCode start hform h
    -- `Call`, of a capability if there is one of the name, or else of a function
    · next hform =>
      split at h
      · cases h
      · next target htarget =>
        obtain ⟨op, hop, h⟩ := of_bind_ok h
        obtain ⟨⟨codes, s₁⟩, hcodes, h⟩ := of_bind_ok h
        cases h
        unfold callOpcode at hop
        split at hop
        · next hlookup =>
          cases hop
          exact .callSys hform htarget hlookup (compilesAll_of_nodeCodes hcodes)
        · next hlookup =>
          split at hop
          · next hfunction =>
            cases hop
            exact .call hform htarget (by simpa using hlookup) (by simpa using hfunction)
              (compilesAll_of_nodeCodes hcodes)
          · cases hop
    -- `If`, without an else and with one
    · next hform =>
      split at h
      · next condition thenArm =>
        obtain ⟨⟨conditionCode, s₁⟩, hcondition, h⟩ := of_bind_ok h
        obtain ⟨⟨thenCode, s₂⟩, hthen, h⟩ := of_bind_ok h
        cases h
        exact .branch hform rfl (compiles_of_nodeCode hcondition) (compiles_of_nodeCode hthen)
      · next condition thenArm elseArm =>
        obtain ⟨⟨conditionCode, s₁⟩, hcondition, h⟩ := of_bind_ok h
        obtain ⟨⟨thenCode, s₂⟩, hthen, h⟩ := of_bind_ok h
        obtain ⟨⟨elseCode, s₃⟩, helse, h⟩ := of_bind_ok h
        cases h
        exact .branchElse hform rfl (compiles_of_nodeCode hcondition) (compiles_of_nodeCode hthen)
          (compiles_of_nodeCode helse)
      · cases h
    -- `Return`
    · next hform =>
      split at h
      · cases h
        exact .leaveVoid hform rfl
      · next child more =>
        obtain ⟨⟨childCode, s₁⟩, hchild, h⟩ := of_bind_ok h
        cases h
        exact .leave hform rfl (compiles_of_nodeCode hchild)
    -- `Fn`, `Import` and `Export` have no code
    · cases h
    · cases h
    · cases h
    · next op hform =>
      split at h
      · cases h
      · next harity =>
        obtain ⟨⟨codes, s₁⟩, hcodes, h⟩ := of_bind_ok h
        cases h
        exact .operator hform (by simpa using harity) (compilesAll_of_nodeCodes hcodes)
    · cases h

theorem compilesAll_of_nodeCodes {functions : List String} : ∀ {ns : List Node} {gap start : Nat}
    {s s' : Scope} {codes : List (List Instruction)},
    nodeCodes functions gap start ns s = .ok (codes, s') →
    CompilesAll functions gap start ns s codes s'
  | [], gap, start, s, s', codes, h => by
    unfold nodeCodes at h
    cases h
    exact .nil
  | n :: ns, gap, start, s, s', codes, h => by
    unfold nodeCodes at h
    obtain ⟨⟨code, s₁⟩, hcode, h⟩ := of_bind_ok h
    obtain ⟨⟨more, s₂⟩, hmore, h⟩ := of_bind_ok h
    cases h
    exact .cons (compiles_of_nodeCode hcode) (compilesAll_of_nodeCodes hmore)

end

/-! ## 2. Scopes only grow -/

/-- The second scope has the slots and the constants of the first one, and maybe more behind them. -/
structure Scope.Grows (s s' : Scope) : Prop where
  locals : s.locals <+: s'.locals
  constants : s.constants <+: s'.constants

namespace Scope

theorem Grows.refl (s : Scope) : s.Grows s := ⟨List.prefix_refl _, List.prefix_refl _⟩

theorem Grows.trans {s s' s'' : Scope} (h : s.Grows s') (h' : s'.Grows s'') : s.Grows s'' :=
  ⟨h.locals.trans h'.locals, h.constants.trans h'.constants⟩

theorem grows_resolve (s : Scope) (name : String) : s.Grows (s.resolve name).2 := by
  unfold resolve
  split
  · exact .refl s
  · exact ⟨List.prefix_append _ _, List.prefix_refl _⟩

theorem grows_constant (s : Scope) (v : Value) : s.Grows (s.constant v).2 := by
  unfold constant
  split
  · exact .refl s
  · exact ⟨List.prefix_refl _, List.prefix_append _ _⟩

theorem locals_constant (s : Scope) (v : Value) : (s.constant v).2.locals = s.locals := by
  unfold constant
  split <;> rfl

theorem mem_resolve {s : Scope} {name x : String} (h : x ∈ (s.resolve name).2.locals) :
    x ∈ s.locals ∨ x = name := by
  unfold resolve at h
  split at h
  · exact .inl h
  · simpa using h

/-- The slot of a name that was resolved. -/
theorem findIdx?_resolve (s : Scope) (name : String) :
    (s.resolve name).2.locals.findIdx? (· == name) = some (s.resolve name).1 := by
  unfold resolve
  cases hslot : s.locals.findIdx? (· == name) with
  | some slot => exact hslot
  | none =>
    show (s.locals ++ [name]).findIdx? (· == name) = some s.locals.length
    rw [List.findIdx?_append, hslot]
    simp

theorem constants_constant (s : Scope) (text : String) :
    (s.constant (.str text)).2.constants[(s.constant (.str text)).1]? = some (.str text) := by
  unfold constant
  cases hindex : s.constants.findIdx? (·.same (.str text)) with
  | none => simp
  | some index =>
    obtain ⟨hlt, hsame, -⟩ := List.findIdx?_eq_some_iff_getElem.mp hindex
    have hvalue : s.constants[index] = .str text := by
      -- nothing but the same text is the same value as a text
      cases hv : s.constants[index] <;> rw [hv] at hsame <;> simp [Value.same] at hsame
      rw [hsame]
    show s.constants[index]? = some (.str text)
    rw [List.getElem?_eq_getElem hlt, hvalue]

end Scope

/-- A slot stays the slot of its name. -/
theorem findIdx?_of_prefix {l l' : List String} (h : l <+: l') {name : String} {slot : Nat}
    (hslot : l.findIdx? (· == name) = some slot) : l'.findIdx? (· == name) = some slot := by
  obtain ⟨more, rfl⟩ := h
  rw [List.findIdx?_append, hslot]
  rfl

mutual

theorem Compiles.grows {functions : List String} {start : Nat} {n : Node} {s s' : Scope}
    {code : List Instruction} : Compiles functions start n s code s' → s.Grows s'
  | .sequence _ h | .callSys _ _ _ h | .call _ _ _ _ h | .operator _ _ h => h.grows
  | .bind _ _ _ h => h.grows.trans (Scope.grows_resolve _ _)
  | .text _ _ => Scope.grows_constant _ _
  | .var _ _ _ | .int _ _ | .bool _ _ | .leaveVoid _ _ => .refl _
  | .branch _ _ h h' => h.grows.trans h'.grows
  | .branchElse _ _ h h' h'' => (h.grows.trans h'.grows).trans h''.grows
  | .leave _ _ h => h.grows

theorem CompilesAll.grows {functions : List String} {gap start : Nat} {ns : List Node}
    {s s' : Scope} {codes : List (List Instruction)} :
    CompilesAll functions gap start ns s codes s' → s.Grows s'
  | .nil => .refl _
  | .cons h h' => h.grows.trans h'.grows

end

theorem Compiles.isFn_eq_false {functions : List String} {start : Nat} {n : Node} {s s' : Scope}
    {code : List Instruction} (h : Compiles functions start n s code s') : n.isFn = false := by
  have hform : n.form? ≠ some .fn := by
    cases h with
    -- each rule names the form of its node, and none names `Fn`
    | sequence hform _ => rcases hform with hform | hform <;> simp [hform]
    | _ => simp_all
  unfold Node.isFn
  rw [beq_eq_false_iff_ne]
  intro hkind
  refine hform ?_
  unfold Node.form?
  rw [hkind]
  decide

/-! ## 3. Sequences -/

theorem joinStatements_cons (stop : Nat) (code next : List Instruction)
    (more : List (List Instruction)) : joinStatements stop (code :: next :: more) =
      code ++ (.of .jumpIfErr (saturateCount stop) :: .of .pop ::
        joinStatements stop (next :: more)) := by
  rw [joinStatements, List.append_assoc]
  · rfl
  · simp

theorem sequenceLength_singleton (code : List Instruction) : sequenceLength [code] = code.length := by
  simp [sequenceLength]

theorem sequenceLength_cons (code next : List Instruction) (more : List (List Instruction)) :
    sequenceLength (code :: next :: more) = code.length + 2 + sequenceLength (next :: more) := by
  have hlength : sequenceLength (next :: more) =
      (next :: more).flatten.length + 2 * more.length := rfl
  have hgoal : sequenceLength (code :: next :: more) =
      (code :: next :: more).flatten.length + 2 * (more.length + 1) := rfl
  rw [hlength, hgoal, List.flatten_cons (l := code), List.length_append]
  omega

theorem length_joinStatements (stop : Nat) (codes : List (List Instruction)) :
    (joinStatements stop codes).length = sequenceLength codes := by
  fun_induction joinStatements stop codes with
  | case1 => rfl
  | case2 last => exact (sequenceLength_singleton last).symm
  | case3 code rest hrest ih =>
    cases rest with
    | nil => exact absurd rfl hrest
    | cons next more =>
      rw [List.length_append, List.length_append, ih, sequenceLength_cons]
      rfl

theorem length_sequenceCode (start : Nat) (codes : List (List Instruction)) :
    (sequenceCode start codes).length = sequenceLength codes := length_joinStatements _ codes

/-! ## 4. Lengths -/

section Lengths

variable {functions : List String}

theorem CompilesAll.length_codes {gap start : Nat} {ns : List Node} {s s' : Scope}
    {codes : List (List Instruction)} (h : CompilesAll functions gap start ns s codes s') :
    codes.length = ns.length := by
  induction ns generalizing start s codes with
  | nil =>
    cases h
    rfl
  | cons n ns ih =>
    cases h with
    | cons _ hmore => rw [List.length_cons, List.length_cons, ih hmore]

mutual

theorem Compiles.length_pos {start : Nat} {n : Node} {s s' : Scope} {code : List Instruction} :
    Compiles functions start n s code s' → 0 < code.length
  | @Compiles.sequence _ _ _ _ codes _ _ h => by
    have hcodes := h.length_le
    rw [length_sequenceCode]
    cases codes with
    | nil => decide
    | cons code codes =>
      show 0 < (code :: codes).flatten.length + 2 * codes.length
      rw [List.length_cons] at hcodes
      omega
  | .bind .. | .var .. | .text .. | .int .. | .bool .. | .callSys .. | .call .. | .leaveVoid ..
  | .leave .. | .operator .. => by simp
  | .branch .. | .branchElse .. => by
    unfold branchCode
    simp only [List.length_append, List.length_cons]
    omega

/-- Each node has an instruction at least. -/
theorem CompilesAll.length_le {gap start : Nat} {ns : List Node} {s s' : Scope}
    {codes : List (List Instruction)} :
    CompilesAll functions gap start ns s codes s' → codes.length ≤ codes.flatten.length
  | .nil => Nat.le_refl _
  | .cons h h' => by
    have hpos := h.length_pos
    have hle := h'.length_le
    rw [List.flatten_cons, List.length_append, List.length_cons]
    omega

end

end Lengths

end Arbor.Compiler
