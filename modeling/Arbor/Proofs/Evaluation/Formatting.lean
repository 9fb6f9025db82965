import Arbor.Proofs.Evaluation.Runs
import Arbor.Proofs.Form
import Arbor.Proofs.Node.RoundTrip

/-!
# Evaluation of a formatted program

Printing quotes an identifier that is not bare, and what is read back in its place is a string. Most
attributes are read as texts, but four are not: the name of a `Let` and of a `Var`, the target of a
`Call` and the value of a `Lit`. A program in which all identifiers in these slots are bare runs the
same after it was formatted (`evaluate_format`); one in which they are not may run differently
(`evaluate_format_digitLed`).
-/

namespace Arbor

open Text

/-! ## 1. What evaluation sees of a node -/

/-- The attributes in which an identifier is not read like a string: a node kind and a key. -/
def identifierSlots : List (String × String) :=
  [("Let", "name"), ("Var", "name"), ("Call", "target"), ("Lit", "value")]

/-- The value as evaluation sees it in an attribute of a node kind. -/
def AttrValue.seenIn (kind key : String) (value : AttrValue) : AttrValue :=
  if (kind, key) ∈ identifierSlots then value
  else match value with
    | identifier s => string s
    | v => v

theorem AttrValue.text?_seenIn (kind key : String) (value : AttrValue) :
    (value.seenIn kind key).text? = value.text? := by
  unfold seenIn
  by_cases hslot : (kind, key) ∈ identifierSlots
  · rw [if_pos hslot]
  · rw [if_neg hslot]
    cases value <;> rfl

theorem AttrValue.seenIn_slot {kind key : String} (hslot : (kind, key) ∈ identifierSlots)
    (value : AttrValue) : value.seenIn kind key = value := by
  unfold seenIn
  rw [if_pos hslot]

/-- The tree as evaluation sees it. -/
def Node.seen (n : Node) : Node := n.recast AttrValue.seenIn

theorem Node.attr?_seen {n : Node} {key : String} (hslot : (n.kind, key) ∈ identifierSlots) :
    n.seen.attr? key = n.attr? key := by
  unfold seen
  rw [attr?_recast]
  cases n.attr? key with
  | none => rfl
  | some value => exact congrArg some (AttrValue.seenIn_slot hslot value)

/-- Runs of nodes that evaluation sees alike. -/
def Likeness.seen (σ : Type) [Host σ] (permissions : List String) : Likeness σ σ where
  essence := Node.seen
  place _ := .nowhere
  hosts := (· = ·)
  permissions := permissions
  kind_essence n := n.kind_recast _
  id_essence n := n.id_recast _
  span_essence _ := rfl
  children_essence n := n.children_recast _
  text_essence n key := by
    unfold Node.text? Node.seen
    rw [Node.attr?_recast]
    cases n.attr? key with
    | none => rfl
    | some value => exact AttrValue.text?_seenIn n.kind key value
  name_essence n hform := by
    have hslot : (n.kind, "name") ∈ identifierSlots := by
      rcases hform with h | h <;> rw [kind_of_form? h] <;> decide
    unfold Node.ident?
    rw [Node.attr?_seen hslot]
  target_essence n hform := by
    have hslot : (n.kind, "target") ∈ identifierSlots := by
      rw [kind_of_form? hform]
      decide
    unfold Node.ident?
    rw [Node.attr?_seen hslot]
  literal_essence n hform := by
    have hslot : (n.kind, "value") ∈ identifierSlots := by
      rw [kind_of_form? hform]
      decide
    unfold Node.literal
    rw [Node.attr?_seen hslot]
  resolve h path := by
    subst h
    exact ⟨rfl, rfl⟩
  read h path := by
    subst h
    exact ⟨rfl, rfl⟩
  serve h replay? target args _ := by
    subst h
    exact ⟨rfl, rfl, rfl⟩

/-! ## 2. Programs whose identifiers are bare -/

/-- All identifiers in the slots of the node are printed without quotes. -/
def Node.SlotsBare (n : Node) : Prop :=
  ∀ e ∈ n.attrs.entries, (n.kind, e.1) ∈ identifierSlots → ∀ text, e.2 = .identifier text →
    isBareIdentifier text = true

theorem AttrValue.seenIn_readBack {kind key : String} {value : AttrValue}
    (h : (kind, key) ∈ identifierSlots → ∀ text, value = .identifier text →
      isBareIdentifier text = true) : value.readBack.seenIn kind key = value.seenIn kind key := by
  cases value with
  | identifier s =>
    unfold readBack
    dsimp only
    by_cases hbare : isBareIdentifier s = true
    · rw [if_pos hbare]
    · have hslot : (kind, key) ∉ identifierSlots := fun hslot => hbare (h hslot s rfl)
      rw [if_neg hbare]
      unfold seenIn
      rw [if_neg hslot, if_neg hslot]
  | _ => rfl

/-- Evaluation sees a printed tree like the tree itself. -/
theorem Node.seen_eq_of_readBack {n root : Node} (hbare : ∀ m ∈ n.walk, m.SlotsBare)
    (h : root.unspanned = n.readBack) : n.seen = root.seen := by
  have hroot : root.unspanned.seen = root.seen := recast_recast root
  have hn : n.readBack.seen = n.seen := by
    unfold seen readBack
    rw [recast_recast]
    exact recast_congr n fun m hm e he => AttrValue.seenIn_readBack (hbare m hm e he)
  rw [← hn, ← h, hroot]

/-- Two runs show the same: the value or why there is none, the global bindings, the trace and the
host. The bodies of functions need only look alike to evaluation, and recorded steps may stand at
different places. -/
structure SameRun {σ : Type} (a b : Except Halt Value × Session σ) : Prop where
  outcome : a.1.map (Value.mapBodies Node.seen) = b.1.map (Value.mapBodies Node.seen)
  globals : a.2.globals.map (Value.mapBodies Node.seen) = b.2.globals.map (Value.mapBodies Node.seen)
  trace : a.2.traceSteps.map Node.unspanned = b.2.traceSteps.map Node.unspanned
  host : a.2.host = b.2.host

theorem SameRun.trans {σ : Type} {a b c : Except Halt Value × Session σ} (hab : SameRun a b)
    (hbc : SameRun b c) : SameRun a c :=
  ⟨hab.outcome.trans hbc.outcome, hab.globals.trans hbc.globals, hab.trace.trans hbc.trace,
    hab.host.trans hbc.host⟩

theorem SameRun.kind {σ : Type} {a b : Except Halt Value × Session σ} (h : SameRun a b) :
    a.1.map Value.kind = b.1.map Value.kind := by
  have hkind := congrArg (Except.map Value.kind) h.outcome
  have hmap (r : Except Halt Value) :
      (r.map (Value.mapBodies Node.seen)).map Value.kind = r.map Value.kind := by
    cases r with
    | error e => rfl
    | ok v => exact congrArg Except.ok (Value.kind_mapBodies Node.seen v)
  rwa [hmap, hmap] at hkind

theorem SameRun.of_ends {σ : Type} [Host σ] {permissions : List String}
    {x y : Outcome Value × Activation σ}
    (h : (Likeness.seen σ permissions).Ends (Likeness.seen σ permissions).Values x y) :
    SameRun (Session.conclude x.1, x.2.session) (Session.conclude y.1, y.2.session) := by
  have hshown {t u : Activation σ} (ht : (Likeness.seen σ permissions).Activations t u)
      {r r' : Except Halt Value}
      (hr : r.map (Value.mapBodies Node.seen) = r'.map (Value.mapBodies Node.seen)) :
      SameRun (r, t.session) (r', u.session) := by
    refine ⟨hr, ht.session.globals, ?_, ht.session.host⟩
    have hplaced (place : Span → Span) : Node.unspanned ∘ Node.placed place = Node.unspanned := by
      funext n
      unfold Node.unspanned
      rw [Function.comp_apply, Node.recast_eq, Node.recast_eq]
      rfl
    have hsteps := congrArg (Array.map Node.unspanned) ht.session.traceSteps
    rwa [Array.map_map, Array.map_map, hplaced] at hsteps
  cases h with
  | value hv ht => exact hshown ht (congrArg Except.ok hv)
  | returned hv ht => exact hshown ht (congrArg Except.ok hv)
  | halted ht => exact hshown ht rfl

/-! ## 3. Identifiers that are not bare -/

/-- A node of the kind with one identifier, and a literal below it. -/
def slotNode (slot : String × String) (text : String) : Node where
  kind := slot.1
  id := "n"
  attrs := .ofList [(slot.2, .identifier text)]
  children := [⟨"Lit", "v", .ofList [("value", .int 1)], [], .nowhere⟩]

/-- A function with one parameter and nothing to do. -/
def slotFunction : Closure Value := ⟨["x"], ⟨"Block", "b", ∅, [], .nowhere⟩, [], none, 0⟩

/-- A session in which the name is bound to a function. -/
def slotSession (text : String) : Session LocalHost :=
  { Session.fresh "" with
    globals := (∅ : Env).insert text (.fn slotFunction) }

theorem writable_slotNode {slot : String × String} (hslot : slot ∈ identifierSlots) {text : String}
    (hbare : isBareIdentifier text = false) : (slotNode slot text).Writable := by
  have hword (word : String)
      (h : IsWord word.toList ∧ (wordShape word.toList).1 = .identifier) :
      ∃ k ∈ [TokenKind.identifier, .bool], IsOneToken word k :=
    isOneToken_word word h List.mem_cons_self
  have hid (id : String) (h : IsWord id.toList ∧ (wordShape id.toList).1 = .identifier) :
      ∃ k ∈ [TokenKind.identifier, .int, .bool], IsOneToken id k :=
    isOneToken_word id h List.mem_cons_self
  have hslots : ∀ slot ∈ identifierSlots,
      (IsWord slot.1.toList ∧ (wordShape slot.1.toList).1 = .identifier) ∧
        IsWord slot.2.toList ∧ (wordShape slot.2.toList).1 = .identifier := by decide +kernel
  obtain ⟨hkind, hkey⟩ := hslots slot hslot
  refine ⟨⟨hword _ hkind, hid "n" (by decide +kernel), ?_, ?_⟩, ?_⟩
  · intro e he
    obtain rfl : e = (slot.2, .identifier text) := List.mem_singleton.mp he
    exact hword _ hkey
  · intro e he s hs hbare'
    obtain rfl : e = (slot.2, .identifier text) := List.mem_singleton.mp he
    obtain rfl := AttrValue.identifier.inj hs
    rw [hbare] at hbare'
    cases hbare'
  · intro c hc
    obtain rfl := List.mem_singleton.mp hc
    refine ⟨⟨hword "Lit" (by decide +kernel), hid "v" (by decide +kernel), ?_, ?_⟩, nofun⟩
    · intro e he
      obtain rfl : e = ("value", .int 1) := List.mem_singleton.mp he
      exact hword "value" (by decide +kernel)
    · intro e he
      obtain rfl : e = ("value", .int 1) := List.mem_singleton.mp he
      nofun

theorem lookup?_of_not_bare {text : String} (hbare : isBareIdentifier text = false) :
    Contract.lookup? text = none := by
  have htable : ∀ c ∈ Contract.table, isBareIdentifier c.target = true := by decide +kernel
  cases hlookup : Contract.lookup? text with
  | none => rfl
  | some c =>
    obtain ⟨hmem, htarget⟩ := Contract.mem_table_of_lookup? hlookup
    have := htable c hmem
    rw [htarget, hbare] at this
    exact absurd this Bool.false_ne_true

/-- Nodes that look alike to evaluation run the same. -/
theorem SameRun.of_seen {σ : Type} [Host σ] {n m : Node} (h : n.seen = m.seen) (fuel : Nat)
    (s : Session σ) : SameRun (s.evaluate fuel n) (s.evaluate fuel m) := by
  have hnodes : (Likeness.seen σ s.permissions).Nodes n m := h
  have hstart : (Likeness.seen σ s.permissions).Activations ⟨s, []⟩ ⟨s, []⟩ :=
    ⟨⟨rfl, rfl, rfl, rfl, rfl, rfl, rfl, rfl, rfl, rfl, rfl, rfl, rfl, rfl, rfl, rfl, rfl, rfl⟩, rfl⟩
  exact .of_ends (Likeness.eval fuel hnodes hstart)

/-- The node with its identifier quoted. -/
def quotedSlotNode (slot : String × String) (text : String) : Node :=
  { slotNode slot text with attrs := .ofList [(slot.2, .string text)] }

theorem readBack_slotNode {slot : String × String} {text : String}
    (hbare : isBareIdentifier text = false) :
    (slotNode slot text).readBack = quotedSlotNode slot text := by
  have hvalue : (AttrValue.identifier text).readBack = .string text := by
    unfold AttrValue.readBack
    dsimp only
    rw [hbare]
    rfl
  have hattrs : (slotNode slot text).attrs.mapEntries (fun _ => AttrValue.readBack) =
      .ofList [(slot.2, .string text)] := Dict.ext (congrArg (fun v => [(slot.2, v)]) hvalue)
  unfold Node.readBack
  rw [Node.recast_eq, hattrs]
  rfl

section Slots

variable {text : String}

theorem evaluate_of_evalForm {n : Node} {v : Value}
    (h : ∃ t, Eval.evalForm (Eval.eval 3) 3 n ⟨{ slotSession text with depth := 1 }, []⟩ =
      (.value v, t) ∧ t.session.strict = false) :
    ((slotSession text).evaluate 4 n).1 = .ok v := by
  obtain ⟨t, hform, hstrict⟩ := h
  have hrun : ((slotSession text).evaluate 4 n).1 =
      Session.conclude ((Eval.nested (Eval.evalForm (Eval.eval 3) 3 n) >>= Eval.known n)
        ⟨slotSession text, []⟩).1 := rfl
  have hnested : Eval.nested (Eval.evalForm (Eval.eval 3) 3 n) ⟨slotSession text, []⟩ =
      ((Eval.evalForm (Eval.eval 3) 3 n ⟨{ slotSession text with depth := 1 }, []⟩).1,
        (Eval.evalForm (Eval.eval 3) 3 n ⟨{ slotSession text with depth := 1 }, []⟩).2.surface) := rfl
  have hknown : Eval.known n v t.surface = (.value v, t.surface) := by
    have hlax : t.surface.session.strict = false := hstrict
    unfold Eval.known
    rw [hlax, Bool.and_false]
    rfl
  rw [hrun, Eval.bind_def, hnested, hform]
  show Session.conclude (Eval.known n v t.surface).1 = _
  rw [hknown]
  rfl

theorem find?_slotSession : (slotSession text).globals.find? text = some (.fn slotFunction) :=
  Dict.find?_insert_self _ _ _

theorem evaluate_slot_call (hbare : isBareIdentifier text = false) :
    ((slotSession text).evaluate 4 (slotNode ("Call", "target") text)).1 = .ok .void := by
  have hform : (slotNode ("Call", "target") text).form? = some .call := rfl
  have htarget : (slotNode ("Call", "target") text).ident? "target" = some text := rfl
  refine evaluate_of_evalForm ?_
  unfold Eval.evalForm
  rw [hform]
  dsimp only
  unfold Eval.evalCall
  rw [htarget]
  dsimp only
  rw [lookup?_of_not_bare hbare]
  simp only [Eval.bind_def, Eval.currentEnv, Eval.getSession, Activation.env]
  rw [find?_slotSession]
  exact ⟨_, rfl, rfl⟩

theorem evaluate_slot_var :
    ((slotSession text).evaluate 4 (slotNode ("Var", "name") text)).1 = .ok (.fn slotFunction) := by
  have hform : (slotNode ("Var", "name") text).form? = some .var := rfl
  have hname : (slotNode ("Var", "name") text).ident? "name" = some text := rfl
  refine evaluate_of_evalForm ?_
  unfold Eval.evalForm
  rw [hform]
  dsimp only
  unfold Eval.evalVar
  rw [hname]
  simp only [Eval.bind_def, Eval.currentEnv, Activation.env]
  rw [find?_slotSession]
  exact ⟨_, rfl, rfl⟩

/-- In each of the slots, an identifier that is not bare is not the same as the string. -/
theorem not_sameRun_slot {slot : String × String} (hslot : slot ∈ identifierSlots)
    (hbare : isBareIdentifier text = false) :
    ¬SameRun ((slotSession text).evaluate 4 (slotNode slot text))
      ((slotSession text).evaluate 4 (quotedSlotNode slot text)) := by
  intro h
  have hkind := h.kind
  simp only [identifierSlots, List.mem_cons, List.not_mem_nil, or_false] at hslot
  rcases hslot with rfl | rfl | rfl | rfl
  · cases (Except.ok.inj hkind : ValueKind.void = .unknown)
  · rw [evaluate_slot_var] at hkind
    cases (Except.ok.inj hkind : ValueKind.function = .unknown)
  · rw [evaluate_slot_call hbare] at hkind
    cases (Except.ok.inj hkind : ValueKind.void = .unknown)
  · cases (Except.ok.inj hkind : ValueKind.unknown = .string)

end Slots

/-! ## 4. Formatting -/

/-- A program that parses, and whose identifiers in the four slots are all bare, still parses after it
was formatted, and then it runs as before in every session. In none of the slots does this hold of an
identifier that is not bare: there is a session in which formatting shows. -/
theorem evaluate_format {source : String} {root : Node} (hparse : parse source = ⟨some root, []⟩) :
    ((∀ m ∈ root.walk, m.SlotsBare) →
      ∃ root', parse root.format = ⟨some root', []⟩ ∧
        ∀ {σ : Type} [Host σ] (fuel : Nat) (s : Session σ),
          SameRun (s.evaluate fuel root) (s.evaluate fuel root')) ∧
    ∀ slot ∈ identifierSlots, ∀ text, isBareIdentifier text = false →
      ∃ root', parse (slotNode slot text).format = ⟨some root', []⟩ ∧
        ∃ fuel, ∃ s : Session LocalHost,
          ¬SameRun (s.evaluate fuel (slotNode slot text)) (s.evaluate fuel root') := by
  constructor
  · intro hbare
    obtain ⟨root', hparse', hroot⟩ := parse_format_of_writable (writable_of_parse hparse)
    exact ⟨root', hparse', fun fuel s => .of_seen (Node.seen_eq_of_readBack hbare hroot) fuel s⟩
  · intro slot hslot text hbare
    obtain ⟨root', hparse, hroot⟩ := parse_format_of_writable (writable_slotNode hslot hbare)
    refine ⟨root', hparse, 4, slotSession text, fun h => not_sameRun_slot hslot hbare ?_⟩
    -- What is read back is seen as the string, so a run that did not change would be the string's.
    have hseen : root'.seen = (quotedSlotNode slot text).seen := by
      have hspans : root'.unspanned.seen = root'.seen := Node.recast_recast root'
      rw [← hspans, hroot, readBack_slotNode hbare]
    exact h.trans (.of_seen hseen 4 (slotSession text))

/-- On the first line, from one offset up to another. -/
def Span.onFirstLine (start stop : Nat) : Span := ⟨⟨start, 1, start + 1⟩, ⟨stop, 1, stop + 1⟩⟩

/-- The text of a program that binds a name to a number and reads it. -/
def bindAndReadText (name : String) : String :=
  "Program#p \x7b Let#l(name=" ++ name ++ ") \x7b Lit#v(value=1) \x7d Var#r(name=" ++ name ++ ") \x7d"

/-- The program of such a text, in which the name takes `width` characters. -/
def bindAndRead (name : AttrValue) (width : Nat) : Node :=
  ⟨"Program", "p", ∅,
    [⟨"Let", "l", .ofList [("name", name)],
      [⟨"Lit", "v", .ofList [("value", .int 1)], [], .onFirstLine (27 + width) (41 + width)⟩],
      .onFirstLine 12 (43 + width)⟩,
      ⟨"Var", "r", .ofList [("name", name)], [], .onFirstLine (44 + width) (56 + 2 * width)⟩],
    .onFirstLine 0 (58 + 2 * width)⟩

theorem parsed_eq {p : Parsed} {root : Node} (hroot : p.root? = some root)
    (hclean : p.diagnostics = []) : p = ⟨some root, []⟩ := by
  rw [← hroot, ← hclean]

theorem evaluate_format_bare :
    parse (bindAndReadText "a") = ⟨some (bindAndRead (.identifier "a") 1), []⟩ ∧
      ∃ root, parse (bindAndRead (.identifier "a") 1).format = ⟨some root, []⟩ ∧
        SameRun ((Session.fresh "").evaluate 4 (bindAndRead (.identifier "a") 1))
          ((Session.fresh "").evaluate 4 root) := by
  have hparse : parse (bindAndReadText "a") = ⟨some (bindAndRead (.identifier "a") 1), []⟩ :=
    parsed_eq (by decide +kernel) (by decide +kernel)
  have hbare : ∀ m ∈ (bindAndRead (.identifier "a") 1).walk, m.SlotsBare := by
    have hname : isBareIdentifier "a" = true := by decide +kernel
    intro m hm
    simp only [bindAndRead, Node.walk, Node.walkList, List.append_nil, List.mem_cons,
      List.mem_append, List.not_mem_nil, or_false] at hm
    rcases hm with rfl | (rfl | rfl) | rfl <;> intro e he _ text htext
    · exact absurd he List.not_mem_nil
    all_goals rw [List.mem_singleton.mp he] at htext
    · cases htext
      exact hname
    · cases htext
    · cases htext
      exact hname
  obtain ⟨root, hback, hrun⟩ := (evaluate_format hparse).1 hbare
  exact ⟨hparse, root, hback, hrun 4 (Session.fresh "")⟩

/-- A name that begins with a digit is quoted, and then neither bound nor read. -/
theorem evaluate_format_digitLed :
    parse (bindAndReadText "1a") = ⟨some (bindAndRead (.identifier "1a") 2), []⟩ ∧
      parse (bindAndRead (.identifier "1a") 2).format = ⟨some (bindAndRead (.string "1a") 4), []⟩ ∧
      ((Session.fresh "").evaluate 4 (bindAndRead (.identifier "1a") 2)).1 = .ok (.int 1) ∧
      ((Session.fresh "").evaluate 4 (bindAndRead (.string "1a") 4)).1 = .ok .unknown := by
  refine ⟨parsed_eq ?_ ?_, parsed_eq ?_ ?_, rfl, rfl⟩ <;> decide +kernel

end Arbor
