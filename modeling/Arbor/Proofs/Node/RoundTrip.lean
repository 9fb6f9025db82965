import Arbor.Proofs.Node.Reading

/-!
# Printing and parsing

Main fact: parsing undoes printing (`parse_format`). What the printer writes of a writable node is
parsed without a report, as that node up to its spans and the identifiers that had to be quoted. All
that is ever parsed is writable, so printing a text that parses is a fixed point after one pass.
-/

namespace Arbor

open Text

/-! ## 1. Printing what was read back -/

theorem AttrValue.write_readBack (value : AttrValue) (rest : List Char) :
    value.readBack.write rest = value.write rest := by
  cases value with
  | identifier s =>
    unfold AttrValue.readBack
    dsimp only
    by_cases hbare : isBareIdentifier s = true
    · rw [if_pos hbare]
    · rw [if_neg hbare]
      unfold AttrValue.write
      dsimp only
      rw [if_neg hbare]
  | _ => rfl

namespace Node

/-- The change of values does not show in what is written. -/
def KeepsText (change : String → String → AttrValue → AttrValue) : Prop :=
  ∀ kind key value rest, (change kind key value).write rest = value.write rest

variable {change : String → String → AttrValue → AttrValue}

theorem writeMoreAttrs_recast (hchange : KeepsText change) (kind : String)
    (entries : List (String × AttrValue)) (rest : List Char) :
    writeMoreAttrs (entries.map fun e => (e.1, change kind e.1 e.2)) rest =
      writeMoreAttrs entries rest := by
  induction entries with
  | nil => rfl
  | cons e more ih => rw [List.map_cons, writeMoreAttrs, writeMoreAttrs, hchange, ih]

theorem writeAttrs_recast (hchange : KeepsText change) (kind : String)
    (entries : List (String × AttrValue)) (rest : List Char) :
    writeAttrs (entries.map fun e => (e.1, change kind e.1 e.2)) rest = writeAttrs entries rest := by
  cases entries with
  | nil => rfl
  | cons e more =>
    rw [List.map_cons, writeAttrs, writeAttrs, hchange, writeMoreAttrs_recast hchange]

mutual

theorem write_recast (hchange : KeepsText change) :
    ∀ (n : Node) (rest : List Char), (n.recast change).write rest = n.write rest
  | ⟨kind, id, attrs, children, span⟩, rest => by
    rw [recast, write, write, writeBlock_recast hchange children rest, Dict.entries_mapEntries,
      writeAttrs_recast hchange]

theorem writeBlock_recast (hchange : KeepsText change) : ∀ (cs : List Node) (rest : List Char),
    writeBlock (recastList change cs) rest = writeBlock cs rest
  | [], _ => rfl
  | c :: cs, rest => by
    rw [recastList, writeBlock, writeBlock, write_recast hchange c,
      writeMoreChildren_recast hchange cs]

theorem writeMoreChildren_recast (hchange : KeepsText change) :
    ∀ (cs : List Node) (rest : List Char),
      writeMoreChildren (recastList change cs) rest = writeMoreChildren cs rest
  | [], _ => rfl
  | c :: cs, rest => by
    rw [recastList, writeMoreChildren, writeMoreChildren, write_recast hchange c,
      writeMoreChildren_recast hchange cs]

end

theorem format_recast (hchange : KeepsText change) (n : Node) :
    (n.recast change).format = n.format := by
  unfold format
  rw [write_recast hchange]

theorem format_eq_of_unspanned_eq {root n : Node} (h : root.unspanned = n.readBack) :
    root.format = n.format := by
  have hroot : root.unspanned.format = root.format := format_recast (fun _ _ _ _ => rfl) root
  have hn : n.readBack.format = n.format :=
    format_recast (fun _ _ value rest => value.write_readBack rest) n
  rw [← hroot, h, hn]

end Node

/-! ## 2. Parsing -/

theorem parse_of_tokenize {source : String} {ts : List Token} {p : Position}
    {findings : List Diagnostic}
    (h : tokenize source = ⟨ts ++ [⟨.finish, "", ⟨p, p⟩⟩], findings⟩) (hts : ∀ t ∈ ts, t.WellRead) :
    parse source =
      let reading := Parser.readRoot ⟨.finish, "", ⟨p, p⟩⟩ ts
      match reading.outcome with
      | .ok root => ⟨some root, findings ++ reading.repeated.map Parser.repeatedKey⟩
      | .error e =>
        ⟨none, findings ++ (reading.repeated.map Parser.repeatedKey ++ [e.diagnostic])⟩ := by
  have hopen : ∀ t ∈ ts, (t.kind != .finish) = true := fun t ht => by
    simpa using (hts t ht).notFinish
  have hfinish : finishToken (ts ++ [⟨.finish, "", ⟨p, p⟩⟩]) = ⟨.finish, "", ⟨p, p⟩⟩ := by
    unfold finishToken
    rw [List.find?_append, List.find?_eq_none.mpr fun t ht => by simpa using hopen t ht]
    rfl
  have htokens : (ts ++ [(⟨.finish, "", ⟨p, p⟩⟩ : Token)]).takeWhile (·.kind != .finish) = ts := by
    rw [List.takeWhile_append_of_pos hopen]
    simp
  unfold parse
  rw [h]
  dsimp only
  unfold parseTokens
  rw [hfinish, htokens]
  dsimp only
  cases (Parser.readRoot ⟨.finish, "", ⟨p, p⟩⟩ ts).outcome <;> rfl

/-- What a text that parses without a report has at its root. -/
theorem exists_parse_of_map {α : Type} {source : String} {f : Node → α} {a : α}
    (hclean : (parse source).diagnostics = []) (h : (parse source).root?.map f = some a) :
    ∃ root, parse source = ⟨some root, []⟩ ∧ f root = a := by
  obtain ⟨root, hroot, ha⟩ := Option.map_eq_some_iff.mp h
  exact ⟨root, by rw [← hroot, ← hclean], ha⟩

theorem parse_format_of_writable {n : Node} (h : n.Writable) :
    ∃ root, parse n.format = ⟨some root, []⟩ ∧ root.unspanned = n.readBack := by
  obtain ⟨ts, p, htokens, hwell, hshapes⟩ := h.lexesBack.tokenize_format
  obtain ⟨front, hfront, hvalue, hrest⟩ := Parser.readNode_shapes ⟨.finish, "", ⟨p, p⟩⟩ h
    (by rintro _ ⟨⟩) hshapes
  have hroot : Parser.readRoot ⟨.finish, "", ⟨p, p⟩⟩ ts = ⟨[], .ok front.value⟩ := by
    unfold Parser.readRoot
    rw [Parser.Reading.bind_of_ok hfront, List.map_eq_nil_iff.mp hrest]
    rfl
  refine ⟨front.value, ?_, hvalue⟩
  rw [parse_of_tokenize htokens hwell, hroot]
  rfl

theorem writable_of_parse {source : String} {root : Node} {ds : List Diagnostic}
    (h : parse source = ⟨some root, ds⟩) : root.Writable := by
  obtain ⟨ts, p, findings, htokens, hwell⟩ := exists_tokens source
  rw [parse_of_tokenize htokens hwell] at h
  dsimp only at h
  split at h
  · next root' houtcome =>
    cases h
    unfold Parser.readRoot at houtcome
    obtain ⟨front, hfront, houtcome⟩ := Parser.Reading.of_bind houtcome
    split at houtcome
    · cases houtcome
      exact (Parser.writableWithin_of_readNode _ hwell hfront).1
    · cases houtcome
  · cases h

/-! ## 3. The round trip -/

/-- What is printed of a writable node is parsed without a report: as that node, but for its spans
and for identifiers that had to be quoted, which come back as strings; and it is printed as before.
Every text that is parsed without a report has a writable root, so its printed form is printed as
itself. -/
theorem parse_format :
    (∀ n : Node, n.Writable → ∃ root, parse n.format = ⟨some root, []⟩ ∧
      root.unspanned = n.readBack ∧ root.format = n.format) ∧
    ∀ source root, parse source = ⟨some root, []⟩ → root.Writable ∧
      ∃ root', parse root.format = ⟨some root', []⟩ ∧ root'.format = root.format := by
  have hback : ∀ n : Node, n.Writable → ∃ root, parse n.format = ⟨some root, []⟩ ∧
      root.unspanned = n.readBack ∧ root.format = n.format := by
    intro n hn
    obtain ⟨root, hparse, hroot⟩ := parse_format_of_writable hn
    exact ⟨root, hparse, hroot, Node.format_eq_of_unspanned_eq hroot⟩
  refine ⟨hback, fun source root hparse => ?_⟩
  have hwritable := writable_of_parse hparse
  obtain ⟨root', hparse', -, hformat⟩ := hback root hwritable
  exact ⟨hwritable, root', hparse', hformat⟩

/-- A node with a value that has to be quoted. -/
def Node.dashed : Node := ⟨"Lit", "l1", .ofList [("value", .identifier "-a")], [], .nowhere⟩

theorem parse_format_dashed :
    Node.dashed.Writable ∧ ∃ root, parse Node.dashed.format = ⟨some root, []⟩ ∧
      root.unspanned = ⟨"Lit", "l1", .ofList [("value", .string "-a")], [], .nowhere⟩ := by
  have hwords : ∀ text ∈ ["Lit", "l1", "value"], IsOneToken text .identifier := fun text htext =>
    (isOneToken_iff (.inl rfl)).mpr (by revert text; decide +kernel)
  have hwritable : Node.dashed.Writable := by
    refine ⟨⟨⟨_, by decide, hwords _ (by decide)⟩, ⟨_, by decide, hwords _ (by decide)⟩, ?_, ?_⟩, nofun⟩
    · intro e he
      obtain rfl : e = ("value", .identifier "-a") := List.mem_singleton.mp he
      exact ⟨_, by decide, hwords _ (by decide)⟩
    · intro e he
      obtain rfl : e = ("value", .identifier "-a") := List.mem_singleton.mp he
      rintro text ⟨⟩ -
      decide +kernel
  obtain ⟨root, hparse, hroot, -⟩ := parse_format.1 Node.dashed hwritable
  refine ⟨hwritable, root, hparse, hroot.trans ?_⟩
  decide +kernel

end Arbor
