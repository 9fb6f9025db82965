import Arbor.Diagnostic
import Arbor.Proofs.Node.RoundTrip

/-!
# Identifiers without quotes

A bare identifier is written without quotes, and read back as itself unless its first word is `true` or
`false`: such a word is read as a truth value, and the joint behind it is then out of place
(`parse_format_of_truthLed`). The printer only quotes these words when they stand alone. So an `Err`
node comes back as it was whatever its texts are, but for a code that begins in this way
(`parse_bare`).
-/

namespace Arbor

open Text

/-! ## 1. Identifiers that begin with a truth value -/

/-- The first word of the text is a truth value. -/
def Text.IsTruthLed (text : String) : Prop :=
  (segments isJoint text.toList).head? = some "true".toList ∨
    (segments isJoint text.toList).head? = some "false".toList

instance (text : String) : Decidable (IsTruthLed text) := inferInstanceAs (Decidable (_ ∨ _))

theorem AttrValue.notTruthLed_identifier {text : String} (h : ¬IsTruthLed text) :
    (AttrValue.identifier text).NotTruthLed := by
  rintro _ ⟨⟩ -
  exact ⟨fun htrue => h (.inl htrue), fun hfalse => h (.inr hfalse)⟩

/-- More words follow the first one, which is a truth value for the lexer. -/
theorem exists_later_of_truthLed {text : String} (hbare : isBareIdentifier text = true)
    (htruth : IsTruthLed text) :
    (wordShape (splitWords text.toList).1).1 = .bool ∧
      ∃ w later, (splitWords text.toList).2 = w :: later ∧ isJoint w.1 = true := by
  have hfirst : (splitWords text.toList).1 = "true".toList ∨
      (splitWords text.toList).1 = "false".toList := by
    unfold IsTruthLed at htruth
    rw [segments_eq_splitWords] at htruth
    simpa using htruth
  constructor
  · rcases hfirst with h | h <;> rw [h] <;> decide +kernel
  · have hjoints := isJoint_of_mem_splitWords text.toList
    cases hlater : (splitWords text.toList).2 with
    | cons w later => exact ⟨w, later, rfl, hjoints w (by simp [hlater])⟩
    | nil =>
      -- the truth values by themselves are not bare
      have htext := joinWords_splitWords text.toList
      unfold joinWords at htext
      rw [hlater, List.flatMap_nil, List.append_nil] at htext
      rw [htext] at hfirst
      unfold isBareIdentifier at hbare
      rcases hfirst with h | h <;> rw [String.toList_injective h] at hbare <;> simp at hbare

/-! ## 2. What the parser makes of them -/

namespace Parser

variable (finish : Token) {key text : String} {more : List (String × AttrValue)}
  {shapes : List TokenShape}

/-- The joint behind the truth value stands where the next key is expected. -/
theorem readAttrs_truthLed (hkey : (wordShape key.toList).1 ∈ [TokenKind.identifier, .bool])
    (hbare : isBareIdentifier text = true) (htruth : IsTruthLed text) {input : List Token}
    (hinput : input.map Token.shape = Node.attrShapes ((key, .identifier text) :: more) shapes) :
    ∃ joint, readAttrs finish input ∅ = ⟨[], .error (.expected .attrKey joint)⟩ := by
  obtain ⟨hbool, w, later, hlater, hjoint⟩ := exists_later_of_truthLed hbare htruth
  unfold Node.attrShapes AttrValue.shapes at hinput
  dsimp only at hinput
  rw [if_pos hbare, hlater] at hinput
  obtain ⟨k, input', rfl, hkkind, -, hinput'⟩ := exists_token hinput
  obtain ⟨mark, input'', rfl, hmark, -, hinput''⟩ := exists_token hinput'
  obtain ⟨truth, input''', rfl, htkind, -, hinput'''⟩ := exists_token hinput''
  obtain ⟨joint, rest, rfl, hjkind, -, -⟩ := exists_token hinput'''
  rw [← hkkind] at hkey
  have hclose : k.kind ≠ .rightParen := by
    intro h
    rw [h] at hkey
    exact absurd hkey (by decide)
  have hvalue : readAttrValue finish (truth :: joint :: rest) =
      ⟨[], .ok ⟨.bool (truth.text == "true"), joint :: rest, truth.span.stop,
        Nat.lt_succ_self _⟩⟩ := by
    unfold readAttrValue
    dsimp only
    rw [htkind, hbool]
    rfl
  have hstops (attrs : Attrs) :
      readAttrs finish (joint :: rest) attrs = ⟨[], .error (.expected .attrKey joint)⟩ := by
    have hkind : joint.kind = .dot ∨ joint.kind = .comma := by
      rw [hjkind]
      unfold jointKind
      split
      · exact .inl rfl
      · exact .inr rfl
    unfold readAttrs
    dsimp only
    rcases hkind with h | h <;> rw [if_neg (by simp [h]), if_neg (by simp [isName, h])] <;> rfl
  refine ⟨joint, ?_⟩
  unfold readAttrs
  dsimp only
  rw [if_neg hclose, if_pos (isName_of_kind hkey), if_pos hmark, Reading.bind_of_ok hvalue]
  have hnew : (∅ : Attrs).contains k.text = false := rfl
  rw [hnew]
  exact Reading.bind_of_error (hstops _) _

/-- A node whose first value begins with a truth value is not read. -/
theorem readRoot_truthLed {n : Node}
    (hkind : (wordShape n.kind.toList).1 ∈ [TokenKind.identifier, .bool])
    (hkey : (wordShape key.toList).1 ∈ [TokenKind.identifier, .bool])
    (hattrs : n.attrs.entries = (key, .identifier text) :: more)
    (hbare : isBareIdentifier text = true) (htruth : IsTruthLed text) {input : List Token}
    (hinput : input.map Token.shape = n.shapes shapes) :
    ∃ joint, readRoot finish input = ⟨[], .error (.expected .attrKey joint)⟩ := by
  rw [shapes_eq, hattrs] at hinput
  obtain ⟨k, afterKind, rfl, hkkind, -, hafterKind⟩ := exists_token hinput
  obtain ⟨mark, afterMark, rfl, hmark, -, hafterMark⟩ := exists_token hafterKind
  obtain ⟨i, afterId, rfl, hikind, -, hafterId⟩ := exists_token hafterMark
  obtain ⟨opening, rest, rfl, hopening, -, hrest⟩ := exists_token hafterId
  obtain ⟨joint, hjoint⟩ := readAttrs_truthLed finish hkey hbare htruth hrest
  have hlist : readAttrList finish (opening :: rest) i.span.stop =
      ⟨[], .error (.expected .attrKey joint)⟩ := by
    unfold readAttrList
    dsimp only
    rw [if_pos hopening]
    exact Reading.bind_of_error hjoint _
  have hname : isName k = true := isName_of_kind (hkkind ▸ hkind)
  have hid : isWord i = true := by
    unfold isWord
    rw [hikind]
    rcases kind_wordShape n.id.toList with h | h | h <;> rw [h] <;> rfl
  have hnode : readNode finish maxNesting (k :: mark :: i :: opening :: rest) =
      ⟨[], .error (.expected .attrKey joint)⟩ := by
    unfold maxNesting readNode readNodeWith
    dsimp only
    rw [hname, hid]
    simp only [Bool.not_true, Bool.false_eq_true, if_false]
    rw [if_neg (by simp [hmark])]
    exact Reading.bind_of_error hlist _
  exact ⟨joint, Reading.bind_of_error hnode _⟩

end Parser

/-- What is printed of such a node does not parse. -/
theorem parse_format_of_truthLed {n : Node} {key text : String} {more : List (String × AttrValue)}
    (hn : n.LexesBack) (hkind : (wordShape n.kind.toList).1 ∈ [TokenKind.identifier, .bool])
    (hkey : (wordShape key.toList).1 ∈ [TokenKind.identifier, .bool])
    (hattrs : n.attrs.entries = (key, .identifier text) :: more)
    (hbare : isBareIdentifier text = true) (htruth : IsTruthLed text) :
    ∃ joint, parse n.format = ⟨none, [(ParseError.expected .attrKey joint).diagnostic]⟩ := by
  obtain ⟨ts, p, htokens, hwell, hshapes⟩ := hn.tokenize_format
  obtain ⟨joint, hjoint⟩ := Parser.readRoot_truthLed ⟨.finish, "", ⟨p, p⟩⟩ hkind hkey hattrs hbare
    htruth hshapes
  refine ⟨joint, ?_⟩
  rw [parse_of_tokenize htokens hwell, hjoint]
  rfl

/-! ## 3. One bare value -/

/-- A node with one attribute, which is an identifier. -/
def Node.ofIdentifier (text : String) : Node where
  kind := "X"
  id := "x"
  attrs := .ofList [("k", .identifier text)]

theorem format_ofIdentifier {text : String} (hbare : isBareIdentifier text = true) :
    (Node.ofIdentifier text).format = "X#x(k=" ++ text ++ ")" := by
  have hentries : (Node.ofIdentifier text).attrs.entries = [("k", .identifier text)] := rfl
  have hvalue : (AttrValue.identifier text).write [')'] = text.toList ++ [')'] := by
    unfold AttrValue.write
    dsimp only
    rw [if_pos hbare]
  have hattrs : Node.writeAttrs [("k", .identifier text)] [] =
      '(' :: "k".toList ++ '=' :: (text.toList ++ [')']) := by
    rw [← hvalue]
    rfl
  have hwrite : (Node.ofIdentifier text).write [] =
      "X".toList ++ '#' :: "x".toList ++ Node.writeAttrs [("k", .identifier text)] [] := by
    rw [← hentries]
    unfold Node.ofIdentifier
    rw [Node.write, Node.writeBlock]
  unfold Node.format
  rw [hwrite, hattrs]
  apply String.toList_injective
  simp

/-- The words that these nodes and errors are written with. -/
def plainWords : List String := ["X", "x", "k", "Err", "code", "message", "nodeId"]

theorem isWord_plainWord : ∀ word ∈ plainWords,
    IsWord word.toList ∧ (wordShape word.toList).1 = .identifier := by decide +kernel

theorem isOneToken_plainWord (word : String) (hword : word ∈ plainWords) {kinds : List TokenKind}
    (hkinds : .identifier ∈ kinds) : ∃ k ∈ kinds, IsOneToken word k :=
  isOneToken_word word (isWord_plainWord word hword) hkinds

theorem kind_plainWord (word : String) (hword : word ∈ plainWords) :
    (wordShape word.toList).1 ∈ [TokenKind.identifier, .bool] := by
  rw [(isWord_plainWord word hword).2]
  exact List.mem_cons_self

theorem writable_ofIdentifier {text : String} (h : ¬IsTruthLed text) :
    (Node.ofIdentifier text).Writable := by
  refine ⟨⟨isOneToken_plainWord "X" (by decide) (by simp),
    isOneToken_plainWord "x" (by decide) (by simp), ?_, ?_⟩, nofun⟩
  · intro e he
    obtain rfl : e = ("k", .identifier text) := List.mem_singleton.mp he
    exact isOneToken_plainWord "k" (by decide) (by simp)
  · intro e he
    obtain rfl : e = ("k", .identifier text) := List.mem_singleton.mp he
    exact AttrValue.notTruthLed_identifier h

theorem readBack_ofIdentifier {text : String} (hbare : isBareIdentifier text = true) :
    (Node.ofIdentifier text).readBack = Node.ofIdentifier text := by
  have hentries : (Node.ofIdentifier text).attrs.entries = [("k", .identifier text)] := rfl
  have hvalue : (AttrValue.identifier text).readBack = .identifier text := by
    unfold AttrValue.readBack
    dsimp only
    rw [if_pos hbare]
  have hattrs : (Node.ofIdentifier text).attrs.mapEntries (fun _ => AttrValue.readBack) =
      (Node.ofIdentifier text).attrs := by
    refine Dict.ext ?_
    rw [Dict.entries_mapEntries, hentries, List.map_singleton, hvalue]
  unfold Node.readBack
  rw [Node.recast_eq, hattrs]
  rfl

theorem lexesBack_ofIdentifier (text : String) : (Node.ofIdentifier text).LexesBack := by
  refine Node.lexesBack_of_isWord (isWord_plainWord "X" (by decide)).1
    (isWord_plainWord "x" (by decide)).1 (fun e he => ?_) nofun
  obtain rfl : e = ("k", .identifier text) := List.mem_singleton.mp he
  exact (isWord_plainWord "k" (by decide)).1

theorem parse_ofIdentifier {text : String} (hbare : isBareIdentifier text = true)
    (htruth : ¬IsTruthLed text) :
    ∃ root, parse ("X#x(k=" ++ text ++ ")") = ⟨some root, []⟩ ∧
      root.unspanned = Node.ofIdentifier text := by
  obtain ⟨root, hparse, hroot⟩ := parse_format_of_writable (writable_ofIdentifier htruth)
  rw [readBack_ofIdentifier hbare] at hroot
  rw [format_ofIdentifier hbare] at hparse
  exact ⟨root, hparse, hroot⟩

theorem parse_ofIdentifier_of_truthLed {text : String} (hbare : isBareIdentifier text = true)
    (htruth : IsTruthLed text) :
    ∃ joint, parse ("X#x(k=" ++ text ++ ")") =
      ⟨none, [(ParseError.expected .attrKey joint).diagnostic]⟩ := by
  rw [← format_ofIdentifier hbare]
  exact parse_format_of_truthLed (lexesBack_ofIdentifier text) (kind_plainWord "X" (by decide))
    (kind_plainWord "k" (by decide)) rfl hbare htruth

/-! ## 4. Errors as nodes -/

section Errors

variable (id code message nodeId : String)

theorem entries_errNode : (errNode id code message nodeId).attrs.entries =
    [("code", if isBareIdentifier code then .identifier code else .string code),
      ("message", .string message), ("nodeId", .string nodeId)] := by
  have h1 : ¬("message" < "code") := by decide
  have h2 : ¬("nodeId" < "code") := by decide
  have h3 : ¬("nodeId" < "message") := by decide
  simp [errNode, attrs, Dict.ofList, Dict.insertAll, Dict.insert, Dict.insertEntry, Dict.empty, h1,
    h2, h3]

/-- The three texts of an error are there to be read, however the code is written. -/
theorem text?_errNode : (errNode id code message nodeId).text? "code" = some code ∧
    (errNode id code message nodeId).text? "message" = some message ∧
      (errNode id code message nodeId).text? "nodeId" = some nodeId := by
  unfold Node.text? Node.attr? Dict.find?
  rw [entries_errNode]
  refine ⟨?_, rfl, rfl⟩
  show (some (if isBareIdentifier code then AttrValue.identifier code else .string code)).bind
    AttrValue.text? = some code
  split <;> rfl

theorem readBack_errNode : (errNode id code message nodeId).readBack =
    errNode id code message nodeId := by
  have hcode : AttrValue.readBack (if isBareIdentifier code then .identifier code else .string code) =
      if isBareIdentifier code then .identifier code else .string code := by
    by_cases hbare : isBareIdentifier code = true
    · rw [if_pos hbare]
      unfold AttrValue.readBack
      dsimp only
      rw [if_pos hbare]
    · rw [if_neg hbare]
      rfl
  have hattrs : (errNode id code message nodeId).attrs.mapEntries (fun _ => AttrValue.readBack) =
      (errNode id code message nodeId).attrs := by
    refine Dict.ext ?_
    rw [Dict.entries_mapEntries, entries_errNode, List.map_cons, hcode]
    rfl
  unfold Node.readBack
  rw [Node.recast_eq, hattrs]
  rfl

variable {id code}

theorem isOneToken_errKey {e : String × AttrValue}
    (he : e ∈ (errNode id code message nodeId).attrs.entries) :
    ∃ k ∈ [TokenKind.identifier, .bool], IsOneToken e.1 k := by
  rw [entries_errNode] at he
  have hkey : e.1 ∈ ["code", "message", "nodeId"] := by
    simpa using List.mem_map_of_mem (f := Prod.fst) he
  have hsub : ["code", "message", "nodeId"] ⊆ plainWords := by decide
  exact isOneToken_plainWord e.1 (hsub hkey) (by simp)

theorem writable_errNode (hid : ∃ k ∈ [TokenKind.identifier, .int, .bool], IsOneToken id k)
    (hcode : ¬(isBareIdentifier code = true ∧ IsTruthLed code)) :
    (errNode id code message nodeId).Writable := by
  refine ⟨⟨isOneToken_plainWord "Err" (by decide) (by simp), hid,
    fun e he => isOneToken_errKey message nodeId he, fun e he => ?_⟩, nofun⟩
  rw [entries_errNode] at he
  rintro text htext hbare
  have hfirst : e = ("code", if isBareIdentifier code then .identifier code else .string code) := by
    -- the other values are strings
    rcases List.mem_cons.mp he with rfl | he
    · rfl
    · rcases List.mem_cons.mp he with rfl | he
      · cases htext
      · obtain rfl := List.mem_singleton.mp he
        cases htext
  rw [hfirst] at htext
  by_cases hbareCode : isBareIdentifier code = true
  · rw [if_pos hbareCode] at htext
    exact AttrValue.notTruthLed_identifier (fun htruth => hcode ⟨hbareCode, htruth⟩) text htext hbare
  · rw [if_neg hbareCode] at htext
    cases htext

theorem lexesBack_errNode (hid : ∃ k ∈ [TokenKind.identifier, .int, .bool], IsOneToken id k) :
    (errNode id code message nodeId).LexesBack := by
  refine Node.lexesBack_of_isWord (isWord_plainWord "Err" (by decide)).1
    (isWord_of_isOneToken (by simp) hid).1 (fun e he => ?_) nofun
  exact (isWord_of_isOneToken (by simp) (isOneToken_errKey message nodeId he)).1

theorem parse_errNode (hid : ∃ k ∈ [TokenKind.identifier, .int, .bool], IsOneToken id k)
    (hcode : ¬(isBareIdentifier code = true ∧ IsTruthLed code)) :
    ∃ root, parse (errNode id code message nodeId).format = ⟨some root, []⟩ ∧
      root.unspanned = errNode id code message nodeId := by
  obtain ⟨root, hparse, hroot⟩ :=
    parse_format_of_writable (writable_errNode message nodeId hid hcode)
  rw [readBack_errNode] at hroot
  exact ⟨root, hparse, hroot⟩

theorem parse_errNode_of_truthLed
    (hid : ∃ k ∈ [TokenKind.identifier, .int, .bool], IsOneToken id k)
    (hbare : isBareIdentifier code = true) (htruth : IsTruthLed code) :
    ∃ joint, parse (errNode id code message nodeId).format =
      ⟨none, [(ParseError.expected .attrKey joint).diagnostic]⟩ := by
  have hattrs := entries_errNode id code message nodeId
  rw [if_pos hbare] at hattrs
  exact parse_format_of_truthLed (lexesBack_errNode message nodeId hid)
    (kind_plainWord "Err" (by decide)) (kind_plainWord "code" (by decide)) hattrs hbare htruth

end Errors

/-! ## 5. What is written without quotes -/

/-- A bare text as an attribute is read as the identifier it is, if its first word is not a truth
value, and an `Err` node comes back with its three texts, if that does not hold of a bare code.
Otherwise the parser stops at the joint behind the truth value. -/
theorem parse_bare (text id code message nodeId : String) :
    (isBareIdentifier text = true →
      (¬IsTruthLed text → ∃ root, parse ("X#x(k=" ++ text ++ ")") = ⟨some root, []⟩ ∧
        root.unspanned = Node.ofIdentifier text ∧ root.attr? "k" = some (.identifier text)) ∧
      (IsTruthLed text → ∃ joint, parse ("X#x(k=" ++ text ++ ")") =
        ⟨none, [(ParseError.expected .attrKey joint).diagnostic]⟩)) ∧
    ((∃ k ∈ [TokenKind.identifier, .int, .bool], IsOneToken id k) →
      (¬(isBareIdentifier code = true ∧ IsTruthLed code) →
        ∃ root, parse (errNode id code message nodeId).format = ⟨some root, []⟩ ∧
          root.unspanned = errNode id code message nodeId ∧ root.text? "code" = some code ∧
            root.text? "message" = some message ∧ root.text? "nodeId" = some nodeId) ∧
      (isBareIdentifier code = true → IsTruthLed code →
        ∃ joint, parse (errNode id code message nodeId).format =
          ⟨none, [(ParseError.expected .attrKey joint).diagnostic]⟩)) := by
  constructor
  · intro hbare
    refine ⟨fun htruth => ?_, parse_ofIdentifier_of_truthLed hbare⟩
    obtain ⟨root, hparse, hroot⟩ := parse_ofIdentifier hbare htruth
    refine ⟨root, hparse, hroot, ?_⟩
    rw [← Node.attr?_unspanned, hroot]
    rfl
  · intro hid
    refine ⟨fun hcode => ?_, parse_errNode_of_truthLed message nodeId hid⟩
    obtain ⟨root, hparse, hroot⟩ := parse_errNode message nodeId hid hcode
    have htext (key : String) : root.text? key = (errNode id code message nodeId).text? key := by
      unfold Node.text?
      rw [← Node.attr?_unspanned, hroot]
    refine ⟨root, hparse, hroot, ?_⟩
    rw [htext, htext, htext]
    exact text?_errNode id code message nodeId

/-- Bare texts of several words, as a value and as the code of an error with a number for an id. -/
theorem parse_bare_dotted :
    (∃ root, parse "X#x(k=a,true.-1)" = ⟨some root, []⟩ ∧
      root.attr? "k" = some (.identifier "a,true.-1")) ∧
    ∃ root, parse (errNode "7" "E.1" "no \"x\"" "").format = ⟨some root, []⟩ ∧
      root.text? "code" = some "E.1" ∧ root.text? "message" = some "no \"x\"" ∧
        root.text? "nodeId" = some "" := by
  have hid : ∃ k ∈ [TokenKind.identifier, .int, .bool], IsOneToken "7" k :=
    ⟨.int, by decide, (isOneToken_iff (by simp)).mpr (by decide +kernel)⟩
  obtain ⟨hvalues, herrors⟩ := parse_bare "a,true.-1" "7" "E.1" "no \"x\"" ""
  obtain ⟨root, hparse, -, hvalue⟩ := (hvalues (by decide +kernel)).1 (by decide +kernel)
  obtain ⟨err, herr, -, htexts⟩ := (herrors hid).1 (by decide +kernel)
  exact ⟨⟨root, hparse, hvalue⟩, err, herr, htexts⟩

/-- A text that is bare and not read back, neither as a value nor as the code of an error. -/
theorem not_parse_bare :
    isBareIdentifier "true.x" = true ∧
      (¬∃ root, parse "X#x(k=true.x)" = ⟨some root, []⟩) ∧
      ¬∃ root, parse (errNode "e" "true.x" "m" "n").format = ⟨some root, []⟩ := by
  have hbare : isBareIdentifier "true.x" = true := by decide +kernel
  have hid : ∃ k ∈ [TokenKind.identifier, .int, .bool], IsOneToken "e" k :=
    isOneToken_word "e" (by decide +kernel) (by simp)
  obtain ⟨joint, hvalue⟩ := parse_ofIdentifier_of_truthLed hbare (by decide +kernel)
  obtain ⟨joint', herr⟩ := parse_errNode_of_truthLed "m" "n" hid hbare (by decide +kernel)
  refine ⟨hbare, ?_, ?_⟩
  · rintro ⟨root, hroot⟩
    have hparse : parse "X#x(k=true.x)" = ⟨none, [(ParseError.expected .attrKey joint).diagnostic]⟩ :=
      hvalue
    rw [hparse] at hroot
    cases hroot
  · rintro ⟨root, hroot⟩
    rw [herr] at hroot
    cases hroot

end Arbor
