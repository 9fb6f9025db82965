import Arbor.Node.Parser
import Arbor.Node.Printer
import Arbor.Proofs.Token.Lexing

/-!
# The tokens of a printed node

`Node.shapes` lists the tokens that the canonical text of a node is meant to have, and
`Node.LexesBack` says that the lexer finds exactly these: the printed text falls apart where the
printer put its marks and spaces, whatever the words and the strings hold. This needs the kinds, the
ids and the keys to be single words, as they are in a `Writable` node.
-/

namespace Arbor

open Text

/-! ## 1. Writable nodes -/

/-- A value that is printed bare does not begin with a truth value. -/
def AttrValue.NotTruthLed (value : AttrValue) : Prop :=
  ∀ text, value = .identifier text → isBareIdentifier text = true →
    (segments isJoint text.toList).head? ≠ some "true".toList ∧
      (segments isJoint text.toList).head? ≠ some "false".toList

/-- The words of the node itself read as the tokens they are meant to be, and no value that is
printed bare begins with a truth value. -/
structure Node.WritableHere (n : Node) : Prop where
  kind : ∃ k ∈ [TokenKind.identifier, .bool], IsOneToken n.kind k
  id : ∃ k ∈ [TokenKind.identifier, .int, .bool], IsOneToken n.id k
  keys : ∀ e ∈ n.attrs.entries, ∃ k ∈ [TokenKind.identifier, .bool], IsOneToken e.1 k
  values : ∀ e ∈ n.attrs.entries, e.2.NotTruthLed

/-- The node can be written and read back, with at most `levels` levels of nodes in it. -/
def Node.WritableWithin : Nat → Node → Prop
  | 0, _ => False
  | levels + 1, n => n.WritableHere ∧ ∀ c ∈ n.children, c.WritableWithin levels

/-- The node can be written and read back. -/
def Node.Writable (n : Node) : Prop := n.WritableWithin maxNesting

theorem isWord_of_isOneToken {text : String} {kinds : List TokenKind}
    (hkinds : ∀ k ∈ kinds, k = .identifier ∨ k = .int ∨ k = .bool)
    (h : ∃ k ∈ kinds, IsOneToken text k) : IsWord text.toList ∧ (wordShape text.toList).1 ∈ kinds := by
  obtain ⟨k, hk, htoken⟩ := h
  obtain ⟨hword, hshape⟩ := (isOneToken_iff (hkinds k hk)).mp htoken
  exact ⟨hword, hshape ▸ hk⟩

/-- A word that is an identifier is one token, wherever identifiers may stand. -/
theorem isOneToken_word (word : String)
    (h : IsWord word.toList ∧ (wordShape word.toList).1 = .identifier) {kinds : List TokenKind}
    (hkinds : .identifier ∈ kinds) : ∃ k ∈ kinds, IsOneToken word k :=
  ⟨_, hkinds, (isOneToken_iff (.inl rfl)).mpr h⟩

namespace Node.WritableHere

variable {n : Node} (h : n.WritableHere)
include h

theorem isWord_kind : IsWord n.kind.toList ∧
    (wordShape n.kind.toList).1 ∈ [TokenKind.identifier, .bool] :=
  isWord_of_isOneToken (by simp) h.kind

theorem isWord_id : IsWord n.id.toList := (isWord_of_isOneToken (by simp) h.id).1

theorem isWord_key {e : String × AttrValue} (he : e ∈ n.attrs.entries) : IsWord e.1.toList ∧
    (wordShape e.1.toList).1 ∈ [TokenKind.identifier, .bool] :=
  isWord_of_isOneToken (by simp) (h.keys e he)

end Node.WritableHere

/-! ## 2. The tokens of a node -/

/-- The class of the mark that a joint makes. -/
def jointKind (c : Char) : TokenKind := if c = '.' then .dot else .comma

/-- The tokens of later words behind their joints, in front of `rest`. -/
def laterShapes : List (Char × List Char) → List TokenShape → List TokenShape
  | [], rest => rest
  | (joint, word) :: later, rest =>
    (jointKind joint, joint.toString) :: wordShape word :: laterShapes later rest

/-- The tokens of an attribute value, in front of `rest`. -/
def AttrValue.shapes (value : AttrValue) (rest : List TokenShape) : List TokenShape :=
  match value with
  | .string s => (.string, s) :: rest
  | .int n => (.int, intText n.toInt) :: rest
  | .bool b => (.bool, if b then "true" else "false") :: rest
  | .identifier s =>
    if isBareIdentifier s then
      let (first, later) := splitWords s.toList
      wordShape first :: laterShapes later rest
    else (.string, s) :: rest

namespace Node

/-- The tokens of attributes, in front of `rest`. -/
def attrShapes : List (String × AttrValue) → List TokenShape → List TokenShape
  | [], rest => rest
  | (key, value) :: more, rest =>
    wordShape key.toList :: (.equals, "=") :: value.shapes (attrShapes more rest)

/-- The tokens of the attribute list, in front of `rest`. -/
def attrListShapes (entries : List (String × AttrValue)) (rest : List TokenShape) :
    List TokenShape :=
  if entries.isEmpty then rest else (.leftParen, "(") :: attrShapes entries ((.rightParen, ")") :: rest)

mutual

/-- The tokens of the node, in front of `rest`. -/
def shapes : Node → List TokenShape → List TokenShape
  | ⟨kind, id, attrs, children, _⟩, rest =>
    wordShape kind.toList :: (.hash, "#") :: wordShape id.toList ::
      attrListShapes attrs.entries (blockShapes children rest)

/-- The tokens of the child list, in front of `rest`. -/
def blockShapes : List Node → List TokenShape → List TokenShape
  | [], rest => rest
  | c :: cs, rest =>
    (.leftBrace, "\x7b") :: shapes c (childShapes cs ((.rightBrace, "\x7d") :: rest))

/-- The tokens of children, in front of `rest`. -/
def childShapes : List Node → List TokenShape → List TokenShape
  | [], rest => rest
  | c :: cs, rest => shapes c (childShapes cs rest)

end

end Node

/-! ## 3. Values -/

theorem endsWord_cons {c : Char} {rest : List Char} (hc : c ∈ ' ' :: marks) :
    EndsWord (c :: rest) := by
  rintro d hd
  obtain rfl : c = d := by simpa using hd
  rcases List.mem_cons.mp hc with rfl | hc
  · exact isWordPart_of_isBlank (by decide)
  · exact isWordPart_mark c hc

theorem lexes_laterShapes {later : List (Char × List Char)}
    (hlater : ∀ w ∈ later, isJoint w.1 = true ∧ IsWord w.2) {rest : List Char}
    {shapes : List TokenShape} (hrest : EndsWord rest) (h : Lexes rest shapes) :
    Lexes ((later.flatMap fun w => w.1 :: w.2) ++ rest) (laterShapes later shapes) ∧
      EndsWord ((later.flatMap fun w => w.1 :: w.2) ++ rest) := by
  induction later with
  | nil => exact ⟨h, hrest⟩
  | cons w later ih =>
    obtain ⟨joint, word⟩ := w
    obtain ⟨hjoint, hword⟩ := hlater _ List.mem_cons_self
    obtain ⟨hlexes, hends⟩ := ih fun w hw => hlater w (List.mem_cons_of_mem _ hw)
    have hchars : (((joint, word) :: later).flatMap fun w => w.1 :: w.2) ++ rest =
        joint :: (word ++ ((later.flatMap fun w => w.1 :: w.2) ++ rest)) := by simp
    rw [hchars]
    -- a joint ends the word before it and is a token of its own
    have hmark : joint = '.' ∨ joint = ',' := by simpa [isJoint] using hjoint
    constructor
    · refine Lexes.mark ?_ (Lexes.word hword hends hlexes)
      rcases hmark with rfl | rfl <;> decide
    · refine endsWord_cons ?_
      rcases hmark with rfl | rfl <;> decide

theorem wordShape_intDigits (n : Int) : wordShape (intDigits n) = (.int, intText n) := by
  have hstart : (intDigits n).head?.any isWordStart = false := by
    have hdigits (k : Nat) : (natDigits k).head?.any isWordStart = false := by
      cases hk : natDigits k with
      | nil => rfl
      | cons c cs =>
        have hc : isDigit c = true := isDigit_of_mem_natDigits c (by rw [hk]; exact List.mem_cons_self)
        simpa using not_isWordStart_of_isDigit hc
    cases n with
    | ofNat k => exact hdigits k
    | negSucc k => simpa [intDigits] using isWordStart_mark '-' (by decide)
  unfold wordShape intText
  rw [hstart]
  simp [Lexeme.numeralKind, isIntNumeral_intDigits]

theorem lexes_value (value : AttrValue) {rest : List Char} {shapes : List TokenShape}
    (hrest : EndsWord rest) (h : Lexes rest shapes) :
    Lexes (value.write rest) (value.shapes shapes) := by
  cases value with
  | string s =>
    have hquoted := Lexes.quoted s.toList h
    rwa [String.ofList_toList] at hquoted
  | int n =>
    have hword := Lexes.word (isWord_intDigits n.toInt) hrest h
    rwa [wordShape_intDigits] at hword
  | bool b =>
    cases b with
    | true =>
      have hword : IsWord "true".toList := by decide +kernel
      exact Lexes.word hword hrest h
    | false =>
      have hword : IsWord "false".toList := by decide +kernel
      exact Lexes.word hword hrest h
  | identifier s =>
    unfold AttrValue.write AttrValue.shapes
    dsimp only
    by_cases hbare : isBareIdentifier s = true
    · rw [if_pos hbare, if_pos hbare]
      obtain ⟨hfirst, hlater⟩ := words_of_isBareIdentifier hbare
      obtain ⟨hlexes, hends⟩ := lexes_laterShapes hlater hrest h
      have hword := Lexes.word (isWord_of_isFirstWord hfirst).1 hends hlexes
      -- the words behind their joints are the text again
      have htext := joinWords_splitWords s.toList
      unfold joinWords at htext
      rwa [← List.append_assoc, htext] at hword
    · rw [if_neg hbare, if_neg hbare]
      have hquoted := Lexes.quoted s.toList h
      rwa [String.ofList_toList] at hquoted

/-! ## 4. Attributes and nodes -/

theorem not_isBlank_head_of_isWord {cs : List Char} (h : IsWord cs) (rest : List Char) :
    ∀ c, (cs ++ rest).head? = some c → isBlank c = false := by
  cases cs with
  | nil => exact h.elim
  | cons d cs =>
    intro c hc
    obtain rfl : d = c := by simpa using hc
    exact not_isBlank_of_isWordPart (isWordPart_of_isWordHead h.1)

theorem lexes_attr {key : String} (hkey : IsWord key.toList) (value : AttrValue) {rest : List Char}
    {shapes : List TokenShape} (hrest : EndsWord rest) (h : Lexes rest shapes) :
    Lexes (key.toList ++ '=' :: value.write rest)
      (wordShape key.toList :: (.equals, "=") :: value.shapes shapes) := by
  have hvalue := lexes_value value hrest h
  have hequals : Lexes ('=' :: value.write rest) ((.equals, "=") :: value.shapes shapes) :=
    Lexes.mark (by decide) hvalue
  exact Lexes.word hkey (endsWord_cons (by decide)) hequals

namespace Node

theorem lexes_writeMoreAttrs {entries : List (String × AttrValue)}
    (hkeys : ∀ e ∈ entries, IsWord e.1.toList) {rest : List Char} {shapes : List TokenShape}
    (hrest : EndsWord rest) (h : Lexes rest shapes) :
    Lexes (writeMoreAttrs entries rest) (attrShapes entries shapes) ∧
      EndsWord (writeMoreAttrs entries rest) := by
  induction entries with
  | nil => exact ⟨h, hrest⟩
  | cons e more ih =>
    obtain ⟨key, value⟩ := e
    have hkey : IsWord key.toList := hkeys (key, value) List.mem_cons_self
    obtain ⟨hmore, hends⟩ := ih fun e he => hkeys e (List.mem_cons_of_mem _ he)
    constructor
    · have hattr := lexes_attr hkey value hends hmore
      exact Lexes.space (not_isBlank_head_of_isWord hkey _) hattr
    · exact endsWord_cons (by decide)

theorem lexes_writeAttrs {entries : List (String × AttrValue)}
    (hkeys : ∀ e ∈ entries, IsWord e.1.toList) {rest : List Char} {shapes : List TokenShape}
    (hrest : EndsWord rest) (h : Lexes rest shapes) :
    Lexes (writeAttrs entries rest) (attrListShapes entries shapes) ∧
      EndsWord (writeAttrs entries rest) := by
  cases entries with
  | nil => exact ⟨h, hrest⟩
  | cons e more =>
    obtain ⟨key, value⟩ := e
    have hkey : IsWord key.toList := hkeys (key, value) List.mem_cons_self
    have hclose : Lexes (')' :: rest) ((.rightParen, ")") :: shapes) := Lexes.mark (by decide) h
    obtain ⟨hmore, hends⟩ := lexes_writeMoreAttrs (fun e he => hkeys e (List.mem_cons_of_mem _ he))
      (endsWord_cons (by decide)) hclose
    constructor
    · exact Lexes.mark (by decide) (lexes_attr hkey value hends hmore)
    · exact endsWord_cons (by decide)

/-- The lexer reads the node's text as the node's tokens, whatever stands behind it. -/
def LexesBack (n : Node) : Prop :=
  IsWord n.kind.toList ∧ ∀ {rest : List Char} {shapes : List TokenShape}, EndsWord rest →
    Lexes rest shapes → Lexes (n.write rest) (n.shapes shapes)

theorem LexesBack.not_isBlank_head {n : Node} (h : n.LexesBack) (rest : List Char) :
    ∀ c, (n.write rest).head? = some c → isBlank c = false := by
  obtain ⟨kind, id, attrs, children, span⟩ := n
  rw [write, List.append_assoc]
  exact not_isBlank_head_of_isWord h.1 _

theorem lexes_writeMoreChildren {cs : List Node} (hcs : ∀ c ∈ cs, c.LexesBack) {rest : List Char}
    {shapes : List TokenShape} (hrest : EndsWord rest) (h : Lexes rest shapes) :
    Lexes (writeMoreChildren cs rest) (childShapes cs shapes) ∧
      EndsWord (writeMoreChildren cs rest) := by
  induction cs with
  | nil => exact ⟨h, hrest⟩
  | cons c cs ih =>
    have hc := hcs c List.mem_cons_self
    obtain ⟨hmore, hends⟩ := ih fun d hd => hcs d (List.mem_cons_of_mem c hd)
    constructor
    · exact Lexes.space (hc.not_isBlank_head _) (hc.2 hends hmore)
    · exact endsWord_cons (by decide)

theorem lexes_writeBlock {cs : List Node} (hcs : ∀ c ∈ cs, c.LexesBack) {rest : List Char}
    {shapes : List TokenShape} (hrest : EndsWord rest) (h : Lexes rest shapes) :
    Lexes (writeBlock cs rest) (blockShapes cs shapes) ∧ EndsWord (writeBlock cs rest) := by
  cases cs with
  | nil => exact ⟨h, hrest⟩
  | cons c cs =>
    have hc := hcs c List.mem_cons_self
    have hbrace : Lexes ('\x7d' :: rest) ((.rightBrace, "\x7d") :: shapes) :=
      Lexes.mark (by decide) h
    have hclose : Lexes (' ' :: '\x7d' :: rest) ((.rightBrace, "\x7d") :: shapes) :=
      Lexes.space (by rintro d hd; cases hd; decide) hbrace
    obtain ⟨hmore, hends⟩ := lexes_writeMoreChildren
      (fun d hd => hcs d (List.mem_cons_of_mem c hd)) (endsWord_cons (by decide)) hclose
    have hfirst := Lexes.space (hc.not_isBlank_head _) (hc.2 hends hmore)
    constructor
    · refine Lexes.space (by rintro d hd; cases hd; decide) ?_
      exact Lexes.mark (by decide) hfirst
    · exact endsWord_cons (by decide)

/-- The kind, the id and the keys need only be words: the values may be anything. -/
theorem lexesBack_of_isWord {n : Node} (hkind : IsWord n.kind.toList) (hid : IsWord n.id.toList)
    (hkeys : ∀ e ∈ n.attrs.entries, IsWord e.1.toList) (hchildren : ∀ c ∈ n.children, c.LexesBack) :
    n.LexesBack := by
  refine ⟨hkind, fun {rest shapes} hrest hshapes => ?_⟩
  obtain ⟨kind, id, attrs, children, span⟩ := n
  -- from the back: children, attributes, id, mark and kind, each in front of what was read
  obtain ⟨hblock, hblockEnds⟩ := lexes_writeBlock hchildren hrest hshapes
  obtain ⟨hattrs, hattrsEnds⟩ := lexes_writeAttrs hkeys hblockEnds hblock
  have hword := Lexes.word hid hattrsEnds hattrs
  have hhash : Lexes ('#' :: (id.toList ++ writeAttrs attrs.entries (writeBlock children rest)))
      ((.hash, "#") :: wordShape id.toList ::
        attrListShapes attrs.entries (blockShapes children shapes)) :=
    Lexes.mark (by decide) hword
  have hfirst := Lexes.word hkind (endsWord_cons (by decide)) hhash
  rw [write, Node.shapes, List.append_assoc]
  exact hfirst

theorem WritableWithin.lexesBack {levels : Nat} {n : Node} (h : n.WritableWithin levels) :
    n.LexesBack := by
  induction levels generalizing n with
  | zero => exact h.elim
  | succ levels ih =>
    obtain ⟨hhere, hbelow⟩ := h
    exact lexesBack_of_isWord hhere.isWord_kind.1 hhere.isWord_id
      (fun e he => (hhere.isWord_key he).1) fun c hc => ih (hbelow c hc)

/-- The tokens of a printed node. -/
theorem LexesBack.tokenize_format {n : Node} (h : n.LexesBack) :
    ∃ ts p, tokenize n.format = ⟨ts ++ [⟨.finish, "", ⟨p, p⟩⟩], []⟩ ∧
      (∀ t ∈ ts, t.WellRead) ∧ ts.map Token.shape = n.shapes [] := by
  have hends : EndsWord [] := by simp [EndsWord]
  have hlexes := h.2 hends .nil
  refine tokenize_of_lexes ?_
  rwa [Node.format, String.toList_ofList]

end Node

end Arbor
