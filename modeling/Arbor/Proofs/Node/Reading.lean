import Arbor.Proofs.Node.Printing
import Arbor.Proofs.Node.Recast

/-!
# Reading the tokens of a node

`readNode_shapes` says that the parser reads the tokens of a printed node as that node, up to spans
and quoted identifiers, and leaves the tokens behind it. `writableWithin_of_readNode` is about the
other direction: whatever the parser reads from the tokens of a text can be written again.
-/

namespace Arbor

open Text

namespace Parser

variable {α β : Type}

/-! ## 1. Readings without a report -/

theorem Reading.bind_of_ok {r : Reading α} {a : α} (h : r = ⟨[], .ok a⟩) (f : α → Reading β) :
    (r >>= f) = f a := by
  subst h
  rfl

theorem Reading.bind_of_error {r : Reading α} {e : ParseError} (h : r = ⟨[], .error e⟩)
    (f : α → Reading β) : (r >>= f) = ⟨[], .error e⟩ := by
  subst h
  rfl

/-- The reading reports nothing and ends with a value of this property, in front of tokens of these
shapes. -/
def Reads {input : List Token} (r : Reading (Front α input)) (good : α → Prop)
    (shapes : List TokenShape) : Prop :=
  ∃ front, r = ⟨[], .ok front⟩ ∧ good front.value ∧ front.rest.map Token.shape = shapes

/-- The first of these tokens, if there is one, is of none of the classes. -/
def NotAhead (kinds : List TokenKind) (shapes : List TokenShape) : Prop :=
  ∀ shape, shapes.head? = some shape → shape.1 ∉ kinds

theorem notAhead_cons {kinds : List TokenKind} {shape : TokenShape} (h : shape.1 ∉ kinds)
    (shapes : List TokenShape) : NotAhead kinds (shape :: shapes) := by
  rintro s hs
  cases hs
  exact h

theorem exists_token {input : List Token} {shape : TokenShape} {shapes : List TokenShape}
    (h : input.map Token.shape = shape :: shapes) :
    ∃ t rest, input = t :: rest ∧ t.kind = shape.1 ∧ t.text = shape.2 ∧
      rest.map Token.shape = shapes := by
  obtain ⟨t, rest, rfl, rfl, hrest⟩ := List.map_eq_cons_iff.mp h
  exact ⟨t, rest, rfl, rfl, rfl, hrest⟩

theorem text_wordShape (cs : List Char) : (wordShape cs).2 = String.ofList cs := rfl

theorem kind_wordShape_notAhead (cs : List Char) :
    (wordShape cs).1 ∉ [TokenKind.leftParen, .rightParen, .leftBrace, .rightBrace, .dot, .comma] := by
  rcases kind_wordShape cs with h | h | h <;> rw [h] <;> decide

/-! ## 2. Values -/

/-- The reader takes the later words of an identifier together with the first one. -/
theorem readJoined_laterShapes {later : List (Char × List Char)}
    (hlater : ∀ w ∈ later, Text.isJoint w.1 = true ∧ IsWord w.2) {shapes : List TokenShape}
    (hshapes : NotAhead [.dot, .comma] shapes) (text : String) (stop : Position) {input : List Token}
    (hinput : input.map Token.shape = laterShapes later shapes) :
    (readJoined text stop input).1.1 =
        text ++ String.ofList (later.flatMap fun w => w.1 :: w.2) ∧
      (readJoined text stop input).1.2.1.map Token.shape = shapes := by
  induction later generalizing text stop input with
  | nil =>
    have hstop : readJoined text stop input = ⟨(text, input, stop), Nat.le_refl _⟩ := by
      cases input with
      | nil => rfl
      | cons t rest =>
        cases rest with
        | nil => rfl
        | cons word rest =>
          have ht : t.kind ∉ [TokenKind.dot, .comma] := by
            refine hshapes t.shape ?_
            rw [← show _ = shapes from hinput]
            rfl
          have hjoint : isJoint t = false := by
            unfold isJoint
            simpa using ht
          rw [readJoined, hjoint]
          rfl
    rw [hstop]
    exact ⟨by simp, hinput⟩
  | cons w later ih =>
    obtain ⟨joint, cs⟩ := w
    obtain ⟨hjoint, -⟩ := hlater _ List.mem_cons_self
    obtain ⟨t, input', rfl, htkind, httext, hinput'⟩ := exists_token hinput
    obtain ⟨word, rest, rfl, hwkind, hwtext, hrest⟩ := exists_token hinput'
    obtain ⟨htext, hleft⟩ := ih (fun w hw => hlater w (List.mem_cons_of_mem _ hw))
      (text ++ t.text ++ word.text) word.span.stop hrest
    -- a joint and a word behind it always go on
    have hreadable : (isJoint t && isWord word) = true := by
      have hj : isJoint t = true := by
        unfold isJoint
        rw [htkind]
        unfold jointKind
        split <;> rfl
      have hw : isWord word = true := by
        unfold isWord
        rw [hwkind]
        rcases kind_wordShape cs with h | h | h <;> rw [h] <;> rfl
      rw [hj, hw]
      rfl
    rw [readJoined, if_pos hreadable]
    refine ⟨htext.trans ?_, hleft⟩
    rw [httext, hwtext]
    apply String.toList_injective
    simp [text_wordShape]

theorem wordShape_first {text : String} (hbare : isBareIdentifier text = true)
    (hvalue : (AttrValue.identifier text).NotTruthLed) :
    (wordShape (splitWords text.toList).1).1 = .identifier := by
  obtain ⟨hfirst, -⟩ := words_of_isBareIdentifier hbare
  obtain ⟨-, c, hhead, hstart⟩ := isWord_of_isFirstWord hfirst
  obtain ⟨htrue, hfalse⟩ := hvalue text rfl hbare
  rw [segments_eq_splitWords] at htrue hfalse
  have hword : (wordShape (splitWords text.toList).1).1 =
      Lexeme.wordKind (String.ofList (splitWords text.toList).1) := by
    unfold wordShape
    rw [hhead]
    simp [hstart]
  rw [hword]
  unfold Lexeme.wordKind
  refine if_neg ?_
  simp only [Bool.or_eq_true, decide_eq_true_eq]
  rintro (h | h)
  · exact htrue (congrArg some (by simpa using congrArg String.toList h))
  · exact hfalse (congrArg some (by simpa using congrArg String.toList h))

theorem readAttrValue_shapes {value : AttrValue} (hvalue : value.NotTruthLed)
    {shapes : List TokenShape} (hshapes : NotAhead [.dot, .comma] shapes) (finish : Token)
    {input : List Token} (hinput : input.map Token.shape = value.shapes shapes) :
    Reads (readAttrValue finish input) (· = value.readBack) shapes := by
  cases value with
  | string s =>
    obtain ⟨t, rest, rfl, hkind, htext, hrest⟩ := exists_token hinput
    unfold readAttrValue
    dsimp only
    rw [hkind, htext]
    exact ⟨_, rfl, rfl, hrest⟩
  | int n =>
    obtain ⟨t, rest, rfl, hkind, htext, hrest⟩ := exists_token hinput
    have hread : readInt32? t.text.toList = some n := by
      rw [htext]
      simp [intText, readInt32?_intDigits]
    unfold readAttrValue
    dsimp only
    rw [hkind, hread]
    exact ⟨_, rfl, rfl, hrest⟩
  | bool b =>
    obtain ⟨t, rest, rfl, hkind, htext, hrest⟩ := exists_token hinput
    unfold readAttrValue
    dsimp only
    rw [hkind, htext]
    refine ⟨_, rfl, ?_, hrest⟩
    cases b <;> rfl
  | identifier s =>
    unfold AttrValue.shapes at hinput
    dsimp only at hinput
    unfold AttrValue.readBack
    dsimp only
    by_cases hbare : isBareIdentifier s = true
    · rw [if_pos hbare] at hinput ⊢
      obtain ⟨t, rest, rfl, hkind, htext, hrest⟩ := exists_token hinput
      have hlater := (words_of_isBareIdentifier hbare).2
      obtain ⟨hjoined, hleft⟩ := readJoined_laterShapes hlater hshapes t.text t.span.stop hrest
      rw [wordShape_first hbare hvalue] at hkind
      unfold readAttrValue
      dsimp only
      rw [hkind]
      refine ⟨_, rfl, ?_, hleft⟩
      refine congrArg AttrValue.identifier (hjoined.trans ?_)
      rw [htext, text_wordShape, ← String.ofList_append]
      have hsplit := joinWords_splitWords s.toList
      unfold joinWords at hsplit
      rw [hsplit, String.ofList_toList]
    -- quoted in the text, so a string is read back
    · rw [if_neg hbare] at hinput ⊢
      obtain ⟨t, rest, rfl, hkind, htext, hrest⟩ := exists_token hinput
      unfold readAttrValue
      dsimp only
      rw [hkind, htext]
      exact ⟨_, rfl, rfl, hrest⟩

/-! ## 3. Attributes -/

theorem isName_of_kind {t : Token} (h : t.kind ∈ [TokenKind.identifier, .bool]) :
    isName t = true := by
  unfold isName
  simpa using h

theorem notAhead_attrShapes {entries : List (String × AttrValue)} (shapes : List TokenShape) :
    NotAhead [.dot, .comma] (Node.attrShapes entries ((.rightParen, ")") :: shapes)) := by
  cases entries with
  | nil => exact notAhead_cons (by decide) _
  | cons e more =>
    refine notAhead_cons (fun h => kind_wordShape_notAhead e.1.toList ?_) _
    simp only [List.mem_cons, List.not_mem_nil, or_false] at h ⊢
    tauto

/-- Attributes in key order are read into those with smaller keys. -/
theorem readAttrs_shapes {entries : List (String × AttrValue)}
    (hkeys : ∀ e ∈ entries, (wordShape e.1.toList).1 ∈ [TokenKind.identifier, .bool])
    (hvalues : ∀ e ∈ entries, e.2.NotTruthLed) (finish : Token) {shapes : List TokenShape}
    {input : List Token}
    (hinput : input.map Token.shape = Node.attrShapes entries ((.rightParen, ")") :: shapes))
    (attrs : Attrs) (hsorted : entries.Pairwise fun a b => a.1 < b.1)
    (hbehind : ∀ a ∈ attrs.entries, ∀ e ∈ entries, a.1 < e.1) :
    Reads (readAttrs finish input attrs)
      (fun result => result.entries = attrs.entries ++ entries.map fun e => (e.1, e.2.readBack))
      shapes := by
  induction entries generalizing attrs input with
  | nil =>
    obtain ⟨t, rest, rfl, hkind, -, hrest⟩ := exists_token hinput
    unfold readAttrs
    dsimp only
    rw [if_pos hkind]
    exact ⟨_, rfl, by simp, hrest⟩
  | cons e more ih =>
    obtain ⟨key, value⟩ := e
    obtain ⟨k, input', rfl, hkkind, hktext, hinput'⟩ := exists_token hinput
    obtain ⟨mark, rest, rfl, hmark, -, hrest⟩ := exists_token hinput'
    rw [text_wordShape, String.ofList_toList] at hktext
    obtain ⟨front, hfront, hvalue, hleft⟩ := readAttrValue_shapes
      (hvalues _ List.mem_cons_self) (notAhead_attrShapes shapes) finish hrest
    have hname : k.kind ∈ [TokenKind.identifier, .bool] := hkkind ▸ hkeys _ List.mem_cons_self
    -- a key is no closing mark
    have hclose : k.kind ≠ .rightParen := by
      intro h
      rw [h] at hname
      exact absurd hname (by decide)
    obtain ⟨hfirst, hmore⟩ := List.pairwise_cons.mp hsorted
    have hlast : ∀ a ∈ attrs.entries, a.1 < key := fun a ha => hbehind a ha _ List.mem_cons_self
    -- keys come in order, so none is repeated and each goes to the end
    obtain ⟨hnew, hentries⟩ := Dict.insert_of_forall_lt value.readBack hlast
    obtain ⟨behind, hread, hresult, hend⟩ := ih
      (fun e he => hkeys e (List.mem_cons_of_mem _ he))
      (fun e he => hvalues e (List.mem_cons_of_mem _ he)) hleft
      (attrs.insert key value.readBack) hmore (by
        intro a ha e he
        rw [hentries] at ha
        rcases List.mem_append.mp ha with ha | ha
        · exact hbehind a ha e (List.mem_cons_of_mem _ he)
        · rw [List.mem_singleton.mp ha]
          exact hfirst e he)
    refine ⟨behind.widen (by have := front.shorter; simp only [List.length_cons]; omega), ?_, ?_,
      hend⟩
    · unfold readAttrs
      dsimp only
      rw [if_neg hclose, if_pos (isName_of_kind hname)]
      rw [if_pos hmark, Reading.bind_of_ok hfront, hktext, hnew, hvalue]
      dsimp only
      rw [if_neg Bool.false_ne_true, Reading.bind_of_ok hread]
      rfl
    · refine hresult.trans ?_
      rw [hentries, List.append_assoc]
      rfl

theorem readAttrList_shapes {attrs : Attrs}
    (hkeys : ∀ e ∈ attrs.entries, (wordShape e.1.toList).1 ∈ [TokenKind.identifier, .bool])
    (hvalues : ∀ e ∈ attrs.entries, e.2.NotTruthLed) (finish : Token) {shapes : List TokenShape}
    (hshapes : NotAhead [.leftParen] shapes) {input : List Token}
    (hinput : input.map Token.shape = Node.attrListShapes attrs.entries shapes) (stop : Position) :
    ∃ r, readAttrList finish input stop = ⟨[], .ok r⟩ ∧
      r.1.1 = attrs.mapEntries (fun _ => AttrValue.readBack) ∧
      r.1.2.1.map Token.shape = shapes := by
  unfold Node.attrListShapes at hinput
  by_cases hempty : attrs.entries.isEmpty = true
  · rw [if_pos hempty] at hinput
    have hattrs : ∅ = attrs.mapEntries (fun _ => AttrValue.readBack) := by
      apply Dict.ext
      rw [Dict.entries_mapEntries, List.isEmpty_iff.mp hempty]
      rfl
    have hread : readAttrList finish input stop = ⟨[], .ok ⟨(∅, input, stop), Nat.le_refl _⟩⟩ := by
      cases input with
      | nil => rfl
      | cons t rest =>
        have ht : t.kind ≠ .leftParen := fun h =>
          hshapes t.shape (by rw [← hinput]; rfl) (List.mem_singleton.mpr h)
        unfold readAttrList
        dsimp only
        rw [if_neg ht]
        rfl
    exact ⟨_, hread, hattrs, hinput⟩
  · rw [if_neg hempty] at hinput
    obtain ⟨t, rest, rfl, hkind, -, hrest⟩ := exists_token hinput
    obtain ⟨front, hfront, hresult, hleft⟩ := readAttrs_shapes hkeys hvalues finish hrest ∅
      attrs.sorted (by intro a ha; cases ha)
    refine ⟨⟨(front.value, front.rest, front.stop), Nat.le_of_lt (Nat.lt_succ_of_lt front.shorter)⟩,
      ?_, Dict.ext hresult, hleft⟩
    unfold readAttrList
    dsimp only
    rw [if_pos hkind, Reading.bind_of_ok hfront]
    rfl

/-! ## 4. Nodes -/

/-- The reader reads the node's tokens as the node, whatever tokens stand behind them. -/
def ReadsBack (readChild : (input : List Token) → Reading (Front Node input)) (n : Node) : Prop :=
  ∀ {shapes : List TokenShape} {input : List Token}, NotAhead [.leftParen, .leftBrace] shapes →
    input.map Token.shape = n.shapes shapes →
      Reads (readChild input) (fun m => m.unspanned = n.readBack) shapes

theorem shapes_eq (n : Node) (shapes : List TokenShape) :
    n.shapes shapes = wordShape n.kind.toList :: (.hash, "#") :: wordShape n.id.toList ::
      Node.attrListShapes n.attrs.entries (Node.blockShapes n.children shapes) := by
  cases n
  rw [Node.shapes]

theorem notAhead_childShapes (cs : List Node) (shapes : List TokenShape) :
    NotAhead [.leftParen, .leftBrace]
      (Node.childShapes cs ((.rightBrace, "\x7d") :: shapes)) := by
  cases cs with
  | nil => exact notAhead_cons (by decide) _
  | cons c cs =>
    rw [Node.childShapes, shapes_eq]
    refine notAhead_cons (fun h => kind_wordShape_notAhead c.kind.toList ?_) _
    simp only [List.mem_cons, List.not_mem_nil, or_false] at h ⊢
    tauto

section Children

variable {readChild : (input : List Token) → Reading (Front Node input)} {cs : List Node}
  (hcs : ∀ c ∈ cs, ReadsBack readChild c) (finish : Token) {shapes : List TokenShape}
  {input : List Token}
include hcs

theorem readChildren_shapes
    (hinput : input.map Token.shape = Node.childShapes cs ((.rightBrace, "\x7d") :: shapes)) :
    Reads (readChildren readChild finish input)
      (fun ms => ms.map Node.unspanned = cs.map Node.readBack) shapes := by
  induction cs generalizing input with
  | nil =>
    obtain ⟨t, rest, rfl, hkind, -, hrest⟩ := exists_token hinput
    unfold readChildren
    dsimp only
    rw [if_pos hkind]
    exact ⟨_, rfl, rfl, hrest⟩
  | cons c cs ih =>
    rw [Node.childShapes] at hinput
    obtain ⟨t, rest, rfl, hkind, -, -⟩ := exists_token (hinput.trans (shapes_eq c _))
    -- a child begins with its kind, so the list is not over
    have hopen : t.kind ≠ .rightBrace := by
      intro h
      rw [hkind] at h
      exact kind_wordShape_notAhead c.kind.toList (by rw [h]; decide)
    obtain ⟨child, hchild, hvalue, hleft⟩ :=
      hcs c List.mem_cons_self (notAhead_childShapes cs shapes) hinput
    obtain ⟨siblings, hsiblings, hvalues, hend⟩ :=
      ih (fun d hd => hcs d (List.mem_cons_of_mem c hd)) hleft
    refine ⟨(siblings.map (child.value :: ·)).widen (Nat.le_of_lt child.shorter), ?_, ?_, hend⟩
    · unfold readChildren
      dsimp only
      rw [if_neg hopen, Reading.bind_of_ok hchild, Reading.bind_of_ok hsiblings]
      rfl
    · show child.value.unspanned :: siblings.value.map Node.unspanned = _
      rw [hvalue, hvalues]
      rfl

theorem readChildList_shapes (hshapes : NotAhead [.leftBrace] shapes)
    (hinput : input.map Token.shape = Node.blockShapes cs shapes) (stop : Position) :
    ∃ r, readChildList readChild finish input stop = ⟨[], .ok r⟩ ∧
      r.1.1.map Node.unspanned = cs.map Node.readBack ∧ r.1.2.1.map Token.shape = shapes := by
  cases cs with
  | nil =>
    have hread : readChildList readChild finish input stop =
        ⟨[], .ok ⟨([], input, stop), Nat.le_refl _⟩⟩ := by
      cases input with
      | nil => rfl
      | cons t rest =>
        have ht : t.kind ≠ .leftBrace := fun h =>
          hshapes t.shape (by rw [← show _ = shapes from hinput]; rfl) (List.mem_singleton.mpr h)
        unfold readChildList
        dsimp only
        rw [if_neg ht]
        rfl
    exact ⟨_, hread, rfl, hinput⟩
  | cons c cs =>
    obtain ⟨t, rest, rfl, hkind, -, hrest⟩ := exists_token hinput
    obtain ⟨front, hfront, hvalues, hleft⟩ := readChildren_shapes hcs finish hrest
    refine ⟨⟨(front.value, front.rest, front.stop), Nat.le_of_lt (Nat.lt_succ_of_lt front.shorter)⟩,
      ?_, hvalues, hleft⟩
    unfold readChildList
    dsimp only
    rw [if_pos hkind, Reading.bind_of_ok hfront]
    rfl

end Children

theorem readNode_shapes (finish : Token) {levels : Nat} {n : Node} (h : n.WritableWithin levels) :
    ReadsBack (readNode finish levels) n := by
  induction levels generalizing n with
  | zero => exact h.elim
  | succ levels ih =>
    obtain ⟨hhere, hbelow⟩ := h
    intro shapes input hshapes hinput
    rw [shapes_eq] at hinput
    obtain ⟨k, input', rfl, hkkind, hktext, hinput'⟩ := exists_token hinput
    obtain ⟨mark, input'', rfl, hmark, -, hinput''⟩ := exists_token hinput'
    obtain ⟨i, rest, rfl, hikind, hitext, hrest⟩ := exists_token hinput''
    rw [text_wordShape, String.ofList_toList] at hktext hitext
    have hname : isName k = true := isName_of_kind (hkkind ▸ hhere.isWord_kind.2)
    have hid : isWord i = true := by
      unfold isWord
      rw [hikind]
      rcases kind_wordShape n.id.toList with h | h | h <;> rw [h] <;> rfl
    have hblock : NotAhead [.leftParen] (Node.blockShapes n.children shapes) := by
      cases n.children with
      | nil =>
        intro s hs hmem
        exact hshapes s hs (List.mem_cons.mpr (.inl (List.mem_singleton.mp hmem)))
      | cons c cs => exact notAhead_cons (by decide) _
    obtain ⟨attrs, hattrs, hattrsValue, hattrsLeft⟩ := readAttrList_shapes
      (fun e he => (hhere.isWord_key he).2) hhere.values finish hblock hrest i.span.stop
    obtain ⟨children, hchildren, hchildrenValue, hleft⟩ := readChildList_shapes
      (fun c hc => ih (hbelow c hc)) finish
      (fun s hs hmem => hshapes s hs (List.mem_cons_of_mem _ hmem)) hattrsLeft attrs.1.2.2
    -- the three tokens of the head are used up
    have hshorter : children.1.2.1.length < (k :: mark :: i :: rest).length := by
      have hattrsLength := attrs.2
      have hchildrenLength := children.2
      simp only [List.length_cons]
      omega
    refine ⟨⟨⟨k.text, i.text, attrs.1.1, children.1.1, ⟨k.span.start, children.1.2.2⟩⟩,
      children.1.2.1, children.1.2.2, hshorter⟩, ?_, ?_, hleft⟩
    · unfold readNode readNodeWith
      dsimp only
      rw [hname, hid]
      simp only [Bool.not_true, Bool.false_eq_true, if_false]
      rw [if_neg (by simp [hmark]), Reading.bind_of_ok hattrs, Reading.bind_of_ok hchildren]
      rfl
    · dsimp only
      rw [Node.unspanned, Node.recast_eq, Node.readBack, Node.recast_eq _ n, hattrsValue,
        Dict.mapEntries_id, hktext, hitext]
      exact congrArg (Node.mk n.kind n.id _ · _) hchildrenValue

/-! ## 5. What is read can be written -/

theorem Reading.of_bind {r : Reading α} {f : α → Reading β} {b : β}
    (h : (r >>= f).outcome = .ok b) : ∃ a, r.outcome = .ok a ∧ (f a).outcome = .ok b := by
  obtain ⟨repeated, outcome⟩ := r
  cases outcome with
  | ok a => exact ⟨a, rfl, h⟩
  | error e => cases h

theorem readJoined_words (text : String) (stop : Position) (input : List Token)
    (hinput : ∀ t ∈ input, t.WellRead) :
    ∃ later : List (Char × List Char), (∀ w ∈ later, Text.isJoint w.1 = true) ∧
      (readJoined text stop input).1.1.toList =
        text.toList ++ later.flatMap (fun w => w.1 :: w.2) ∧
      (readJoined text stop input).1.2.1 ⊆ input := by
  fun_induction readJoined text stop input with
  | case1 text stop joint word rest hreadable r h heq ih =>
    obtain ⟨later, hlater, htext, hrest⟩ := ih fun t ht =>
      hinput t (List.mem_cons_of_mem _ (List.mem_cons_of_mem _ ht))
    rw [heq] at htext hrest
    have hjoint : isJoint joint = true := (Bool.and_eq_true_iff.mp hreadable).1
    have hwell := hinput joint List.mem_cons_self
    have hmark : ∃ c, Text.isJoint c = true ∧ joint.text.toList = [c] := by
      simp only [isJoint, Bool.or_eq_true, beq_iff_eq] at hjoint
      rcases hjoint with hdot | hcomma
      · exact ⟨'.', rfl, by rw [hwell.dot hdot]; rfl⟩
      · exact ⟨',', rfl, by rw [hwell.comma hcomma]; rfl⟩
    obtain ⟨c, hc, hchars⟩ := hmark
    refine ⟨(c, word.text.toList) :: later, ?_, ?_, ?_⟩
    · intro w hw
      rcases List.mem_cons.mp hw with rfl | hw
      · exact hc
      · exact hlater w hw
    · rw [htext]
      simp [hchars]
    · exact fun t ht => List.mem_cons_of_mem _ (List.mem_cons_of_mem _ (hrest ht))
  | case2 => exact ⟨[], by simp, by simp, fun _ h => h⟩
  | case3 => exact ⟨[], by simp, by simp, fun _ h => h⟩

theorem readAttrValue_notTruthLed {finish : Token} {input : List Token}
    (hinput : ∀ t ∈ input, t.WellRead) {front : Front AttrValue input}
    (h : (readAttrValue finish input).outcome = .ok front) :
    front.value.NotTruthLed ∧ front.rest ⊆ input := by
  unfold readAttrValue at h
  split at h
  · cases h
  · next t rest =>
    dsimp only at h
    split at h
    · cases h
      exact ⟨by rintro _ ⟨⟩, fun _ => List.mem_cons_of_mem t⟩
    · cases h
      exact ⟨by rintro _ ⟨⟩, fun _ => List.mem_cons_of_mem t⟩
    · split at h
      · cases h
        exact ⟨by rintro _ ⟨⟩, fun _ => List.mem_cons_of_mem t⟩
      · cases h
    · next hkind =>
      obtain ⟨later, hlater, htext, hrest⟩ := readJoined_words t.text t.span.stop rest
        fun d hd => hinput d (List.mem_cons_of_mem t hd)
      have hwell := hinput t List.mem_cons_self
      have hword := (hwell.word (.inl hkind)).1
      obtain ⟨htrue, hfalse⟩ := hwell.ne_truth hkind
      cases h
      refine ⟨?_, fun d hd => List.mem_cons_of_mem t (hrest hd)⟩
      rintro text heq -
      obtain rfl := AttrValue.identifier.inj heq
      have hhead := head?_segments_joinWords hword.not_isJoint hlater
      unfold joinWords at hhead
      rw [htext, hhead]
      exact ⟨fun hw => htrue (String.toList_injective (Option.some.inj hw)),
        fun hw => hfalse (String.toList_injective (Option.some.inj hw))⟩
    · cases h

/-- The attribute can be written in a node. -/
def WritableAttr (e : String × AttrValue) : Prop :=
  (∃ k ∈ [TokenKind.identifier, .bool], IsOneToken e.1 k) ∧ e.2.NotTruthLed

theorem isOneToken_of_isName {t : Token} (h : t.WellRead) (hname : isName t = true) :
    ∃ k ∈ [TokenKind.identifier, .bool], IsOneToken t.text k := by
  have hkind : t.kind = .identifier ∨ t.kind = .bool := by
    simpa [isName, Bool.or_eq_true] using hname
  obtain ⟨hword, hshape⟩ := h.word (by tauto)
  refine ⟨t.kind, by simpa using hkind, ?_⟩
  exact (isOneToken_iff (by tauto)).mpr ⟨hword, (congrArg Prod.fst hshape).symm⟩

theorem isOneToken_of_isWord {t : Token} (h : t.WellRead) (hid : isWord t = true) :
    ∃ k ∈ [TokenKind.identifier, .int, .bool], IsOneToken t.text k := by
  have hkind : t.kind = .identifier ∨ t.kind = .int ∨ t.kind = .bool := by
    simpa [isWord, Bool.or_eq_true, or_assoc] using hid
  obtain ⟨hword, hshape⟩ := h.word hkind
  refine ⟨t.kind, by simpa using hkind, ?_⟩
  exact (isOneToken_iff hkind).mpr ⟨hword, (congrArg Prod.fst hshape).symm⟩

theorem readAttrs_writable {finish : Token} {input : List Token} (hinput : ∀ t ∈ input, t.WellRead)
    {attrs : Attrs} (hattrs : ∀ e ∈ attrs.entries, WritableAttr e) {front : Front Attrs input}
    (h : (readAttrs finish input attrs).outcome = .ok front) :
    (∀ e ∈ front.value.entries, WritableAttr e) ∧ front.rest ⊆ input := by
  generalize hlength : input.length = n
  induction n using Nat.strongRecOn generalizing input attrs with
  | ind n ih =>
    unfold readAttrs at h
    split at h
    · cases h
    next key rest =>
    split at h
    · cases h
      exact ⟨hattrs, fun _ => List.mem_cons_of_mem key⟩
    split at h
    swap
    · cases h
    next hname =>
    split at h
    · cases h
    next mark rest' =>
    split at h
    swap
    · cases h
    obtain ⟨value, hvalue, h⟩ := Reading.of_bind h
    obtain ⟨hwritable, hrest⟩ := readAttrValue_notTruthLed (fun t ht =>
      hinput t (List.mem_cons_of_mem _ (List.mem_cons_of_mem _ ht))) hvalue
    have hbehind : ∀ t ∈ value.rest, t ∈ key :: mark :: rest' := fun t ht =>
      List.mem_cons_of_mem _ (List.mem_cons_of_mem _ (hrest ht))
    have hshort : value.rest.length < n := by
      have := value.shorter
      simp only [List.length_cons] at hlength
      omega
    dsimp only at h
    split at h
    · obtain ⟨-, -, h⟩ := Reading.of_bind h
      obtain ⟨front', hfront', h⟩ := Reading.of_bind h
      cases h
      obtain ⟨hentries, hleft⟩ :=
        ih _ hshort (fun t ht => hinput t (hbehind t ht)) hattrs hfront' rfl
      exact ⟨hentries, fun t ht => hbehind t (hleft ht)⟩
    · obtain ⟨front', hfront', h⟩ := Reading.of_bind h
      cases h
      have hgrown : ∀ e ∈ (attrs.insert key.text value.value).entries, WritableAttr e := by
        intro e he
        rcases Dict.mem_insertEntry he with rfl | he
        · exact ⟨isOneToken_of_isName (hinput key List.mem_cons_self) hname, hwritable⟩
        · exact hattrs e he
      obtain ⟨hentries, hleft⟩ :=
        ih _ hshort (fun t ht => hinput t (hbehind t ht)) hgrown hfront' rfl
      exact ⟨hentries, fun t ht => hbehind t (hleft ht)⟩

theorem readAttrList_writable {finish : Token} {input : List Token}
    (hinput : ∀ t ∈ input, t.WellRead) {stop : Position}
    {r : { r : Attrs × List Token × Position // r.2.1.length ≤ input.length }}
    (h : (readAttrList finish input stop).outcome = .ok r) :
    (∀ e ∈ r.1.1.entries, WritableAttr e) ∧ r.1.2.1 ⊆ input := by
  unfold readAttrList at h
  split at h
  · cases h
    exact ⟨fun _ he => absurd he List.not_mem_nil, fun _ => id⟩
  next t rest =>
  split at h
  · obtain ⟨front, hfront, h⟩ := Reading.of_bind h
    cases h
    obtain ⟨hentries, hleft⟩ :=
      readAttrs_writable (fun d hd => hinput d (List.mem_cons_of_mem t hd))
        (fun e he => absurd he List.not_mem_nil) hfront
    exact ⟨hentries, fun d hd => List.mem_cons_of_mem t (hleft hd)⟩
  · cases h
    exact ⟨fun _ he => absurd he List.not_mem_nil, fun _ => id⟩

section Children

variable {readChild : (input : List Token) → Reading (Front Node input)} {good : Node → Prop}
  (hread : ∀ {input : List Token}, (∀ t ∈ input, t.WellRead) → ∀ {front : Front Node input},
    (readChild input).outcome = .ok front → good front.value ∧ front.rest ⊆ input)
  {finish : Token} {input : List Token} (hinput : ∀ t ∈ input, t.WellRead)
include hread hinput

theorem readChildren_forall {front : Front (List Node) input}
    (h : (readChildren readChild finish input).outcome = .ok front) :
    (∀ c ∈ front.value, good c) ∧ front.rest ⊆ input := by
  generalize hlength : input.length = n
  induction n using Nat.strongRecOn generalizing input with
  | ind n ih =>
    unfold readChildren at h
    split at h
    · cases h
    next t rest =>
    split at h
    · cases h
      exact ⟨fun _ he => absurd he List.not_mem_nil, fun _ => List.mem_cons_of_mem t⟩
    · obtain ⟨child, hchild, h⟩ := Reading.of_bind h
      obtain ⟨siblings, hsiblings, h⟩ := Reading.of_bind h
      cases h
      obtain ⟨hgood, hrest⟩ := hread hinput hchild
      obtain ⟨hall, hleft⟩ := ih _ (hlength ▸ child.shorter)
        (fun d hd => hinput d (hrest hd)) hsiblings rfl
      refine ⟨?_, fun d hd => hrest (hleft hd)⟩
      intro c hc
      rcases List.mem_cons.mp hc with rfl | hc
      · exact hgood
      · exact hall c hc

theorem readChildList_forall {stop : Position}
    {r : { r : List Node × List Token × Position // r.2.1.length ≤ input.length }}
    (h : (readChildList readChild finish input stop).outcome = .ok r) :
    (∀ c ∈ r.1.1, good c) ∧ r.1.2.1 ⊆ input := by
  unfold readChildList at h
  split at h
  · cases h
    exact ⟨fun _ he => absurd he List.not_mem_nil, fun _ => id⟩
  next t rest =>
  split at h
  · obtain ⟨front, hfront, h⟩ := Reading.of_bind h
    cases h
    obtain ⟨hall, hleft⟩ :=
      readChildren_forall hread (fun d hd => hinput d (List.mem_cons_of_mem t hd)) hfront
    exact ⟨hall, fun d hd => List.mem_cons_of_mem t (hleft hd)⟩
  · cases h
    exact ⟨fun _ he => absurd he List.not_mem_nil, fun _ => id⟩

end Children

theorem writableWithin_of_readNode (finish : Token) {levels : Nat} {input : List Token}
    (hinput : ∀ t ∈ input, t.WellRead) {front : Front Node input}
    (h : (readNode finish levels input).outcome = .ok front) :
    front.value.WritableWithin levels ∧ front.rest ⊆ input := by
  induction levels generalizing input with
  | zero => cases input <;> cases h
  | succ levels ih =>
    unfold readNode readNodeWith at h
    split at h
    · cases h
    next kind afterKind =>
    split at h
    · cases h
    next hkind =>
    split at h
    · cases h
    next hash afterHash =>
    split at h
    · cases h
    split at h
    · cases h
    next id afterId =>
    split at h
    · cases h
    next hid =>
    obtain ⟨attrs, hattrs, h⟩ := Reading.of_bind h
    obtain ⟨children, hchildren, h⟩ := Reading.of_bind h
    cases h
    have htail : ∀ t ∈ afterId, t ∈ kind :: hash :: id :: afterId := fun t ht =>
      List.mem_cons_of_mem _ (List.mem_cons_of_mem _ (List.mem_cons_of_mem _ ht))
    obtain ⟨hwritable, hattrsRest⟩ := readAttrList_writable (fun t ht => hinput t (htail t ht)) hattrs
    obtain ⟨hbelow, hrest⟩ := readChildList_forall
      (fun hinput _ hread => ih hinput hread) (fun t ht => hinput t (htail t (hattrsRest ht))) hchildren
    refine ⟨⟨⟨?_, ?_, ?_, ?_⟩, hbelow⟩, fun t ht => htail t (hattrsRest (hrest ht))⟩
    · exact isOneToken_of_isName (hinput kind List.mem_cons_self) (by simpa using hkind)
    · exact isOneToken_of_isWord (hinput id (by simp)) (by simpa using hid)
    · exact fun e he => (hwritable e he).1
    · exact fun e he => (hwritable e he).2

end Parser

end Arbor
