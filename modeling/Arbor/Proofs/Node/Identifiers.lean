import Arbor.Proofs.Node.Acceptance
import Arbor.Proofs.Node.Phrases
import Arbor.Proofs.Node.RoundTrip
import Arbor.Proofs.Text.Names

/-!
# The values of a text that parses

What the grammar says of values holds of all values in the tree of a text (`forall_values_of_parse`).
It makes an identifier of words and joints. So every identifier in the tree is joined of words, at least
one (`isJoined_of_parse`), and one that is a single word is the text of an identifier token, no number
and no truth value (`isIdentifier_of_parse`).
-/

namespace Arbor

open Text

/-- The identifiers among the values of the node's attributes are joined of words. -/
def Node.IdentifiersJoined (n : Node) : Prop :=
  ∀ e ∈ n.attrs.entries, ∀ text, e.2 = .identifier text → IsJoined text

namespace Grammar

/-! ## 1. Attributes -/

theorem wordChars {t : Token} (ht : t.WellRead) (hkind : t.kind ∈ words) :
    ∀ c ∈ t.text.toList, isWordPart c = true := by
  have hclass : t.kind = .identifier ∨ t.kind = .int ∨ t.kind = .bool := by
    simpa [words] using hkind
  exact (ht.word hclass).1.isWordPart

theorem jointChars {t : Token} (ht : t.WellRead) (hkind : t.kind ∈ joints) :
    ∀ c ∈ t.text.toList, isJoint c = true := by
  have hclass : t.kind = .dot ∨ t.kind = .comma := by simpa [joints] using hkind
  intro c hc
  rcases hclass with hdot | hcomma
  · rw [ht.dot hdot] at hc
    obtain rfl : c = '.' := List.mem_singleton.mp hc
    decide
  · rw [ht.comma hcomma] at hc
    obtain rfl : c = ',' := List.mem_singleton.mp hc
    decide

theorem Joined.chars {word : List Token} {text : String} (h : Joined word text)
    (hword : ∀ t ∈ word, t.WellRead) : ∀ c ∈ text.toList, isWordPart c = true ∨ isJoint c = true := by
  induction h with
  | nil => simp
  | @cons joint next more text hjoint hnext hmore ih =>
    have hrest := ih fun t ht => hword t (List.mem_cons_of_mem _ (List.mem_cons_of_mem _ ht))
    intro c hc
    rw [String.toList_append, String.toList_append, List.append_assoc] at hc
    rcases List.mem_append.mp hc with hc | hc
    · exact .inr (jointChars (hword joint List.mem_cons_self) hjoint c hc)
    rcases List.mem_append.mp hc with hc | hc
    · exact .inl (wordChars (hword next (by simp)) hnext c hc)
    · exact hrest c hc

theorem Value.isJoined {word : List Token} {value : AttrValue} (h : Value word value)
    (hword : ∀ t ∈ word, t.WellRead) {text : String} (htext : value = .identifier text) :
    IsJoined text := by
  cases h with
  | string | bool | int => cases htext
  | @identifier t more rest hkind hmore =>
    cases htext
    have hfirst : t.WellRead := hword t List.mem_cons_self
    have hchars := wordChars hfirst (by simp [hkind, words])
    have hrest := hmore.chars fun u hu => hword u (List.mem_cons_of_mem t hu)
    constructor
    · intro c hc
      rw [String.toList_append] at hc
      rcases List.mem_append.mp hc with hc | hc
      · exact .inl (hchars c hc)
      · exact hrest c hc
    · -- the first word is not empty
      have hisWord : IsWord t.text.toList := (hfirst.word (.inl hkind)).1
      rw [String.toList_append]
      cases hcs : t.text.toList with
      | nil =>
        rw [hcs] at hisWord
        exact hisWord.elim
      | cons c cs =>
        exact ⟨c, by simp, hchars c (by rw [hcs]; exact List.mem_cons_self)⟩

/-- An identifier without a joint is the text of one token. -/
theorem Value.isIdentifier {word : List Token} {value : AttrValue} (h : Value word value)
    (hword : ∀ t ∈ word, t.WellRead) {text : String} (htext : value = .identifier text)
    (hjoint : ∀ c ∈ text.toList, isJoint c = false) : IsOneToken text .identifier := by
  cases h with
  | string | bool | int => cases htext
  | @identifier t more rest hkind hmore =>
    cases htext
    cases hmore with
    | nil =>
      obtain ⟨hisWord, hshape⟩ := (hword t List.mem_cons_self).word (.inl hkind)
      rw [String.append_empty]
      exact (isOneToken_iff (.inl rfl)).mpr ⟨hisWord, (congrArg Prod.fst hshape).symm.trans hkind⟩
    | @cons joint next more text hj _ _ =>
      -- the text has the joint in it
      have hread : joint.WellRead := hword joint (by simp)
      have hchars : ∃ c ∈ joint.text.toList, isJoint c = true := by
        have hclass : joint.kind = .dot ∨ joint.kind = .comma := by simpa [joints] using hj
        rcases hclass with hdot | hcomma
        · exact ⟨'.', by rw [hread.dot hdot]; decide, by decide⟩
        · exact ⟨',', by rw [hread.comma hcomma]; decide, by decide⟩
      obtain ⟨c, hc, hisJoint⟩ := hchars
      have hnot := hjoint c (by simp [String.toList_append, hc])
      rw [hisJoint] at hnot
      cases hnot

/-! ## 2. Trees -/

/-- What the grammar says of every value that stands in a text. -/
def OfValues (P : AttrValue → Prop) : Prop :=
  ∀ {word : List Token} {value : AttrValue}, Value word value → (∀ t ∈ word, t.WellRead) → P value

variable {P : AttrValue → Prop}

theorem Attributes.forall_values (hP : OfValues P) {word : List Token}
    {entries : List (Token × AttrValue)} (h : Attributes word entries)
    (hword : ∀ t ∈ word, t.WellRead) : ∀ e ∈ entries, P e.2 := by
  induction h with
  | nil => simp
  | @cons key mark front more value entries _ _ hvalue _ ih =>
    intro e he
    rcases List.mem_cons.mp he with rfl | he
    · exact hP hvalue fun t ht => hword t (by simp [ht])
    · exact ih (fun t ht => hword t (by simp [ht])) e he

theorem AttrList.forall_values (hP : OfValues P) {word : List Token}
    {entries : List (Token × AttrValue)} (h : AttrList word entries)
    (hword : ∀ t ∈ word, t.WellRead) : ∀ e ∈ entries, P e.2 := by
  cases h with
  | absent => simp
  | present _ hattributes _ => exact hattributes.forall_values hP fun t ht => hword t (by simp [ht])

theorem exists_of_mem_firstValues {entries : List (Token × AttrValue)} {e : String × AttrValue}
    (he : e ∈ (firstValues entries).entries) : ∃ d ∈ entries, d.2 = e.2 := by
  induction entries with
  | nil => cases he
  | cons head entries ih =>
    rcases Dict.mem_insertEntry he with rfl | he
    · exact ⟨head, List.mem_cons_self, rfl⟩
    · obtain ⟨d, hd, hvalue⟩ := ih he
      exact ⟨d, List.mem_cons_of_mem head hd, hvalue⟩

theorem Derives.forall_values (hP : OfValues P) {levels : Nat} {word repeated : List Token} {n : Node}
    (h : Derives levels word n repeated) (hword : ∀ t ∈ word, t.WellRead) :
    ∀ m ∈ n.walk, ∀ e ∈ m.attrs.entries, P e.2 := by
  intro m hm e he
  -- the node has a phrase of its own, whose attribute list has the value
  obtain ⟨levels', phrase, keys, -, hphrase, -, hm⟩ := h.exists_of_mem_walk hm
  have hread : ∀ t ∈ phrase, t.WellRead := fun t ht => hword t (hphrase.subset ht)
  cases levels' with
  | zero => exact hm.elim
  | succ levels' =>
    cases hm with
    | mk _ _ _ hattrs _ =>
      obtain ⟨d, hd, hvalue⟩ := exists_of_mem_firstValues he
      rw [← hvalue]
      exact hattrs.forall_values hP (fun t ht => hread t (by simp [ht])) d hd

end Grammar

theorem forall_values_of_parse {P : AttrValue → Prop} (hP : Grammar.OfValues P) {source : String}
    {root : Node} {ds : List Diagnostic} (h : parse source = ⟨some root, ds⟩) :
    ∀ m ∈ root.walk, ∀ e ∈ m.attrs.entries, P e.2 := by
  obtain ⟨ts, p, findings, htokens, hwell⟩ := exists_tokens source
  rw [parse_of_tokenize htokens hwell] at h
  dsimp only at h
  rcases hread : Parser.readRoot ⟨.finish, "", ⟨p, p⟩⟩ ts with ⟨repeated, outcome⟩
  rw [hread] at h
  cases outcome with
  | error e => cases h
  | ok read =>
    cases h
    exact ((Parser.readRoot_eq_iff _ ts repeated root).mp hread).forall_values hP hwell

/-- Every identifier in the tree of a text that parses is joined of words. -/
theorem isJoined_of_parse {source : String} {root : Node} {ds : List Diagnostic}
    (h : parse source = ⟨some root, ds⟩) : ∀ m ∈ root.walk, m.IdentifiersJoined :=
  forall_values_of_parse (P := fun value => ∀ text, value = .identifier text → IsJoined text)
    (fun hvalue hword _ htext => hvalue.isJoined hword htext) h

/-- One without a joint is the text of an identifier token. -/
theorem isIdentifier_of_parse {source : String} {root : Node} {ds : List Diagnostic}
    (h : parse source = ⟨some root, ds⟩) {m : Node} (hm : m ∈ root.walk) {key text : String}
    (htext : m.attr? key = some (.identifier text)) (hjoint : ∀ c ∈ text.toList, isJoint c = false) :
    IsOneToken text .identifier :=
  forall_values_of_parse (P := fun value => ∀ text, value = .identifier text →
      (∀ c ∈ text.toList, isJoint c = false) → IsOneToken text .identifier)
    (fun hvalue hword _ htext hjoint => hvalue.isIdentifier hword htext hjoint) h m hm (key, _)
    (Dict.find?_eq_some_iff.mp htext) text rfl hjoint

/-- The text of an identifier attribute in such a tree is joined of words. -/
theorem Node.IdentifiersJoined.ident {n : Node} (h : n.IdentifiersJoined) {key text : String}
    (htext : n.ident? key = some text) : IsJoined text := by
  unfold Node.ident? at htext
  obtain ⟨value, hvalue, hident⟩ := Option.bind_eq_some_iff.mp htext
  have hmem : (key, value) ∈ n.attrs.entries := Dict.find?_eq_some_iff.mp hvalue
  apply h (key, value) hmem text
  cases value with
  | identifier s => exact congrArg AttrValue.identifier (Option.some.inj hident)
  | _ => cases hident

end Arbor
