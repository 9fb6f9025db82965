import Arbor.Proofs.Node.RoundTrip
import Arbor.Proofs.Node.Walk

/-!
# Trees that are written with plain words

Trees that stand for data have kinds and keys from a fixed stock of words, ids that are a stem with a
number behind it, and attributes from a list of pairs. Such a tree can be printed and parsed. When none
of its values is an identifier, it comes back as it was but for the spans (`parse_format_of_worded`).
-/

namespace Arbor

open Text

/-! ## 1. Words with numbers behind them -/

theorem isWord_natDigits (n : Nat) : IsWord (natDigits n) := isWord_intDigits n

theorem toList_natText (n : Nat) : (natText n).toList = natDigits n := String.toList_ofList

/-- A word stays one with parts of words behind it. -/
theorem Text.IsWord.append {cs ds : List Char} (h : IsWord cs)
    (h' : ∀ c ∈ ds, Text.isWordPart c = true) : IsWord (cs ++ ds) := by
  cases cs with
  | nil => exact h.elim
  | cons c cs =>
    refine ⟨h.1, fun d hd => ?_⟩
    rcases List.mem_append.mp hd with hd | hd
    · exact h.2 d hd
    · exact h' d hd

theorem isWord_append {stem suffix : String} (h : IsWord stem.toList) (h' : IsWord suffix.toList) :
    IsWord (stem ++ suffix).toList := by
  rw [String.toList_append]
  exact h.append h'.isWordPart

theorem isWord_append_natText {stem : String} (h : IsWord stem.toList) (n : Nat) :
    IsWord (stem ++ natText n).toList := by
  rw [String.toList_append, toList_natText]
  exact h.append (isWord_natDigits n).isWordPart

/-! ## 2. Attributes from a list -/

theorem mem_attrs {pairs : List (String × AttrValue)} {e : String × AttrValue}
    (he : e ∈ (attrs pairs).entries) : e ∈ pairs :=
  (Dict.mem_insertAll he).resolve_left List.not_mem_nil

/-- An attribute of a node that was made of a list of them, each key once. -/
theorem attr?_attrs {n : Node} {pairs : List (String × AttrValue)} (hattrs : n.attrs = attrs pairs)
    (hkeys : (pairs.map Prod.fst).Nodup) (key : String) :
    n.attr? key = Dict.lookupIn? key pairs := by
  unfold Node.attr?
  rw [hattrs]
  obtain ⟨hnot, hfind⟩ | ⟨value, hmem, hfind⟩ := Dict.find?_insertAll_cases ∅ pairs key
  · rw [Dict.lookupIn?_of_notMem hnot]
    exact hfind
  · rw [(Dict.lookupIn?_eq_some_iff hkeys).mpr hmem]
    exact hfind

theorem notTruthLed_string (text : String) : (AttrValue.string text).NotTruthLed := nofun

theorem notTruthLed_int (n : Int32) : (AttrValue.int n).NotTruthLed := nofun

/-! ## 3. Nodes -/

/-- The texts are words that the lexer takes for identifiers. -/
def AreNames (words : List String) : Prop :=
  ∀ word ∈ words, IsWord word.toList ∧ (wordShape word.toList).1 = .identifier

theorem isOneToken_of_isWord_id {id : String} (h : IsWord id.toList) :
    ∃ k ∈ [TokenKind.identifier, .int, .bool], IsOneToken id k := by
  refine ⟨(wordShape id.toList).1, ?_, (isOneToken_iff (kind_wordShape _)).mpr ⟨h, rfl⟩⟩
  simpa using kind_wordShape id.toList

theorem writableHere_of_names {words : List String} (hwords : AreNames words) {n : Node}
    {pairs : List (String × AttrValue)} (hkind : n.kind ∈ words) (hid : IsWord n.id.toList)
    (hattrs : n.attrs = attrs pairs) (hkeys : ∀ e ∈ pairs, e.1 ∈ words)
    (hvalues : ∀ e ∈ pairs, e.2.NotTruthLed) : n.WritableHere where
  kind := isOneToken_word _ (hwords _ hkind) List.mem_cons_self
  id := isOneToken_of_isWord_id hid
  keys e he := by
    rw [hattrs] at he
    exact isOneToken_word _ (hwords _ (hkeys e (mem_attrs he))) List.mem_cons_self
  values e he := by
    rw [hattrs] at he
    exact hvalues e (mem_attrs he)

theorem Node.WritableWithin.mono {levels levels' : Nat} (hle : levels ≤ levels') {n : Node}
    (h : n.WritableWithin levels) : n.WritableWithin levels' := by
  induction levels generalizing levels' n with
  | zero => exact h.elim
  | succ levels ih =>
    obtain ⟨levels', rfl⟩ : ∃ l, levels' = l + 1 := ⟨levels' - 1, by omega⟩
    exact ⟨h.1, fun c hc => ih (by omega) (h.2 c hc)⟩

theorem Node.WritableWithin.forall_walk {levels : Nat} {n : Node} (h : n.WritableWithin levels) :
    ∀ m ∈ n.walk, m.WritableHere := by
  induction levels generalizing n with
  | zero => exact h.elim
  | succ levels ih => exact forall_mem_walk h.1 fun c hc => ih (h.2 c hc)

/-! ## 4. Trees without identifiers -/

/-- The kind and the keys are of the words, the id is a word, and no value is an identifier. -/
structure Node.WordedHere (words : List String) (n : Node) : Prop where
  kind : n.kind ∈ words
  id : IsWord n.id.toList
  attrs : ∀ e ∈ n.attrs.entries, e.1 ∈ words ∧ e.2.identifier? = none

/-- So it is throughout the tree, in which nodes are nested at most so many levels deep. -/
def Node.WordedWithin (words : List String) : Nat → Node → Prop
  | 0, _ => False
  | levels + 1, n => n.WordedHere words ∧ ∀ c ∈ n.children, c.WordedWithin words levels

namespace Node

variable {words : List String}

theorem WordedHere.writableHere (hwords : AreNames words) {n : Node} (h : n.WordedHere words) :
    n.WritableHere where
  kind := isOneToken_word _ (hwords _ h.kind) List.mem_cons_self
  id := isOneToken_of_isWord_id h.id
  keys e he := isOneToken_word _ (hwords _ (h.attrs e he).1) List.mem_cons_self
  values e he := by
    rintro text htext -
    have hnone := (h.attrs e he).2
    rw [htext] at hnone
    cases hnone

theorem WordedHere.readBack {n : Node} (h : n.WordedHere words) :
    AgreeOn (fun _ _ => AttrValue.readBack) (fun _ _ v => v) n := by
  intro e he
  have hnone := (h.attrs e he).2
  cases hvalue : e.2 with
  | identifier text =>
    rw [hvalue] at hnone
    cases hnone
  | _ => rfl

theorem WordedWithin.writableWithin (hwords : AreNames words) {levels : Nat} {n : Node}
    (h : n.WordedWithin words levels) : n.WritableWithin levels := by
  induction levels generalizing n with
  | zero => exact h.elim
  | succ levels ih => exact ⟨h.1.writableHere hwords, fun c hc => ih (h.2 c hc)⟩

theorem WordedWithin.forall_walk {levels : Nat} {n : Node} (h : n.WordedWithin words levels) :
    ∀ m ∈ n.walk, m.WordedHere words := by
  induction levels generalizing n with
  | zero => exact h.elim
  | succ levels ih => exact forall_mem_walk h.1 fun c hc => ih (h.2 c hc)

/-- What is read back of such a tree is the tree. -/
theorem WordedWithin.readBack_eq {levels : Nat} {n : Node} (h : n.WordedWithin words levels) :
    n.readBack = n.unspanned :=
  recast_congr n fun m hm => (h.forall_walk m hm).readBack

end Node

/-- Such a tree, printed and parsed, comes back as it was, but for the spans. -/
theorem parse_format_of_worded {words : List String} (hwords : AreNames words) {levels : Nat}
    (hlevels : levels ≤ maxNesting) {n : Node} (h : n.WordedWithin words levels) :
    ∃ root, parse n.format = ⟨some root, []⟩ ∧ root.unspanned = n.unspanned := by
  rw [← h.readBack_eq]
  exact parse_format_of_writable ((h.writableWithin hwords).mono hlevels)

end Arbor
