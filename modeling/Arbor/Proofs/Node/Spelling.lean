import Arbor.Proofs.Node.Acceptance
import Arbor.Proofs.Node.Phrases
import Arbor.Proofs.Node.Worded

/-!
# Texts for trees

Words and marks are written as what they are, with a space before each. So whatever the grammar derives
from such tokens, there is a text that parses to it (`exists_parse_of_derives`), also where the printer
would write something else. That holds of each tree whose values are made of words
(`exists_parse_of_spellable`).
-/

namespace Arbor

open Text

/-! ## 1. Words and marks -/

/-- The tokens that are no words and no strings, each a character. -/
def markKinds : List (Char × TokenKind) :=
  [('#', .hash), ('(', .leftParen), (')', .rightParen), ('{', .leftBrace), ('}', .rightBrace),
    ('=', .equals), ('.', .dot), (',', .comma)]

def markShapes : List TokenShape := markKinds.map fun (c, kind) => (kind, c.toString)

/-- The token is a word or a mark. -/
def IsPlain (shape : TokenShape) : Prop :=
  (IsWord shape.2.toList ∧ wordShape shape.2.toList = shape) ∨ shape ∈ markShapes

instance (shape : TokenShape) : Decidable (IsPlain shape) := inferInstanceAs (Decidable (_ ∨ _))

/-- The texts of the tokens, a space before each. -/
def spelled (shapes : List TokenShape) : List Char := shapes.flatMap fun shape => ' ' :: shape.2.toList

theorem endsWord_spelled (shapes : List TokenShape) : EndsWord (spelled shapes) := by
  cases shapes with
  | nil => exact nofun
  | cons shape shapes => exact endsWord_cons (by decide)

theorem lexes_spelled {shapes : List TokenShape} (h : ∀ shape ∈ shapes, IsPlain shape) :
    Lexes (spelled shapes) shapes := by
  induction shapes with
  | nil => exact .nil
  | cons shape shapes ih =>
    have hrest := ih fun s hs => h s (List.mem_cons_of_mem _ hs)
    show Lexes (' ' :: (shape.2.toList ++ spelled shapes)) _
    obtain ⟨hword, hshape⟩ | hmark := h shape List.mem_cons_self
    · have hlexes := Lexes.word hword (endsWord_spelled shapes) hrest
      rw [hshape] at hlexes
      exact .space (not_isBlank_head_of_isWord hword _) hlexes
    · obtain ⟨⟨c, kind⟩, hmem, rfl⟩ := List.mem_map.mp hmark
      have hblanks : ∀ e ∈ markKinds, isBlank e.1 = false := by decide
      have hblank : isBlank c = false := hblanks (c, kind) hmem
      have hhead : ∀ d, (c :: spelled shapes).head? = some d → isBlank d = false := by
        intro d hd
        obtain rfl : c = d := Option.some.inj hd
        exact hblank
      have hchars : c.toString.toList = [c] := String.toList_singleton c
      rw [hchars]
      exact .space hhead (.mark hmem hrest)

/-- What the grammar derives from words and marks, without a repeated key, is in the tree of a text. -/
theorem exists_parse_of_derives {word : List Token} {n : Node}
    (h : Grammar.Derives maxNesting word n []) (hplain : ∀ t ∈ word, IsPlain t.shape) :
    ∃ text root, parse text = ⟨some root, []⟩ ∧ root.unspanned = n.unspanned := by
  let text : String := String.ofList (spelled (word.map Token.shape))
  have hlexes : Lexes text.toList (word.map Token.shape) := by
    rw [String.toList_ofList]
    refine lexes_spelled fun shape hshape => ?_
    obtain ⟨t, ht, rfl⟩ := List.mem_map.mp hshape
    exact hplain t ht
  obtain ⟨ts, p, htokens, hwell, hshapes⟩ := tokenize_of_lexes hlexes
  obtain ⟨root, repeated, hroot, hsame, hrepeated⟩ := Grammar.Derives.congr maxNesting h hshapes
  obtain rfl : repeated = [] := List.map_eq_nil_iff.mp hrepeated
  refine ⟨text, root, ?_, hsame⟩
  rw [parse_of_tokenize htokens hwell,
    (Parser.readRoot_eq_iff ⟨.finish, "", ⟨p, p⟩⟩ ts [] root).mpr hroot]
  rfl

/-! ## 2. Trees from words and marks -/

/-- The token of the shape, wherever it stands. -/
def loose (shape : TokenShape) : Token := ⟨shape.1, shape.2, .nowhere⟩

/-- The value is made of words. -/
def AttrValue.Spellable (value : AttrValue) : Prop :=
  ∃ word, Grammar.Value word value ∧ ∀ t ∈ word, IsPlain t.shape

/-- The words of the node itself are tokens of the classes that they have to be of, and its values are
made of words. -/
structure Node.SpellableHere (n : Node) : Prop where
  kind : ∃ k ∈ Grammar.names, IsOneToken n.kind k
  id : ∃ k ∈ Grammar.words, IsOneToken n.id k
  keys : ∀ e ∈ n.attrs.entries, ∃ k ∈ Grammar.names, IsOneToken e.1 k
  values : ∀ e ∈ n.attrs.entries, e.2.Spellable

/-- So it is throughout the tree, in which nodes are nested at most so many levels deep. -/
def Node.SpellableWithin : Nat → Node → Prop
  | 0, _ => False
  | levels + 1, n => n.SpellableHere ∧ ∀ c ∈ n.children, c.SpellableWithin levels

theorem isPlain_of_isOneToken {text : String} {kind : TokenKind} (hkind : kind ∈ Grammar.words)
    (h : IsOneToken text kind) : IsPlain (kind, text) := by
  have hclass : kind = .identifier ∨ kind = .int ∨ kind = .bool := by
    simpa [Grammar.words] using hkind
  obtain ⟨hword, rfl⟩ := (isOneToken_iff hclass).mp h
  refine .inl ⟨hword, ?_⟩
  rw [wordShape, String.ofList_toList]

theorem mem_words_of_mem_names {kind : TokenKind} (h : kind ∈ Grammar.names) :
    kind ∈ Grammar.words := by
  revert kind
  decide

theorem spellable_identifier {text : String} (h : IsOneToken text .identifier) :
    (AttrValue.identifier text).Spellable := by
  have hvalue : Grammar.Value [loose (.identifier, text)] (.identifier (text ++ "")) :=
    .identifier rfl .nil
  rw [String.append_empty] at hvalue
  refine ⟨_, hvalue, fun t ht => ?_⟩
  obtain rfl := List.mem_singleton.mp ht
  exact isPlain_of_isOneToken List.mem_cons_self h

theorem spellable_int {text : String} {n : Int32} (h : IsOneToken text .int)
    (hvalue : readInt32? text.toList = some n) : (AttrValue.int n).Spellable := by
  refine ⟨[loose (.int, text)], .int rfl hvalue, fun t ht => ?_⟩
  obtain rfl := List.mem_singleton.mp ht
  exact isPlain_of_isOneToken (List.mem_cons_of_mem _ List.mem_cons_self) h

/-- A node whose words are names, with its attributes from a list. -/
theorem spellableHere_of_names {words : List String} (hwords : AreNames words) {n : Node}
    {pairs : List (String × AttrValue)} (hkind : n.kind ∈ words) (hid : n.id ∈ words)
    (hattrs : n.attrs = attrs pairs) (hkeys : ∀ key ∈ pairs.map Prod.fst, key ∈ words)
    (hvalues : ∀ e ∈ pairs, e.2.Spellable) : n.SpellableHere where
  kind := isOneToken_word _ (hwords _ hkind) List.mem_cons_self
  id := isOneToken_word _ (hwords _ hid) List.mem_cons_self
  keys e he := by
    rw [hattrs] at he
    exact isOneToken_word _ (hwords _ (hkeys _ (List.mem_map_of_mem (mem_attrs he)))) List.mem_cons_self
  values e he := by
    rw [hattrs] at he
    exact hvalues e (mem_attrs he)

/-- What is put between two marks is plain when it is plain. -/
theorem isPlain_enclosed {opening closing : TokenShape} (hopening : opening ∈ markShapes)
    (hclosing : closing ∈ markShapes) {word : List Token} (hword : ∀ t ∈ word, IsPlain t.shape) :
    ∀ t ∈ loose opening :: (word ++ [loose closing]), IsPlain t.shape := by
  intro t ht
  rcases List.mem_cons.mp ht with rfl | ht
  · exact .inr hopening
  rcases List.mem_append.mp ht with ht | ht
  · exact hword t ht
  · obtain rfl := List.mem_singleton.mp ht
    exact .inr hclosing

namespace Grammar

/-- The entry without what its key is besides a text. -/
def keyed (entry : Token × AttrValue) : String × AttrValue := (entry.1.text, entry.2)

theorem entries_firstValues {entries : List (Token × AttrValue)}
    (h : (entries.map keyed).Pairwise fun a b => a.1 < b.1) :
    (firstValues entries).entries = entries.map keyed := by
  induction entries with
  | nil => rfl
  | cons entry entries ih =>
    obtain ⟨hfirst, hrest⟩ := List.pairwise_cons.mp h
    show Dict.insertEntry entry.1.text entry.2 (firstValues entries).entries = _
    rw [ih hrest, List.map_cons]
    -- the key stands before all others
    cases hentries : entries.map keyed with
    | nil => rfl
    | cons next more =>
      have hlt : entry.1.text < next.1 := hfirst next (by simp [hentries])
      rw [Dict.insertEntry, if_pos hlt]
      rfl

theorem repeatedKeys_eq_nil {entries : List (Token × AttrValue)} {seen : List String}
    (h : (seen ++ entries.map fun e => e.1.text).Nodup) : repeatedKeys seen entries = [] := by
  induction entries generalizing seen with
  | nil => rfl
  | cons entry entries ih =>
    rw [List.map_cons] at h
    have hnew : entry.1.text ∉ seen := fun hold =>
      List.disjoint_of_nodup_append h hold List.mem_cons_self
    rw [repeatedKeys, if_neg hnew]
    exact ih (List.perm_middle.nodup_iff.mp h)

/-- In key order the first values are all values, and no key is repeated. -/
theorem read_of_keyed {entries : List (Token × AttrValue)} {d : Attrs}
    (h : entries.map keyed = d.entries) : firstValues entries = d ∧ repeatedKeys [] entries = [] := by
  have hsorted : (entries.map keyed).Pairwise fun a b => a.1 < b.1 := h ▸ d.sorted
  refine ⟨Dict.ext ((entries_firstValues hsorted).trans h), repeatedKeys_eq_nil ?_⟩
  have hkeys : (entries.map fun e => e.1.text) = (entries.map keyed).map Prod.fst := by
    rw [List.map_map]
    rfl
  rw [List.nil_append, hkeys]
  refine List.pairwise_map.mpr (hsorted.imp ?_)
  intro a b hlt heq
  rw [heq] at hlt
  exact String.lt_irrefl _ hlt

theorem exists_attributes {l : List (String × AttrValue)}
    (hkeys : ∀ e ∈ l, ∃ k ∈ names, IsOneToken e.1 k) (hvalues : ∀ e ∈ l, e.2.Spellable) :
    ∃ word entries, Attributes word entries ∧ entries.map keyed = l ∧ ∀ t ∈ word, IsPlain t.shape := by
  induction l with
  | nil => exact ⟨[], [], .nil, rfl, nofun⟩
  | cons e l ih =>
    obtain ⟨more, entries, hmore, hentries, hplain⟩ :=
      ih (fun d hd => hkeys d (List.mem_cons_of_mem e hd)) fun d hd =>
        hvalues d (List.mem_cons_of_mem e hd)
    obtain ⟨k, hk, hkey⟩ := hkeys e List.mem_cons_self
    obtain ⟨word, hvalue, hword⟩ := hvalues e List.mem_cons_self
    have hattributes : Attributes (loose (k, e.1) :: loose (.equals, "=") :: (word ++ more))
        ((loose (k, e.1), e.2) :: entries) := .cons hk rfl hvalue hmore
    refine ⟨_, _, hattributes, congrArg (e :: ·) hentries, fun t ht => ?_⟩
    rcases List.mem_cons.mp ht with rfl | ht
    · exact isPlain_of_isOneToken (mem_words_of_mem_names hk) hkey
    rcases List.mem_cons.mp ht with rfl | ht
    · exact .inr (by decide)
    · exact (List.mem_append.mp ht).elim (hword t) (hplain t)

section Children

variable {Child : List Token → Node → List Token → Prop} {cs : List Node}

theorem exists_children
    (h : ∀ c ∈ cs, ∃ word n, Child word n [] ∧ n.unspanned = c.unspanned ∧ ∀ t ∈ word, IsPlain t.shape) :
    ∃ word children, Children Child word children [] ∧
      children.map Node.unspanned = cs.map Node.unspanned ∧ ∀ t ∈ word, IsPlain t.shape := by
  induction cs with
  | nil => exact ⟨[], [], .nil, rfl, nofun⟩
  | cons c cs ih =>
    obtain ⟨word, n, hchild, hn, hword⟩ := h c List.mem_cons_self
    obtain ⟨more, children, hmore, hchildren, hplain⟩ :=
      ih fun d hd => h d (List.mem_cons_of_mem c hd)
    refine ⟨word ++ more, n :: children, .cons hchild hmore, ?_, fun t ht => ?_⟩
    · rw [List.map_cons, List.map_cons, hn, hchildren]
    · exact (List.mem_append.mp ht).elim (hword t) (hplain t)

end Children

end Grammar

/-- Such a tree is derived from words and marks. -/
theorem Node.SpellableWithin.exists_derives {levels : Nat} {n : Node} (h : n.SpellableWithin levels) :
    ∃ word n', Grammar.Derives levels word n' [] ∧ n'.unspanned = n.unspanned ∧
      ∀ t ∈ word, IsPlain t.shape := by
  induction levels generalizing n with
  | zero => exact h.elim
  | succ levels ih =>
    obtain ⟨hhere, hbelow⟩ := h
    obtain ⟨kind, hkind, hkindToken⟩ := hhere.kind
    obtain ⟨id, hid, hidToken⟩ := hhere.id
    obtain ⟨attrWord, entries, hattributes, hentries, hattrPlain⟩ :=
      Grammar.exists_attributes hhere.keys hhere.values
    obtain ⟨childWord, children, hchildren, hsame, hchildPlain⟩ :=
      Grammar.exists_children fun c hc => ih (hbelow c hc)
    obtain ⟨hattrs, hrepeated⟩ := Grammar.read_of_keyed hentries
    -- both lists are written, even where they are empty
    have hderives : Grammar.NodeOver (Grammar.Derives levels)
        (loose (kind, n.kind) :: loose (.hash, "#") :: loose (id, n.id) ::
          ((loose (.leftParen, "(") :: (attrWord ++ [loose (.rightParen, ")")])) ++
            (loose (.leftBrace, "\x7b") :: (childWord ++ [loose (.rightBrace, "\x7d")])))) _ _ :=
      .mk hkind rfl hid (.present rfl hattributes rfl) (.present rfl hchildren rfl)
    rw [hrepeated, List.append_nil, hattrs] at hderives
    refine ⟨_, _, hderives, ?_, fun t ht => ?_⟩
    · rw [Node.unspanned_mk, hsame]
      exact (Node.recast_eq (fun _ _ v => v) n).symm
    · rcases List.mem_cons.mp ht with rfl | ht
      · exact isPlain_of_isOneToken (mem_words_of_mem_names hkind) hkindToken
      rcases List.mem_cons.mp ht with rfl | ht
      · exact .inr (by decide)
      rcases List.mem_cons.mp ht with rfl | ht
      · exact isPlain_of_isOneToken hid hidToken
      rcases List.mem_append.mp ht with ht | ht
      · exact isPlain_enclosed (by decide) (by decide) hattrPlain t ht
      · exact isPlain_enclosed (by decide) (by decide) hchildPlain t ht

/-- It is in a text, unless it is too deep. -/
theorem exists_parse_of_spellable {levels : Nat} (hlevels : levels ≤ maxNesting) {n : Node}
    (h : n.SpellableWithin levels) :
    ∃ text root, parse text = ⟨some root, []⟩ ∧ root.unspanned = n.unspanned := by
  obtain ⟨word, n', hderives, hsame, hplain⟩ := h.exists_derives
  rw [← hsame]
  exact exists_parse_of_derives (hderives.mono hlevels) hplain

end Arbor
