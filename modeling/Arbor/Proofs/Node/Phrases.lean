import Arbor.Proofs.Node.Grammar
import Arbor.Proofs.Node.Recast
import Arbor.Proofs.Node.Walk
import Arbor.Proofs.Token.Lexing
import Mathlib.Data.List.Infix

/-!
# Phrases of the grammar

Every node of a tree has a phrase of its own in the tokens that derive the tree
(`Derives.exists_of_mem_walk`), and what a phrase derives depends on where its tokens stand in nothing
but the spans (`Derives.congr`).
-/

namespace Arbor

open Text

namespace Node

theorem unspanned_mk (kind id : String) (attrs : Attrs) (children : List Node) (span : Span) :
    unspanned ⟨kind, id, attrs, children, span⟩ =
      ⟨kind, id, attrs.mapEntries fun _ v => v, children.map unspanned, .nowhere⟩ :=
  recast_eq _ _

end Node

namespace Grammar

/-! ## 1. Tokens at other places -/

theorem kind_eq_of_shape_eq {t u : Token} (h : t.shape = u.shape) : t.kind = u.kind :=
  congrArg Prod.fst h

theorem text_eq_of_shape_eq {t u : Token} (h : t.shape = u.shape) : t.text = u.text :=
  congrArg Prod.snd h

theorem Joined.congr {word : List Token} {text : String} (h : Joined word text)
    {word' : List Token} (hword : word'.map Token.shape = word.map Token.shape) :
    Joined word' text := by
  induction h generalizing word' with
  | nil =>
    obtain rfl := List.map_eq_nil_iff.mp hword
    exact .nil
  | cons hjoint hnext _ ih =>
    obtain ⟨joint, _, rfl, hj, hrest⟩ := List.map_eq_cons_iff.mp hword
    obtain ⟨next, more, rfl, hn, hmore⟩ := List.map_eq_cons_iff.mp hrest
    rw [← text_eq_of_shape_eq hj, ← text_eq_of_shape_eq hn]
    rw [← kind_eq_of_shape_eq hj] at hjoint
    rw [← kind_eq_of_shape_eq hn] at hnext
    exact .cons hjoint hnext (ih hmore)

theorem Value.congr {word : List Token} {value : AttrValue} (h : Value word value)
    {word' : List Token} (hword : word'.map Token.shape = word.map Token.shape) :
    Value word' value := by
  cases h with
  | string hkind =>
    obtain ⟨t, rfl, ht⟩ := List.map_eq_singleton_iff.mp hword
    rw [← text_eq_of_shape_eq ht]
    exact .string ((kind_eq_of_shape_eq ht).trans hkind)
  | bool hkind =>
    obtain ⟨t, rfl, ht⟩ := List.map_eq_singleton_iff.mp hword
    rw [← text_eq_of_shape_eq ht]
    exact .bool ((kind_eq_of_shape_eq ht).trans hkind)
  | int hkind hvalue =>
    obtain ⟨t, rfl, ht⟩ := List.map_eq_singleton_iff.mp hword
    rw [← text_eq_of_shape_eq ht] at hvalue
    exact .int ((kind_eq_of_shape_eq ht).trans hkind) hvalue
  | identifier hkind hmore =>
    obtain ⟨t, more, rfl, ht, hrest⟩ := List.map_eq_cons_iff.mp hword
    rw [← text_eq_of_shape_eq ht]
    exact .identifier ((kind_eq_of_shape_eq ht).trans hkind) (hmore.congr hrest)

/-- An attribute without the place of its key. -/
def entryShape (entry : Token × AttrValue) : TokenShape × AttrValue := (entry.1.shape, entry.2)

theorem Attributes.congr {word : List Token} {entries : List (Token × AttrValue)}
    (h : Attributes word entries) {word' : List Token}
    (hword : word'.map Token.shape = word.map Token.shape) :
    ∃ entries', Attributes word' entries' ∧ entries'.map entryShape = entries.map entryShape := by
  induction h generalizing word' with
  | nil =>
    obtain rfl := List.map_eq_nil_iff.mp hword
    exact ⟨[], .nil, rfl⟩
  | @cons key mark _ _ value _ hkey hmark hvalue _ ih =>
    obtain ⟨key', _, rfl, hk, hrest⟩ := List.map_eq_cons_iff.mp hword
    obtain ⟨mark', _, rfl, hm, hrest⟩ := List.map_eq_cons_iff.mp hrest
    rw [List.map_append] at hrest
    obtain ⟨word', more', rfl, hword', hmore'⟩ := List.map_eq_append_iff.mp hrest
    obtain ⟨entries', hentries', hshapes⟩ := ih hmore'
    rw [← kind_eq_of_shape_eq hk] at hkey
    rw [← kind_eq_of_shape_eq hm] at hmark
    refine ⟨(key', value) :: entries', .cons hkey hmark (hvalue.congr hword') hentries', ?_⟩
    rw [List.map_cons, List.map_cons, hshapes, entryShape, entryShape, hk]

theorem AttrList.congr {word : List Token} {entries : List (Token × AttrValue)}
    (h : AttrList word entries) {word' : List Token}
    (hword : word'.map Token.shape = word.map Token.shape) :
    ∃ entries', AttrList word' entries' ∧ entries'.map entryShape = entries.map entryShape := by
  cases h with
  | absent =>
    obtain rfl := List.map_eq_nil_iff.mp hword
    exact ⟨[], .absent, rfl⟩
  | present hopening hattrs hclosing =>
    obtain ⟨opening', _, rfl, ho, hrest⟩ := List.map_eq_cons_iff.mp hword
    rw [List.map_append] at hrest
    obtain ⟨word', _, rfl, hword', hlast⟩ := List.map_eq_append_iff.mp hrest
    obtain ⟨closing', rfl, hc⟩ := List.map_eq_singleton_iff.mp hlast
    obtain ⟨entries', hentries', hshapes⟩ := hattrs.congr hword'
    exact ⟨entries', .present ((kind_eq_of_shape_eq ho).trans hopening) hentries'
      ((kind_eq_of_shape_eq hc).trans hclosing), hshapes⟩

theorem firstValues_congr {entries entries' : List (Token × AttrValue)}
    (h : entries'.map entryShape = entries.map entryShape) :
    firstValues entries' = firstValues entries := by
  induction entries generalizing entries' with
  | nil =>
    obtain rfl := List.map_eq_nil_iff.mp h
    rfl
  | cons entry entries ih =>
    obtain ⟨entry', more', rfl, hentry, hmore⟩ := List.map_eq_cons_iff.mp h
    obtain ⟨hkey, hvalue⟩ := Prod.ext_iff.mp hentry
    have htext : entry'.1.text = entry.1.text := text_eq_of_shape_eq hkey
    have hsame : entry'.2 = entry.2 := hvalue
    rw [firstValues, firstValues, ih hmore, htext, hsame]

theorem repeatedKeys_congr {entries entries' : List (Token × AttrValue)}
    (h : entries'.map entryShape = entries.map entryShape) (seen : List String) :
    (repeatedKeys seen entries').map Token.shape = (repeatedKeys seen entries).map Token.shape := by
  induction entries generalizing entries' seen with
  | nil =>
    obtain rfl := List.map_eq_nil_iff.mp h
    rfl
  | cons entry entries ih =>
    obtain ⟨entry', more', rfl, hentry, hmore⟩ := List.map_eq_cons_iff.mp h
    have hkey : entry'.1.shape = entry.1.shape := congrArg Prod.fst hentry
    have htext : entry'.1.text = entry.1.text := text_eq_of_shape_eq hkey
    rw [repeatedKeys, repeatedKeys, htext]
    split
    · rw [List.map_cons, List.map_cons, hkey, ih hmore]
    · exact ih hmore _

/-! ## 2. Nodes at other places -/

/-- Where the tokens of a node stand shows in nothing but its spans. -/
def PlaceFree (Child : List Token → Node → List Token → Prop) : Prop :=
  ∀ {word repeated : List Token} {n : Node}, Child word n repeated → ∀ {word' : List Token},
    word'.map Token.shape = word.map Token.shape → ∃ n' repeated', Child word' n' repeated' ∧
      n'.unspanned = n.unspanned ∧ repeated'.map Token.shape = repeated.map Token.shape

section Nodes

variable {Child Child' : List Token → Node → List Token → Prop} {word repeated : List Token}
  {children : List Node} {n : Node}

theorem Children.congr (hchild : PlaceFree Child) (h : Children Child word children repeated)
    {word' : List Token} (hword : word'.map Token.shape = word.map Token.shape) :
    ∃ children' repeated', Children Child word' children' repeated' ∧
      children'.map Node.unspanned = children.map Node.unspanned ∧
      repeated'.map Token.shape = repeated.map Token.shape := by
  induction h generalizing word' with
  | nil =>
    obtain rfl := List.map_eq_nil_iff.mp hword
    exact ⟨[], [], .nil, rfl, rfl⟩
  | cons hhead _ ih =>
    rw [List.map_append] at hword
    obtain ⟨word', more', rfl, hword', hmore'⟩ := List.map_eq_append_iff.mp hword
    obtain ⟨child', repeated', hhead', hchild', hkeys⟩ := hchild hhead hword'
    obtain ⟨children', moreRepeated', htail', hchildren', hmoreKeys⟩ := ih hmore'
    refine ⟨child' :: children', repeated' ++ moreRepeated', .cons hhead' htail', ?_, ?_⟩
    · rw [List.map_cons, List.map_cons, hchild', hchildren']
    · rw [List.map_append, List.map_append, hkeys, hmoreKeys]

theorem ChildList.congr (hchild : PlaceFree Child) (h : ChildList Child word children repeated)
    {word' : List Token} (hword : word'.map Token.shape = word.map Token.shape) :
    ∃ children' repeated', ChildList Child word' children' repeated' ∧
      children'.map Node.unspanned = children.map Node.unspanned ∧
      repeated'.map Token.shape = repeated.map Token.shape := by
  cases h with
  | absent =>
    obtain rfl := List.map_eq_nil_iff.mp hword
    exact ⟨[], [], .absent, rfl, rfl⟩
  | present hopening hchildren hclosing =>
    obtain ⟨opening', _, rfl, ho, hrest⟩ := List.map_eq_cons_iff.mp hword
    rw [List.map_append] at hrest
    obtain ⟨word', _, rfl, hword', hlast⟩ := List.map_eq_append_iff.mp hrest
    obtain ⟨closing', rfl, hc⟩ := List.map_eq_singleton_iff.mp hlast
    obtain ⟨children', repeated', hchildren', hnodes, hkeys⟩ := hchildren.congr hchild hword'
    exact ⟨children', repeated', .present ((kind_eq_of_shape_eq ho).trans hopening) hchildren'
      ((kind_eq_of_shape_eq hc).trans hclosing), hnodes, hkeys⟩

theorem NodeOver.congr (hchild : PlaceFree Child) : PlaceFree (NodeOver Child) := by
  intro word repeated n h word' hword
  cases h with
  | mk hkind hhash hid hattrs hchildren =>
    obtain ⟨kind', _, rfl, hk, hrest⟩ := List.map_eq_cons_iff.mp hword
    obtain ⟨hash', _, rfl, hh, hrest⟩ := List.map_eq_cons_iff.mp hrest
    obtain ⟨id', _, rfl, hi, hrest⟩ := List.map_eq_cons_iff.mp hrest
    rw [List.map_append] at hrest
    obtain ⟨attrWord', childWord', rfl, hattrWord, hchildWord⟩ := List.map_eq_append_iff.mp hrest
    obtain ⟨entries', hattrs', hentries⟩ := hattrs.congr hattrWord
    obtain ⟨children', repeated', hchildren', hnodes, hkeys⟩ := hchildren.congr hchild hchildWord
    rw [← kind_eq_of_shape_eq hk] at hkind
    rw [← kind_eq_of_shape_eq hh] at hhash
    rw [← kind_eq_of_shape_eq hi] at hid
    refine ⟨_, _, .mk hkind hhash hid hattrs' hchildren', ?_, ?_⟩
    · rw [Node.unspanned_mk, Node.unspanned_mk, firstValues_congr hentries, hnodes,
        text_eq_of_shape_eq hk, text_eq_of_shape_eq hi]
    · rw [List.map_append, List.map_append, repeatedKeys_congr hentries, hkeys]

theorem Derives.congr (levels : Nat) : PlaceFree (Derives levels) := by
  induction levels with
  | zero => exact fun h => h.elim
  | succ levels ih => exact NodeOver.congr ih

/-! ## 3. Deeper nesting allowed -/

theorem Children.imp (himp : ∀ {word repeated n}, Child word n repeated → Child' word n repeated)
    (h : Children Child word children repeated) : Children Child' word children repeated := by
  induction h with
  | nil => exact .nil
  | cons hchild _ ih => exact .cons (himp hchild) ih

theorem NodeOver.imp (himp : ∀ {word repeated n}, Child word n repeated → Child' word n repeated)
    (h : NodeOver Child word n repeated) : NodeOver Child' word n repeated := by
  cases h with
  | mk hkind hhash hid hattrs hchildren =>
    refine .mk hkind hhash hid hattrs ?_
    cases hchildren with
    | absent => exact .absent
    | present hopening hword hclosing => exact .present hopening (hword.imp himp) hclosing

theorem Derives.mono {levels levels' : Nat} (hle : levels ≤ levels')
    (h : Derives levels word n repeated) : Derives levels' word n repeated := by
  induction levels generalizing levels' word n repeated with
  | zero => exact h.elim
  | succ levels ih =>
    obtain ⟨levels', rfl⟩ : ∃ l, levels' = l + 1 := ⟨levels' - 1, by omega⟩
    exact NodeOver.imp (ih (by omega)) h

/-! ## 4. The phrases of the nodes -/

/-- Each child has a phrase of its own in the child list. -/
theorem Children.exists_of_mem (h : Children Child word children repeated) {c : Node}
    (hc : c ∈ children) : ∃ phrase keys, phrase <:+: word ∧ keys ⊆ repeated ∧
      Child phrase c keys := by
  induction h with
  | nil => cases hc
  | cons hchild _ ih =>
    rcases List.mem_cons.mp hc with rfl | hc
    · exact ⟨_, _, (List.prefix_append _ _).isInfix, List.subset_append_left _ _, hchild⟩
    · obtain ⟨phrase, keys, hphrase, hkeys, hchild⟩ := ih hc
      exact ⟨phrase, keys, hphrase.trans (List.suffix_append _ _).isInfix,
        List.subset_append_of_subset_right _ hkeys, hchild⟩

theorem NodeOver.exists_of_mem (h : NodeOver Child word n repeated) {c : Node}
    (hc : c ∈ n.children) : ∃ phrase keys, phrase <:+: word ∧ keys ⊆ repeated ∧
      Child phrase c keys := by
  cases h with
  | @mk kind hash id attrWord childWord repeated entries children _ _ _ _ hchildren =>
    cases hchildren with
    | absent => cases hc
    | @present opening closing word _ _ _ hword _ =>
      obtain ⟨phrase, keys, hphrase, hkeys, hchild⟩ := hword.exists_of_mem hc
      refine ⟨phrase, keys, hphrase.trans ⟨kind :: hash :: id :: (attrWord ++ [opening]), [closing], ?_⟩,
        List.subset_append_of_subset_right _ hkeys, hchild⟩
      simp

/-- Every node of a tree is derived by a part of the tokens that derive the tree. -/
theorem Derives.exists_of_mem_walk {levels : Nat} (h : Derives levels word n repeated) {m : Node}
    (hm : m ∈ n.walk) : ∃ levels' phrase keys, levels' ≤ levels ∧ phrase <:+: word ∧
      keys ⊆ repeated ∧ Derives levels' phrase m keys := by
  induction levels generalizing word n repeated with
  | zero => exact h.elim
  | succ levels ih =>
    obtain rfl | ⟨c, hc, hm⟩ := Node.eq_or_exists_of_mem_walk hm
    · exact ⟨levels + 1, word, repeated, Nat.le_refl _, List.infix_rfl, List.Subset.refl _, h⟩
    · obtain ⟨phrase, keys, hphrase, hkeys, hchild⟩ := NodeOver.exists_of_mem h hc
      obtain ⟨levels', phrase', keys', hlevels, hphrase', hkeys', hm⟩ := ih hchild hm
      exact ⟨levels', phrase', keys', by omega, hphrase'.trans hphrase, List.Subset.trans hkeys' hkeys, hm⟩

/-- A node reaches from its first token to its last one, and has at least two tokens. -/
theorem Derives.exists_span {levels : Nat} (h : Derives levels word n repeated) :
    ∃ first mid last, word = first :: (mid ++ [last]) ∧
      n.span = ⟨first.span.start, last.span.stop⟩ := by
  cases levels with
  | zero => exact h.elim
  | succ levels =>
    cases h with
    | @mk kind hash id attrWord childWord _ _ _ _ _ _ _ _ =>
      obtain ⟨mid, last, hlast⟩ : ∃ mid last, hash :: id :: (attrWord ++ childWord) = mid ++ [last] :=
        ⟨_, _, (List.dropLast_append_getLast (List.cons_ne_nil _ _)).symm⟩
      refine ⟨kind, mid, last, by rw [hlast], ?_⟩
      have hstop : stopBehind id.span.stop (attrWord ++ childWord) =
          stopBehind hash.span.stop (hash :: id :: (attrWord ++ childWord)) := rfl
      rw [hstop, hlast, stopBehind_concat]

end Nodes

end Grammar

end Arbor
