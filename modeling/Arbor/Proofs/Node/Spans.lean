import Arbor.Proofs.Node.Acceptance
import Arbor.Proofs.Node.Phrases
import Arbor.Proofs.Node.RoundTrip
import Arbor.Proofs.Token.Slicing
import Arbor.Proofs.Token.Tiling

/-!
# The spans of a parsed tree

Main fact: the span of every node of a tree that was parsed without a report is exact
(`spanExact_of_parse`). The characters that it covers are parsed to that node by themselves, it holds
the spans of the children one behind the other, and its points have the lines and columns of the text.
-/

namespace Arbor

open Text Grammar

/-- The characters of the text from the start of the span up to its end. -/
def Span.slice (s : Span) (source : String) : String :=
  String.ofList ((source.toList.take s.stop.offset).drop s.start.offset)

/-- The other span lies within the span. -/
def Span.Encloses (s t : Span) : Prop :=
  s.start.offset ≤ t.start.offset ∧ t.stop.offset ≤ s.stop.offset

/-- The span of the node says where in the text it stands. -/
structure Node.SpanExact (source : String) (n : Node) : Prop where
  reparses : ∃ n', parse (n.span.slice source) = ⟨some n', []⟩ ∧ n'.unspanned = n.unspanned
  nonempty : n.span.start.offset < n.span.stop.offset
  encloses : ∀ c ∈ n.children, n.span.Encloses c.span
  apart : n.children.Pairwise fun c d => c.span.stop.offset ≤ d.span.start.offset
  startWithin : n.span.start.Within source.toList
  stopWithin : n.span.stop.Within source.toList

/-! ## 1. The spans of a derivation -/

namespace Grammar

variable {word repeated : List Token} {n : Node}

/-- A node reaches from one of its tokens to another one. -/
def SpanOfTokens (Child : List Token → Node → List Token → Prop) : Prop :=
  ∀ {word repeated : List Token} {n : Node}, Child word n repeated →
    ∃ first ∈ word, ∃ last ∈ word, n.span = ⟨first.span.start, last.span.stop⟩

theorem Derives.spanOfTokens (levels : Nat) : SpanOfTokens (Derives levels) := by
  intro word repeated n h
  obtain ⟨first, mid, last, rfl, hspan⟩ := h.exists_span
  exact ⟨first, List.mem_cons_self, last, by simp, hspan⟩

/-- The span of a node holds all of its tokens. -/
theorem Derives.encloses_of_mem {levels : Nat} (h : Derives levels word n repeated)
    (hword : InOrder word) {t : Token} (ht : t ∈ word) : n.span.Encloses t.span := by
  obtain ⟨first, mid, last, rfl, hspan⟩ := h.exists_span
  obtain ⟨hfirst, hrest⟩ := List.pairwise_cons.mp hword.apart
  obtain ⟨-, -, hlast⟩ := List.pairwise_append.mp hrest
  have hforward := hword.forward
  rw [hspan]
  rcases List.mem_cons.mp ht with rfl | ht
  · have hend := hfirst last (by simp)
    have := hforward last (by simp)
    exact ⟨Nat.le_refl _, by show _ ≤ last.span.stop.offset; omega⟩
  · have hstart := hfirst t ht
    have := hforward first List.mem_cons_self
    refine ⟨by show first.span.start.offset ≤ _; omega, ?_⟩
    show _ ≤ last.span.stop.offset
    rcases List.mem_append.mp ht with ht | ht
    · have hend := hlast t ht last List.mem_cons_self
      have := hforward last (by simp)
      omega
    · obtain rfl := List.mem_singleton.mp ht
      exact Nat.le_refl _

/-- Children one after the other have spans one after the other. -/
theorem Children.pairwise {Child : List Token → Node → List Token → Prop}
    (hchild : SpanOfTokens Child) {children : List Node}
    (h : Children Child word children repeated) (hword : InOrder word) :
    children.Pairwise fun c d => c.span.stop.offset ≤ d.span.start.offset := by
  induction h with
  | nil => exact .nil
  | cons hhead hmore ih =>
    obtain ⟨-, -, hapart⟩ := List.pairwise_append.mp hword.apart
    refine .cons (fun d hd => ?_) (ih (hword.sublist (List.sublist_append_right _ _)))
    obtain ⟨phrase, keys, hphrase, -, hd⟩ := hmore.exists_of_mem hd
    obtain ⟨_, -, last, hlast, hspan⟩ := hchild hhead
    obtain ⟨first, hfirst, _, -, hspan'⟩ := hchild hd
    rw [hspan, hspan']
    exact hapart last hlast first (hphrase.subset hfirst)

theorem NodeOver.pairwise {Child : List Token → Node → List Token → Prop}
    (hchild : SpanOfTokens Child) (h : NodeOver Child word n repeated) (hword : InOrder word) :
    n.children.Pairwise fun c d => c.span.stop.offset ≤ d.span.start.offset := by
  cases h with
  | @mk kind hash id attrWord childWord _ _ _ _ _ _ _ hchildren =>
    cases hchildren with
    | absent => exact .nil
    | @present opening closing word _ _ _ hchildren _ =>
      refine hchildren.pairwise hchild (hword.sublist (List.IsInfix.sublist ?_))
      exact ⟨kind :: hash :: id :: (attrWord ++ [opening]), [closing], by simp⟩

/-- The span of a node holds those of its children, one behind the other. -/
theorem Derives.children_spans {levels : Nat} (h : Derives levels word n repeated)
    (hword : InOrder word) : (∀ c ∈ n.children, n.span.Encloses c.span) ∧
      n.children.Pairwise fun c d => c.span.stop.offset ≤ d.span.start.offset := by
  cases levels with
  | zero => exact h.elim
  | succ levels =>
    refine ⟨fun c hc => ?_, NodeOver.pairwise (Derives.spanOfTokens levels) h hword⟩
    obtain ⟨phrase, keys, hphrase, -, hchild⟩ := NodeOver.exists_of_mem h hc
    obtain ⟨first, hfirst, last, hlast, hspan⟩ := Derives.spanOfTokens levels hchild
    rw [hspan]
    exact ⟨(h.encloses_of_mem hword (hphrase.subset hfirst)).1,
      (h.encloses_of_mem hword (hphrase.subset hlast)).2⟩

end Grammar

/-! ## 2. Parsing without a report -/

/-- A text is parsed without a report when its tokens derive the tree. -/
theorem parse_eq_iff {source : String} {ts : List Token} {p : Position} {findings : List Diagnostic}
    (h : tokenize source = ⟨ts ++ [⟨.finish, "", ⟨p, p⟩⟩], findings⟩) (hts : ∀ t ∈ ts, t.WellRead)
    (root : Node) :
    parse source = ⟨some root, []⟩ ↔ findings = [] ∧ Derives maxNesting ts root [] := by
  rw [parse_of_tokenize h hts, ← Parser.readRoot_eq_iff ⟨.finish, "", ⟨p, p⟩⟩]
  rcases Parser.readRoot ⟨.finish, "", ⟨p, p⟩⟩ ts with ⟨repeated, outcome⟩
  cases outcome with
  | ok root' => simp [and_comm, and_left_comm]
  | error e => simp

/-- Tokens that derive a node, found in a text in which there is nothing to report. -/
theorem parse_of_lexes {stretch : List Char} {word : List Token} {n : Node} {levels : Nat}
    (hstretch : Lexes stretch (word.map Token.shape)) (hlevels : levels ≤ maxNesting)
    (hderives : Derives levels word n []) :
    ∃ n', parse (String.ofList stretch) = ⟨some n', []⟩ ∧ n'.unspanned = n.unspanned := by
  rw [← @String.toList_ofList stretch] at hstretch
  obtain ⟨ts, p, htokens, hts, hshapes⟩ := tokenize_of_lexes hstretch
  obtain ⟨n', keys, hderives', hnode, hkeys⟩ := Derives.congr levels hderives hshapes
  obtain rfl : keys = [] := List.map_eq_nil_iff.mp hkeys
  exact ⟨n', (parse_eq_iff htokens hts n').mpr ⟨rfl, hderives'.mono hlevels⟩, hnode⟩

/-- The span of each node of a tree that is parsed without a report is exact. -/
theorem spanExact_of_parse {source : String} {root : Node} (h : parse source = ⟨some root, []⟩) :
    ∀ n ∈ root.walk, n.SpanExact source := by
  intro n hn
  obtain ⟨ls, stop, hlexed⟩ := exists_lexed (.behind []) source.toList
  obtain ⟨hcut, rfl⟩ := cut_of_lexed hlexed
  obtain ⟨hclean, hderives⟩ :=
    (parse_eq_iff (tokenize_of_lexed hlexed) (wellRead_of_lexed hlexed) root).mp h
  obtain ⟨levels, phrase, keys, hlevels, hphrase, hkeys, hphraseDerives⟩ :=
    hderives.exists_of_mem_walk hn
  obtain rfl : keys = [] := List.eq_nil_of_subset_nil hkeys
  have hinOrder : InOrder phrase := hcut.tokens_inOrder.sublist hphrase.sublist
  obtain ⟨hencloses, hapart⟩ := hphraseDerives.children_spans hinOrder
  obtain ⟨first, mid, last, rfl, hspan⟩ := hphraseDerives.exists_span
  obtain ⟨before, behind, htokens⟩ := hphrase
  have hplace : ls.filterMap Lexeme.token? = before ++ (first :: (mid ++ last :: behind)) := by
    rw [← htokens]
    simp
  obtain ⟨front, stretch, back, htext, hstart, hstop, hlexes⟩ := exists_slice hlexed hclean hplace
  have hslice : n.span.slice source = String.ofList stretch := by
    rw [Span.slice, hspan, htext, hstart, hstop, Position.offset_behind, Position.offset_behind,
      List.take_left, List.drop_left]
  refine ⟨?_, ?_, hencloses, hapart, ?_, ?_⟩
  · rw [hslice]
    exact parse_of_lexes hlexes hlevels hphraseDerives
  · have hfirst := hphraseDerives.encloses_of_mem hinOrder List.mem_cons_self
    have := hinOrder.forward first List.mem_cons_self
    exact Nat.lt_of_le_of_lt hfirst.1 (Nat.lt_of_lt_of_le this hfirst.2)
  · rw [hspan, htext, List.append_assoc]
    show first.span.start.Within _
    rw [hstart]
    exact Position.within_behind _ _
  · rw [hspan, htext]
    show last.span.stop.Within _
    rw [hstop]
    exact Position.within_behind _ _

/-- A text in which a string goes over a line end and a comment looks like the end of a list. -/
def bracedText : String := "Seq#s \x7b // \x7d\n  Lit#a(value=\"\n\x7d\")Ref#b(name=x.y) \x7d"

theorem spanExact_bracedText : ∃ root, parse bracedText = ⟨some root, []⟩ ∧
    (root.walk.map fun n => (n.id, n.span.slice bracedText)) =
      [("s", bracedText), ("a", "Lit#a(value=\"\n\x7d\")"), ("b", "Ref#b(name=x.y)")] ∧
    ∀ n ∈ root.walk, n.SpanExact bracedText := by
  have hclean : (parse bracedText).diagnostics = [] := by decide +kernel
  have hread : (parse bracedText).root?.map (fun root =>
      root.walk.map fun n => (n.id, n.span.slice bracedText)) =
        some [("s", bracedText), ("a", "Lit#a(value=\"\n\x7d\")"), ("b", "Ref#b(name=x.y)")] := by
    decide +kernel
  obtain ⟨root, hroot?, hslices⟩ := Option.map_eq_some_iff.mp hread
  have hroot : parse bracedText = ⟨some root, []⟩ := by rw [← hroot?, ← hclean]
  exact ⟨root, hroot, hslices, spanExact_of_parse hroot⟩

end Arbor
