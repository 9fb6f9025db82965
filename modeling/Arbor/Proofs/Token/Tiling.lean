import Arbor.Proofs.Token.Cutting

/-!
# The tokens of a text stand side by side

The spans of the tokens of a text follow one another from its start to its end, and what they leave
out is blanks, comments and characters that the lexer reports one by one (`tokenize_tiles`).
-/

namespace Arbor

open Text

/-- Does the span cover the character at the offset? -/
def Span.Covers (s : Span) (i : Nat) : Prop := s.start.offset ≤ i ∧ i < s.stop.offset

instance (s : Span) (i : Nat) : Decidable (s.Covers i) := inferInstanceAs (Decidable (_ ∧ _))

/-- Does the finding tell of a character that starts no token, the one at the offset? -/
def Diagnostic.StrayAt (i : Nat) (d : Diagnostic) : Prop :=
  d.code = "TOK001" ∧ ∃ span ∈ d.span?, span.Covers i

instance (i : Nat) (d : Diagnostic) : Decidable (d.StrayAt i) :=
  inferInstanceAs (Decidable (_ ∧ ∃ span ∈ d.span?, _))

/-- The character at the offset stands behind `//` on its line, and no token reaches into the part of
the line from there on. -/
def InComment (text : List Char) (tokens : List Token) (i : Nat) : Prop :=
  ∃ j ≤ i, text[j]? = some '/' ∧ text[j + 1]? = some '/' ∧
    ∀ k, j ≤ k → k ≤ i → text[k]? ≠ some '\n' ∧ ∀ t ∈ tokens, ¬t.span.Covers k

/-- The tokens stand side by side in the text, and what stands between them is known. -/
structure Tokens.Tile (r : Tokens) (text : List Char) : Prop where
  /-- One token marks the end of the text, the last one. -/
  finish : ∃ ts p, r.tokens = ts ++ [⟨.finish, "", ⟨p, p⟩⟩] ∧ p.offset = text.length ∧
    ∀ t ∈ ts, t.kind ≠ .finish ∧ t.span.start.offset < t.span.stop.offset
  ordered : r.tokens.Pairwise fun t u => t.span.stop.offset ≤ u.span.start.offset
  tokensWithin : ∀ t ∈ r.tokens, t.span.start.Within text ∧ t.span.stop.Within text
  findingsWithin : ∀ d ∈ r.findings, ∃ span, d.span? = some span ∧
    span.start.Within text ∧ span.stop.Within text
  between : ∀ i c, text[i]? = some c → (∀ t ∈ r.tokens, ¬t.span.Covers i) →
    ((isBlank c = true ∨ InComment text r.tokens i) ∧ ∀ d ∈ r.findings, ¬d.StrayAt i) ∨
      ∃ span, span.start.offset = i ∧ span.stop.offset = i + 1 ∧
        r.findings.filter (·.StrayAt i) =
          [.atSpan "TOK001" ("Unexpected character '" ++ c.toString ++ "'.") span]
  /-- A character that is reported as starting no token is in none. -/
  strays : ∀ d ∈ r.findings, ∀ i, d.StrayAt i → ∀ t ∈ r.tokens, ¬t.span.Covers i

/-! ## 1. Where a lexeme stands -/

namespace Lexeme.TakenFrom

variable {front stretch : List Char} {l : Lexeme}

/-- A lexeme covers the characters it takes. -/
theorem covers_iff (h : l.TakenFrom (.behind front) stretch) (i : Nat) :
    l.span.Covers i ↔ front.length ≤ i ∧ i < front.length + stretch.length := by
  rw [h.span]
  simp only [Span.Covers, Position.offset_after, Position.offset_behind]

theorem start_lt_stop (h : l.TakenFrom (.behind front) stretch) :
    l.span.start.offset < l.span.stop.offset := by
  have hsome : 0 < stretch.length := List.length_pos_iff.mpr h.nonempty
  rw [h.span]
  show (Position.behind front).offset < ((Position.behind front).after stretch).offset
  rw [Position.offset_after]
  omega

theorem within (h : l.TakenFrom (.behind front) stretch) (back : List Char) :
    l.span.start.Within (front ++ stretch ++ back) ∧
      l.span.stop.Within (front ++ stretch ++ back) := by
  rw [h.span, ← Position.behind_append]
  refine ⟨?_, Position.within_behind _ _⟩
  rw [List.append_assoc]
  exact Position.within_behind _ _

/-- What there is to report about a lexeme is about characters it takes. -/
theorem finding (h : l.TakenFrom (.behind front) stretch) (back : List Char) {d : Diagnostic}
    (hd : d ∈ l.findings) : ∃ span, d.span? = some span ∧
      span.start.Within (front ++ stretch ++ back) ∧ span.stop.Within (front ++ stretch ++ back) ∧
      ∀ i, span.Covers i → l.span.Covers i := by
  obtain ⟨part, ⟨more, rfl⟩, hspan⟩ := h.concerns d hd
  refine ⟨_, hspan, ?_, ?_, fun i hi => (h.covers_iff i).mpr ?_⟩
  · rw [List.append_assoc]
    exact Position.within_behind _ _
  · rw [← Position.behind_append]
    have hsplit : front ++ (part ++ more) ++ back = (front ++ part) ++ (more ++ back) := by simp
    rw [hsplit]
    exact Position.within_behind _ _
  · obtain ⟨hlow, hhigh⟩ := hi
    simp only [Position.offset_after, Position.offset_behind] at hlow hhigh
    rw [List.length_append]
    omega

theorem not_strayAt (h : l.TakenFrom (.behind front) stretch) {i : Nat} (hi : ¬l.span.Covers i) :
    ∀ d ∈ l.findings, ¬d.StrayAt i := by
  rintro d hd ⟨-, span, hspan, hcovers⟩
  obtain ⟨span', hspan', -, -, hinside⟩ := h.finding [] hd
  obtain rfl : span' = span := Option.some.inj (hspan'.symm.trans hspan)
  exact hi (hinside i hcovers)

end Lexeme.TakenFrom

/-! ## 2. The lexemes of a text in order -/

namespace Cut

variable {before cs : List Char} {ls : List Lexeme}

theorem exists_of_mem (h : Cut before cs ls) {l : Lexeme} (hl : l ∈ ls) :
    ∃ front stretch back, before ++ cs = front ++ stretch ++ back ∧
      before.length ≤ front.length ∧ l.TakenFrom (.behind front) stretch := by
  induction h with
  | finish => cases hl
  | @cons before stretch rest m ls htaken _ ih =>
    rcases List.mem_cons.mp hl with rfl | hl
    · exact ⟨before, stretch, rest, (List.append_assoc ..).symm, Nat.le_refl _, htaken⟩
    · obtain ⟨front, stretch', back, htext, hlength, htaken'⟩ := ih hl
      rw [List.length_append] at hlength
      exact ⟨front, stretch', back, by rw [← htext, List.append_assoc], by omega, htaken'⟩

theorem pairwise (h : Cut before cs ls) :
    ls.Pairwise fun l m => l.span.stop.offset ≤ m.span.start.offset := by
  induction h with
  | finish => exact .nil
  | @cons before stretch rest l ls htaken hrest ih =>
    refine .cons (fun m hm => ?_) ih
    obtain ⟨front, _, _, -, hlength, hm⟩ := hrest.exists_of_mem hm
    rw [htaken.span, hm.span, Position.offset_after, Position.offset_behind,
      Position.offset_behind]
    rwa [List.length_append] at hlength

theorem exists_covering (h : Cut before cs ls) {i : Nat} (hlow : before.length ≤ i)
    (hhigh : i < (before ++ cs).length) : ∃ l ∈ ls, l.span.Covers i := by
  induction h with
  | finish =>
    rw [List.append_nil] at hhigh
    omega
  | @cons before stretch rest l ls htaken _ ih =>
    by_cases hi : i < before.length + stretch.length
    · exact ⟨l, List.mem_cons_self, (htaken.covers_iff i).mpr ⟨hlow, hi⟩⟩
    · rw [← List.append_assoc] at hhigh
      rw [← List.length_append] at hi
      obtain ⟨m, hm, hcovers⟩ := ih (by omega) hhigh
      exact ⟨m, List.mem_cons_of_mem _ hm, hcovers⟩

/-- One lexeme covers a character, and those before it and behind it do not. -/
theorem split_of_covers (h : Cut before cs ls) {l : Lexeme} (hl : l ∈ ls) {i : Nat}
    (hi : l.span.Covers i) : ∃ ls₁ ls₂, ls = ls₁ ++ l :: ls₂ ∧
      (∀ m ∈ ls₁, ¬m.span.Covers i) ∧ ∀ m ∈ ls₂, ¬m.span.Covers i := by
  obtain ⟨ls₁, ls₂, rfl⟩ := List.append_of_mem hl
  obtain ⟨-, hbehind, hbefore⟩ := List.pairwise_append.mp h.pairwise
  refine ⟨ls₁, ls₂, rfl, fun m hm => ?_, fun m hm => ?_⟩
  · have hstop := hbefore m hm l List.mem_cons_self
    have hstart := hi.1
    rintro ⟨-, hm⟩
    omega
  · have hstop := (List.pairwise_cons.mp hbehind).1 m hm
    have hlast := hi.2
    rintro ⟨hm, -⟩
    omega

theorem eq_of_covers (h : Cut before cs ls) {l m : Lexeme} (hl : l ∈ ls) (hm : m ∈ ls) {i : Nat}
    (hli : l.span.Covers i) (hmi : m.span.Covers i) : l = m := by
  obtain ⟨ls₁, ls₂, rfl, hbefore, hbehind⟩ := h.split_of_covers hl hli
  rcases List.mem_append.mp hm with hm | hm
  · exact absurd hmi (hbefore m hm)
  · rcases List.mem_cons.mp hm with rfl | hm
    · rfl
    · exact absurd hmi (hbehind m hm)

end Cut

/-! ## 3. The tokens -/

theorem mem_tokens {ls : List Lexeme} {t : Token} :
    t ∈ ls.filterMap Lexeme.token? ↔ ∃ ds, .token t ds ∈ ls := by
  rw [List.mem_filterMap]
  constructor
  · rintro ⟨l, hl, hlt⟩
    cases l <;> cases hlt
    exact ⟨_, hl⟩
  · rintro ⟨ds, hl⟩
    exact ⟨_, hl, rfl⟩

/-- Each of the tokens covers something, and ends before the next one starts. -/
structure InOrder (tokens : List Token) : Prop where
  apart : tokens.Pairwise fun t u => t.span.stop.offset ≤ u.span.start.offset
  forward : ∀ t ∈ tokens, t.span.start.offset < t.span.stop.offset

theorem InOrder.sublist {tokens part : List Token} (h : InOrder tokens)
    (hpart : part.Sublist tokens) : InOrder part :=
  ⟨h.apart.sublist hpart, fun t ht => h.forward t (hpart.subset ht)⟩

theorem Cut.tokens_inOrder {before cs : List Char} {ls : List Lexeme} (h : Cut before cs ls) :
    InOrder (ls.filterMap Lexeme.token?) where
  apart := by
    refine h.pairwise.filterMap _ fun l m hlm t ht u hu => ?_
    cases l <;> cases ht
    cases m <;> cases hu
    exact hlm
  forward t ht := by
    obtain ⟨ds, hl⟩ := mem_tokens.mp ht
    obtain ⟨front, stretch, back, -, -, htaken⟩ := h.exists_of_mem hl
    exact htaken.start_lt_stop

/-- A point at which a gap stands is blank or in a comment. -/
theorem Cut.blank_or_inComment {text : List Char} {ls : List Lexeme} (h : Cut [] text ls)
    {span : Span} (hgap : .gap span ∈ ls) {i : Nat} {c : Char} (hc : text[i]? = some c)
    (hi : span.Covers i) :
    isBlank c = true ∨ InComment text (ls.filterMap Lexeme.token?) i := by
  obtain ⟨front, stretch, back, htext, -, htaken⟩ := h.exists_of_mem hgap
  rw [List.nil_append] at htext
  have hmem (k : Nat) (hk : span.Covers k) (d : Char) (hd : text[k]? = some d) : d ∈ stretch := by
    obtain ⟨hlow, hhigh⟩ := (htaken.covers_iff k).mp hk
    rw [htext, List.append_assoc, List.getElem?_append_right hlow,
      List.getElem?_append_left (by omega)] at hd
    exact List.mem_of_getElem? hd
  rcases htaken.tells with hblank | ⟨more, rfl, hline⟩
  · exact .inl (hblank c (hmem i hi c hc))
  · obtain ⟨hlow, hhigh⟩ := (htaken.covers_iff i).mp hi
    refine .inr ⟨front.length, hlow, by simp [htext], by simp [htext], fun k hjk hki => ?_⟩
    have hk : span.Covers k := (htaken.covers_iff k).mpr ⟨hjk, by omega⟩
    refine ⟨fun hnewline => hline (hmem k hk _ hnewline), fun t ht hcovers => ?_⟩
    obtain ⟨ds, hl⟩ := mem_tokens.mp ht
    cases h.eq_of_covers hgap hl hk hcovers

/-- What is reported of a character as starting no token is reported about its lexeme. -/
theorem Cut.filter_strayAt {before cs : List Char} {ls : List Lexeme} (h : Cut before cs ls)
    {l : Lexeme} (hl : l ∈ ls) {i : Nat} (hi : l.span.Covers i) :
    (ls.flatMap Lexeme.findings).filter (·.StrayAt i) = l.findings.filter (·.StrayAt i) := by
  have hquiet (part : List Lexeme) (hpart : part ⊆ ls) (hnot : ∀ m ∈ part, ¬m.span.Covers i) :
      (part.flatMap Lexeme.findings).filter (·.StrayAt i) = [] := by
    rw [List.filter_eq_nil_iff]
    intro d hd
    obtain ⟨m, hm, hd⟩ := List.mem_flatMap.mp hd
    obtain ⟨front, stretch, back, -, -, htaken⟩ := h.exists_of_mem (hpart hm)
    simpa using htaken.not_strayAt (hnot m hm) d hd
  obtain ⟨ls₁, ls₂, hsplit, hbefore, hbehind⟩ := h.split_of_covers hl hi
  have hleft := hquiet ls₁ (by rw [hsplit]; exact List.subset_append_left _ _) hbefore
  have hright := hquiet ls₂ (by rw [hsplit]; simp) hbehind
  rw [hsplit, List.flatMap_append, List.flatMap_cons, List.filter_append, List.filter_append,
    hleft, hright, List.nil_append, List.append_nil]

/-- A stray character is the one at its place in the text, and is reported once. -/
theorem Cut.filter_strayAt_stray {text : List Char} {ls : List Lexeme} (h : Cut [] text ls)
    {c c' : Char} {span : Span} (hl : .stray c' span ∈ ls) {i : Nat} (hc : text[i]? = some c)
    (hi : span.Covers i) : span.start.offset = i ∧ span.stop.offset = i + 1 ∧
      (ls.flatMap Lexeme.findings).filter (·.StrayAt i) =
        [.atSpan "TOK001" ("Unexpected character '" ++ c.toString ++ "'.") span] := by
  obtain ⟨front, stretch, back, htext, -, htaken⟩ := h.exists_of_mem hl
  rw [List.nil_append] at htext
  obtain rfl : stretch = [c'] := htaken.tells
  obtain ⟨hlow, hhigh⟩ := (htaken.covers_iff i).mp hi
  rw [List.length_singleton] at hhigh
  obtain rfl : i = front.length := by omega
  obtain rfl : c' = c := by simpa [htext] using hc
  have hspan : span = _ := htaken.span
  refine ⟨?_, ?_, ?_⟩
  · rw [hspan]
    exact Position.offset_behind front
  · rw [hspan, Position.offset_after, Position.offset_behind, List.length_singleton]
  · rw [h.filter_strayAt hl hi]
    refine List.filter_eq_self.mpr fun d hd => ?_
    obtain rfl := List.mem_singleton.mp hd
    exact decide_eq_true ⟨rfl, span, rfl, hi⟩

/-- What is reported as starting no token stands in no token. -/
theorem Cut.not_covers_of_strayAt {before cs : List Char} {ls : List Lexeme} (h : Cut before cs ls)
    {d : Diagnostic} (hd : d ∈ ls.flatMap Lexeme.findings) {i : Nat} (hi : d.StrayAt i) :
    ∀ t ∈ ls.filterMap Lexeme.token?, ¬t.span.Covers i := by
  intro t ht hcovers
  obtain ⟨ds, hl⟩ := mem_tokens.mp ht
  have hfound : d ∈ (ls.flatMap Lexeme.findings).filter (·.StrayAt i) :=
    List.mem_filter.mpr ⟨hd, decide_eq_true hi⟩
  rw [h.filter_strayAt hl hcovers] at hfound
  obtain ⟨front, stretch, back, -, -, htaken⟩ := h.exists_of_mem hl
  have hcode := htaken.codes t ds rfl d (List.mem_filter.mp hfound).1
  rw [hi.1] at hcode
  exact absurd hcode (by decide)

/-- The token at the end of a text covers nothing. -/
theorem forall_covers_append_finish {ts : List Token} {p : Position} {i : Nat} :
    (∀ t ∈ ts ++ [⟨.finish, "", ⟨p, p⟩⟩], ¬t.span.Covers i) ↔ ∀ t ∈ ts, ¬t.span.Covers i := by
  have hfinish : ¬Span.Covers ⟨p, p⟩ i := fun ⟨hlow, hhigh⟩ =>
    Nat.lt_irrefl _ (Nat.lt_of_le_of_lt hlow hhigh)
  simp [or_imp, forall_and, hfinish]

theorem inComment_append_finish {text : List Char} {ts : List Token} {p : Position} {i : Nat} :
    InComment text (ts ++ [⟨.finish, "", ⟨p, p⟩⟩]) i ↔ InComment text ts i := by
  simp only [InComment, forall_covers_append_finish]

theorem tile_of_cut {text : List Char} {ls : List Lexeme} (h : Cut [] text ls)
    (hread : ∀ t ∈ ls.filterMap Lexeme.token?, t.kind ≠ .finish) :
    Tokens.Tile ⟨ls.filterMap Lexeme.token? ++ [⟨.finish, "", ⟨.behind text, .behind text⟩⟩],
      ls.flatMap Lexeme.findings⟩ text := by
  have hwithin (t : Token) (ht : t ∈ ls.filterMap Lexeme.token?) :
      t.span.start.Within text ∧ t.span.stop.Within text := by
    obtain ⟨ds, hl⟩ := mem_tokens.mp ht
    obtain ⟨front, stretch, back, htext, -, htaken⟩ := h.exists_of_mem hl
    rw [List.nil_append] at htext
    rw [htext]
    exact htaken.within back
  constructor
  case finish =>
    exact ⟨_, _, rfl, Position.offset_behind text,
      fun t ht => ⟨hread t ht, h.tokens_inOrder.forward t ht⟩⟩
  case ordered =>
    refine List.pairwise_append.mpr ⟨h.tokens_inOrder.apart, List.pairwise_singleton _ _,
      fun t ht u hu => ?_⟩
    obtain rfl := List.mem_singleton.mp hu
    show _ ≤ (Position.behind text).offset
    rw [Position.offset_behind]
    exact (hwithin t ht).2.offset_le
  case tokensWithin =>
    have hend : (Position.behind text).Within text := by
      simpa using Position.within_behind text []
    intro t ht
    rcases List.mem_append.mp ht with ht | ht
    · exact hwithin t ht
    · obtain rfl := List.mem_singleton.mp ht
      exact ⟨hend, hend⟩
  case findingsWithin =>
    intro d hd
    obtain ⟨l, hl, hd⟩ := List.mem_flatMap.mp hd
    obtain ⟨front, stretch, back, htext, -, htaken⟩ := h.exists_of_mem hl
    obtain ⟨span, hspan, hstart, hstop, -⟩ := htaken.finding back hd
    rw [List.nil_append] at htext
    rw [htext]
    exact ⟨span, hspan, hstart, hstop⟩
  case between =>
    intro i c hc hout
    have hi : i < text.length := (List.getElem?_eq_some_iff.mp hc).1
    rw [forall_covers_append_finish] at hout
    rw [inComment_append_finish]
    obtain ⟨l, hl, hcovers⟩ := h.exists_covering (Nat.zero_le i) hi
    cases l with
    | gap span =>
      refine .inl ⟨h.blank_or_inComment hl hc hcovers, fun d hd => ?_⟩
      have hnone := h.filter_strayAt hl hcovers
      simpa using List.filter_eq_nil_iff.mp hnone d hd
    | token t ds => exact absurd hcovers (hout t (mem_tokens.mpr ⟨ds, hl⟩))
    | stray c' span => exact .inr ⟨span, h.filter_strayAt_stray hl hc hcovers⟩
  case strays =>
    intro d hd i hi
    rw [forall_covers_append_finish]
    exact h.not_covers_of_strayAt hd hi

/-- The tokens of a text stand side by side in it, from its start to its end, and between them there
are blanks, comments and characters that are reported. -/
theorem tokenize_tiles (source : String) : (tokenize source).Tile source.toList := by
  obtain ⟨ls, stop, hlexed⟩ := exists_lexed (.behind []) source.toList
  obtain ⟨hcut, rfl⟩ := cut_of_lexed hlexed
  rw [tokenize_of_lexed hlexed]
  exact tile_of_cut hcut fun t ht => (wellRead_of_lexed hlexed t ht).notFinish

end Arbor
