import Arbor.Proofs.Text.Words
import Arbor.Token.Lexer

/-!
# Cutting a text into tokens

`Lexed` is the cutting of a text into lexemes as a relation, `tokenize_of_lexed` says that the lexer
computes it. `Lexes` forgets where tokens stand: wherever the text begins, there is nothing to report
about it and its tokens have these shapes. It has one rule for each kind of lexeme, which says how far
the lexeme goes.

Each token of a text is `WellRead`: its class and its text agree. So a text is one token by itself
when it is a word (`isOneToken_iff`).
-/

namespace Arbor

open Text

/-- A token without its place: its class and its text. -/
abbrev TokenShape := TokenKind × String

def Token.shape (t : Token) : TokenShape := (t.kind, t.text)

/-! ## 1. Lexemes in order -/

/-- The text from a position on is cut into these lexemes and ends at `stop`. -/
inductive Lexed : Position → List Char → List Lexeme → Position → Prop where
  | finish {p} : Lexed p [] [] p
  | cons {p c cs ls stop} :
    Lexed (Lexeme.read p c cs).2.position (Lexeme.read p c cs).2.rest ls stop →
    Lexed p (c :: cs) ((Lexeme.read p c cs).1 :: ls) stop

theorem exists_lexed (p : Position) (cs : List Char) : ∃ ls stop, Lexed p cs ls stop := by
  generalize hlength : cs.length = n
  induction n using Nat.strongRecOn generalizing p cs with
  | ind n ih =>
    cases cs with
    | nil => exact ⟨[], p, .finish⟩
    | cons c cs =>
      have hshort : (Lexeme.read p c cs).2.rest.length < n := by
        have := Lexeme.read_rest_length_le p c cs
        rw [List.length_cons] at hlength
        omega
      obtain ⟨ls, stop, h⟩ := ih _ hshort (Lexeme.read p c cs).2.position
        (Lexeme.read p c cs).2.rest rfl
      exact ⟨_, stop, .cons h⟩

theorem readAll_of_lexed {p : Position} {cs : List Char} {ls : List Lexeme} {stop : Position}
    (h : Lexed p cs ls stop) (done : Array Lexeme) :
    Lexeme.readAll ⟨p, cs⟩ done = (done ++ ls.toArray, stop) := by
  induction h generalizing done with
  | finish =>
    unfold Lexeme.readAll
    simp
  | cons _ ih =>
    rw [Lexeme.readAll]
    exact (ih _).trans (by simp)

theorem tokenize_of_lexed {source : String} {ls : List Lexeme} {stop : Position}
    (h : Lexed .first source.toList ls stop) :
    tokenize source =
      ⟨ls.filterMap Lexeme.token? ++ [⟨.finish, "", ⟨stop, stop⟩⟩], ls.flatMap Lexeme.findings⟩ := by
  unfold tokenize
  rw [readAll_of_lexed h]
  simp

/-! ## 2. Clean texts -/

/-- Wherever the text begins, there is nothing to report about it and its tokens have these
shapes. -/
def Lexes (cs : List Char) (shapes : List TokenShape) : Prop :=
  ∀ p, ∃ ls stop, Lexed p cs ls stop ∧ ls.flatMap Lexeme.findings = [] ∧
    (ls.filterMap Lexeme.token?).map Token.shape = shapes

/-- The shape of the token that a word makes. -/
def wordShape (cs : List Char) : TokenShape :=
  let text := String.ofList cs
  (if cs.head?.any isWordStart then Lexeme.wordKind text else Lexeme.numeralKind text, text)

/-- Does the text go on with something that is no part of a word? -/
def EndsWord (rest : List Char) : Prop := ∀ c, rest.head? = some c → isWordPart c = false

theorem takeWhile_of_endsWord {cs rest : List Char} (hcs : ∀ c ∈ cs, isWordPart c = true)
    (hrest : EndsWord rest) :
    (cs ++ rest).takeWhile isWordPart = cs ∧ (cs ++ rest).dropWhile isWordPart = rest := by
  have hstop : rest.takeWhile isWordPart = [] ∧ rest.dropWhile isWordPart = rest := by
    cases rest with
    | nil => exact ⟨rfl, rfl⟩
    | cons c rest =>
      have hc : isWordPart c = false := hrest c rfl
      simp [hc]
  rw [List.takeWhile_append_of_pos hcs, List.dropWhile_append_of_pos hcs, hstop.1, hstop.2]
  exact ⟨List.append_nil cs, rfl⟩

namespace Lexes

theorem nil : Lexes [] [] := fun p => ⟨[], p, .finish, rfl, rfl⟩

/-- A lexeme that is a token about which there is nothing to report. -/
theorem token {c : Char} {cs rest : List Char} {shape : TokenShape} {shapes : List TokenShape}
    (hread : ∀ p, ∃ t q, Lexeme.read p c cs = (.token t [], ⟨q, rest⟩) ∧ t.shape = shape)
    (h : Lexes rest shapes) : Lexes (c :: cs) (shape :: shapes) := by
  intro p
  obtain ⟨t, q, hstep, hshape⟩ := hread p
  obtain ⟨ls, stop, hlexed, hclean, hshapes⟩ := h q
  refine ⟨.token t [] :: ls, stop, ?_, ?_, ?_⟩
  · have hrest : Lexed (Lexeme.read p c cs).2.position (Lexeme.read p c cs).2.rest ls stop := by
      rw [hstep]
      exact hlexed
    have hcons := Lexed.cons hrest
    rwa [hstep] at hcons
  · simpa [Lexeme.findings] using hclean
  · simp [Lexeme.token?, hshape, hshapes]

/-- A space in front of something that is not blank. -/
theorem space {cs : List Char} {shapes : List TokenShape}
    (hcs : ∀ c, cs.head? = some c → isBlank c = false) (h : Lexes cs shapes) :
    Lexes (' ' :: cs) shapes := by
  intro p
  have hrest : cs.dropWhile isBlank = cs := by
    cases cs with
    | nil => rfl
    | cons c cs => simp [hcs c rfl]
  have hstep : (Lexeme.read p ' ' cs).1.findings = [] ∧ (Lexeme.read p ' ' cs).1.token? = none ∧
      (Lexeme.read p ' ' cs).2.rest = cs := by
    have hblank : isBlank ' ' = true := by decide
    unfold Lexeme.read
    rw [if_pos hblank]
    exact ⟨rfl, rfl, hrest⟩
  obtain ⟨hfindings, htoken, hcursor⟩ := hstep
  obtain ⟨ls, stop, hlexed, hclean, hshapes⟩ := h (Lexeme.read p ' ' cs).2.position
  have hafter : Lexed (Lexeme.read p ' ' cs).2.position (Lexeme.read p ' ' cs).2.rest ls stop := by
    rw [hcursor]
    exact hlexed
  refine ⟨_, stop, .cons hafter, ?_, ?_⟩
  · rw [List.flatMap_cons, hfindings, hclean]
    rfl
  · rw [List.filterMap_cons, htoken]
    exact hshapes

theorem mark {c : Char} {kind : TokenKind} {cs : List Char} {shapes : List TokenShape}
    (hmark : (c, kind) ∈ [('#', TokenKind.hash), ('(', .leftParen), (')', .rightParen),
      ('{', .leftBrace), ('}', .rightBrace), ('=', .equals), ('.', .dot), (',', .comma)])
    (h : Lexes cs shapes) : Lexes (c :: cs) ((kind, c.toString) :: shapes) := by
  refine token (fun p => ⟨⟨kind, c.toString, ⟨p, p.next c⟩⟩, p.next c, ?_, rfl⟩) h
  have hstart : isWordStart c = false := by
    refine isWordStart_mark c ?_
    revert hmark
    simp only [marks, List.mem_cons, Prod.mk.injEq, List.not_mem_nil, or_false]
    tauto
  unfold Lexeme.read
  rw [hstart]
  simp only [List.mem_cons, Prod.mk.injEq, List.not_mem_nil, or_false] at hmark
  rcases hmark with ⟨rfl, rfl⟩ | ⟨rfl, rfl⟩ | ⟨rfl, rfl⟩ | ⟨rfl, rfl⟩ | ⟨rfl, rfl⟩ | ⟨rfl, rfl⟩ |
    ⟨rfl, rfl⟩ | ⟨rfl, rfl⟩ <;> rfl

theorem word {cs rest : List Char} {shapes : List TokenShape} (hcs : IsWord cs)
    (hrest : EndsWord rest) (h : Lexes rest shapes) :
    Lexes (cs ++ rest) (wordShape cs :: shapes) := by
  cases cs with
  | nil => exact hcs.elim
  | cons c cs =>
    obtain ⟨hhead, hparts⟩ := hcs
    obtain ⟨htake, hdrop⟩ := takeWhile_of_endsWord hparts hrest
    have hpart := isWordPart_of_isWordHead hhead
    have hblank : isBlank c = false := not_isBlank_of_isWordPart hpart
    -- a word does not begin a comment
    have hslash : ¬(c = '/' ∧ (cs ++ rest).head? = some '/') := by
      rintro ⟨rfl, -⟩
      rw [isWordPart_mark '/' (by decide)] at hpart
      cases hpart
    have hword (p : Position) (kindOf : String → TokenKind) :
        Lexeme.readWord kindOf p c (cs ++ rest) =
          (.token ⟨kindOf (String.ofList (c :: cs)), String.ofList (c :: cs),
            ⟨p, (p.next c).after cs⟩⟩ [], ⟨(p.next c).after cs, rest⟩) := by
      unfold Lexeme.readWord Cursor.skipWhile
      rw [htake, hdrop]
    show Lexes (c :: (cs ++ rest)) _
    refine token (fun p => ?_) h
    by_cases hstart : isWordStart c = true
    · have hread : Lexeme.read p c (cs ++ rest) =
          Lexeme.readWord Lexeme.wordKind p c (cs ++ rest) := by
        unfold Lexeme.read
        rw [hblank, if_neg Bool.false_ne_true, if_neg hslash, if_pos hstart]
      exact ⟨_, _, hread.trans (hword p _), by simp [Token.shape, wordShape, hstart]⟩
    · have hnumeral : c = '-' ∨ isDigit c = true := by
        simp only [isWordHead, Bool.or_eq_true, beq_iff_eq] at hhead
        tauto
      have hread : Lexeme.read p c (cs ++ rest) =
          Lexeme.readWord Lexeme.numeralKind p c (cs ++ rest) := by
        unfold Lexeme.read
        rw [hblank, if_neg Bool.false_ne_true, if_neg hslash, if_neg hstart, if_pos hnumeral]
      exact ⟨_, _, hread.trans (hword p _), by simp [Token.shape, wordShape, hstart]⟩

theorem readQuoted_escapeChars (start : Position) (findings : List Diagnostic) (cs rest : List Char)
    (text : List Char) (here : Position) :
    ∃ stop, Lexeme.readQuoted start text findings here (escapeChars cs ++ '"' :: rest) =
      (.token ⟨.string, String.ofList (text.reverse ++ cs), ⟨start, stop⟩⟩ findings.reverse,
        ⟨stop, rest⟩) := by
  induction cs generalizing text here with
  | nil => exact ⟨here.next '"', by simp [escapeChars, Lexeme.readQuoted]⟩
  | cons c cs ih =>
    have hsplit : escapeChars (c :: cs) ++ '"' :: rest =
        escapeChar c ++ (escapeChars cs ++ '"' :: rest) := by simp [escapeChars]
    have htext : text.reverse ++ c :: cs = (c :: text).reverse ++ cs := by simp
    rw [hsplit, htext]
    -- an escaped character comes back from its letter, any other one stands for itself
    cases hletter : escapeLetter? c with
    | some letter =>
      have hback : unescapeLetter? letter = some c := by
        unfold escapeLetter? at hletter
        split at hletter <;> cases hletter <;> rfl
      obtain ⟨stop, hstop⟩ := ih (c :: text) ((here.next '\\').next letter)
      refine ⟨stop, ?_⟩
      have hchars : escapeChar c = ['\\', letter] := by
        unfold escapeChar
        rw [hletter]
      rw [hchars]
      show Lexeme.readQuoted start text findings here ('\\' :: letter :: _) = _
      rw [Lexeme.readQuoted, hback]
      exact hstop
    | none =>
      obtain ⟨stop, hstop⟩ := ih (c :: text) (here.next c)
      refine ⟨stop, ?_⟩
      have hchars : escapeChar c = [c] := by
        unfold escapeChar
        rw [hletter]
      -- neither the quote nor the backslash goes unescaped
      have hquote : c ≠ '"' := by
        rintro rfl
        cases hletter
      have hslash : c ≠ '\\' := by
        rintro rfl
        cases hletter
      rw [hchars]
      show Lexeme.readQuoted start text findings here (c :: _) = _
      rw [Lexeme.readQuoted]
      · exact hstop
      · exact hquote
      · exact fun _ _ h _ => hslash h
      · exact fun h _ => hslash h

/-- A quoted text, whatever its characters are. -/
theorem quoted (cs : List Char) {rest : List Char} {shapes : List TokenShape}
    (h : Lexes rest shapes) :
    Lexes ('"' :: escapeChars cs ++ '"' :: rest) ((.string, String.ofList cs) :: shapes) := by
  refine token (fun p => ?_) h
  obtain ⟨stop, hstop⟩ := readQuoted_escapeChars p [] cs rest [] (p.next '"')
  have hread : Lexeme.read p '"' (escapeChars cs ++ '"' :: rest) =
      Lexeme.readQuoted p [] [] (p.next '"') (escapeChars cs ++ '"' :: rest) := by
    have hstart : isWordStart '"' = false := isWordStart_mark '"' (by decide)
    unfold Lexeme.read
    rw [hstart]
    rfl
  exact ⟨_, _, hread.trans hstop, rfl⟩

end Lexes

/-! ## 3. The tokens of any text -/

/-- The token's class and its text agree. -/
structure Token.WellRead (t : Token) : Prop where
  notFinish : t.kind ≠ .finish
  word : t.kind = .identifier ∨ t.kind = .int ∨ t.kind = .bool →
    IsWord t.text.toList ∧ t.shape = wordShape t.text.toList
  dot : t.kind = .dot → t.text = "."
  comma : t.kind = .comma → t.text = ","

theorem Token.WellRead.ne_truth {t : Token} (h : t.WellRead) (hkind : t.kind = .identifier) :
    t.text ≠ "true" ∧ t.text ≠ "false" := by
  have hshape : t.kind = (wordShape t.text.toList).1 :=
    congrArg Prod.fst (h.word (.inl hkind)).2
  rw [hkind] at hshape
  constructor <;> intro htext <;> rw [htext] at hshape <;> revert hshape <;> decide +kernel

theorem kind_wordShape (cs : List Char) : (wordShape cs).1 = .identifier ∨
    (wordShape cs).1 = .int ∨ (wordShape cs).1 = .bool := by
  unfold wordShape Lexeme.wordKind Lexeme.numeralKind
  dsimp only
  split <;> split <;> simp

theorem wellRead_of_word {t : Token} (hword : IsWord t.text.toList)
    (hshape : t.shape = wordShape t.text.toList) : t.WellRead := by
  have hkind : t.kind = (wordShape t.text.toList).1 := congrArg Prod.fst hshape
  have hcases := kind_wordShape t.text.toList
  rw [← hkind] at hcases
  refine ⟨?_, fun _ => ⟨hword, hshape⟩, ?_, ?_⟩ <;> intro h <;> rw [h] at hcases <;>
    simp at hcases

theorem readQuoted_string (start : Position) (text : List Char) (findings : List Diagnostic)
    (here : Position) (cs : List Char) :
    ∃ t ds, (Lexeme.readQuoted start text findings here cs).1 = .token t ds ∧ t.kind = .string := by
  fun_induction Lexeme.readQuoted start text findings here cs with
  | case1 => exact ⟨_, _, rfl, rfl⟩
  | case2 _ _ _ _ _ _ _ _ ih => exact ih
  | case3 _ _ _ _ _ _ _ _ ih => exact ih
  | case4 => exact ⟨_, _, rfl, rfl⟩
  | case5 _ _ _ _ _ _ _ _ ih => exact ih
  | case6 => exact ⟨_, _, rfl, rfl⟩

theorem wellRead_readWord {p : Position} {c : Char} {cs : List Char} {t : Token}
    {ds : List Diagnostic} {kindOf : String → TokenKind} (hhead : isWordHead c = true)
    (hkind : ∀ text, kindOf text =
      if isWordStart c then Lexeme.wordKind text else Lexeme.numeralKind text)
    (h : (Lexeme.readWord kindOf p c cs).1 = .token t ds) : t.WellRead := by
  cases h
  refine wellRead_of_word ?_ ?_
  · rw [String.toList_ofList]
    exact ⟨hhead, fun d hd => List.all_eq_true.mp List.all_takeWhile d hd⟩
  · simp [Token.shape, wordShape, hkind]

theorem wellRead_read {p : Position} {c : Char} {cs : List Char} {t : Token} {ds : List Diagnostic}
    (h : (Lexeme.read p c cs).1 = .token t ds) : t.WellRead := by
  unfold Lexeme.read at h
  split at h
  · cases h
  split at h
  · cases h
  split at h
  · next hstart => exact wellRead_readWord (by simp [isWordHead, hstart]) (by simp [hstart]) h
  split at h
  · next hstart hnumeral =>
    refine wellRead_readWord ?_ (by simp [hstart]) h
    simp only [isWordHead, Bool.or_eq_true, beq_iff_eq]
    tauto
  split at h
  · obtain ⟨t', ds', hread, hkind⟩ := readQuoted_string p [] [] (p.next c) cs
    obtain ⟨rfl, -⟩ : t' = t ∧ ds' = ds := by simpa using hread.symm.trans h
    constructor <;> simp [hkind]
  · dsimp only at h
    split at h
    · next kind hmark =>
      cases h
      unfold Lexeme.mark? at hmark
      split at hmark <;> cases hmark <;> constructor <;> simp
    · cases h

theorem wellRead_of_lexed {p : Position} {cs : List Char} {ls : List Lexeme} {stop : Position}
    (h : Lexed p cs ls stop) : ∀ t ∈ ls.filterMap Lexeme.token?, t.WellRead := by
  induction h with
  | finish => simp
  | cons _ ih =>
    intro t ht
    obtain ⟨l, hl, hlt⟩ := List.mem_filterMap.mp ht
    rcases List.mem_cons.mp hl with rfl | hl
    · unfold Lexeme.token? at hlt
      split at hlt
      · next hread =>
        cases hlt
        exact wellRead_read hread
      · cases hlt
    · exact ih t (List.mem_filterMap.mpr ⟨l, hl, hlt⟩)

/-- The tokens of a text, the last of which marks its end. -/
theorem exists_tokens (source : String) :
    ∃ ts p findings, tokenize source = ⟨ts ++ [⟨.finish, "", ⟨p, p⟩⟩], findings⟩ ∧
      ∀ t ∈ ts, t.WellRead := by
  obtain ⟨ls, stop, hlexed⟩ := exists_lexed .first source.toList
  exact ⟨_, stop, _, tokenize_of_lexed hlexed, wellRead_of_lexed hlexed⟩

theorem tokenize_of_lexes {source : String} {shapes : List TokenShape}
    (h : Lexes source.toList shapes) :
    ∃ ts p, tokenize source = ⟨ts ++ [⟨.finish, "", ⟨p, p⟩⟩], []⟩ ∧
      (∀ t ∈ ts, t.WellRead) ∧ ts.map Token.shape = shapes := by
  obtain ⟨ls, stop, hlexed, hclean, hshapes⟩ := h .first
  refine ⟨ls.filterMap Lexeme.token?, stop, ?_, wellRead_of_lexed hlexed, hshapes⟩
  rw [tokenize_of_lexed hlexed, hclean]

/-! ## 4. Texts that are one token -/

/-- The text by itself is one token of the class, with that text and nothing to report. -/
def IsOneToken (text : String) (kind : TokenKind) : Prop :=
  (tokenize text).findings = [] ∧
    (tokenize text).tokens.map Token.shape = [(kind, text), (.finish, "")]

theorem IsOneToken.kind_eq {text : String} {kind kind' : TokenKind} (h : IsOneToken text kind)
    (h' : IsOneToken text kind') : kind = kind' := by
  have hshapes := h.2.symm.trans h'.2
  exact congrArg Prod.fst (List.cons.inj hshapes).1

/-- A word of a class is one token of that class, and so is no other text. -/
theorem isOneToken_iff {text : String} {kind : TokenKind}
    (hkind : kind = .identifier ∨ kind = .int ∨ kind = .bool) :
    IsOneToken text kind ↔ IsWord text.toList ∧ (wordShape text.toList).1 = kind := by
  constructor
  · rintro ⟨-, hshapes⟩
    -- of what the text is cut into, one lexeme is a token, and its text is all of it
    obtain ⟨ls, stop, hlexed⟩ := exists_lexed .first text.toList
    rw [tokenize_of_lexed hlexed, List.map_append] at hshapes
    have hone : (ls.filterMap Lexeme.token?).map Token.shape = [(kind, text)] :=
      (List.append_inj' hshapes rfl).1
    obtain ⟨t, htokens, hshape⟩ := List.map_eq_singleton_iff.mp hone
    have htkind : t.kind = kind := congrArg Prod.fst hshape
    obtain rfl : t.text = text := congrArg Prod.snd hshape
    have hwell := wellRead_of_lexed hlexed t (by simp [htokens])
    obtain ⟨hword, heq⟩ := hwell.word (by rwa [htkind])
    exact ⟨hword, by rw [← heq]; exact htkind⟩
  · rintro ⟨hword, hshape⟩
    have hends : EndsWord [] := by simp [EndsWord]
    have hlexes := Lexes.word hword hends .nil
    rw [List.append_nil] at hlexes
    obtain ⟨ts, p, htokens, -, hshapes⟩ := tokenize_of_lexes hlexes
    have hone : wordShape text.toList = (kind, text) := by
      rw [← hshape]
      simp [wordShape]
    refine ⟨by rw [htokens], ?_⟩
    rw [htokens, List.map_append, hshapes, hone]
    rfl

end Arbor
