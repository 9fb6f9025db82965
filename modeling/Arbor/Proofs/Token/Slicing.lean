import Arbor.Proofs.Token.Cutting

/-!
# Slices of a text

How far a lexeme goes is settled by the characters it takes and the one behind them, and where the
text ends it goes no further (`Lexeme.read_cut`). So a slice of a text that begins and ends with a
token is cut into the tokens it is cut into within the text (`exists_slice`).
-/

namespace Arbor

open Text

/-- The run at the front of a text stays what it is when the text is cut off behind it. -/
theorem takeWhile_append_cut (test : Char → Bool) (cs : List Char) {rest : List Char}
    (hrest : rest <+: cs.dropWhile test) :
    (cs.takeWhile test ++ rest).takeWhile test = cs.takeWhile test ∧
      (cs.takeWhile test ++ rest).dropWhile test = rest := by
  have hall : ∀ c ∈ cs.takeWhile test, test c = true := fun c hc =>
    List.all_eq_true.mp List.all_takeWhile c hc
  have hstop : rest.takeWhile test = [] ∧ rest.dropWhile test = rest := by
    cases rest with
    | nil => exact ⟨rfl, rfl⟩
    | cons c rest =>
      obtain ⟨more, hmore⟩ := hrest
      have hc : test c = false := by
        have hhead := List.head?_dropWhile_not test cs
        rw [← hmore] at hhead
        simpa using hhead
      simp [hc]
  rw [List.takeWhile_append_of_pos hall, List.dropWhile_append_of_pos hall, hstop.1, hstop.2]
  exact ⟨List.append_nil _, rfl⟩

namespace Lexeme

/-- The lexemes make the same token, or none, and where there is nothing to report about the first one
there is nothing about the second. -/
structure Like (l m : Lexeme) : Prop where
  shape : m.token?.map Token.shape = l.token?.map Token.shape
  clean : l.findings = [] → m.findings = []

/-- A quoted string is read the same wherever it stands, also when the text is cut off behind it. -/
theorem readQuoted_cut (start : Position) (text : List Char) (findings : List Diagnostic)
    (here : Position) (cs : List Char) :
    ∃ stretch rest, cs = stretch ++ rest ∧
      (readQuoted start text findings here cs).2 = ⟨here.after stretch, rest⟩ ∧
      ∀ (start' here' : Position) (findings' : List Diagnostic),
        (findings = [] → findings' = []) → ∀ rest', rest' <+: rest →
          ∃ l, readQuoted start' text findings' here' (stretch ++ rest') =
              (l, ⟨here'.after stretch, rest'⟩) ∧
            (readQuoted start text findings here cs).1.Like l := by
  fun_induction readQuoted start text findings here cs with
  | case1 text findings here rest =>
    refine ⟨['"'], rest, rfl, rfl, fun start' here' findings' hclean rest' _ => ⟨_, rfl, rfl, ?_⟩⟩
    intro h
    exact List.reverse_eq_nil_iff.mpr (hclean (List.reverse_eq_nil_iff.mp h))
  | case2 text findings here letter rest stop c hletter ih =>
    obtain ⟨stretch, rest', rfl, hcursor, hcut⟩ := ih
    refine ⟨'\\' :: letter :: stretch, rest', rfl, hcursor, fun start' here' findings' hclean r hr => ?_⟩
    obtain ⟨l, hread, hlike⟩ := hcut start' ((here'.next '\\').next letter) findings' hclean r hr
    refine ⟨l, ?_, hlike⟩
    show readQuoted start' text findings' here' ('\\' :: letter :: (stretch ++ r)) = _
    rw [readQuoted, hletter]
    exact hread
  | case3 text findings here letter rest stop hletter finding ih =>
    obtain ⟨stretch, rest', rfl, hcursor, hcut⟩ := ih
    refine ⟨'\\' :: letter :: stretch, rest', rfl, hcursor, fun start' here' findings' _ r hr => ?_⟩
    obtain ⟨l, hread, hlike⟩ := hcut start' ((here'.next '\\').next letter)
      (.atSpan "TOK003" ("Invalid escape \\" ++ letter.toString ++ ".")
        ⟨start', (here'.next '\\').next letter⟩ :: findings') (fun h => by cases h) r hr
    refine ⟨l, ?_, hlike⟩
    show readQuoted start' text findings' here' ('\\' :: letter :: (stretch ++ r)) = _
    rw [readQuoted, hletter]
    exact hread
  | case4 text findings here =>
    refine ⟨['\\'], [], rfl, rfl, fun start' here' findings' _ rest' hrest => ?_⟩
    obtain rfl := List.prefix_nil.mp hrest
    exact ⟨_, rfl, rfl, by simp [readQuoted.unterminated, Lexeme.findings]⟩
  | case5 text findings here c rest hquote hescape hlast ih =>
    obtain ⟨stretch, rest', rfl, hcursor, hcut⟩ := ih
    refine ⟨c :: stretch, rest', rfl, hcursor, fun start' here' findings' hclean r hr => ?_⟩
    obtain ⟨l, hread, hlike⟩ := hcut start' (here'.next c) findings' hclean r hr
    refine ⟨l, ?_, hlike⟩
    have hslash : c ≠ '\\' := by
      rintro rfl
      cases hmore : stretch ++ rest' with
      | nil => exact hlast rfl hmore
      | cons letter more => exact hescape letter more rfl hmore
    show readQuoted start' text findings' here' (c :: (stretch ++ r)) = _
    rw [readQuoted]
    · exact hread
    · exact hquote
    · exact fun _ _ h _ => hslash h
    · exact fun h _ => hslash h
  | case6 text findings here =>
    refine ⟨[], [], rfl, rfl, fun start' here' findings' _ rest' hrest => ?_⟩
    obtain rfl := List.prefix_nil.mp hrest
    exact ⟨_, rfl, rfl, by simp [readQuoted.unterminated, Lexeme.findings]⟩

/-- The first lexeme of a text is read the same wherever the text stands, also when it is cut off
behind the lexeme. -/
theorem read_cut (p : Position) (c : Char) (cs : List Char) :
    ∃ more rest, cs = more ++ rest ∧ (read p c cs).2 = ⟨p.after (c :: more), rest⟩ ∧
      ∀ p' rest', rest' <+: rest → ∃ l, read p' c (more ++ rest') =
        (l, ⟨p'.after (c :: more), rest'⟩) ∧ (read p c cs).1.Like l := by
  have hsplit (test : Char → Bool) : cs = cs.takeWhile test ++ cs.dropWhile test :=
    List.takeWhile_append_dropWhile.symm
  have hskip (test : Char → Bool) (p' : Position) {rest : List Char}
      (hrest : rest <+: cs.dropWhile test) :
      Cursor.skipWhile ⟨p'.next c, cs.takeWhile test ++ rest⟩ test =
        ⟨p'.after (c :: cs.takeWhile test), rest⟩ := by
    obtain ⟨htake, hdrop⟩ := takeWhile_append_cut test cs hrest
    unfold Cursor.skipWhile
    rw [htake, hdrop]
    rfl
  have hword (kindOf : String → TokenKind) (p' : Position) {rest : List Char}
      (hrest : rest <+: cs.dropWhile isWordPart) :
      readWord kindOf p' c (cs.takeWhile isWordPart ++ rest) =
        (.token ⟨kindOf (String.ofList (c :: cs.takeWhile isWordPart)),
            String.ofList (c :: cs.takeWhile isWordPart),
            ⟨p', p'.after (c :: cs.takeWhile isWordPart)⟩⟩ [],
          ⟨p'.after (c :: cs.takeWhile isWordPart), rest⟩) := by
    unfold readWord
    rw [hskip isWordPart p' hrest, (takeWhile_append_cut isWordPart cs hrest).1]
  unfold read
  by_cases hblank : isBlank c = true
  · simp only [if_pos hblank]
    refine ⟨_, _, hsplit isBlank, rfl, fun p' rest' hrest => ?_⟩
    rw [hskip isBlank p' hrest]
    exact ⟨_, rfl, rfl, fun _ => rfl⟩
  simp only [if_neg hblank]
  by_cases hcomment : c = '/' ∧ cs.head? = some '/'
  · simp only [if_pos hcomment]
    refine ⟨_, _, hsplit (· != '\n'), rfl, fun p' rest' hrest => ?_⟩
    -- the second slash is in the comment
    have hstays : c = '/' ∧ (cs.takeWhile (· != '\n') ++ rest').head? = some '/' := by
      obtain ⟨rfl, hhead⟩ := hcomment
      obtain ⟨cs', rfl⟩ : ∃ cs', cs = '/' :: cs' := by
        cases cs with
        | nil => cases hhead
        | cons d cs' => exact ⟨cs', by rw [Option.some.inj hhead]⟩
      exact ⟨rfl, rfl⟩
    rw [if_pos hstays, hskip _ p' hrest]
    exact ⟨_, rfl, rfl, fun _ => rfl⟩
  -- what is no comment does not become one
  have hnone {more rest rest' : List Char} (hcs : cs = more ++ rest) (hrest : rest' <+: rest) :
      ¬(c = '/' ∧ (more ++ rest').head? = some '/') := by
    rintro ⟨rfl, hhead⟩
    refine hcomment ⟨rfl, ?_⟩
    obtain ⟨behind, rfl⟩ := hrest
    rw [hcs, ← List.append_assoc, List.head?_append, hhead]
    rfl
  simp only [if_neg hcomment]
  by_cases hstart : isWordStart c = true
  · simp only [if_pos hstart]
    refine ⟨_, _, hsplit isWordPart, rfl, fun p' rest' hrest => ?_⟩
    rw [if_neg (hnone (hsplit isWordPart) hrest), hword _ p' hrest]
    exact ⟨_, rfl, rfl, fun _ => rfl⟩
  simp only [if_neg hstart]
  by_cases hnumeral : c = '-' ∨ isDigit c = true
  · simp only [if_pos hnumeral]
    refine ⟨_, _, hsplit isWordPart, rfl, fun p' rest' hrest => ?_⟩
    rw [if_neg (hnone (hsplit isWordPart) hrest), hword _ p' hrest]
    exact ⟨_, rfl, rfl, fun _ => rfl⟩
  simp only [if_neg hnumeral]
  by_cases hquote : c = '"'
  · simp only [if_pos hquote]
    obtain ⟨stretch, rest, hcs, hcursor, hcut⟩ := readQuoted_cut p [] [] (p.next c) cs
    refine ⟨stretch, rest, hcs, hcursor, fun p' rest' hrest => ?_⟩
    rw [if_neg (hnone hcs hrest)]
    exact hcut p' (p'.next c) [] id rest' hrest
  simp only [if_neg hquote]
  cases hmark : mark? c with
  | some kind =>
    refine ⟨[], cs, rfl, rfl, fun p' rest' hrest => ?_⟩
    rw [if_neg (hnone rfl hrest)]
    exact ⟨_, rfl, rfl, fun _ => rfl⟩
  | none =>
    refine ⟨[], cs, rfl, rfl, fun p' rest' hrest => ?_⟩
    rw [if_neg (hnone rfl hrest)]
    exact ⟨_, rfl, rfl, fun h => by cases h⟩

end Lexeme

/-- The characters of the first lexemes of a text, when there is nothing to report about them: where
they end, and what tokens they make by themselves. -/
theorem Lexed.slice {p : Position} {cs : List Char} {ls₁ ls₂ : List Lexeme} {stop : Position}
    (h : Lexed p cs (ls₁ ++ ls₂) stop) (hclean : ls₁.flatMap Lexeme.findings = []) :
    ∃ front back, cs = front ++ back ∧ Lexed (p.after front) back ls₂ stop ∧
      ls₁.foldl (fun _ l => l.span.stop) p = p.after front ∧
      Lexes front ((ls₁.filterMap Lexeme.token?).map Token.shape) := by
  induction ls₁ generalizing p cs with
  | nil => exact ⟨[], cs, rfl, h, rfl, .nil⟩
  | cons l ls₁ ih =>
    rw [List.flatMap_cons] at hclean
    obtain ⟨hl, hmore⟩ := List.append_eq_nil_iff.mp hclean
    cases h with
    | @cons _ c cs _ _ h =>
      obtain ⟨more, rest, rfl, hcursor, hcut⟩ := Lexeme.read_cut p c cs
      obtain ⟨stretch, rest', hread, hsplit, htaken⟩ := Lexeme.read_takes p c (more ++ rest)
      obtain ⟨-, rfl⟩ : p.after stretch = p.after (c :: more) ∧ rest' = rest := by
        have := (congrArg Prod.snd hread).symm.trans hcursor
        simpa using this
      obtain rfl : c :: more = stretch := List.append_cancel_right hsplit
      rw [hcursor] at h
      obtain ⟨front, back, rfl, hback, hstop, hlexes⟩ := ih h hmore
      refine ⟨c :: more ++ front, back, by simp, ?_, ?_, fun q => ?_⟩
      · rwa [Position.after_append]
      · rw [List.foldl_cons, htaken.span, hstop, Position.after_append]
      · obtain ⟨l', hread', hlike⟩ := hcut q front (List.prefix_append _ _)
        obtain ⟨ls, stop', hlexed, hnone, hshapes⟩ := hlexes (q.after (c :: more))
        have hcons : Lexed q (c :: (more ++ front)) (l' :: ls) stop' := by
          have hstep := @Lexed.cons q c (more ++ front) ls stop'
          rw [hread'] at hstep
          exact hstep hlexed
        refine ⟨_, _, hcons, ?_, ?_⟩
        · rw [List.flatMap_cons, hlike.clean hl, hnone]
          rfl
        · rw [List.filterMap_cons, List.filterMap_cons]
          have hshape := hlike.shape
          revert hshape
          cases l'.token? <;> cases (Lexeme.read p c (more ++ (front ++ back))).1.token? <;>
            simp [hshapes]

theorem Lexed.start_eq {p : Position} {cs : List Char} {l : Lexeme} {ls : List Lexeme}
    {stop : Position} (h : Lexed p cs (l :: ls) stop) : l.span.start = p := by
  cases h with
  | @cons _ c cs _ _ _ =>
    obtain ⟨stretch, rest, -, -, htaken⟩ := Lexeme.read_takes p c cs
    rw [htaken.span]

theorem span_eq_of_token?_eq_some {l : Lexeme} {t : Token} (h : l.token? = some t) :
    l.span = t.span := by
  cases l <;> cases h
  rfl

/-- A slice of a text from the start of one of its tokens to the end of another one, when there is
nothing to report about the text. -/
theorem exists_slice {text : List Char} {ls : List Lexeme} {stop : Position}
    (h : Lexed (.behind []) text ls stop) (hclean : ls.flatMap Lexeme.findings = [])
    {before word behind : List Token} {first last : Token}
    (htokens : ls.filterMap Lexeme.token? = before ++ (first :: (word ++ last :: behind))) :
    ∃ front stretch back, text = front ++ stretch ++ back ∧
      first.span.start = .behind front ∧ last.span.stop = .behind (front ++ stretch) ∧
      Lexes stretch ((first :: (word ++ [last])).map Token.shape) := by
  -- gaps may stand in front of either token
  obtain ⟨ls₁, _, rfl, -, hfirst⟩ := List.filterMap_eq_append_iff.mp htokens
  obtain ⟨gap, l, _, rfl, -, hl, hword⟩ := List.filterMap_eq_cons_iff.mp hfirst
  obtain ⟨mid, _, rfl, hmid, hlast⟩ := List.filterMap_eq_append_iff.mp hword
  obtain ⟨gap', m, rest, rfl, hgap', hm, -⟩ := List.filterMap_eq_cons_iff.mp hlast
  have hsplit : ls₁ ++ (gap ++ l :: (mid ++ (gap' ++ m :: rest))) =
      (ls₁ ++ gap) ++ ((l :: (mid ++ gap') ++ [m]) ++ rest) := by simp
  rw [hsplit] at h hclean
  rw [List.flatMap_append] at hclean
  obtain ⟨hbefore, hbehind⟩ := List.append_eq_nil_iff.mp hclean
  rw [List.flatMap_append] at hbehind
  obtain ⟨hslice, -⟩ := List.append_eq_nil_iff.mp hbehind
  obtain ⟨front, rest', rfl, hopen, -, -⟩ := h.slice hbefore
  obtain ⟨stretch, back, rfl, -, hstop, hlexes⟩ := hopen.slice hslice
  refine ⟨front, stretch, back, (List.append_assoc ..).symm, ?_, ?_, ?_⟩
  · rw [← span_eq_of_token?_eq_some hl]
    exact hopen.start_eq
  · rw [← span_eq_of_token?_eq_some hm, Position.behind_append]
    rw [List.foldl_append] at hstop
    exact hstop
  · have hshapes : (l :: (mid ++ gap') ++ [m]).filterMap Lexeme.token? =
        first :: (word ++ [last]) := by
      simp [hl, hm, hmid, List.filterMap_eq_nil_iff.mpr hgap']
    rwa [hshapes] at hlexes

end Arbor
