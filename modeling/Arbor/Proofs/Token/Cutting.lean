import Arbor.Proofs.Token.Lexing
import Mathlib.Data.List.Infix

/-!
# The characters of a lexeme

Each lexeme takes a stretch of characters from the front of the text (`Lexeme.TakenFrom`), and the
lexemes of a text take all of it, one behind the other (`Cut`). Their spans say where the stretches
are: a point behind some characters of a text has the line and the column that these make
(`Position.Within`).
-/

namespace Arbor

open Text

/-! ## 1. Points in a text -/

/-- The point stands in the text, and its line and column are those of its offset: the line is one
more than the line feeds before it, the column one more than the characters since the last of them. -/
structure Position.Within (p : Position) (text : List Char) : Prop where
  offset_le : p.offset ≤ text.length
  line : p.line = 1 + (text.take p.offset).count '\n'
  column : p.column = 1 + ((text.take p.offset).reverse.takeWhile (· != '\n')).length

/-- The point behind the characters at the start of a text. -/
def Position.behind (cs : List Char) : Position := Position.first.after cs

namespace Position

theorem after_append (p : Position) (front back : List Char) :
    p.after (front ++ back) = (p.after front).after back := List.foldl_append

theorem behind_append (front back : List Char) :
    behind (front ++ back) = (behind front).after back := after_append _ _ _

theorem offset_after (p : Position) (cs : List Char) :
    (p.after cs).offset = p.offset + cs.length := by
  induction cs generalizing p with
  | nil => rfl
  | cons c cs ih =>
    have hnext : (p.next c).offset = p.offset + 1 := by
      unfold next
      split <;> rfl
    show ((p.next c).after cs).offset = _
    rw [ih, hnext, List.length_cons]
    omega

@[simp] theorem offset_behind (cs : List Char) : (behind cs).offset = cs.length := by
  unfold behind
  rw [offset_after]
  exact Nat.zero_add _

/-- A line feed begins a line, any other character a column. -/
theorem line_column_behind (cs : List Char) :
    (behind cs).line = 1 + cs.count '\n' ∧
      (behind cs).column = 1 + (cs.reverse.takeWhile (· != '\n')).length := by
  induction cs using List.reverseRecOn with
  | nil => exact ⟨rfl, rfl⟩
  | append_singleton cs c ih =>
    obtain ⟨hline, hcolumn⟩ := ih
    have hnext : behind (cs ++ [c]) = (behind cs).next c := behind_append cs [c]
    rw [hnext, List.count_append, List.reverse_concat, next]
    by_cases hc : c = '\n'
    · subst hc
      rw [if_pos rfl]
      exact ⟨by rw [hline]; rfl, rfl⟩
    · rw [if_neg hc]
      refine ⟨?_, ?_⟩
      · rw [hline, List.count_singleton, if_neg (by simpa using hc)]
        rfl
      · rw [List.takeWhile_cons_of_pos (by simpa using hc), List.length_cons, hcolumn]
        rfl

theorem within_behind (front back : List Char) : (behind front).Within (front ++ back) := by
  have htake : (front ++ back).take (behind front).offset = front := by
    rw [offset_behind, List.take_left]
  obtain ⟨hline, hcolumn⟩ := line_column_behind front
  refine ⟨?_, ?_, ?_⟩
  · rw [offset_behind, List.length_append]
    omega
  · rw [htake, hline]
  · rw [htake, hcolumn]

end Position

/-! ## 2. What a lexeme takes -/

namespace Lexeme

def span : Lexeme → Span
  | gap span => span
  | token t _ => t.span
  | stray _ span => span

/-- What the lexeme tells of its characters: a gap is blank or a comment, and what starts no token is
one character. -/
def Tells (stretch : List Char) : Lexeme → Prop
  | gap _ => (∀ c ∈ stretch, isBlank c = true) ∨
      ∃ more, stretch = '/' :: '/' :: more ∧ '\n' ∉ stretch
  | token _ _ => True
  | stray c _ => stretch = [c]

/-- The codes of what can be wrong inside a token. -/
def tokenCodes : List String := ["TOK003", "TOK004"]

/-- The finding is about a front part of the characters behind `start`. -/
def Concerns (start : Position) (stretch : List Char) (d : Diagnostic) : Prop :=
  ∃ front, front <+: stretch ∧ d.span? = some ⟨start, start.after front⟩

/-- The lexeme takes the characters behind `start`. -/
structure TakenFrom (start : Position) (stretch : List Char) (l : Lexeme) : Prop where
  nonempty : stretch ≠ []
  span : l.span = ⟨start, start.after stretch⟩
  tells : l.Tells stretch
  concerns : ∀ d ∈ l.findings, Concerns start stretch d
  codes : ∀ t ds, l = token t ds → ∀ d ∈ ds, d.code ∈ tokenCodes

/-- A quoted string takes the characters up to and with its closing quote, or all there are. -/
theorem readQuoted_takes (start : Position) (text : List Char) (findings : List Diagnostic)
    (here : Position) (cs : List Char) :
    ∃ stretch t ds, readQuoted start text findings here cs =
        (token t ds, ⟨here.after stretch, cs.drop stretch.length⟩) ∧
      stretch <+: cs ∧ t.span = ⟨start, here.after stretch⟩ ∧
      ∀ d ∈ ds, d ∈ findings ∨ d.code ∈ tokenCodes ∧
        ∃ front, front <+: stretch ∧ d.span? = some ⟨start, here.after front⟩ := by
  have hunterminated (text : List Char) (findings : List Diagnostic) (here : Position)
      (cs : List Char) : ∃ t ds, readQuoted.unterminated start text findings (here.after cs) =
        (token t ds, ⟨here.after cs, cs.drop cs.length⟩) ∧
      t.span = ⟨start, here.after cs⟩ ∧
      ∀ d ∈ ds, d ∈ findings ∨ d.code ∈ tokenCodes ∧
        ∃ front, front <+: cs ∧ d.span? = some ⟨start, here.after front⟩ := by
    refine ⟨_, _, by rw [List.drop_length]; rfl, rfl, fun d hd => ?_⟩
    rcases List.mem_cons.mp (List.mem_reverse.mp hd) with rfl | hd
    · exact .inr ⟨by simp [tokenCodes, Diagnostic.atSpan], cs, List.prefix_refl _, rfl⟩
    · exact .inl hd
  fun_induction readQuoted start text findings here cs with
  | case1 text findings here rest =>
    exact ⟨['"'], _, _, rfl, ⟨rest, rfl⟩, rfl, fun d hd => .inl (List.mem_reverse.mp hd)⟩
  | case2 text findings here letter rest stop c hletter ih =>
    obtain ⟨stretch, t, ds, hread, ⟨more, rfl⟩, hspan, hds⟩ := ih
    refine ⟨'\\' :: letter :: stretch, t, ds, hread, ⟨more, rfl⟩, hspan, fun d hd => ?_⟩
    rcases hds d hd with hold | ⟨hcode, front, hfront, hd⟩
    · exact .inl hold
    · exact .inr ⟨hcode, '\\' :: letter :: front, by simpa using hfront, hd⟩
  | case3 text findings here letter rest stop hletter finding ih =>
    obtain ⟨stretch, t, ds, hread, ⟨more, rfl⟩, hspan, hds⟩ := ih
    refine ⟨'\\' :: letter :: stretch, t, ds, hread, ⟨more, rfl⟩, hspan, fun d hd => ?_⟩
    rcases hds d hd with hold | ⟨hcode, front, hfront, hd⟩
    · rcases List.mem_cons.mp hold with rfl | hold
      · exact .inr ⟨by simp [finding, tokenCodes, Diagnostic.atSpan], ['\\', letter], by simp, rfl⟩
      · exact .inl hold
    · exact .inr ⟨hcode, '\\' :: letter :: front, by simpa using hfront, hd⟩
  | case4 text findings here =>
    obtain ⟨t, ds, hread, hspan, hds⟩ := hunterminated text findings here ['\\']
    exact ⟨['\\'], t, ds, hread, List.prefix_refl _, hspan, hds⟩
  | case5 text findings here c rest _ _ _ ih =>
    obtain ⟨stretch, t, ds, hread, ⟨more, rfl⟩, hspan, hds⟩ := ih
    refine ⟨c :: stretch, t, ds, hread, ⟨more, rfl⟩, hspan, fun d hd => ?_⟩
    rcases hds d hd with hold | ⟨hcode, front, hfront, hd⟩
    · exact .inl hold
    · exact .inr ⟨hcode, c :: front, by simpa using hfront, hd⟩
  | case6 text findings here =>
    obtain ⟨t, ds, hread, hspan, hds⟩ := hunterminated text findings here []
    exact ⟨[], t, ds, hread, List.prefix_refl _, hspan, hds⟩

/-- A lexeme about which there is nothing to report takes the run of characters behind `c` that pass
the test. -/
theorem takenFrom_run (start : Position) (c : Char) (cs : List Char) (test : Char → Bool)
    {l : Lexeme} (hspan : l.span = ⟨start, start.after (c :: cs.takeWhile test)⟩)
    (htells : l.Tells (c :: cs.takeWhile test)) (hclean : l.findings = []) :
    l.TakenFrom start (c :: cs.takeWhile test) where
  nonempty := List.cons_ne_nil _ _
  span := hspan
  tells := htells
  concerns := by simp [hclean]
  codes := by
    rintro t ds rfl d hd
    rw [show ds = [] from hclean] at hd
    cases hd

/-- The first lexeme of a text takes its front, and the cursor behind it stands at the rest. -/
theorem read_takes (p : Position) (c : Char) (cs : List Char) :
    ∃ stretch rest, read p c cs = ((read p c cs).1, ⟨p.after stretch, rest⟩) ∧
      c :: cs = stretch ++ rest ∧ (read p c cs).1.TakenFrom p stretch := by
  have hsplit (test : Char → Bool) : c :: cs = (c :: cs.takeWhile test) ++ cs.dropWhile test := by
    rw [List.cons_append, List.takeWhile_append_dropWhile]
  unfold read
  split
  · next hblank =>
    refine ⟨_, _, rfl, hsplit isBlank, takenFrom_run p c cs isBlank rfl (.inl fun d hd => ?_) rfl⟩
    rcases List.mem_cons.mp hd with rfl | hd
    · exact hblank
    · exact List.all_eq_true.mp List.all_takeWhile d hd
  split
  · next hcomment =>
    obtain ⟨rfl, hhead⟩ := hcomment
    obtain ⟨cs', rfl⟩ : ∃ cs', cs = '/' :: cs' := by
      cases cs with
      | nil => cases hhead
      | cons d cs' => exact ⟨cs', by rw [Option.some.inj hhead]⟩
    refine ⟨_, _, rfl, hsplit (· != '\n'), takenFrom_run p _ _ _ rfl (.inr ⟨_, rfl, fun h => ?_⟩) rfl⟩
    rcases List.mem_cons.mp h with h | h
    · cases h
    · simpa using List.all_eq_true.mp List.all_takeWhile _ h
  split
  · exact ⟨_, _, rfl, hsplit isWordPart, takenFrom_run p c cs isWordPart rfl trivial rfl⟩
  split
  · exact ⟨_, _, rfl, hsplit isWordPart, takenFrom_run p c cs isWordPart rfl trivial rfl⟩
  split
  · obtain ⟨stretch, t, ds, hread, hprefix, hspan, hds⟩ := readQuoted_takes p [] [] (p.next c) cs
    simp only [hread]
    refine ⟨c :: stretch, _, rfl, ?_, ⟨List.cons_ne_nil _ _, hspan, trivial, fun d hd => ?_, ?_⟩⟩
    · exact congrArg (c :: ·) (List.prefix_iff_eq_append.mp hprefix).symm
    · obtain hnil | ⟨-, front, hfront, hd⟩ := hds d hd
      · cases hnil
      · exact ⟨c :: front, by simpa using hfront, hd⟩
    · rintro _ _ ⟨⟩ d hd
      exact (hds d hd).elim (fun h => by cases h) And.left
  · dsimp only
    split
    · exact ⟨[c], cs, rfl, rfl, takenFrom_run p c [] isBlank rfl trivial rfl⟩
    · refine ⟨[c], cs, rfl, rfl, ⟨List.cons_ne_nil _ _, rfl, rfl, fun d hd => ?_, ?_⟩⟩
      · obtain rfl := List.mem_singleton.mp hd
        exact ⟨[c], List.prefix_refl _, rfl⟩
      · rintro _ _ ⟨⟩

end Lexeme

/-! ## 3. A text in pieces -/

/-- The lexemes take a text from the characters behind `before` on, each from where the one before it
ends. -/
inductive Cut : List Char → List Char → List Lexeme → Prop where
  | finish {before} : Cut before [] []
  | cons {before stretch rest l ls} :
    l.TakenFrom (.behind before) stretch → Cut (before ++ stretch) rest ls →
    Cut before (stretch ++ rest) (l :: ls)

theorem cut_of_lexed {before cs : List Char} {ls : List Lexeme} {stop : Position}
    (h : Lexed (.behind before) cs ls stop) : Cut before cs ls ∧ stop = .behind (before ++ cs) := by
  generalize hp : Position.behind before = p at h
  induction h generalizing before with
  | finish => exact ⟨.finish, by rw [← hp, List.append_nil]⟩
  | @cons p c cs ls stop _ ih =>
    subst hp
    obtain ⟨stretch, rest, hread, hsplit, htaken⟩ := Lexeme.read_takes (.behind before) c cs
    rw [hread, ← Position.behind_append] at ih
    obtain ⟨hcut, hstop⟩ := ih rfl
    rw [hsplit]
    exact ⟨.cons htaken hcut, by rw [hstop, List.append_assoc]⟩

end Arbor
