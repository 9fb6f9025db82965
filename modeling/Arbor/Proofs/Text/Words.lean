import Arbor.Text.Blank
import Arbor.Text.Decimal
import Arbor.Text.Word
import Mathlib.Tactic.IntervalCases

/-!
# Words and numerals

The characters of words are neither blank nor a mark of the tree format, so what stands between words
ends them. `IsWord` is what the lexer takes as one word. The numeral of a 32-bit integer is a word,
and it reads back as that integer (`readInt32?_intDigits`).
-/

namespace Arbor.Text

/-! ## 1. Characters -/

theorem isWordPart_of_isWordStart {c : Char} (h : isWordStart c = true) : isWordPart c = true := by
  unfold isWordStart at h
  unfold isWordPart
  rcases Bool.or_eq_true _ _ ▸ h with h | h <;> simp [h]

theorem isDigit_iff {c : Char} : isDigit c = true ↔ 48 ≤ c.toNat ∧ c.toNat ≤ 57 := by
  unfold isDigit
  simp only [Bool.and_eq_true, decide_eq_true_eq, Char.le_def, UInt32.le_iff_toNat_le]
  rfl

theorem isWordPart_of_isDigit {c : Char} (h : isDigit c = true) : isWordPart c = true := by
  have hnumeric : isNumeric c = true := by
    obtain ⟨hlow, hhigh⟩ := isDigit_iff.mp h
    unfold isNumeric numericRanges inRanges
    rw [if_pos hhigh]
    exact decide_eq_true hlow
  simp [isWordPart, hnumeric]

/-- A character is known by its code point. -/
theorem eq_ofNat_toNat (c : Char) : c = Char.ofNat c.toNat := (Char.ofNat_toNat c).symm

theorem isWordPart_of_isBlank {c : Char} (h : isBlank c = true) : isWordPart c = false := by
  have hcode : c.toNat ∈ [9, 10, 11, 12, 13, 0x20, 0x85, 0xA0, 0x1680, 0x2000, 0x2001, 0x2002,
      0x2003, 0x2004, 0x2005, 0x2006, 0x2007, 0x2008, 0x2009, 0x200A, 0x2028, 0x2029, 0x202F,
      0x205F, 0x3000] := by
    simp only [isBlank, Bool.or_eq_true, Bool.and_eq_true, decide_eq_true_eq, beq_iff_eq] at h
    simp only [List.mem_cons, List.not_mem_nil, or_false]
    omega
  have hall : ∀ n ∈ [9, 10, 11, 12, 13, 0x20, 0x85, 0xA0, 0x1680, 0x2000, 0x2001, 0x2002,
      0x2003, 0x2004, 0x2005, 0x2006, 0x2007, 0x2008, 0x2009, 0x200A, 0x2028, 0x2029, 0x202F,
      0x205F, 0x3000], isWordPart (Char.ofNat n) = false := by decide +kernel
  -- there are few blanks, so each is looked up
  rw [eq_ofNat_toNat c]
  exact hall _ hcode

theorem not_isBlank_of_isWordPart {c : Char} (h : isWordPart c = true) : isBlank c = false := by
  cases hblank : isBlank c with
  | false => rfl
  | true =>
    rw [isWordPart_of_isBlank hblank] at h
    exact absurd h (by decide)

/-- The marks of the tree format. -/
def marks : List Char := ['#', '(', ')', '{', '}', '=', '.', ',', '"', '/']

theorem isWordPart_mark : ∀ c ∈ marks, isWordPart c = false := by
  have hall : marks.all (fun c => !isWordPart c) = true := by decide +kernel
  intro c hc
  simpa using List.all_eq_true.mp hall c hc

theorem isWordStart_mark : ∀ c ∈ '-' :: marks, isWordStart c = false := by
  have hall : ('-' :: marks).all (fun c => !isWordStart c) = true := by decide +kernel
  intro c hc
  simpa using List.all_eq_true.mp hall c hc

theorem not_isWordStart_of_isDigit {c : Char} (h : isDigit c = true) : isWordStart c = false := by
  obtain ⟨hlow, hhigh⟩ := isDigit_iff.mp h
  rw [eq_ofNat_toNat c]
  have hall : ∀ n ∈ [48, 49, 50, 51, 52, 53, 54, 55, 56, 57],
      isWordStart (Char.ofNat n) = false := by decide +kernel
  refine hall _ ?_
  simp only [List.mem_cons, List.not_mem_nil, or_false]
  omega

/-! ## 2. Words -/

/-- May the character begin a word? -/
def isWordHead (c : Char) : Bool := isWordStart c || c == '-' || isDigit c

/-- The lexer takes the text as one word. -/
def IsWord : List Char → Prop
  | [] => False
  | c :: cs => isWordHead c = true ∧ ∀ d ∈ cs, isWordPart d = true

instance : DecidablePred IsWord
  | [] => inferInstanceAs (Decidable False)
  | c :: cs => decidable_of_iff (isWordHead c = true ∧ cs.all isWordPart = true)
      (and_congr_right fun _ => List.all_eq_true)

theorem isWordPart_of_isWordHead {c : Char} (h : isWordHead c = true) : isWordPart c = true := by
  simp only [isWordHead, Bool.or_eq_true, beq_iff_eq] at h
  rcases h with (h | rfl) | h
  · exact isWordPart_of_isWordStart h
  · rfl
  · exact isWordPart_of_isDigit h

theorem IsWord.isWordPart {cs : List Char} (h : IsWord cs) : ∀ c ∈ cs, isWordPart c = true := by
  cases cs with
  | nil => simp
  | cons c cs =>
    intro d hd
    rcases List.mem_cons.mp hd with rfl | hd
    · exact isWordPart_of_isWordHead h.1
    · exact h.2 d hd

/-! ## 3. Numerals -/

theorem isDigit_digitChar : ∀ n < 10, isDigit (digitChar n) = true := by decide

theorem digitValue_digitChar : ∀ n < 10, digitValue (digitChar n) = n := by decide

theorem isDigit_of_mem_natDigits {n : Nat} : ∀ c ∈ natDigits n, isDigit c = true := by
  fun_induction natDigits n with
  | case1 n hn => simpa using isDigit_digitChar n hn
  | case2 n hn ih =>
    intro c hc
    rcases List.mem_append.mp hc with hc | hc
    · exact ih c hc
    · rw [List.mem_singleton.mp hc]
      exact isDigit_digitChar _ (Nat.mod_lt n (by decide))

theorem natDigits_ne_nil (n : Nat) : natDigits n ≠ [] := by
  unfold natDigits
  split <;> simp

/-- The digits of a number stand for it. -/
theorem natOfDigits_natDigits (n : Nat) : natOfDigits (natDigits n) = n := by
  fun_induction natDigits n with
  | case1 n hn => simp [natOfDigits, digitValue_digitChar n hn]
  | case2 n hn ih =>
    unfold natOfDigits at ih ⊢
    rw [List.foldl_append, ih]
    show n / 10 * 10 + digitValue (digitChar (n % 10)) = n
    rw [digitValue_digitChar _ (Nat.mod_lt n (by decide))]
    omega

theorem readDigits?_natDigits (n : Nat) : readDigits? (natDigits n) = some n := by
  have hdigits : (natDigits n).all isDigit = true := List.all_eq_true.mpr isDigit_of_mem_natDigits
  unfold readDigits?
  rw [hdigits, natOfDigits_natDigits]
  simp [natDigits_ne_nil]

theorem readInt?_intDigits (z : Int) : readInt? (intDigits z) = some z := by
  cases z with
  | negSucc n =>
    show (readDigits? (natDigits (n + 1))).map (fun k => -(k : Int)) = _
    rw [readDigits?_natDigits]
    rfl
  | ofNat n =>
    show readInt? (natDigits n) = _
    have hread := readDigits?_natDigits n
    cases hdigits : natDigits n with
    | nil => exact absurd hdigits (natDigits_ne_nil n)
    | cons c cs =>
      have hc : isDigit c = true := isDigit_of_mem_natDigits c (by rw [hdigits]; exact List.mem_cons_self)
      rw [hdigits] at hread
      unfold readInt?
      split
      · next heq =>
        obtain ⟨rfl, rfl⟩ := List.cons.inj heq
        exact absurd hc (by decide)
      · next heq =>
        obtain ⟨rfl, rfl⟩ := List.cons.inj heq
        exact absurd hc (by decide)
      · rw [hread]
        rfl

/-- The numeral of a 32-bit integer reads back as that integer. -/
theorem readInt32?_intDigits (n : Int32) : readInt32? (intDigits n.toInt) = some n := by
  have hlow : (-2147483648 : Int) ≤ n.toInt := Int32.le_toInt n
  have hhigh : n.toInt ≤ 2147483647 := by
    have := Int32.toInt_lt n
    omega
  unfold readInt32?
  rw [readInt?_intDigits]
  simp [hlow, hhigh]

theorem isIntNumeral_intDigits (z : Int) : isIntNumeral (intDigits z) = true := by
  have hall (n : Nat) : (natDigits n).all isDigit = true :=
    List.all_eq_true.mpr isDigit_of_mem_natDigits
  cases z with
  | negSucc n =>
    show (!(natDigits (n + 1)).isEmpty && (natDigits (n + 1)).all isDigit) = true
    simp [natDigits_ne_nil, hall]
  | ofNat n =>
    show isIntNumeral (natDigits n) = true
    have hdigits := hall n
    cases hn : natDigits n with
    | nil => exact absurd hn (natDigits_ne_nil n)
    | cons c cs =>
      rw [hn] at hdigits
      have hc : isDigit c = true := List.all_eq_true.mp hdigits c List.mem_cons_self
      unfold isIntNumeral
      split
      · next heq =>
        obtain ⟨rfl, rfl⟩ := List.cons.inj heq
        exact absurd hc (by decide)
      · rw [hdigits]
        rfl

theorem isWord_intDigits (z : Int) : IsWord (intDigits z) := by
  have hparts (n : Nat) : ∀ c ∈ natDigits n, isWordPart c = true :=
    fun c hc => isWordPart_of_isDigit (isDigit_of_mem_natDigits c hc)
  cases z with
  | negSucc n => exact ⟨rfl, hparts (n + 1)⟩
  | ofNat n =>
    show IsWord (natDigits n)
    have hdigits := @isDigit_of_mem_natDigits n
    have hall := hparts n
    cases hn : natDigits n with
    | nil => exact absurd hn (natDigits_ne_nil n)
    | cons c cs =>
      rw [hn] at hdigits hall
      exact ⟨by simp [isWordHead, hdigits c List.mem_cons_self],
        fun d hd => hall d (List.mem_cons_of_mem c hd)⟩

/-! ## 4. Words between joints -/

/-- The characters of a first word and of further words, each behind its joint. -/
def joinWords (first : List Char) (later : List (Char × List Char)) : List Char :=
  first ++ later.flatMap fun w => w.1 :: w.2

/-- The first stretch of a text, and the later ones behind their joints. -/
def splitWords : List Char → List Char × List (Char × List Char)
  | [] => ([], [])
  | c :: cs =>
    let (first, later) := splitWords cs
    if isJoint c then ([], (c, first) :: later) else (c :: first, later)

theorem joinWords_splitWords (cs : List Char) :
    joinWords (splitWords cs).1 (splitWords cs).2 = cs := by
  induction cs with
  | nil => rfl
  | cons c cs ih =>
    unfold splitWords
    dsimp only
    split
    · exact congrArg (c :: ·) ih
    · exact congrArg (c :: ·) ih

theorem segments_eq_splitWords (cs : List Char) :
    segments isJoint cs = (splitWords cs).1 :: (splitWords cs).2.map Prod.snd := by
  induction cs with
  | nil => rfl
  | cons c cs ih =>
    unfold segments splitWords
    rw [ih]
    dsimp only
    split <;> rfl

theorem isJoint_of_mem_splitWords (cs : List Char) :
    ∀ w ∈ (splitWords cs).2, isJoint w.1 = true := by
  induction cs with
  | nil => simp [splitWords]
  | cons c cs ih =>
    unfold splitWords
    dsimp only
    split
    · next hc =>
      intro w hw
      rcases List.mem_cons.mp hw with rfl | hw
      · exact hc
      · exact ih w hw
    · exact ih

/-- The first stretch ends at the first joint. -/
theorem head?_segments_joinWords {first : List Char} {later : List (Char × List Char)}
    (hfirst : ∀ c ∈ first, isJoint c = false) (hlater : ∀ w ∈ later, isJoint w.1 = true) :
    (segments isJoint (joinWords first later)).head? = some first := by
  induction first with
  | nil =>
    cases later with
    | nil => rfl
    | cons w later =>
      have hw : isJoint w.1 = true := hlater w List.mem_cons_self
      show (segments isJoint (w.1 :: (w.2 ++ later.flatMap fun w => w.1 :: w.2))).head? = some []
      rw [segments, if_pos hw]
      rfl
  | cons c first ih =>
    have hc : isJoint c = false := hfirst c List.mem_cons_self
    have hrest := ih fun d hd => hfirst d (List.mem_cons_of_mem c hd)
    show (segments isJoint (c :: joinWords first later)).head? = some (c :: first)
    rw [segments, hc]
    cases hsegments : segments isJoint (joinWords first later) with
    | nil =>
      rw [hsegments] at hrest
      cases hrest
    | cons s ss =>
      rw [hsegments] at hrest
      cases hrest
      rfl

theorem not_isJoint_of_isWordPart {c : Char} (h : isWordPart c = true) : isJoint c = false := by
  cases hc : isJoint c with
  | false => rfl
  | true =>
    simp only [isJoint, Bool.or_eq_true, beq_iff_eq] at hc
    rcases hc with rfl | rfl
    · exact absurd h (by decide +kernel)
    · exact absurd h (by decide +kernel)

theorem IsWord.not_isJoint {cs : List Char} (h : IsWord cs) : ∀ c ∈ cs, isJoint c = false :=
  fun c hc => not_isJoint_of_isWordPart (h.isWordPart c hc)

theorem isWord_of_isLaterWord {cs : List Char} (h : isLaterWord cs = true) : IsWord cs := by
  cases cs with
  | nil => exact absurd h (by decide)
  | cons c cs =>
    simp only [isLaterWord, Bool.and_eq_true, List.all_eq_true] at h
    exact ⟨h.1, fun d hd => h.2 d (List.mem_cons_of_mem c hd)⟩

theorem isWord_of_isFirstWord {cs : List Char} (h : isFirstWord cs = true) :
    IsWord cs ∧ ∃ c, cs.head? = some c ∧ isWordStart c = true := by
  cases cs with
  | nil => exact absurd h (by decide)
  | cons c cs =>
    simp only [isFirstWord, Bool.and_eq_true, List.all_eq_true] at h
    refine ⟨⟨?_, fun d hd => h.2 d (List.mem_cons_of_mem c hd)⟩, c, rfl, h.1⟩
    simp [isWordHead, h.1]

/-- A bare identifier is a first word and later words between joints. -/
theorem words_of_isBareIdentifier {text : String} (h : isBareIdentifier text = true) :
    isFirstWord (splitWords text.toList).1 = true ∧
      ∀ w ∈ (splitWords text.toList).2, isJoint w.1 = true ∧ IsWord w.2 := by
  unfold isBareIdentifier at h
  rw [segments_eq_splitWords] at h
  split at h
  · cases h
  · simp only [Bool.and_eq_true, List.all_eq_true] at h
    refine ⟨h.1, fun w hw => ⟨isJoint_of_mem_splitWords _ w hw, ?_⟩⟩
    exact isWord_of_isLaterWord (h.2 w.2 (List.mem_map_of_mem hw))

end Arbor.Text
