import Arbor.Proofs.Text.Words
import Arbor.Text.Names

/-!
# Names that are joined and split again

Splitting a joined list splits each name by itself (`splitNames_joinNames`), so names that came out
of a list come back as they are. A name made of words and joints may have commas in it and then falls
apart, but never into nothing. A qualified name has the namespace it was made with as long as there is no
dot in that (`namespace?_of_notMem`, `namespace?_of_mem`).
-/

namespace Arbor.Text

/-! ## 1. Segments -/

section Segments

variable {isSeparator : Char → Bool}

theorem segments_ne_nil (isSeparator : Char → Bool) (cs : List Char) :
    segments isSeparator cs ≠ [] := by
  cases cs with
  | nil => simp [segments]
  | cons c cs =>
    rw [segments]
    split
    · simp
    · split <;> simp

theorem segments_cons_of_not {c : Char} (hc : isSeparator c = false) {cs first : List Char}
    {more : List (List Char)} (hcs : segments isSeparator cs = first :: more) :
    segments isSeparator (c :: cs) = (c :: first) :: more := by
  rw [segments, if_neg (by simp [hc]), hcs]

theorem segments_append (l : List Char) {c : Char} (hc : isSeparator c = true) (r : List Char) :
    segments isSeparator (l ++ c :: r) = segments isSeparator l ++ segments isSeparator r := by
  induction l with
  | nil =>
    show segments isSeparator (c :: r) = [[]] ++ segments isSeparator r
    rw [segments, if_pos hc]
    rfl
  | cons d l ih =>
    rw [List.cons_append]
    by_cases hd : isSeparator d = true
    · rw [segments, segments, if_pos hd, if_pos hd, ih]
      rfl
    · rw [Bool.not_eq_true] at hd
      obtain ⟨first, more, hl⟩ := List.exists_cons_of_ne_nil (segments_ne_nil isSeparator l)
      rw [hl] at ih
      rw [segments_cons_of_not hd hl, segments_cons_of_not hd ih]
      rfl

theorem segments_of_forall {cs : List Char} (h : ∀ c ∈ cs, isSeparator c = false) :
    segments isSeparator cs = [cs] := by
  induction cs with
  | nil => rfl
  | cons c cs ih =>
    have hcs : segments isSeparator cs = [cs] := ih fun d hd => h d (List.mem_cons_of_mem c hd)
    exact segments_cons_of_not (h c List.mem_cons_self) hcs

/-- No segment has a separator in it. -/
theorem forall_of_mem_segments {cs s : List Char} (hs : s ∈ segments isSeparator cs) :
    ∀ c ∈ s, isSeparator c = false := by
  induction cs generalizing s with
  | nil =>
    obtain rfl : s = [] := by simpa [segments] using hs
    simp
  | cons c cs ih =>
    by_cases hc : isSeparator c = true
    · rw [segments, if_pos hc] at hs
      rcases List.mem_cons.mp hs with rfl | hs
      · simp
      · exact ih hs
    · rw [Bool.not_eq_true] at hc
      obtain ⟨first, more, hcs⟩ := List.exists_cons_of_ne_nil (segments_ne_nil isSeparator cs)
      rw [segments_cons_of_not hc hcs] at hs
      rcases List.mem_cons.mp hs with rfl | hs
      · intro d hd
        rcases List.mem_cons.mp hd with rfl | hd
        · exact hc
        · exact ih (by rw [hcs]; exact List.mem_cons_self) d hd
      · exact ih (by rw [hcs]; exact List.mem_cons_of_mem first hs)

/-- A character that separates nothing is in one of the segments. -/
theorem exists_mem_segments {cs : List Char} {c : Char} (hc : c ∈ cs)
    (hnot : isSeparator c = false) : ∃ s ∈ segments isSeparator cs, c ∈ s := by
  obtain ⟨l, r, rfl⟩ := List.append_of_mem hc
  induction l with
  | nil =>
    obtain ⟨first, more, hr⟩ := List.exists_cons_of_ne_nil (segments_ne_nil isSeparator r)
    rw [List.nil_append, segments_cons_of_not hnot hr]
    exact ⟨_, List.mem_cons_self, List.mem_cons_self⟩
  | cons d l ih =>
    obtain ⟨s, hs, hcs⟩ := ih (by simp)
    rw [List.cons_append]
    by_cases hd : isSeparator d = true
    · rw [segments, if_pos hd]
      exact ⟨s, List.mem_cons_of_mem [] hs, hcs⟩
    · rw [Bool.not_eq_true] at hd
      obtain ⟨first, more, hl⟩ :=
        List.exists_cons_of_ne_nil (segments_ne_nil isSeparator (l ++ c :: r))
      rw [segments_cons_of_not hd hl]
      rw [hl] at hs
      rcases List.mem_cons.mp hs with rfl | hs
      · exact ⟨_, List.mem_cons_self, List.mem_cons_of_mem d hcs⟩
      · exact ⟨s, List.mem_cons_of_mem _ hs, hcs⟩

end Segments

/-! ## 2. Blanks at the ends -/

theorem mem_of_mem_trimBlanks {c : Char} {cs : List Char} (h : c ∈ trimBlanks cs) : c ∈ cs := by
  unfold trimBlanks at h
  rw [List.mem_reverse] at h
  have hfront := List.mem_reverse.mp ((List.dropWhile_suffix isBlank).mem h)
  exact (List.dropWhile_suffix isBlank).mem hfront

theorem mem_trimBlanks {c : Char} {cs : List Char} (hc : c ∈ cs) (hblank : isBlank c = false) :
    c ∈ trimBlanks cs := by
  have hdrop (l : List Char) (hl : c ∈ l) : c ∈ l.dropWhile isBlank := by
    rw [← List.takeWhile_append_dropWhile (p := isBlank) (l := l)] at hl
    rcases List.mem_append.mp hl with hl | hl
    · have htrue : isBlank c = true := List.all_eq_true.mp List.all_takeWhile c hl
      rw [hblank] at htrue
      cases htrue
    · exact hl
  unfold trimBlanks
  rw [List.mem_reverse]
  exact hdrop _ (List.mem_reverse.mpr (hdrop cs hc))

theorem trimBlanks_of_forall {cs : List Char} (h : ∀ c ∈ cs, isBlank c = false) :
    trimBlanks cs = cs := by
  have hdrop (l : List Char) (hl : ∀ c ∈ l, isBlank c = false) : l.dropWhile isBlank = l := by
    cases l with
    | nil => rfl
    | cons c l => rw [List.dropWhile_cons, if_neg (by simp [hl c List.mem_cons_self])]
  unfold trimBlanks
  rw [hdrop cs h, hdrop cs.reverse fun c hc => h c (List.mem_reverse.mp hc), List.reverse_reverse]

theorem trimBlanks_trimBlanks (cs : List Char) : trimBlanks (trimBlanks cs) = trimBlanks cs := by
  have hdrop (l : List Char) : (l.dropWhile isBlank).dropWhile isBlank = l.dropWhile isBlank := by
    induction l with
    | nil => rfl
    | cons c l ih =>
      by_cases hc : isBlank c = true
      · rw [List.dropWhile_cons_of_pos hc]
        exact ih
      · rw [List.dropWhile_cons_of_neg hc, List.dropWhile_cons_of_neg hc]
  -- what is trimmed is a front of what has no blank in front
  have hfront : trimBlanks cs <+: cs.dropWhile isBlank := by
    unfold trimBlanks
    rw [← List.reverse_suffix, List.reverse_reverse]
    exact List.dropWhile_suffix isBlank
  have hstart : (trimBlanks cs).dropWhile isBlank = trimBlanks cs := by
    cases htrim : trimBlanks cs with
    | nil => rfl
    | cons c l =>
      rw [htrim] at hfront
      obtain ⟨r, hr⟩ := hfront
      have hhead := hdrop cs
      rw [← hr, List.cons_append] at hhead
      by_cases hc : isBlank c = true
      · rw [List.dropWhile_cons_of_pos hc] at hhead
        have hlength := congrArg List.length hhead
        have hle := (List.dropWhile_suffix (l := l ++ r) isBlank).length_le
        rw [List.length_cons] at hlength
        omega
      · rw [List.dropWhile_cons_of_neg hc]
  show (((trimBlanks cs).dropWhile isBlank).reverse.dropWhile isBlank).reverse = trimBlanks cs
  rw [hstart]
  unfold trimBlanks
  rw [List.reverse_reverse, hdrop]

/-! ## 3. Lists of names -/

/-- The name comes back from a list by itself. -/
def IsListed (name : String) : Prop := splitNames name = [name]

instance (name : String) : Decidable (IsListed name) := inferInstanceAs (Decidable (_ = _))

theorem splitNames_append (a b : String) :
    splitNames (a ++ "," ++ b) = splitNames a ++ splitNames b := by
  have htext : (a ++ "," ++ b).toList = a.toList ++ ',' :: b.toList := by simp
  unfold splitNames
  rw [htext, segments_append a.toList (by decide)]
  simp

theorem splitNames_joinNames (names : List String) :
    splitNames (joinNames names) = names.flatMap splitNames := by
  unfold joinNames
  induction names with
  | nil => decide
  | cons name names ih =>
    cases names with
    | nil => simp
    | cons next more =>
      rw [String.intercalate_cons_cons, splitNames_append, ih, List.flatMap_cons (x := name)]

theorem splitNames_of_forall {cs : List Char} (hcomma : ∀ c ∈ cs, c ≠ ',') (htrim : trimBlanks cs = cs)
    (hne : cs ≠ []) : IsListed (String.ofList cs) := by
  unfold IsListed splitNames
  rw [String.toList_ofList, segments_of_forall fun c hc => by simpa using hcomma c hc]
  simp [htrim, hne]

theorem isListed_of_mem_splitNames {text name : String} (h : name ∈ splitNames text) :
    IsListed name := by
  unfold splitNames at h
  obtain ⟨cs, hcs, rfl⟩ := List.mem_map.mp h
  obtain ⟨hmem, hne⟩ := List.mem_filter.mp hcs
  obtain ⟨s, hs, rfl⟩ := List.mem_map.mp hmem
  apply splitNames_of_forall
  · intro c hc
    have hsegment := forall_of_mem_segments hs c (mem_of_mem_trimBlanks hc)
    simpa using hsegment
  · exact trimBlanks_trimBlanks s
  · simpa using hne

theorem splitNames_joinNames_of_listed {names : List String} (h : ∀ name ∈ names, IsListed name) :
    splitNames (joinNames names) = names := by
  rw [splitNames_joinNames]
  induction names with
  | nil => rfl
  | cons name names ih =>
    have hname : splitNames name = [name] := h name List.mem_cons_self
    rw [List.flatMap_cons, hname, ih fun x hx => h x (List.mem_cons_of_mem name hx)]
    rfl

/-! ## 4. Names made of words -/

/-- The name is made of words and joints, with a word at least. -/
structure IsJoined (name : String) : Prop where
  chars : ∀ c ∈ name.toList, isWordPart c = true ∨ isJoint c = true
  word : ∃ c ∈ name.toList, isWordPart c = true

theorem IsJoined.not_isBlank {name : String} (h : IsJoined name) :
    ∀ c ∈ name.toList, isBlank c = false := by
  intro c hc
  rcases h.chars c hc with hword | hjoint
  · exact not_isBlank_of_isWordPart hword
  · simp only [isJoint, Bool.or_eq_true, beq_iff_eq] at hjoint
    rcases hjoint with rfl | rfl <;> decide

theorem ne_comma_of_isWordPart {c : Char} (h : isWordPart c = true) : c ≠ ',' := by
  rintro rfl
  have hjoint := not_isJoint_of_isWordPart h
  revert hjoint
  decide

/-- A joined name leaves at least one name behind in a list. -/
theorem IsJoined.splitNames_ne_nil {name : String} (h : IsJoined name) : splitNames name ≠ [] := by
  obtain ⟨c, hc, hword⟩ := h.word
  obtain ⟨s, hs, hcs⟩ : ∃ s ∈ segments (· == ',') name.toList, c ∈ s :=
    exists_mem_segments hc (by simpa using ne_comma_of_isWordPart hword)
  have htrim : c ∈ trimBlanks s := mem_trimBlanks hcs (not_isBlank_of_isWordPart hword)
  have hmem : String.ofList (trimBlanks s) ∈ splitNames name := by
    unfold splitNames
    refine List.mem_map_of_mem (List.mem_filter.mpr ⟨List.mem_map_of_mem hs, ?_⟩)
    simpa using List.ne_nil_of_mem htrim
  exact List.ne_nil_of_mem hmem

/-- Without a comma in it, it comes back as it is. -/
theorem IsJoined.isListed {name : String} (h : IsJoined name) (hcomma : ',' ∉ name.toList) :
    IsListed name := by
  rw [← String.ofList_toList (s := name)]
  apply splitNames_of_forall
  · rintro c hc rfl
    exact hcomma hc
  · exact trimBlanks_of_forall h.not_isBlank
  · obtain ⟨c, hc, -⟩ := h.word
    exact List.ne_nil_of_mem hc

theorem length_le_splitNames_joinNames {names : List String}
    (h : ∀ name ∈ names, splitNames name ≠ []) :
    names.length ≤ (splitNames (joinNames names)).length := by
  rw [splitNames_joinNames]
  induction names with
  | nil => exact Nat.le_refl 0
  | cons name names ih =>
    have hname := List.length_pos_iff.mpr (h name List.mem_cons_self)
    have hrest := ih fun x hx => h x (List.mem_cons_of_mem name hx)
    rw [List.flatMap_cons, List.length_append, List.length_cons]
    omega

/-! ## 4. Qualified names -/

theorem not_isBlankText_of_dot {text : String} (hdot : '.' ∈ text.toList) : isBlankText text = false := by
  unfold isBlankText
  exact List.all_eq_false.mpr ⟨'.', hdot, by decide⟩

theorem dot_mem_qualified (ns name : String) : '.' ∈ (ns ++ "." ++ name).toList := by
  simp

theorem namespace?_eq (ns name : String) : namespace? (ns ++ "." ++ name) =
    some (String.ofList ((ns.toList ++ '.' :: name.toList).takeWhile (· != '.'))) := by
  have hchars : (ns ++ "." ++ name).toList = ns.toList ++ '.' :: name.toList := by simp
  unfold namespace?
  rw [hchars, if_pos (by simp)]

/-- The namespace of a qualified name is what it was qualified with, if there is no dot in that. -/
theorem namespace?_of_notMem {ns : String} (hdot : '.' ∉ ns.toList)
    (name : String) : namespace? (ns ++ "." ++ name) = some ns := by
  have hall : ∀ c ∈ ns.toList, (c != '.') = true := fun c hc => by
    simpa using fun heq : c = '.' => hdot (heq ▸ hc)
  rw [namespace?_eq, List.takeWhile_append_of_pos hall, List.takeWhile_cons_of_neg (by decide),
    List.append_nil, String.ofList_toList]

/-- Otherwise it is something shorter. -/
theorem namespace?_of_mem {ns : String} (hdot : '.' ∈ ns.toList)
    (name : String) : namespace? (ns ++ "." ++ name) ≠ some ns := by
  rw [namespace?_eq]
  intro heq
  have hchars := congrArg String.toList (Option.some.inj heq)
  rw [String.toList_ofList] at hchars
  -- nothing that is taken is a dot
  rw [← hchars] at hdot
  have htaken := List.all_eq_true.mp List.all_takeWhile '.' hdot
  exact absurd htaken (by decide)

end Arbor.Text
