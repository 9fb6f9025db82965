import Arbor.Proofs.Node.Grammar
import Arbor.Proofs.Node.Reading
import Mathlib.Data.List.Basic

/-!
# The reading functions and the grammar

What a reading function takes from the front of the tokens derives what it yields (`readNode_sound`),
and whatever has a derivation is read as that derivation says (`readNode_complete`).
-/

namespace Arbor

open Text Grammar

namespace Parser

variable {α β : Type}

/-! ## 1. Readings -/

theorem isName_iff (t : Token) : isName t = true ↔ t.kind ∈ names := by
  simp [isName, names]

theorem isWord_iff (t : Token) : isWord t = true ↔ t.kind ∈ words := by
  simp [isWord, words, or_assoc]

theorem isJoint_iff (t : Token) : isJoint t = true ↔ t.kind ∈ joints := by
  simp [isJoint, joints]

/-- Two readings in a row that end well: each ends well, and the reports stand in a row. -/
theorem Reading.eq_of_bind {r : Reading α} {f : α → Reading β} {repeated : List Token} {b : β}
    (h : (r >>= f) = ⟨repeated, .ok b⟩) :
    ∃ a before behind, r = ⟨before, .ok a⟩ ∧ f a = ⟨behind, .ok b⟩ ∧ repeated = before ++ behind := by
  obtain ⟨before, outcome⟩ := r
  cases outcome with
  | error e => cases h
  | ok a =>
    refine ⟨a, before, (f a).repeated, rfl, ?_, ?_⟩
    · exact congrArg₂ Reading.mk rfl (congrArg Reading.outcome h)
    · exact (congrArg Reading.repeated h).symm

theorem Reading.bind_eq {r : Reading α} {f : α → Reading β} {before behind : List Token} {a : α}
    {b : β} (hr : r = ⟨before, .ok a⟩) (hf : f a = ⟨behind, .ok b⟩) :
    (r >>= f) = ⟨before ++ behind, .ok b⟩ := by
  subst hr
  show Reading.mk (before ++ (f a).repeated) (f a).outcome = _
  rw [hf]

theorem Reading.bind_pure_eq {r : Reading α} {f : α → β} {repeated : List Token} {a : α}
    (hr : r = ⟨repeated, .ok a⟩) : (r >>= fun a => pure (f a)) = ⟨repeated, .ok (f a)⟩ := by
  have h := Reading.bind_eq hr (f := fun a => pure (f a)) (b := f a) rfl
  rwa [List.append_nil] at h

/-- The reading reports these keys and ends with the value, in front of `rest`. -/
def ReadsAs {input : List Token} (r : Reading (Front α input)) (repeated : List Token) (value : α)
    (rest : List Token) : Prop :=
  ∃ front, r = ⟨repeated, .ok front⟩ ∧ front.value = value ∧ front.rest = rest

/-- The same of a list that ends with `closing`. -/
def ListReadsAs {input : List Token} (r : Reading (Front α input)) (repeated : List Token)
    (value : α) (closing : Token) (rest : List Token) : Prop :=
  ∃ front, r = ⟨repeated, .ok front⟩ ∧ front.value = value ∧ front.rest = rest ∧
    front.stop = closing.span.stop

/-! ## 2. Values -/

theorem readJoined_sound (text : String) (stop : Position) (input : List Token) :
    ∃ word more, input = word ++ (readJoined text stop input).1.2.1 ∧ Joined word more ∧
      (readJoined text stop input).1.1 = text ++ more ∧
      (readJoined text stop input).1.2.2 = stopBehind stop word := by
  fun_induction readJoined text stop input with
  | case1 text stop joint word rest hreadable r h heq ih =>
    obtain ⟨tokens, more, hrest, hjoined, htext, hstop⟩ := ih
    rw [heq] at hrest htext hstop
    rw [Bool.and_eq_true, isJoint_iff, isWord_iff] at hreadable
    refine ⟨joint :: word :: tokens, joint.text ++ word.text ++ more, ?_, ?_, ?_, hstop⟩
    · exact congrArg (joint :: word :: ·) hrest
    · exact .cons hreadable.1 hreadable.2 hjoined
    · rw [show r.1 = text ++ joint.text ++ word.text ++ more from htext]
      simp only [String.append_assoc]
  | case2 text stop joint word rest hreadable => exact ⟨[], "", rfl, .nil, by simp, rfl⟩
  | case3 text stop input hshort => exact ⟨[], "", rfl, .nil, by simp, rfl⟩

theorem readJoined_complete {word : List Token} {more : String} (h : Joined word more)
    {rest : List Token} (hrest : NotLed joints rest) (text : String) (stop : Position) :
    (readJoined text stop (word ++ rest)).1 = (text ++ more, rest, stopBehind stop word) := by
  induction h generalizing text stop with
  | nil =>
    have hstop : readJoined text stop rest = ⟨(text, rest, stop), Nat.le_refl _⟩ := by
      unfold readJoined
      split
      · next joint word rest =>
        have hjoint : ¬ isJoint joint = true := by
          rw [isJoint_iff]
          exact hrest joint rfl
        rw [if_neg (by simp [hjoint])]
      · rfl
    rw [List.nil_append, hstop]
    simp [stopBehind]
  | @cons joint word more _ hjoint hword _ ih =>
    have hreadable : (isJoint joint && isWord word) = true := by
      rw [Bool.and_eq_true, isJoint_iff, isWord_iff]
      exact ⟨hjoint, hword⟩
    show (readJoined text stop (joint :: word :: (more ++ rest))).1 = _
    rw [readJoined, if_pos hreadable]
    dsimp only
    rw [ih]
    simp [stopBehind, String.append_assoc]

theorem readAttrValue_sound {finish : Token} {input : List Token} {front : Front AttrValue input}
    {repeated : List Token} (h : readAttrValue finish input = ⟨repeated, .ok front⟩) :
    repeated = [] ∧ ∃ word, input = word ++ front.rest ∧ Grammar.Value word front.value := by
  unfold readAttrValue at h
  split at h
  · cases h
  next t rest =>
  dsimp only at h
  split at h
  · next hkind =>
    cases h
    exact ⟨rfl, [t], rfl, .string hkind⟩
  · next hkind =>
    cases h
    exact ⟨rfl, [t], rfl, .bool hkind⟩
  · next hkind =>
    split at h
    · next n hvalue =>
      cases h
      exact ⟨rfl, [t], rfl, .int hkind hvalue⟩
    · cases h
  · next hkind =>
    obtain ⟨word, more, hrest, hjoined, htext, -⟩ := readJoined_sound t.text t.span.stop rest
    cases h
    refine ⟨rfl, t :: word, congrArg (t :: ·) hrest, ?_⟩
    show Grammar.Value (t :: word) (.identifier (readJoined t.text t.span.stop rest).1.1)
    rw [htext]
    exact .identifier hkind hjoined
  · cases h

theorem readAttrValue_complete {word : List Token} {value : AttrValue}
    (h : Grammar.Value word value) {rest : List Token} (hrest : NotLed joints rest) (finish : Token)
    {input : List Token} (hinput : input = word ++ rest) :
    ReadsAs (readAttrValue finish input) [] value rest := by
  subst hinput
  cases h with
  | @string t hkind =>
    refine ⟨⟨.string t.text, rest, t.span.stop, Nat.lt_succ_self _⟩, ?_, rfl, rfl⟩
    simp only [List.singleton_append, readAttrValue, hkind]
    rfl
  | @bool t hkind =>
    refine ⟨⟨.bool (t.text == "true"), rest, t.span.stop, Nat.lt_succ_self _⟩, ?_, rfl, rfl⟩
    simp only [List.singleton_append, readAttrValue, hkind]
    rfl
  | @int t n hkind hvalue =>
    refine ⟨⟨.int n, rest, t.span.stop, Nat.lt_succ_self _⟩, ?_, rfl, rfl⟩
    simp only [List.singleton_append, readAttrValue, hkind, hvalue]
    rfl
  | @identifier t more text hkind hjoined =>
    have hread := readJoined_complete hjoined hrest t.text t.span.stop
    show ReadsAs (readAttrValue finish (t :: (more ++ rest))) _ _ _
    simp only [readAttrValue, hkind]
    exact ⟨_, rfl, congrArg (fun r => AttrValue.identifier r.1) hread,
      congrArg (fun r => r.2.1) hread⟩

/-! ## 3. Attributes -/

/-- Adds the attributes in order, none whose key is there already. -/
def addNew (attrs : Attrs) : List (Token × AttrValue) → Attrs
  | [] => attrs
  | (key, value) :: entries =>
    if attrs.contains key.text then addNew attrs entries
    else addNew (attrs.insert key.text value) entries

theorem find?_addNew (attrs : Attrs) (entries : List (Token × AttrValue)) (key : String) :
    (addNew attrs entries).find? key =
      (attrs.find? key).or ((firstValues entries).find? key) := by
  induction entries generalizing attrs with
  | nil => simp [addNew, firstValues]
  | cons entry entries ih =>
    obtain ⟨first, value⟩ := entry
    unfold addNew firstValues
    by_cases hkey : key = first.text
    · subst hkey
      rw [Dict.find?_insert_self]
      cases hfound : attrs.find? first.text with
      | some found => simp [Dict.contains, ih, hfound]
      | none => simp [Dict.contains, ih, hfound, Dict.find?_insert_self]
    · rw [Dict.find?_insert_of_ne _ hkey]
      split
      · exact ih attrs
      · rw [ih, Dict.find?_insert_of_ne _ hkey]

theorem addNew_empty (entries : List (Token × AttrValue)) :
    addNew ∅ entries = firstValues entries := by
  apply Dict.ext_find?
  intro key
  rw [find?_addNew, Dict.find?_empty, Option.none_or]

theorem contains_empty_iff (key : String) :
    (∅ : Attrs).contains key = true ↔ key ∈ ([] : List String) := by
  simp [Dict.contains]

theorem contains_insert_iff {attrs : Attrs} {seen : List String}
    (hseen : ∀ key, attrs.contains key = true ↔ key ∈ seen) (new : String) (value : AttrValue)
    (key : String) : (attrs.insert new value).contains key = true ↔ key ∈ new :: seen := by
  by_cases hkey : key = new
  · simp [hkey, Dict.contains, Dict.find?_insert_self]
  · have hold := hseen key
    unfold Dict.contains at hold ⊢
    rw [Dict.find?_insert_of_ne _ hkey, hold]
    simp [hkey]

theorem readAttrs_sound {finish : Token} {input : List Token} {attrs : Attrs} {seen : List String}
    (hseen : ∀ key, attrs.contains key = true ↔ key ∈ seen) {repeated : List Token}
    {front : Front Attrs input} (h : readAttrs finish input attrs = ⟨repeated, .ok front⟩) :
    ∃ word closing entries, input = word ++ closing :: front.rest ∧ closing.kind = .rightParen ∧
      Attributes word entries ∧ repeated = repeatedKeys seen entries ∧
      front.value = addNew attrs entries ∧ front.stop = closing.span.stop := by
  generalize hlength : input.length = n
  induction n using Nat.strongRecOn generalizing input attrs seen repeated with
  | ind n ih =>
    unfold readAttrs at h
    split at h
    · cases h
    next key rest =>
    split at h
    · next hclosing =>
      cases h
      exact ⟨[], key, [], rfl, hclosing, .nil, rfl, rfl, rfl⟩
    split at h
    swap
    · cases h
    next hname =>
    split at h
    · cases h
    next mark rest' =>
    split at h
    swap
    · cases h
    next hmark =>
    obtain ⟨value, before, behind, hvalue, hbehind, hrepeated⟩ := Reading.eq_of_bind h
    subst hrepeated
    obtain ⟨rfl, word, hrest', hword⟩ := readAttrValue_sound hvalue
    have hshort : value.rest.length < n := by
      have := value.shorter
      simp only [List.length_cons] at hlength
      omega
    have hinput {more behind : List Token} (hrest : value.rest = more ++ behind) :
        key :: mark :: rest' = key :: mark :: (word ++ more) ++ behind := by
      rw [List.cons_append, List.cons_append, List.append_assoc, ← hrest]
      exact congrArg (key :: mark :: ·) hrest'
    rw [isName_iff] at hname
    have hkey := hseen key.text
    dsimp only at hbehind
    split at hbehind
    · next hold =>
      obtain ⟨_, _, _, hreport, hlast, hrepeated⟩ := Reading.eq_of_bind hbehind
      subst hrepeated
      obtain ⟨front', _, _, hfront', hend, hrepeated⟩ := Reading.eq_of_bind hlast
      subst hrepeated
      obtain ⟨more, closing, entries, hrest, hclosing, hmore, rfl, hattrs, hstop⟩ :=
        ih _ hshort hseen hfront' rfl
      cases hreport
      cases hend
      refine ⟨key :: mark :: (word ++ more), closing, (key, value.value) :: entries, hinput hrest,
        hclosing, .cons hname hmark hword hmore, ?_, ?_, hstop⟩
      · simp [repeatedKeys, hkey.mp hold]
      · show front'.value = _
        rw [hattrs, addNew, if_pos hold]
    · next hnew =>
      obtain ⟨front', _, _, hfront', hend, hrepeated⟩ := Reading.eq_of_bind hbehind
      subst hrepeated
      obtain ⟨more, closing, entries, hrest, hclosing, hmore, rfl, hattrs, hstop⟩ :=
        ih _ hshort (contains_insert_iff hseen key.text value.value) hfront' rfl
      cases hend
      refine ⟨key :: mark :: (word ++ more), closing, (key, value.value) :: entries, hinput hrest,
        hclosing, .cons hname hmark hword hmore, ?_, ?_, hstop⟩
      · simp [repeatedKeys, mt hkey.mpr hnew]
      · show front'.value = _
        rw [hattrs, addNew, if_neg hnew]

theorem readAttrs_complete {word : List Token} {entries : List (Token × AttrValue)}
    (h : Attributes word entries) {closing : Token} (hclosing : closing.kind = .rightParen)
    {attrs : Attrs} {seen : List String} (hseen : ∀ key, attrs.contains key = true ↔ key ∈ seen)
    (finish : Token) {rest input : List Token} (hinput : input = word ++ closing :: rest) :
    ListReadsAs (readAttrs finish input attrs) (repeatedKeys seen entries) (addNew attrs entries)
      closing rest := by
  induction h generalizing attrs seen input with
  | nil =>
    subst hinput
    refine ⟨⟨attrs, rest, closing.span.stop, Nat.lt_succ_self _⟩, ?_, rfl, rfl, rfl⟩
    show readAttrs finish (closing :: rest) attrs = _
    unfold readAttrs
    dsimp only
    rw [if_pos hclosing]
    rfl
  | @cons key mark word more value entries hkey hmark hvalue hmore ih =>
    have hinput' : input = key :: mark :: (word ++ (more ++ closing :: rest)) := by simp [hinput]
    subst hinput'
    obtain ⟨front, hfront, hread, hrest⟩ :=
      readAttrValue_complete hvalue (hmore.notLed hclosing rest) finish rfl
    rw [← hread]
    have hopen : key.kind ≠ .rightParen := by
      intro hkind
      rw [hkind] at hkey
      exact absurd hkey (by decide)
    have hshort : front.rest.length ≤ (key :: mark :: (word ++ (more ++ closing :: rest))).length := by
      have := front.shorter
      simp only [List.length_cons]
      omega
    have hstep : readAttrs finish (key :: mark :: (word ++ (more ++ closing :: rest))) attrs =
        (if attrs.contains key.text then do
          Reading.report key
          let behind ← readAttrs finish front.rest attrs
          pure (behind.widen hshort)
        else do
          let behind ← readAttrs finish front.rest (attrs.insert key.text front.value)
          pure (behind.widen hshort)) := by
      rw [readAttrs, if_neg hopen, if_pos ((isName_iff key).mpr hkey)]
      dsimp only
      rw [if_pos hmark, hfront]
      rfl
    rw [hstep]
    by_cases hold : attrs.contains key.text = true
    · obtain ⟨behind, hbehind, hattrs, hleft, hstop⟩ := ih hseen hrest
      rw [if_pos hold, repeatedKeys, if_pos ((hseen _).mp hold), addNew, if_pos hold]
      exact ⟨behind.widen hshort, Reading.bind_eq rfl (Reading.bind_pure_eq hbehind), hattrs, hleft,
        hstop⟩
    · obtain ⟨behind, hbehind, hattrs, hleft, hstop⟩ :=
        ih (contains_insert_iff hseen key.text front.value) hrest
      rw [if_neg hold, repeatedKeys, if_neg (mt (hseen _).mpr hold), addNew, if_neg hold]
      exact ⟨behind.widen hshort, Reading.bind_pure_eq hbehind, hattrs, hleft, hstop⟩

theorem readAttrList_sound {finish : Token} {input : List Token} {stop : Position}
    {repeated : List Token} {r : { r : Attrs × List Token × Position // r.2.1.length ≤ input.length }}
    (h : readAttrList finish input stop = ⟨repeated, .ok r⟩) :
    ∃ word entries, input = word ++ r.1.2.1 ∧ AttrList word entries ∧
      repeated = repeatedKeys [] entries ∧ r.1.1 = firstValues entries ∧
      r.1.2.2 = stopBehind stop word := by
  unfold readAttrList at h
  split at h
  · cases h
    exact ⟨[], [], rfl, .absent, rfl, rfl, rfl⟩
  next opening rest =>
  split at h
  · next hopening =>
    obtain ⟨front, before, behind, hfront, hend, hrepeated⟩ := Reading.eq_of_bind h
    subst hrepeated
    obtain ⟨word, closing, entries, hrest, hclosing, hword, rfl, hattrs, hstop⟩ :=
      readAttrs_sound contains_empty_iff hfront
    cases hend
    refine ⟨opening :: (word ++ [closing]), entries, ?_, .present hopening hword hclosing,
      List.append_nil _, hattrs.trans (addNew_empty entries), hstop.trans ?_⟩
    · show opening :: rest = opening :: ((word ++ [closing]) ++ front.rest)
      rw [List.append_assoc]
      exact congrArg (opening :: ·) hrest
    · exact (stopBehind_concat opening.span.stop word closing).symm
  · cases h
    exact ⟨[], [], rfl, .absent, rfl, rfl, rfl⟩

theorem readAttrList_complete {word : List Token} {entries : List (Token × AttrValue)}
    (h : AttrList word entries) {rest : List Token} (hrest : NotLed [.leftParen] rest)
    (finish : Token) {input : List Token} (hinput : input = word ++ rest) (stop : Position) :
    ∃ r, readAttrList finish input stop = ⟨repeatedKeys [] entries, .ok r⟩ ∧
      r.1 = (firstValues entries, rest, stopBehind stop word) := by
  subst hinput
  cases h with
  | absent =>
    refine ⟨⟨(∅, rest, stop), Nat.le_refl _⟩, ?_, rfl⟩
    cases rest with
    | nil => rfl
    | cons t rest =>
      have hkind : t.kind ≠ .leftParen := fun hkind => hrest t rfl (by simp [hkind])
      simp only [List.nil_append, readAttrList, if_neg hkind]
      rfl
  | @present opening closing word _ hopening hword hclosing =>
    have hinput : (word ++ [closing]) ++ rest = word ++ closing :: rest := by simp
    obtain ⟨front, hfront, hattrs, hleft, hstop⟩ :=
      readAttrs_complete hword hclosing contains_empty_iff finish hinput
    rw [addNew_empty] at hattrs
    show ∃ r, readAttrList finish (opening :: ((word ++ [closing]) ++ rest)) stop = _ ∧ _
    simp only [readAttrList, if_pos hopening]
    refine ⟨_, Reading.bind_pure_eq hfront, ?_⟩
    show (front.value, front.rest, front.stop) = _
    rw [hattrs, hleft, hstop, ← stopBehind_concat opening.span.stop word closing]
    rfl

/-! ## 4. Nodes -/

/-- What the reader takes is a child. -/
def SoundFor (readChild : (input : List Token) → Reading (Front Node input))
    (Child : List Token → Node → List Token → Prop) : Prop :=
  ∀ {input repeated : List Token} {front : Front Node input},
    readChild input = ⟨repeated, .ok front⟩ →
      ∃ word, input = word ++ front.rest ∧ Child word front.value repeated

/-- The reader takes every child in front of tokens that do not go on with it. -/
def CompleteFor (readChild : (input : List Token) → Reading (Front Node input))
    (Child : List Token → Node → List Token → Prop) : Prop :=
  ∀ {word repeated : List Token} {n : Node}, Child word n repeated →
    ∀ {rest input : List Token}, NotLed [.leftParen, .leftBrace] rest → input = word ++ rest →
      ReadsAs (readChild input) repeated n rest

section Children

variable {readChild : (input : List Token) → Reading (Front Node input)}
  {Child : List Token → Node → List Token → Prop}

theorem readChildren_sound (hread : SoundFor readChild Child) {finish : Token}
    {input repeated : List Token} {front : Front (List Node) input}
    (h : readChildren readChild finish input = ⟨repeated, .ok front⟩) :
    ∃ word closing, input = word ++ closing :: front.rest ∧ closing.kind = .rightBrace ∧
      Children Child word front.value repeated ∧ front.stop = closing.span.stop := by
  generalize hlength : input.length = n
  induction n using Nat.strongRecOn generalizing input repeated with
  | ind n ih =>
    unfold readChildren at h
    split at h
    · cases h
    next t rest =>
    split at h
    · next hclosing =>
      cases h
      exact ⟨[], t, rfl, hclosing, .nil, rfl⟩
    · obtain ⟨child, before, _, hchild, hbehind, hrepeated⟩ := Reading.eq_of_bind h
      subst hrepeated
      obtain ⟨siblings, behind, _, hsiblings, hend, hrepeated⟩ := Reading.eq_of_bind hbehind
      subst hrepeated
      obtain ⟨word, hword, hderives⟩ := hread hchild
      obtain ⟨more, closing, hmore, hclosing, hchildren, hstop⟩ :=
        ih _ (hlength ▸ child.shorter) hsiblings rfl
      cases hend
      refine ⟨word ++ more, closing, ?_, hclosing, ?_, hstop⟩
      · rw [List.append_assoc]
        exact hword.trans (congrArg (word ++ ·) hmore)
      · rw [List.append_nil]
        exact .cons hderives hchildren

theorem readChildList_sound (hread : SoundFor readChild Child) {finish : Token}
    {input repeated : List Token} {stop : Position}
    {r : { r : List Node × List Token × Position // r.2.1.length ≤ input.length }}
    (h : readChildList readChild finish input stop = ⟨repeated, .ok r⟩) :
    ∃ word, input = word ++ r.1.2.1 ∧ ChildList Child word r.1.1 repeated ∧
      r.1.2.2 = stopBehind stop word := by
  unfold readChildList at h
  split at h
  · cases h
    exact ⟨[], rfl, .absent, rfl⟩
  next opening rest =>
  split at h
  · next hopening =>
    obtain ⟨front, before, behind, hfront, hend, hrepeated⟩ := Reading.eq_of_bind h
    subst hrepeated
    obtain ⟨word, closing, hrest, hclosing, hword, hstop⟩ := readChildren_sound hread hfront
    cases hend
    refine ⟨opening :: (word ++ [closing]), ?_, ?_, hstop.trans ?_⟩
    · show opening :: rest = opening :: ((word ++ [closing]) ++ front.rest)
      rw [List.append_assoc]
      exact congrArg (opening :: ·) hrest
    · rw [List.append_nil]
      exact .present hopening hword hclosing
    · exact (stopBehind_concat opening.span.stop word closing).symm
  · cases h
    exact ⟨[], rfl, .absent, rfl⟩

theorem readNodeWith_sound (hread : SoundFor readChild Child) (finish : Token) :
    SoundFor (readNodeWith readChild finish) (NodeOver Child) := by
  intro input repeated front h
  unfold readNodeWith at h
  split at h
  · cases h
  next kind afterKind =>
  split at h
  · cases h
  next hkind =>
  split at h
  · cases h
  next hash afterHash =>
  split at h
  · cases h
  next hhash =>
  split at h
  · cases h
  next id afterId =>
  split at h
  · cases h
  next hid =>
  obtain ⟨attrs, before, _, hattrs, hbehind, hrepeated⟩ := Reading.eq_of_bind h
  subst hrepeated
  obtain ⟨children, behind, _, hchildren, hend, hrepeated⟩ := Reading.eq_of_bind hbehind
  subst hrepeated
  obtain ⟨attrWord, entries, hattrRest, hentries, rfl, hvalue, hstop⟩ := readAttrList_sound hattrs
  obtain ⟨childWord, hchildRest, hlist, hstop'⟩ := readChildList_sound hread hchildren
  cases hend
  refine ⟨kind :: hash :: id :: (attrWord ++ childWord), ?_, ?_⟩
  · show kind :: hash :: id :: afterId = kind :: hash :: id :: ((attrWord ++ childWord) ++ _)
    rw [List.append_assoc, ← hchildRest, ← hattrRest]
  · dsimp only
    rw [List.append_nil, hvalue, hstop', hstop, ← stopBehind_append]
    rw [Bool.not_eq_true', Bool.not_eq_false, isName_iff] at hkind
    rw [Bool.not_eq_true', Bool.not_eq_false, isWord_iff] at hid
    exact .mk hkind (by simpa using hhash) hid hentries hlist

/-- Every child begins with a name. -/
def NameLed (Child : List Token → Node → List Token → Prop) : Prop :=
  ∀ {word repeated : List Token} {n : Node}, Child word n repeated →
    ∃ t more, word = t :: more ∧ t.kind ∈ names

theorem notLed_of_children (hled : NameLed Child) {word repeated : List Token}
    {children : List Node} (h : Children Child word children repeated) {closing : Token}
    (hclosing : closing.kind = .rightBrace) (rest : List Token) :
    NotLed [.leftParen, .leftBrace] (word ++ closing :: rest) := by
  cases h with
  | nil => exact notLed_cons (by simp [hclosing]) _
  | cons hchild _ =>
    obtain ⟨t, more, rfl, ht⟩ := hled hchild
    exact notLed_name (by decide) ht _

theorem readChildren_complete (hled : NameLed Child) (hread : CompleteFor readChild Child)
    {word repeated : List Token} {children : List Node} (h : Children Child word children repeated)
    {closing : Token} (hclosing : closing.kind = .rightBrace) (finish : Token)
    {rest input : List Token} (hinput : input = word ++ closing :: rest) :
    ListReadsAs (readChildren readChild finish input) repeated children closing rest := by
  induction h generalizing input with
  | nil =>
    subst hinput
    refine ⟨⟨[], rest, closing.span.stop, Nat.lt_succ_self _⟩, ?_, rfl, rfl, rfl⟩
    show readChildren readChild finish (closing :: rest) = _
    unfold readChildren
    dsimp only
    rw [if_pos hclosing]
    rfl
  | @cons word more repeated moreRepeated child children hchild hmore ih =>
    obtain ⟨t, later, rfl, ht⟩ := hled hchild
    have hinput' : input = t :: (later ++ (more ++ closing :: rest)) := by simp [hinput]
    subst hinput'
    have hopen : t.kind ≠ .rightBrace := by
      intro hkind
      rw [hkind] at ht
      exact absurd ht (by decide)
    obtain ⟨front, hfront, rfl, hleft⟩ :=
      hread hchild (notLed_of_children hled hmore hclosing rest) rfl
    obtain ⟨siblings, hsiblings, rfl, hend, hstop⟩ := ih hleft
    refine ⟨(siblings.map (front.value :: ·)).widen (Nat.le_of_lt front.shorter), ?_, rfl, hend,
      hstop⟩
    show readChildren readChild finish (t :: (later ++ (more ++ closing :: rest))) = _
    unfold readChildren
    dsimp only
    rw [if_neg hopen]
    exact Reading.bind_eq hfront (Reading.bind_pure_eq hsiblings)

theorem readChildList_complete (hled : NameLed Child) (hread : CompleteFor readChild Child)
    {word repeated : List Token} {children : List Node}
    (h : ChildList Child word children repeated) {rest : List Token}
    (hrest : NotLed [.leftBrace] rest) (finish : Token) {input : List Token}
    (hinput : input = word ++ rest) (stop : Position) :
    ∃ r, readChildList readChild finish input stop = ⟨repeated, .ok r⟩ ∧
      r.1 = (children, rest, stopBehind stop word) := by
  subst hinput
  cases h with
  | absent =>
    refine ⟨⟨([], rest, stop), Nat.le_refl _⟩, ?_, rfl⟩
    cases rest with
    | nil => rfl
    | cons t rest =>
      have hkind : t.kind ≠ .leftBrace := fun hkind => hrest t rfl (by simp [hkind])
      simp only [List.nil_append, readChildList, if_neg hkind]
      rfl
  | @present opening closing word _ _ hopening hword hclosing =>
    have hinput : (word ++ [closing]) ++ rest = word ++ closing :: rest := by simp
    obtain ⟨front, hfront, hvalue, hleft, hstop⟩ :=
      readChildren_complete hled hread hword hclosing finish hinput
    show ∃ r, readChildList readChild finish (opening :: ((word ++ [closing]) ++ rest)) stop = _ ∧ _
    simp only [readChildList, if_pos hopening]
    refine ⟨_, Reading.bind_pure_eq hfront, ?_⟩
    show (front.value, front.rest, front.stop) = _
    rw [hvalue, hleft, hstop, ← stopBehind_concat opening.span.stop word closing]
    rfl

theorem notLed_of_childList {word repeated rest : List Token} {children : List Node}
    (h : ChildList Child word children repeated) (hrest : NotLed [.leftParen] rest) :
    NotLed [.leftParen] (word ++ rest) := by
  cases h with
  | absent => exact hrest
  | present hopening _ _ => exact notLed_cons (by simp [hopening]) _

theorem readNodeWith_complete (hled : NameLed Child) (hread : CompleteFor readChild Child)
    (finish : Token) : CompleteFor (readNodeWith readChild finish) (NodeOver Child) := by
  intro word repeated n h rest input hrest hinput
  cases h with
  | @mk kind hash id attrWord childWord repeated entries children hkind hhash hid hattrs hlist =>
    have hinput' : input = kind :: hash :: id :: (attrWord ++ (childWord ++ rest)) := by
      simp [hinput]
    subst hinput'
    have hparen : NotLed [.leftParen] rest := fun t ht hmem =>
      hrest t ht (List.mem_cons.mpr (.inl (List.mem_singleton.mp hmem)))
    have hbrace : NotLed [.leftBrace] rest := fun t ht hmem =>
      hrest t ht (List.mem_cons_of_mem _ hmem)
    obtain ⟨⟨⟨attrs, behind, stop⟩, hbehind⟩, hreadAttrs, hr⟩ := readAttrList_complete hattrs
      (notLed_of_childList hlist hparen) finish rfl id.span.stop
    cases hr
    obtain ⟨⟨⟨nodes, last, stop'⟩, hlast⟩, hreadList, hr⟩ := readChildList_complete hled hread hlist
      hbrace finish rfl (stopBehind id.span.stop attrWord)
    cases hr
    have hname : (!isName kind) = false := by rw [(isName_iff kind).mpr hkind]; rfl
    have hword : (!isWord id) = false := by rw [(isWord_iff id).mpr hid]; rfl
    have hmark : (hash.kind != .hash) = false := by simp [hhash]
    have hbound : rest.length < (kind :: hash :: id :: (attrWord ++ (childWord ++ rest))).length := by
      simp only [List.length_cons, List.length_append]
      omega
    refine ⟨⟨⟨kind.text, id.text, firstValues entries, children, ⟨kind.span.start,
      stopBehind id.span.stop (attrWord ++ childWord)⟩⟩, rest,
      stopBehind id.span.stop (attrWord ++ childWord), hbound⟩, ?_, rfl, rfl⟩
    unfold readNodeWith
    simp only [hname, hmark, hword, Bool.false_eq_true, if_false]
    refine Reading.bind_eq hreadAttrs ?_
    dsimp only
    simp only [stopBehind_append]
    exact Reading.bind_pure_eq hreadList

end Children

theorem readNode_sound (finish : Token) (levels : Nat) :
    SoundFor (readNode finish levels) (Derives levels) := by
  induction levels with
  | zero =>
    intro input repeated front h
    cases input <;> cases h
  | succ levels ih => exact readNodeWith_sound ih finish

theorem readNode_complete (finish : Token) (levels : Nat) :
    CompleteFor (readNode finish levels) (Derives levels) := by
  induction levels with
  | zero => exact fun h => h.elim
  | succ levels ih => exact readNodeWith_complete (fun h => h.exists_cons) ih finish

end Parser

end Arbor
