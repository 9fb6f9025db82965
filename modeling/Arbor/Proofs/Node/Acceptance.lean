import Arbor.Proofs.Node.Parsing

/-!
# The parser accepts its grammar

The parser accepts the tokens before the end of the input exactly when they derive a node, and that
node is the root (`parseTokens_grammar`). When they do not, it stops with one error, at one of these
tokens or at the end.
-/

namespace Arbor

open Text Grammar

/-! ## 1. Errors -/

/-- The token at which reading stopped. -/
def ParseError.found : ParseError → Token
  | expected _ found | intOutOfRange found | nestingTooDeep found | afterRoot found => found

/-- The codes of what stops a parse. -/
def fatalCodes : List String :=
  ["PAR001", "PAR002", "PAR003", "PAR004", "PAR005", "PAR006", "PAR007", "PAR008", "PAR009"]

theorem ParseError.code_mem_fatalCodes (e : ParseError) : e.diagnostic.code ∈ fatalCodes := by
  cases e with
  | expected what found =>
    show what.code ∈ fatalCodes
    cases what <;> decide
  | intOutOfRange found =>
    show "PAR006" ∈ fatalCodes
    decide
  | nestingTooDeep found =>
    show "PAR009" ∈ fatalCodes
    decide
  | afterRoot found =>
    show "PAR008" ∈ fatalCodes
    decide

namespace Parser

variable {α β : Type} {finish : Token}

/-- All that the reading reports stands in the input, or it is the end of the input. -/
structure Within (finish : Token) (input : List Token) (r : Reading α) : Prop where
  repeated : r.repeated ⊆ input
  found : ∀ e, r.outcome = .error e → e.found ∈ input ++ [finish]

namespace Within

theorem pure (input : List Token) (a : α) : Within finish input (Pure.pure a : Reading α) :=
  ⟨List.nil_subset _, nofun⟩

theorem fail {input : List Token} {e : ParseError} (h : e.found ∈ input ++ [finish]) :
    Within finish input (Reading.fail e : Reading α) := by
  refine ⟨List.nil_subset _, fun e' he => ?_⟩
  cases he
  exact h

theorem bind {input : List Token} {r : Reading α} {f : α → Reading β} (hr : Within finish input r)
    (hf : ∀ a, r = ⟨r.repeated, .ok a⟩ → Within finish input (f a)) :
    Within finish input (r >>= f) := by
  obtain ⟨repeated, outcome⟩ := r
  cases outcome with
  | error e =>
    refine ⟨hr.repeated, fun e' he => hr.found e' ?_⟩
    cases he
    rfl
  | ok a => exact ⟨List.append_subset.mpr ⟨hr.repeated, (hf a rfl).repeated⟩, (hf a rfl).found⟩

theorem mono {rest input : List Token} {r : Reading α} (h : Within finish rest r)
    (hsub : rest ⊆ input) : Within finish input r where
  repeated := List.Subset.trans h.repeated hsub
  found e he := by
    rcases List.mem_append.mp (h.found e he) with hfound | hfound
    · exact List.mem_append_left _ (hsub hfound)
    · exact List.mem_append_right _ hfound

end Within

theorem Within.unexpected {input : List Token} {t : Token} (h : t ∈ input) (what : Expected) :
    Within finish input (Reading.fail (.expected what t) : Reading α) :=
  .fail (List.mem_append_left _ h)

theorem Within.unfinished (input : List Token) (what : Expected) :
    Within finish input (Reading.fail (.expected what finish) : Reading α) :=
  .fail (List.mem_append_right _ List.mem_cons_self)

theorem readAttrValue_within (input : List Token) :
    Within finish input (readAttrValue finish input) := by
  unfold readAttrValue
  split
  · exact .unfinished _ _
  · dsimp only
    split
    · exact .pure _ _
    · exact .pure _ _
    · split
      · exact .pure _ _
      · exact .fail (List.mem_append_left _ List.mem_cons_self)
    · exact .pure _ _
    · exact .unexpected List.mem_cons_self _

theorem readAttrs_within (input : List Token) (attrs : Attrs) :
    Within finish input (readAttrs finish input attrs) := by
  generalize hlength : input.length = n
  induction n using Nat.strongRecOn generalizing input attrs with
  | ind n ih =>
    unfold readAttrs
    split
    · exact .unfinished _ _
    next key rest =>
    split
    · exact .pure _ _
    split
    swap
    · exact .unexpected List.mem_cons_self _
    split
    · exact .unfinished _ _
    next mark rest' =>
    split
    swap
    · exact .unexpected (by simp) _
    have hsub : rest' ⊆ key :: mark :: rest' := by simp
    refine ((readAttrValue_within rest').mono hsub).bind fun value hvalue => ?_
    obtain ⟨-, word, hrest, -⟩ := readAttrValue_sound hvalue
    have hbehind : value.rest ⊆ key :: mark :: rest' := fun t ht =>
      hsub (hrest ▸ List.mem_append_right word ht)
    have hshort : value.rest.length < n := by
      have := value.shorter
      simp only [List.length_cons] at hlength
      omega
    have hmore (attrs : Attrs) := (ih _ hshort value.rest attrs rfl).mono hbehind
    dsimp only
    split
    · have hreport : Within finish (key :: mark :: rest') (Reading.report key) := by
        constructor
        · simp [Reading.report]
        · intro e he
          cases he
      exact hreport.bind fun _ _ => (hmore attrs).bind fun _ _ => .pure _ _
    · exact (hmore _).bind fun _ _ => .pure _ _

theorem readAttrList_within (input : List Token) (stop : Position) :
    Within finish input (readAttrList finish input stop) := by
  unfold readAttrList
  split
  · exact .pure _ _
  next t rest =>
  split
  · exact ((readAttrs_within rest ∅).mono (by simp)).bind fun _ _ => .pure _ _
  · exact .pure _ _

section Children

variable {readChild : (input : List Token) → Reading (Front Node input)}
  {Child : List Token → Node → List Token → Prop} (hsound : SoundFor readChild Child)
  (hwithin : ∀ input, Within finish input (readChild input))
include hsound hwithin

theorem readChildren_within (input : List Token) :
    Within finish input (readChildren readChild finish input) := by
  generalize hlength : input.length = n
  induction n using Nat.strongRecOn generalizing input with
  | ind n ih =>
    unfold readChildren
    split
    · exact .unfinished _ _
    next t rest =>
    split
    · exact .pure _ _
    · refine (hwithin (t :: rest)).bind fun child hchild => ?_
      obtain ⟨word, hword, -⟩ := hsound hchild
      have hbehind : child.rest ⊆ t :: rest := fun u hu => hword ▸ List.mem_append_right word hu
      have hmore := (ih _ (hlength ▸ child.shorter) child.rest rfl).mono hbehind
      exact hmore.bind fun _ _ => .pure _ _

theorem readChildList_within (input : List Token) (stop : Position) :
    Within finish input (readChildList readChild finish input stop) := by
  unfold readChildList
  split
  · exact .pure _ _
  next t rest =>
  split
  · exact ((readChildren_within hsound hwithin rest).mono (by simp)).bind fun _ _ => .pure _ _
  · exact .pure _ _

theorem readNodeWith_within (input : List Token) :
    Within finish input (readNodeWith readChild finish input) := by
  unfold readNodeWith
  split
  · exact .unfinished _ _
  next kind afterKind =>
  split
  · exact .unexpected (by simp) _
  split
  · exact .unfinished _ _
  next hash afterHash =>
  split
  · exact .unexpected (by simp) _
  split
  · exact .unfinished _ _
  next id afterId =>
  split
  · exact .unexpected (by simp) _
  have hsub : afterId ⊆ kind :: hash :: id :: afterId := fun t ht => by simp [ht]
  refine ((readAttrList_within afterId _).mono hsub).bind fun attrs hattrs => ?_
  obtain ⟨word, -, hrest, -⟩ := readAttrList_sound hattrs
  have hbehind : attrs.1.2.1 ⊆ kind :: hash :: id :: afterId := fun t ht =>
    hsub (hrest ▸ List.mem_append_right word ht)
  exact ((readChildList_within hsound hwithin _ _).mono hbehind).bind fun _ _ => .pure _ _

end Children

theorem readNode_within (levels : Nat) (input : List Token) :
    Within finish input (readNode finish levels input) := by
  induction levels generalizing input with
  | zero =>
    cases input with
    | nil => exact .fail (List.mem_append_right _ List.mem_cons_self)
    | cons t rest => exact .fail (List.mem_append_left _ List.mem_cons_self)
  | succ levels ih => exact readNodeWith_within (readNode_sound finish levels) ih input

theorem readRoot_within (input : List Token) : Within finish input (readRoot finish input) := by
  refine (readNode_within maxNesting input).bind fun front hfront => ?_
  obtain ⟨word, hrest, -⟩ := readNode_sound finish maxNesting hfront
  split
  · exact .pure _ _
  next t rest heq =>
    rw [heq] at hrest
    exact .fail (List.mem_append_left _ (hrest ▸ List.mem_append_right word List.mem_cons_self))

/-! ## 2. Whole inputs -/

theorem readRoot_eq_iff (finish : Token) (input repeated : List Token) (root : Node) :
    readRoot finish input = ⟨repeated, .ok root⟩ ↔ Derives maxNesting input root repeated := by
  constructor
  · intro h
    obtain ⟨front, before, behind, hfront, hend, rfl⟩ := Reading.eq_of_bind h
    obtain ⟨word, hword, hderives⟩ := readNode_sound finish maxNesting hfront
    split at hend
    · next heq =>
      rw [heq, List.append_nil] at hword
      cases hend
      rw [List.append_nil]
      exact hword ▸ hderives
    · cases hend
  · intro h
    obtain ⟨front, hfront, rfl, hrest⟩ := readNode_complete finish maxNesting h
      (notLed_nil _) (List.append_nil input).symm
    have hroot : readRoot finish input = ⟨repeated ++ [], .ok front.value⟩ := by
      refine Reading.bind_eq hfront ?_
      rw [hrest]
      rfl
    rwa [List.append_nil] at hroot

/-- The tokens before the end of the input. -/
def beforeFinish (tokens : List Token) : List Token := tokens.takeWhile (·.kind != .finish)

theorem takeWhile_beforeFinish {finish : Token} (hfinish : finish.kind = .finish)
    (tokens : List Token) :
    (beforeFinish tokens ++ [finish]).takeWhile (·.kind != .finish) = beforeFinish tokens := by
  unfold beforeFinish
  induction tokens with
  | nil => simp [hfinish]
  | cons t tokens ih =>
    by_cases ht : t.kind = .finish
    · simp [ht, hfinish]
    · simp [ht, ih]

theorem find?_beforeFinish {finish : Token} (hfinish : finish.kind = .finish)
    (tokens : List Token) :
    (beforeFinish tokens ++ [finish]).find? (·.kind == .finish) = some finish := by
  unfold beforeFinish
  induction tokens with
  | nil => simp [hfinish]
  | cons t tokens ih =>
    by_cases ht : t.kind = .finish
    · simp [ht, hfinish]
    · simp [ht, ih]

theorem kind_finishToken (tokens : List Token) : (finishToken tokens).kind = .finish := by
  unfold finishToken
  split
  · next t ht => simpa using List.find?_some ht
  · rfl

theorem parseTokens_beforeFinish (tokens : List Token) :
    parseTokens (beforeFinish tokens ++ [finishToken tokens]) = parseTokens tokens := by
  have hkind := kind_finishToken tokens
  have hfinish : finishToken (beforeFinish tokens ++ [finishToken tokens]) = finishToken tokens := by
    rw [finishToken, find?_beforeFinish hkind]
  rw [parseTokens, hfinish, takeWhile_beforeFinish hkind]
  rfl

theorem parseTokens_of_ok {tokens repeated : List Token} {root : Node}
    (h : readRoot (finishToken tokens) (beforeFinish tokens) = ⟨repeated, .ok root⟩) :
    parseTokens tokens = ⟨some root, repeated.map repeatedKey⟩ := by
  unfold beforeFinish at h
  unfold parseTokens
  rw [h]

theorem parseTokens_of_error {tokens repeated : List Token} {e : ParseError}
    (h : readRoot (finishToken tokens) (beforeFinish tokens) = ⟨repeated, .error e⟩) :
    parseTokens tokens = ⟨none, repeated.map repeatedKey ++ [e.diagnostic]⟩ := by
  unfold beforeFinish at h
  unfold parseTokens
  rw [h]

/-- The parser accepts exactly the derivations of the grammar in the tokens before the end of the
input. Otherwise it stops with one error at a token before the end or at the end, behind the repeated
keys that it came across. What stands behind the end does not count. -/
theorem parseTokens_grammar (tokens : List Token) :
    (∀ root diagnostics, parseTokens tokens = ⟨some root, diagnostics⟩ ↔
      ∃ repeated, Derives maxNesting (beforeFinish tokens) root repeated ∧
        diagnostics = repeated.map repeatedKey) ∧
    ((∃ root repeated, Derives maxNesting (beforeFinish tokens) root repeated) ∨
      ∃ (repeated : List Token) (e : ParseError),
        parseTokens tokens = ⟨none, repeated.map repeatedKey ++ [e.diagnostic]⟩ ∧
        e.diagnostic.code ∈ fatalCodes ∧ repeated ⊆ beforeFinish tokens ∧
        e.found ∈ beforeFinish tokens ++ [finishToken tokens]) ∧
    parseTokens (beforeFinish tokens ++ [finishToken tokens]) = parseTokens tokens := by
  have hwithin : Within (finishToken tokens) (beforeFinish tokens)
      (readRoot (finishToken tokens) (beforeFinish tokens)) := readRoot_within _
  have hiff := readRoot_eq_iff (finishToken tokens) (beforeFinish tokens)
  rcases hread : readRoot (finishToken tokens) (beforeFinish tokens) with ⟨repeated, outcome⟩
  rw [hread] at hwithin hiff
  refine ⟨fun root diagnostics => ?_, ?_, parseTokens_beforeFinish tokens⟩
  · cases outcome with
    | ok read =>
      rw [parseTokens_of_ok hread]
      constructor
      · intro h
        cases h
        exact ⟨repeated, (hiff repeated _).mp rfl, rfl⟩
      · rintro ⟨keys, hderives, rfl⟩
        cases (hiff keys root).mpr hderives
        rfl
    | error e =>
      rw [parseTokens_of_error hread]
      constructor
      · intro h
        cases h
      · rintro ⟨keys, hderives, -⟩
        cases (hiff keys root).mpr hderives
  · cases outcome with
    | ok read => exact .inl ⟨read, repeated, (hiff repeated read).mp rfl⟩
    | error e =>
      exact .inr ⟨repeated, e, parseTokens_of_error hread, e.code_mem_fatalCodes, hwithin.repeated,
        hwithin.found e rfl⟩

end Parser

end Arbor
