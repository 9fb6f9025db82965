import Arbor.Proofs.Node.Identifiers
import Arbor.Proofs.Node.Spelling
import Arbor.Proofs.Node.Worded
import Arbor.Proofs.Patch.Edits

/-!
# Which nodes an operation can name

An operation names a node by an identifier; a string does not do. The grammar takes numbers and truth
values for ids as well, but as the value of an attribute each of them is read as what it is. So an
operation in a text can name a node just when its id is an identifier token (`addressable_iff`).
-/

namespace Arbor

open Node Place Text

namespace Patch

/-! ## 1. Operations and the nodes they name -/

/-- The id that a request names. -/
def Request.target : Request → String
  | replace target _ => target
  | delete target => target
  | insert target _ _ _ => target

/-- The kinds of operations, each with the key of the id that it names. -/
def addressKeys : List (String × String) :=
  [("replaceNode", "id"), ("deleteNode", "id"), ("insertChild", "parentId")]

/-- The codes of operations that name no node, or none that there is. -/
def missingCodes : List String := ["PAT002", "PAT004", "PAT005", "PAT007", "PAT011"]

/-- The operation has what any operation needs besides the id of a node. -/
structure IsFurnished (op : Node) : Prop where
  slot : ∃ slot, op.ident? "slot" = some slot
  index : ∃ index, op.int? "index" = some index
  child : ∃ child, op.children = [child]

/-- Some text has an operation of the kind with the value at the key. -/
def Written (kind key : String) (value : AttrValue) : Prop :=
  ∃ text doc op, parse text = ⟨some doc, []⟩ ∧ op ∈ doc.children ∧ op.ident? "kind" = some kind ∧
    op.attr? key = some value ∧ IsFurnished op

/-- Operations of the kind with the value at the key name the id, and what is reported of them is never
that a node is missing. -/
def Finds (root : Node) (id kind key : String) (value : AttrValue) : Prop :=
  ∀ op : Node, op.ident? "kind" = some kind → op.attr? key = some value →
    (∀ d ∈ (applyPatch root [op]).2, d.code ∉ missingCodes) ∧
      (IsFurnished op → ∃ r, request op = .ok r ∧ r.target = id)

/-- There is a value by which the operations in a text can name the id. -/
def Addressable (root : Node) (id : String) : Prop :=
  ∃ value, ∀ e ∈ addressKeys, Written e.1 e.2 value ∧ Finds root id e.1 e.2 value

theorem mem_addressKeys_iff {kind key : String} : (kind, key) ∈ addressKeys ↔
    kind = "replaceNode" ∧ key = "id" ∨ kind = "deleteNode" ∧ key = "id" ∨
      kind = "insertChild" ∧ key = "parentId" := by
  simp [addressKeys]

/-! ## 2. What is asked for -/

section Requests

variable {op : Node} {kind key id : String}

theorem code_report (f : Failure) (root op : Node) : (f.report root op).code = f.code := by
  cases f <;> rfl

theorem IsFurnished.request_eq (h : IsFurnished op) (hkey : (kind, key) ∈ addressKeys)
    (hkind : op.ident? "kind" = some kind) (hid : op.ident? key = some id) :
    ∃ r, request op = .ok r ∧ r.target = id := by
  obtain ⟨⟨slot, hslot⟩, ⟨index, hindex⟩, child, hchild⟩ := h
  obtain ⟨rfl, rfl⟩ | ⟨rfl, rfl⟩ | ⟨rfl, rfl⟩ := mem_addressKeys_iff.mp hkey
  · exact ⟨_, (Asks.replace hkind hid hchild).request_eq, rfl⟩
  · exact ⟨_, (Asks.delete hkind hid).request_eq, rfl⟩
  · exact ⟨_, (Asks.insert hkind hid hslot hindex hchild).request_eq, rfl⟩

theorem onlyChild_cases (f : Failure) (op : Node) :
    (∃ child, onlyChild f op = .ok child) ∨ onlyChild f op = .error f := by
  unfold onlyChild
  split
  · exact .inl ⟨_, rfl⟩
  · exact .inr rfl

/-- An operation that names an id asks for something to be done to it, or lacks something else. -/
theorem request_cases (hkey : (kind, key) ∈ addressKeys) (hkind : op.ident? "kind" = some kind)
    (hid : op.ident? key = some id) :
    (∃ r, request op = .ok r ∧ r.target = id) ∨
      ∃ f, request op = .error f ∧ f.code ∉ missingCodes := by
  unfold request
  rw [hkind]
  obtain ⟨rfl, rfl⟩ | ⟨rfl, rfl⟩ | ⟨rfl, rfl⟩ := mem_addressKeys_iff.mp hkey
  · rw [hid]
    obtain ⟨child, hchild⟩ | hchild := onlyChild_cases .replaceNeedsOneChild op
    · exact .inl ⟨.replace id child, by rw [hchild]; rfl, rfl⟩
    · exact .inr ⟨.replaceNeedsOneChild, by rw [hchild]; rfl, by decide⟩
  · rw [hid]
    exact .inl ⟨.delete id, rfl, rfl⟩
  · rw [hid]
    cases hslot : op.ident? "slot" with
    | none => exact .inr ⟨.insertNeedsSlot, rfl, by decide⟩
    | some slot =>
      cases hindex : op.int? "index" with
      | none => exact .inr ⟨.insertNeedsIndex, rfl, by decide⟩
      | some index =>
        obtain ⟨child, hchild⟩ | hchild := onlyChild_cases .insertNeedsOneChild op
        · exact .inl ⟨.insert id slot index child, by rw [hchild]; rfl, rfl⟩
        · exact .inr ⟨.insertNeedsOneChild, by rw [hchild]; rfl, by decide⟩

/-- An operation that asks for something has the id as an identifier, at the key for its kind. -/
theorem exists_ident_of_request {r : Request} (h : request op = .ok r) :
    ∃ e ∈ addressKeys, op.ident? "kind" = some e.1 ∧ op.ident? e.2 = some r.target := by
  have hkind : ∃ e ∈ addressKeys, op.ident? "kind" = some e.1 := by
    unfold request at h
    split at h
    · cases h
    · exact ⟨("replaceNode", "id"), by decide, ‹_›⟩
    · exact ⟨("deleteNode", "id"), by decide, ‹_›⟩
    · exact ⟨("insertChild", "parentId"), by decide, ‹_›⟩
    · cases h
  obtain ⟨⟨kind, key⟩, hkey, hkind⟩ := hkind
  refine ⟨(kind, key), hkey, hkind, ?_⟩
  cases hid : op.ident? key with
  | none =>
    -- it would be reported that there is no id
    obtain ⟨rfl, rfl⟩ | ⟨rfl, rfl⟩ | ⟨rfl, rfl⟩ := mem_addressKeys_iff.mp hkey
    all_goals
      rw [request, hkind, hid] at h
      cases h
  | some id =>
    obtain ⟨r', hr, rfl⟩ | ⟨f, hf, -⟩ := request_cases hkey hkind hid
    · rw [hr] at h
      cases h
      rfl
    · rw [hf] at h
      cases h

end Requests

/-! ## 3. Ids that occur -/

/-- A request that names an id of the tree is not refused for want of a node. -/
theorem on_fulfil_of_occurs {root : Node} {r : Request} (h : ∃ m ∈ root.walk, m.id = r.target) :
    (∃ root', (fulfil r).on root = (.ok (), root')) ∨
      ∃ f, (fulfil r).on root = (.error f, root) ∧ f.code ∉ missingCodes := by
  -- replacing and deleting look at the children of a node first, inserting goes in pre-order
  cases r with
  | replace id replacement =>
    by_cases hroot : root.id = id
    · exact .inl ⟨_, replace_root hroot replacement⟩
    · obtain ⟨p, g, n, rfl, hn, hfirst⟩ := exists_childrenFirst hroot h
      exact .inl ⟨_, replace_put hfirst hn replacement⟩
  | delete id =>
    by_cases hroot : root.id = id
    · exact .inr ⟨_, delete_root hroot, (by decide : "PAT006" ∉ missingCodes)⟩
    · obtain ⟨p, g, n, rfl, hn, hfirst⟩ := exists_childrenFirst hroot h
      exact .inl ⟨_, delete_put hfirst hn⟩
  | insert id slot index child =>
    obtain ⟨p, n, rfl, hn, hfirst⟩ := exists_first h
    by_cases haccepts : Accepts n slot index
    · exact .inl ⟨_, insert_put hfirst hn haccepts⟩
    · have hfails : ∃ f, (fulfil (.insert id slot index child)).on (put p n) = (.error f, put p n) ∧
          (f = .slotNotValid slot n.kind ∨ f = .indexOutOfRange) := insert_put_fails hfirst hn haccepts
      obtain ⟨f, hon, hf⟩ := hfails
      refine .inr ⟨f, hon, ?_⟩
      rcases hf with rfl | rfl
      · exact (by decide : "PAT012" ∉ missingCodes)
      · exact (by decide : "PAT013" ∉ missingCodes)

/-- Operations that give the id as an identifier find it, when it occurs. -/
theorem finds_identifier {root : Node} {kind key id : String} (hkey : (kind, key) ∈ addressKeys)
    (h : ∃ m ∈ root.walk, m.id = id) : Finds root id kind key (.identifier id) := by
  intro op hkind hvalue
  have hid : op.ident? key = some id := by
    rw [Node.ident?, hvalue]
    rfl
  refine ⟨fun d hd => ?_, fun hfurnished => hfurnished.request_eq hkey hkind hid⟩
  have hon : (∃ root', (applyOp op).on root = (.ok (), root')) ∨
      ∃ f, (applyOp op).on root = (.error f, root) ∧ f.code ∉ missingCodes := by
    rw [on_applyOp]
    obtain ⟨r, hrequest, rfl⟩ | ⟨f, hrequest, hf⟩ := request_cases hkey hkind hid
    · rw [hrequest]
      exact on_fulfil_of_occurs h
    · rw [hrequest]
      exact .inr ⟨f, rfl, hf⟩
  obtain ⟨root', hon⟩ | ⟨f, hon, hf⟩ := hon
  · rw [applyPatch_of_ok hon, applyPatch] at hd
    cases hd
  · rw [applyPatch_of_error hon, applyPatch, List.mem_singleton] at hd
    rw [hd, code_report]
    exact hf

/-! ## 4. Operations in texts -/

/-- The words that the operations below are written with. -/
def operationWords : List String :=
  ["Patch", "p", "Op", "o", "Lit", "l", "replaceNode", "deleteNode", "insertChild", "kind", "id",
    "parentId", "slot", "args", "index"]

theorem areNames_operationWords : AreNames operationWords := by
  unfold AreNames
  decide +kernel

theorem words_of_mem_addressKeys : ∀ e ∈ addressKeys, e.1 ∈ operationWords ∧
    (∀ key ∈ ["kind", e.2, "slot", "index"], key ∈ operationWords) ∧
    ["kind", e.2, "slot", "index"].Nodup := by
  decide

/-- The attributes of an operation that has whatever any operation needs. -/
def operationAttrs (kind key id : String) : List (String × AttrValue) :=
  [("kind", .identifier kind), (key, .identifier id), ("slot", .identifier "args"), ("index", .int 0)]

/-- Such an operation, with a child. -/
def operation (kind key id : String) : Node :=
  ⟨"Op", "o", attrs (operationAttrs kind key id), [⟨"Lit", "l", ∅, [], .nowhere⟩], .nowhere⟩

section Texts

variable {kind key id : String}

theorem attr?_operation (hkey : (kind, key) ∈ addressKeys) {k : String} {value : AttrValue}
    (h : (k, value) ∈ operationAttrs kind key id) : (operation kind key id).attr? k = some value := by
  have hkeys : ((operationAttrs kind key id).map Prod.fst).Nodup :=
    (words_of_mem_addressKeys _ hkey).2.2
  rw [attr?_attrs rfl hkeys k]
  exact (Dict.lookupIn?_eq_some_iff hkeys).mpr h

theorem spellableHere_bare {kind id : String} (hkind : kind ∈ operationWords)
    (hid : id ∈ operationWords) (cs : List Node) :
    (⟨kind, id, ∅, cs, .nowhere⟩ : Node).SpellableHere := by
  have hattrs : (∅ : Attrs) = attrs [] := rfl
  exact spellableHere_of_names areNames_operationWords hkind hid hattrs nofun nofun

theorem spellable_operation (hkey : (kind, key) ∈ addressKeys) (hid : IsOneToken id .identifier) :
    (operation kind key id).SpellableWithin 2 := by
  obtain ⟨hkind, hkeys, -⟩ := words_of_mem_addressKeys _ hkey
  have hidentifier {word : String} (hword : word ∈ operationWords) :
      (AttrValue.identifier word).Spellable :=
    spellable_identifier ((isOneToken_iff (.inl rfl)).mpr (areNames_operationWords word hword))
  have hzero : IsOneToken "0" .int := (isOneToken_iff (.inr (.inl rfl))).mpr (by decide +kernel)
  have hvalues : ∀ e ∈ operationAttrs kind key id, e.2.Spellable := by
    simp only [operationAttrs, List.forall_mem_cons]
    exact ⟨hidentifier hkind, spellable_identifier hid, hidentifier (by decide),
      spellable_int hzero (by decide), nofun⟩
  refine ⟨spellableHere_of_names areNames_operationWords (by decide : "Op" ∈ operationWords)
    (by decide : "o" ∈ operationWords) rfl hkeys hvalues, fun c hc => ?_⟩
  obtain rfl := List.mem_singleton.mp hc
  exact ⟨spellableHere_bare (by decide) (by decide) [], nofun⟩

/-- An operation of the kind stands in a text, with the id as an identifier. -/
theorem written_identifier (hkey : (kind, key) ∈ addressKeys) (hid : IsOneToken id .identifier) :
    Written kind key (.identifier id) := by
  let patch : Node := ⟨"Patch", "p", ∅, [operation kind key id], .nowhere⟩
  have hpatch : patch.SpellableWithin 3 := by
    refine ⟨spellableHere_bare (by decide) (by decide) _, fun c hc => ?_⟩
    obtain rfl := List.mem_singleton.mp hc
    exact spellable_operation hkey hid
  obtain ⟨text, doc, hparse, hdoc⟩ := exists_parse_of_spellable (by decide) hpatch
  -- but for the spans, the document has the operation for its child
  have hchildren : doc.children.map Node.unspanned = [(operation kind key id).unspanned] := by
    have hsame := congrArg Node.children hdoc
    rw [Node.unspanned, Node.unspanned, Node.children_recast, Node.children_recast] at hsame
    exact hsame
  obtain ⟨op, hop, hsame⟩ := List.map_eq_singleton_iff.mp hchildren
  have hattr {k : String} {value : AttrValue} (h : (k, value) ∈ operationAttrs kind key id) :
      op.attr? k = some value := by
    rw [← Node.attr?_unspanned, hsame, Node.attr?_unspanned]
    exact attr?_operation hkey h
  have hident {k word : String} (h : (k, .identifier word) ∈ operationAttrs kind key id) :
      op.ident? k = some word := by
    rw [Node.ident?, hattr h]
    rfl
  refine ⟨text, doc, op, hparse, by rw [hop]; exact List.mem_singleton_self op,
    hident List.mem_cons_self, hattr (by simp [operationAttrs]), ?_⟩
  constructor
  · exact ⟨"args", hident (by simp [operationAttrs])⟩
  · have hindex : op.attr? "index" = some (.int 0) := hattr (by simp [operationAttrs])
    exact ⟨0, by rw [Node.int?, hindex]; rfl⟩
  · have hbelow := congrArg Node.children hsame
    rw [Node.unspanned, Node.unspanned, Node.children_recast, Node.children_recast] at hbelow
    obtain ⟨child, hchild, -⟩ := List.map_eq_singleton_iff.mp hbelow
    exact ⟨child, hchild⟩

/-- An operation in a text names no word that is a number or a truth value. -/
theorem isIdentifier_of_request {text word : String} {doc op : Node} {ds : List Diagnostic}
    (h : parse text = ⟨some doc, ds⟩) (hop : op ∈ doc.walk) {r : Request} (hr : request op = .ok r)
    (htarget : r.target = word) (hword : IsWord word.toList) : IsOneToken word .identifier := by
  subst htarget
  obtain ⟨⟨kind, key⟩, -, -, hid⟩ := exists_ident_of_request hr
  have hvalue : op.attr? key = some (.identifier r.target) := by
    unfold Node.ident? at hid
    obtain ⟨value, hvalue, htext⟩ := Option.bind_eq_some_iff.mp hid
    cases value with
    | identifier s =>
      obtain rfl : s = r.target := Option.some.inj htext
      exact hvalue
    | _ => cases htext
  exact isIdentifier_of_parse h hop hvalue hword.not_isJoint

/-- So if a value in a text finds a word by deletions, the word is an identifier token. -/
theorem isIdentifier_of_finds {root : Node} {word : String} {value : AttrValue}
    (hwritten : Written kind key value) (hfinds : Finds root word kind key value)
    (hword : IsWord word.toList) : IsOneToken word .identifier := by
  obtain ⟨text, doc, op, hparse, hop, hkind, hvalue, hfurnished⟩ := hwritten
  obtain ⟨r, hr, htarget⟩ := (hfinds op hkind hvalue).2 hfurnished
  have hwalk : op ∈ doc.walk := Node.mem_walk_of_mem_children hop op.mem_walk_self
  exact isIdentifier_of_request hparse hwalk hr htarget hword

end Texts

/-! ## 5. Nodes of a text -/

/-- The id of a node in a text is a name, a number or a truth value. Operations of all kinds can name
the node in a text, and find it, when the id is a name. When it is not, no operation in any text names
the node. -/
theorem addressable_iff {source : String} {root m : Node} (h : parse source = ⟨some root, []⟩)
    (hm : m ∈ root.walk) :
    (∃ k ∈ [TokenKind.identifier, .int, .bool], IsOneToken m.id k) ∧
      (Addressable root m.id ↔ IsOneToken m.id .identifier) ∧
      (IsOneToken m.id .int ∨ IsOneToken m.id .bool → ∀ text doc ds, parse text = ⟨some doc, ds⟩ →
        ∀ op ∈ doc.walk, ∀ r, request op = .ok r → r.target ≠ m.id) := by
  have hhere : m.WritableHere := (writable_of_parse h).forall_walk m hm
  have hword : IsWord m.id.toList := hhere.isWord_id
  refine ⟨hhere.id, ⟨?_, fun hid => ?_⟩, ?_⟩
  · rintro ⟨value, hvalue⟩
    obtain ⟨hwritten, hfinds⟩ := hvalue ("deleteNode", "id") (by decide)
    exact isIdentifier_of_finds hwritten hfinds hword
  · exact ⟨.identifier m.id, fun e he => ⟨written_identifier he hid, finds_identifier he ⟨m, hm, rfl⟩⟩⟩
  · intro hclass text doc ds hparse op hop r hr htarget
    have hid := isIdentifier_of_request hparse hop hr htarget hword
    rcases hclass with hint | hbool
    · cases hid.kind_eq hint
    · cases hid.kind_eq hbool

/-- A tree with an id that only begins like a number, and one that is a number. -/
theorem addressable_numbered :
    ∃ root, parse "Program#p \x7b Lit#1a(value=2) Lit#1 \x7d" = ⟨some root, []⟩ ∧
      root.children.map Node.id = ["1a", "1"] ∧ Addressable root "1a" ∧ ¬Addressable root "1" := by
  obtain ⟨root, hparse, hids⟩ : ∃ root,
      parse "Program#p \x7b Lit#1a(value=2) Lit#1 \x7d" = ⟨some root, []⟩ ∧
        root.children.map Node.id = ["1a", "1"] :=
    exists_parse_of_map (by decide +kernel) (by decide +kernel)
  have hmem (id : String) (hid : id ∈ ["1a", "1"]) : ∃ m ∈ root.walk, m.id = id := by
    rw [← hids] at hid
    obtain ⟨m, hm, hid⟩ := List.mem_map.mp hid
    exact ⟨m, Node.mem_walk_of_mem_children hm m.mem_walk_self, hid⟩
  refine ⟨root, hparse, hids, ?_, fun h => ?_⟩
  · obtain ⟨m, hm, hid⟩ := hmem "1a" (by decide)
    have hname : IsOneToken "1a" .identifier := (isOneToken_iff (.inl rfl)).mpr (by decide +kernel)
    rw [← hid] at hname ⊢
    exact (addressable_iff hparse hm).2.1.mpr hname
  · obtain ⟨m, hm, hid⟩ := hmem "1" (by decide)
    have hnumber : IsOneToken "1" .int := (isOneToken_iff (.inr (.inl rfl))).mpr (by decide +kernel)
    rw [← hid] at hnumber h
    cases ((addressable_iff hparse hm).2.1.mp h).kind_eq hnumber

/-- No operation in a text names the one node below this root, so no value makes a deletion find it. -/
theorem not_addressable_one :
    ∃ root m, parse "Program#p \x7b Lit#1(value=2) \x7d" = ⟨some root, []⟩ ∧ root.children = [m] ∧
      m.id = "1" ∧
      (∀ text doc ds, parse text = ⟨some doc, ds⟩ → ∀ op ∈ doc.walk, ∀ r, request op = .ok r →
        r.target ≠ "1") ∧
      ¬∃ value, Written "deleteNode" "id" value ∧ Finds root "1" "deleteNode" "id" value := by
  have hword : IsWord "1".toList ∧ (wordShape "1".toList).1 = .int := by decide +kernel
  have hnumber : IsOneToken "1" .int := (isOneToken_iff (.inr (.inl rfl))).mpr hword
  have hroot : ∃ root, parse "Program#p \x7b Lit#1(value=2) \x7d" = ⟨some root, []⟩ ∧
      root.children.map Node.id = ["1"] := exists_parse_of_map (by decide +kernel) (by decide +kernel)
  obtain ⟨root, hroot, hids⟩ := hroot
  obtain ⟨m, hm, hid⟩ := List.map_eq_singleton_iff.mp hids
  refine ⟨root, m, hroot, hm, hid, fun text doc ds hparse op hop r hr htarget => ?_, ?_⟩
  · cases (isIdentifier_of_request hparse hop hr htarget hword.1).kind_eq hnumber
  · rintro ⟨value, hwritten, hfinds⟩
    cases (isIdentifier_of_finds hwritten hfinds hword.1).kind_eq hnumber

end Patch

end Arbor
