import Arbor.Proofs.Recorder.Numbering

/-!
# All records below one node

The ids in the tree of all records of a run are distinct: records of different categories differ at the
start of their ids, those of one category in the number behind it, and the parts of one record in what
is behind the number. The tree also survives being printed and parsed, whatever the recorded texts hold,
as they are all written between quotes (`recorder_invariant`).
-/

namespace Arbor

open Text

/-! ## 1. Lists without repetitions -/

/-- What `f` makes of the elements does not repeat itself when each piece does not and a mark tells the
pieces apart. -/
theorem nodup_flatMap_of_mark {α β γ : Type} {l : List α} {f : α → List β} (mark : β → γ)
    (key : α → γ) (hkeys : (l.map key).Nodup) (hmark : ∀ a ∈ l, ∀ b ∈ f a, mark b = key a)
    (hnodup : ∀ a ∈ l, (f a).Nodup) : (l.flatMap f).Nodup := by
  refine List.nodup_flatMap.mpr ⟨hnodup, ?_⟩
  refine (List.pairwise_map.mp hkeys).imp_of_mem fun {a a'} ha ha' hne b hb hb' => ?_
  exact hne ((hmark a ha b hb).symm.trans (hmark a' ha' b hb'))

namespace Node

/-- The ids in the tree, in pre-order. -/
def ids (n : Node) : List String := n.walk.map Node.id

theorem map_id_walkList (cs : List Node) : (walkList cs).map Node.id = cs.flatMap ids := by
  induction cs with
  | nil => rfl
  | cons c cs ih => rw [walkList, List.map_append, ih, List.flatMap_cons, ids]

theorem ids_eq (n : Node) : n.ids = n.id :: n.children.flatMap ids := by
  obtain ⟨kind, id, attrs, children, span⟩ := n
  rw [ids, walk, List.map_cons, map_id_walkList]

end Node

namespace Recorder

/-! ## 2. Ids with numbers -/

/-- What the id of a record has in front of its number. -/
def IsStem (stem : String) : Prop := ∀ c ∈ stem.toList, isDigit c = false

instance (stem : String) : Decidable (IsStem stem) :=
  decidable_of_iff ((stem.toList.all fun c => !isDigit c) = true) (by simp [IsStem])

/-- The characters do not go on with a digit. -/
def EndsNumber (tail : List Char) : Prop := ∀ c, tail.head? = some c → isDigit c = false

/-- What is behind the first number in the id, and the number. -/
def behindStem (id : String) : List Char := id.toList.dropWhile fun c => !isDigit c

def numberIn (id : String) : Nat := natOfDigits ((behindStem id).takeWhile isDigit)

def tailIn (id : String) : List Char := (behindStem id).dropWhile isDigit

theorem behindStem_eq {stem : String} (hstem : IsStem stem) (number : Nat) (tail : String) :
    behindStem (stem ++ natText number ++ tail) = natDigits number ++ tail.toList := by
  unfold behindStem
  rw [String.toList_append, String.toList_append, toList_natText, List.append_assoc,
    List.dropWhile_append_of_pos fun c hc => by simp [hstem c hc]]
  -- the digits begin right there
  cases hdigits : natDigits number with
  | nil => exact absurd hdigits (natDigits_ne_nil number)
  | cons c cs =>
    have hc : isDigit c = true :=
      isDigit_of_mem_natDigits c (by rw [hdigits]; exact List.mem_cons_self)
    rw [List.cons_append, List.dropWhile_cons_of_neg (by simp [hc])]

theorem takeWhile_digits (number : Nat) {tail : List Char} (htail : EndsNumber tail) :
    (natDigits number ++ tail).takeWhile isDigit = natDigits number ∧
      (natDigits number ++ tail).dropWhile isDigit = tail := by
  rw [List.takeWhile_append_of_pos isDigit_of_mem_natDigits,
    List.dropWhile_append_of_pos isDigit_of_mem_natDigits]
  cases tail with
  | nil => simp
  | cons c cs =>
    have hc : isDigit c = false := htail c rfl
    simp [hc]

theorem numberIn_eq {stem : String} (hstem : IsStem stem) (number : Nat) {tail : String}
    (htail : EndsNumber tail.toList) : numberIn (stem ++ natText number ++ tail) = number := by
  unfold numberIn
  rw [behindStem_eq hstem, (takeWhile_digits number htail).1, natOfDigits_natDigits]

theorem tailIn_eq {stem : String} (hstem : IsStem stem) (number : Nat) {tail : String}
    (htail : EndsNumber tail.toList) : tailIn (stem ++ natText number ++ tail) = tail.toList := by
  unfold tailIn
  rw [behindStem_eq hstem, (takeWhile_digits number htail).2]

theorem natText_injective : Function.Injective natText := by
  intro m n h
  rw [← natOfDigits_natDigits m, ← natOfDigits_natDigits n, ← toList_natText, ← toList_natText, h]

theorem append_natText_injective (stem : String) :
    Function.Injective fun number => stem ++ natText number := by
  intro m n h
  have htexts := congrArg String.toList h
  rw [String.toList_append, String.toList_append] at htexts
  exact natText_injective (String.toList_injective (List.append_cancel_left htexts))

/-! ## 3. Records -/

/-- The words that records are written with. -/
def recordWords : List String :=
  ["DebugRun", "VmTrace", "StateSnapshots", "Syscalls", "LifecycleEvents", "Diagnostics", "Step",
    "Snapshot", "env", "callStack", "stack", "locals", "Item", "Syscall", "Arg", "Event", "Diagnostic",
    "runId", "vm", "nodeId", "op", "function", "pc", "stepNodeId", "value", "target", "result", "phase",
    "kind", "payload", "code", "message"]

theorem areNames_recordWords : AreNames recordWords := by
  unfold AreNames
  decide +kernel

/-- The node is the record of this number. All ids in it go on from the record's own one. -/
structure IsRecord (stem : String) (number : Nat) (n : Node) : Prop where
  id : n.id = stem ++ natText number
  nodup : n.ids.Nodup
  tails : ∀ id ∈ n.ids, ∃ tail : String, id = stem ++ natText number ++ tail ∧ EndsNumber tail.toList
  worded : n.WordedWithin recordWords 3

/-- A node made of the words is written with them, when its id is a word. -/
theorem wordedHere_of_attrs {n : Node} {pairs : List (String × AttrValue)}
    (hkind : n.kind ∈ recordWords) (hid : IsWord n.id.toList) (hattrs : n.attrs = attrs pairs)
    (hpairs : ∀ e ∈ pairs, e.1 ∈ recordWords ∧ e.2.identifier? = none) : n.WordedHere recordWords where
  kind := hkind
  id := hid
  attrs e he := by
    rw [hattrs] at he
    exact hpairs e (mem_attrs he)

theorem isRecord_leaf {stem : String} (hstem : IsWord stem.toList) {number : Nat} {n : Node}
    {pairs : List (String × AttrValue)} (hid : n.id = stem ++ natText number)
    (hchildren : n.children = []) (hkind : n.kind ∈ recordWords) (hattrs : n.attrs = attrs pairs)
    (hpairs : ∀ e ∈ pairs, e.1 ∈ recordWords ∧ e.2.identifier? = none) : IsRecord stem number n := by
  have hids : n.ids = [n.id] := by
    rw [Node.ids_eq, hchildren, List.flatMap_nil]
  have hword : IsWord n.id.toList := by
    rw [hid]
    exact isWord_append_natText hstem number
  refine ⟨hid, ?_, ?_, wordedHere_of_attrs hkind hword hattrs hpairs, ?_⟩
  · rw [hids]
    exact List.nodup_singleton _
  · intro id hmem
    rw [hids, List.mem_singleton] at hmem
    exact ⟨"", by rw [hmem, hid, String.append_empty], nofun⟩
  · rw [hchildren]
    exact nofun

/-! ## 4. Numbered texts -/

section TextList

variable (kind id itemKind itemStem : String) (values : List String)

theorem ids_textList : (textList kind id itemKind itemStem values).ids =
    id :: (List.range values.length).map fun i => id ++ itemStem ++ natText i := by
  have hleaf (i : Nat) (value : String) :
      Node.ids { kind := itemKind, id := id ++ itemStem ++ natText i,
                 attrs := attrs [("value", .string value)] } = [id ++ itemStem ++ natText i] := rfl
  rw [Node.ids_eq]
  refine congrArg (id :: ·) ?_
  unfold textList
  dsimp only
  rw [List.mapIdx_eq_zipIdx_map, List.flatMap_map]
  simp only [hleaf]
  rw [← List.map_eq_flatMap, List.range_eq_range', ← List.zipIdx_map_snd, List.map_map]
  rfl

/-- The ids of the items are longer than that of the list, and numbered. -/
theorem nodup_ids_textList (hitem : itemStem ≠ "") :
    (textList kind id itemKind itemStem values).ids.Nodup := by
  rw [ids_textList]
  refine List.nodup_cons.mpr ⟨fun hmem => ?_, List.nodup_range.map (append_natText_injective _)⟩
  obtain ⟨i, -, heq⟩ := List.mem_map.mp hmem
  have hlength := congrArg String.length heq
  rw [String.length_append, String.length_append] at hlength
  exact hitem (String.length_eq_zero_iff.mp (by omega))

theorem exists_tail_of_mem_textList {x : String}
    (hx : x ∈ (textList kind id itemKind itemStem values).ids) :
    x = id ∨ ∃ i, x = id ++ itemStem ++ natText i := by
  rw [ids_textList] at hx
  refine (List.mem_cons.mp hx).imp_right fun hmem => ?_
  obtain ⟨i, -, rfl⟩ := List.mem_map.mp hmem
  exact ⟨i, rfl⟩

variable {kind id itemKind itemStem}

theorem worded_textList (levels : Nat) (hkind : kind ∈ recordWords) (hid : IsWord id.toList)
    (hitemKind : itemKind ∈ recordWords) (hitem : IsWord (id ++ itemStem).toList) :
    (textList kind id itemKind itemStem values).WordedWithin recordWords (levels + 2) := by
  refine ⟨⟨hkind, hid, nofun⟩, fun c hc => ?_⟩
  obtain ⟨i, -, rfl⟩ := List.mem_mapIdx.mp hc
  refine ⟨wordedHere_of_attrs hitemKind (isWord_append_natText hitem i) rfl ?_, nofun⟩
  simp [recordWords, AttrValue.identifier?]

end TextList

/-! ## 5. Each kind of record -/

section Kinds

variable (number : Nat)

theorem isRecord_step (s : Step) : IsRecord "dbg_step_" number (s.record number) := by
  refine isRecord_leaf (by decide +kernel) rfl rfl ?_ rfl ?_
  · show "Step" ∈ recordWords
    decide
  · simp [recordWords, AttrValue.identifier?]

theorem isRecord_event {c : Call} {record : Nat → Node} (h : c.event? = some record) :
    IsRecord "dbg_evt_" number (record number) := by
  cases c <;> cases h
  refine isRecord_leaf (by decide +kernel) rfl rfl ?_ rfl ?_
  · show "Event" ∈ recordWords
    decide
  · simp [recordWords, AttrValue.identifier?]

theorem isRecord_diagnostic {c : Call} {record : Nat → Node} (h : c.diagnostic? = some record) :
    IsRecord "dbg_diag_" number (record number) := by
  cases c <;> cases h
  refine isRecord_leaf (by decide +kernel) rfl rfl ?_ rfl ?_
  · show "Diagnostic" ∈ recordWords
    decide
  · simp [recordWords, AttrValue.identifier?]

/-- What is behind a number ends it when it begins with an underscore. -/
theorem endsNumber_append {suffix : String} (h : suffix.toList.head? = some '_') (more : String) :
    EndsNumber (suffix ++ more).toList := by
  intro c hc
  rw [String.toList_append, List.head?_append, h] at hc
  cases hc
  decide

theorem isRecord_syscall {c : Call} {record : Nat → Node} (h : c.syscall? = some record) :
    IsRecord "dbg_sys_" number (record number) := by
  cases c <;> cases h
  rename_i target args result phase
  have hword : IsWord ("dbg_sys_" ++ natText number).toList :=
    isWord_append_natText (by decide +kernel) number
  have harg : IsWord ("dbg_sys_" ++ natText number ++ "_arg_").toList :=
    isWord_append hword (by decide +kernel)
  have hlist := worded_textList args 1 (show "Syscall" ∈ recordWords by decide) hword
    (show "Arg" ∈ recordWords by decide) harg
  have hids : (syscallRecord target args result phase number).ids =
      (textList "Syscall" ("dbg_sys_" ++ natText number) "Arg" "_arg_" args).ids := by
    rw [Node.ids_eq, Node.ids_eq]
    rfl
  refine ⟨rfl, ?_, fun id hid => ?_, wordedHere_of_attrs ?_ hword rfl ?_, hlist.2⟩
  · rw [hids]
    exact nodup_ids_textList _ _ _ _ _ (by decide)
  · rw [hids] at hid
    obtain rfl | ⟨i, rfl⟩ := exists_tail_of_mem_textList _ _ _ _ _ hid
    · exact ⟨"", String.append_empty.symm, nofun⟩
    · exact ⟨"_arg_" ++ natText i, String.append_assoc, endsNumber_append (by decide) _⟩
  · show "Syscall" ∈ recordWords
    decide
  · simp [recordWords, AttrValue.identifier?]

/-- The parts of a snapshot: the kind of each, what its id has behind the number, and its texts. -/
def Step.parts (s : Step) : List (String × String × List String) :=
  [("env", "_env", s.env.entries.map fun (name, value) => name ++ "=" ++ value.render),
    ("callStack", "_call", s.callStack), ("stack", "_stack", s.stack.map Value.render),
    ("locals", "_locals", s.locals.map Value.render)]

theorem children_snapshot (s : Step) : (s.snapshot number).children =
    s.parts.map fun p => Step.part number p.1 p.2.1 p.2.2 := rfl

/-- What is the same for every step: the kinds of the parts, and what is behind the number. -/
def partNames : List (String × String) :=
  [("env", "_env"), ("callStack", "_call"), ("stack", "_stack"), ("locals", "_locals")]

theorem mem_partNames {s : Step} {p : String × String × List String} (hp : p ∈ s.parts) :
    (p.1, p.2.1) ∈ partNames :=
  List.mem_map_of_mem (f := fun p : String × String × List String => (p.1, p.2.1)) hp

theorem kind_of_mem_partNames : ∀ p ∈ partNames, p.1 ∈ recordWords := by decide

theorem suffix_of_mem_partNames : ∀ p ∈ partNames, p.2.toList.head? = some '_' ∧
    2 ≤ p.2.toList.length ∧ IsWord p.2.toList ∧ IsWord (p.2 ++ "_item_").toList := by
  decide +kernel

theorem isStem_snap : IsStem "dbg_snap_" := by decide

/-- Two characters behind the number tell the parts of a snapshot apart. -/
def partMark (id : String) : List Char := (tailIn id).take 2

theorem partMark_eq {suffix : String} (hhead : suffix.toList.head? = some '_')
    (hlength : 2 ≤ suffix.toList.length) (more : String) :
    partMark ("dbg_snap_" ++ natText number ++ (suffix ++ more)) = suffix.toList.take 2 := by
  unfold partMark
  rw [tailIn_eq isStem_snap number (endsNumber_append hhead more), String.toList_append,
    List.take_append_of_le_length hlength]

/-- The ids in a part of a snapshot begin with the part's own one. -/
theorem exists_tail_of_mem_part {kind suffix x : String} {values : List String}
    (hx : x ∈ (Step.part number kind suffix values).ids) :
    ∃ more : String, x = "dbg_snap_" ++ natText number ++ (suffix ++ more) := by
  obtain rfl | ⟨i, rfl⟩ := exists_tail_of_mem_textList _ _ _ _ _ hx
  · exact ⟨"", by rw [String.append_empty]⟩
  · exact ⟨"_item_" ++ natText i, by simp only [String.append_assoc]⟩

theorem partMark_of_mem_part {s : Step} {p : String × String × List String} (hp : p ∈ s.parts)
    {x : String} (hx : x ∈ (Step.part number p.1 p.2.1 p.2.2).ids) :
    partMark x = p.2.1.toList.take 2 := by
  obtain ⟨more, rfl⟩ := exists_tail_of_mem_part number hx
  obtain ⟨hhead, hlength, -, -⟩ := suffix_of_mem_partNames _ (mem_partNames hp)
  exact partMark_eq number hhead hlength more

theorem ids_snapshot (s : Step) : (s.snapshot number).ids =
    ("dbg_snap_" ++ natText number) ::
      s.parts.flatMap fun p => (Step.part number p.1 p.2.1 p.2.2).ids := by
  rw [Node.ids_eq, children_snapshot, List.flatMap_map]
  rfl

theorem nodup_ids_snapshot (s : Step) : (s.snapshot number).ids.Nodup := by
  rw [ids_snapshot]
  refine List.nodup_cons.mpr ⟨fun hmem => ?_, ?_⟩
  · -- the snapshot's own id has nothing behind its number
    obtain ⟨p, hp, hbase⟩ := List.mem_flatMap.mp hmem
    have hmark := partMark_of_mem_part number hp hbase
    obtain ⟨-, hlength, -, -⟩ := suffix_of_mem_partNames _ (mem_partNames hp)
    have hnone : partMark ("dbg_snap_" ++ natText number) = [] := by
      unfold partMark
      rw [← String.append_empty (s := "dbg_snap_" ++ natText number),
        tailIn_eq isStem_snap number (nofun : EndsNumber "".toList)]
      rfl
    have hzero := congrArg List.length (hnone.symm.trans hmark)
    rw [List.length_take, List.length_nil, Nat.min_eq_left hlength] at hzero
    cases hzero
  · refine nodup_flatMap_of_mark partMark (fun p => p.2.1.toList.take 2) ?_
      (fun p hp x hx => partMark_of_mem_part number hp hx)
      fun p _ => nodup_ids_textList _ _ _ _ _ (by decide)
    show (partNames.map fun p => p.2.toList.take 2).Nodup
    decide +kernel

theorem isRecord_snapshot (s : Step) : IsRecord "dbg_snap_" number (s.snapshot number) := by
  have hword : IsWord ("dbg_snap_" ++ natText number).toList :=
    isWord_append_natText (by decide +kernel) number
  refine ⟨rfl, nodup_ids_snapshot number s, fun id hid => ?_,
    wordedHere_of_attrs ?_ hword rfl ?_, fun c hc => ?_⟩
  · rw [ids_snapshot] at hid
    obtain rfl | hmem := List.mem_cons.mp hid
    · exact ⟨"", String.append_empty.symm, nofun⟩
    · obtain ⟨p, hp, hpart⟩ := List.mem_flatMap.mp hmem
      obtain ⟨more, rfl⟩ := exists_tail_of_mem_part number hpart
      exact ⟨p.2.1 ++ more, rfl,
        endsNumber_append (suffix_of_mem_partNames _ (mem_partNames hp)).1 more⟩
  · show "Snapshot" ∈ recordWords
    decide
  · simp [recordWords, AttrValue.identifier?]
  · rw [children_snapshot] at hc
    obtain ⟨p, hp, rfl⟩ := List.mem_map.mp hc
    obtain ⟨-, -, hsuffix, hitem⟩ := suffix_of_mem_partNames _ (mem_partNames hp)
    refine worded_textList _ 0 (kind_of_mem_partNames _ (mem_partNames hp))
      (isWord_append hword hsuffix) (by decide) ?_
    rw [String.append_assoc]
    exact isWord_append hword hitem

end Kinds

/-! ## 6. Categories -/

/-- Records of one category: all ids in them are distinct and begin with its stem. -/
structure IsCategory (stem : String) (nodes : List Node) : Prop where
  nodup : (nodes.flatMap Node.ids).Nodup
  stems : ∀ id ∈ nodes.flatMap Node.ids, ∃ more : String, id = stem ++ more
  worded : ∀ n ∈ nodes, n.WordedWithin recordWords 3

theorem numbered_eq (made : List (Nat → Node)) :
    numbered made = made.zipIdx.map fun e => e.1 (e.2 + 1) := List.mapIdx_eq_zipIdx_map

theorem isCategory_numbered {stem : String} (hstem : IsStem stem) {made : List (Nat → Node)}
    (h : ∀ record ∈ made, ∀ number, IsRecord stem number (record number)) :
    IsCategory stem (numbered made) := by
  have hrecord : ∀ e ∈ made.zipIdx, IsRecord stem (e.2 + 1) (e.1 (e.2 + 1)) := fun e he =>
    h e.1 (List.fst_mem_of_mem_zipIdx he) _
  rw [numbered_eq]
  refine ⟨?_, ?_, ?_⟩
  · rw [List.flatMap_map]
    refine nodup_flatMap_of_mark numberIn (fun e => e.2 + 1) ?_ (fun e he id hid => ?_)
      fun e he => (hrecord e he).nodup
    · have hnumbers : (made.zipIdx.map Prod.snd).Nodup := by
        rw [List.zipIdx_map_snd]
        exact List.nodup_range'
      exact List.map_map ▸ hnumbers.map (Nat.succ_injective)
    · obtain ⟨tail, rfl, htail⟩ := (hrecord e he).tails id hid
      exact numberIn_eq hstem _ htail
  · intro id hid
    rw [List.flatMap_map] at hid
    obtain ⟨e, he, hmem⟩ := List.mem_flatMap.mp hid
    obtain ⟨tail, rfl, -⟩ := (hrecord e he).tails id hmem
    exact ⟨_, String.append_assoc⟩
  · intro n hn
    obtain ⟨e, he, rfl⟩ := List.mem_map.mp hn
    exact (hrecord e he).worded

/-- A group of the tree: its kind, its id, the stem of the records in it, and these. -/
structure Group where
  kind : String
  id : String
  stem : String
  records : Array Node

def groups (r : Recorder) : List Group :=
  [⟨"VmTrace", "trace", "dbg_step_", r.steps⟩,
    ⟨"StateSnapshots", "snapshots", "dbg_snap_", r.snapshots⟩,
    ⟨"Syscalls", "syscalls", "dbg_sys_", r.syscalls⟩,
    ⟨"LifecycleEvents", "events", "dbg_evt_", r.events⟩,
    ⟨"Diagnostics", "diagnostics", "dbg_diag_", r.diagnostics⟩]

/-- The group as a node. -/
def Group.toNode (g : Group) : Node where
  kind := g.kind
  id := g.id
  children := g.records.toList

theorem children_toNode (r : Recorder) : r.toNode.children = r.groups.map Group.toNode := rfl

theorem Holds.isCategory {r : Recorder} {calls : List Call} (h : r.Holds calls) :
    ∀ g ∈ r.groups, IsCategory g.stem g.records.toList := by
  have hsteps : IsCategory "dbg_step_" r.steps.toList := by
    rw [h.steps]
    refine isCategory_numbered (by decide) fun record hrecord number => ?_
    obtain ⟨s, -, rfl⟩ := List.mem_map.mp hrecord
    exact isRecord_step number s
  have hsnapshots : IsCategory "dbg_snap_" r.snapshots.toList := by
    rw [h.snapshots]
    refine isCategory_numbered isStem_snap fun record hrecord number => ?_
    obtain ⟨s, -, rfl⟩ := List.mem_map.mp hrecord
    exact isRecord_snapshot number s
  have hsyscalls : IsCategory "dbg_sys_" r.syscalls.toList := by
    rw [h.syscalls]
    refine isCategory_numbered (by decide) fun record hrecord number => ?_
    obtain ⟨c, -, hc⟩ := List.mem_filterMap.mp hrecord
    exact isRecord_syscall number hc
  have hevents : IsCategory "dbg_evt_" r.events.toList := by
    rw [h.events]
    refine isCategory_numbered (by decide) fun record hrecord number => ?_
    obtain ⟨c, -, hc⟩ := List.mem_filterMap.mp hrecord
    exact isRecord_event number hc
  have hdiagnostics : IsCategory "dbg_diag_" r.diagnostics.toList := by
    rw [h.diagnostics]
    refine isCategory_numbered (by decide) fun record hrecord number => ?_
    obtain ⟨c, -, hc⟩ := List.mem_filterMap.mp hrecord
    exact isRecord_diagnostic number hc
  intro g hg
  simp only [groups, List.mem_cons, List.not_mem_nil, or_false] at hg
  rcases hg with rfl | rfl | rfl | rfl | rfl
  · exact hsteps
  · exact hsnapshots
  · exact hsyscalls
  · exact hevents
  · exact hdiagnostics

/-! ## 7. The tree -/

/-- The characters of a run id. -/
def hexCharacters : List Char := "0123456789abcdef".toList

theorem mem_hexCharacters : ∀ n < 16, hexDigit n ∈ hexCharacters := by decide +kernel

theorem mem_hexCharacters_of_mem_hex {bytes : List UInt8} :
    ∀ c ∈ (Sha256.hex bytes).toList, c ∈ hexCharacters := by
  intro c hc
  unfold Sha256.hex at hc
  rw [String.toList_ofList] at hc
  obtain ⟨b, -, hb⟩ := List.mem_flatMap.mp hc
  have hbyte : b.toNat < 256 := b.toNat_lt
  simp only [List.mem_cons, List.not_mem_nil, or_false] at hb
  rcases hb with rfl | rfl
  · exact mem_hexCharacters _ (by omega)
  · exact mem_hexCharacters _ (by omega)

theorem length_bytesOfNat (count n : Nat) : (Sha256.bytesOfNat count n).length = count := by
  induction count generalizing n with
  | zero => rfl
  | succ count ih => rw [Sha256.bytesOfNat, List.length_append, ih, List.length_singleton]

theorem length_hexDigest (text : String) : (Sha256.hexDigest text).toList.length = 64 := by
  unfold Sha256.hexDigest Sha256.hex Sha256.digest
  rw [String.toList_ofList]
  simp [length_bytesOfNat]

theorem mem_hexCharacters_of_mem_runIdOf {seed : String} :
    ∀ c ∈ (runIdOf seed).toList, c ∈ hexCharacters := by
  intro c hc
  unfold runIdOf at hc
  rw [String.toList_ofList] at hc
  exact mem_hexCharacters_of_mem_hex c (List.mem_of_mem_take hc)

theorem length_runIdOf (seed : String) : (runIdOf seed).toList.length = 12 := by
  unfold runIdOf
  rw [String.toList_ofList, List.length_take, length_hexDigest]
  rfl

/-- Such characters are a word, even when all are digits. -/
theorem isWord_of_hexCharacters {cs : List Char} (hne : cs ≠ []) (h : ∀ c ∈ cs, c ∈ hexCharacters) :
    IsWord cs := by
  have hheads : ∀ c ∈ hexCharacters, isWordHead c = true := List.all_eq_true.mp (by decide +kernel)
  cases cs with
  | nil => exact absurd rfl hne
  | cons c cs =>
    exact ⟨hheads c (h c List.mem_cons_self),
      fun d hd => isWordPart_of_isWordHead (hheads d (h d (List.mem_cons_of_mem _ hd)))⟩

/-- What is the same for every recorder: the id of each group and the stem in it. -/
def groupNames : List (String × String) :=
  [("trace", "dbg_step_"), ("snapshots", "dbg_snap_"), ("syscalls", "dbg_sys_"),
    ("events", "dbg_evt_"), ("diagnostics", "dbg_diag_")]

theorem mem_groupNames {r : Recorder} {g : Group} (hg : g ∈ r.groups) :
    (g.id, g.stem) ∈ groupNames :=
  List.mem_map_of_mem (f := fun g : Group => (g.id, g.stem)) hg

/-- The beginning of an id, which tells the groups apart. -/
def beginning (id : String) : List Char := id.toList.take 6

/-- The id of the group in which ids begin like this. -/
def groupOf (first : List Char) : Option String :=
  (groupNames.find? fun g => first == beginning g.1 || first == beginning g.2).map Prod.fst

theorem groupOf_of_mem_groupNames : ∀ g ∈ groupNames, groupOf (beginning g.1) = some g.1 ∧
    groupOf (beginning g.2) = some g.1 ∧ beginning g.1 ≠ beginning g.2 ∧ 6 ≤ g.2.toList.length := by
  decide +kernel

/-- No group has ids that begin like a run id. -/
theorem not_hexCharacters_of_mem_groupNames : ∀ g ∈ groupNames,
    (∃ c ∈ g.1.toList, c ∉ hexCharacters) ∧ ∃ c ∈ g.2.toList, c ∉ hexCharacters := by
  have hany : ∀ g ∈ groupNames, (g.1.toList.any fun c => !hexCharacters.contains c) = true ∧
      (g.2.toList.any fun c => !hexCharacters.contains c) = true := by
    decide +kernel
  simpa using hany

theorem beginning_append {stem : String} (h : 6 ≤ stem.toList.length) (more : String) :
    beginning (stem ++ more) = beginning stem := by
  unfold beginning
  rw [String.toList_append, List.take_append_of_le_length h]

theorem ids_group (g : Group) : g.toNode.ids = g.id :: g.records.toList.flatMap Node.ids :=
  Node.ids_eq g.toNode

variable {r : Recorder} {calls : List Call}

theorem Holds.nodup_group (h : r.Holds calls) {g : Group} (hg : g ∈ r.groups) :
    g.toNode.ids.Nodup := by
  rw [ids_group]
  refine List.nodup_cons.mpr ⟨fun hmem => ?_, (h.isCategory g hg).nodup⟩
  obtain ⟨more, hid⟩ := (h.isCategory g hg).stems _ hmem
  obtain ⟨-, -, hne, hlength⟩ := groupOf_of_mem_groupNames _ (mem_groupNames hg)
  exact hne (hid ▸ beginning_append hlength more)

theorem Holds.groupOf_eq (h : r.Holds calls) {g : Group} (hg : g ∈ r.groups) {id : String}
    (hid : id ∈ g.toNode.ids) : groupOf (beginning id) = some g.id := by
  obtain ⟨hgroup, hstem, -, hlength⟩ := groupOf_of_mem_groupNames _ (mem_groupNames hg)
  rw [ids_group] at hid
  obtain rfl | hmem := List.mem_cons.mp hid
  · exact hgroup
  · obtain ⟨more, rfl⟩ := (h.isCategory g hg).stems _ hmem
    rw [beginning_append hlength]
    exact hstem

theorem Holds.exists_not_hexCharacters (h : r.Holds calls) {g : Group} (hg : g ∈ r.groups)
    {id : String} (hid : id ∈ g.toNode.ids) : ∃ c ∈ id.toList, c ∉ hexCharacters := by
  obtain ⟨hgroup, c, hc, hnot⟩ := not_hexCharacters_of_mem_groupNames _ (mem_groupNames hg)
  rw [ids_group] at hid
  obtain rfl | hmem := List.mem_cons.mp hid
  · exact hgroup
  · obtain ⟨more, rfl⟩ := (h.isCategory g hg).stems _ hmem
    exact ⟨c, by rw [String.toList_append]; exact List.mem_append_left _ hc, hnot⟩

theorem Holds.nodup_ids (h : r.Holds calls) (hrun : ∀ c ∈ r.runId.toList, c ∈ hexCharacters) :
    r.toNode.ids.Nodup := by
  rw [Node.ids_eq, children_toNode, List.flatMap_map]
  refine List.nodup_cons.mpr ⟨fun hmem => ?_, ?_⟩
  · obtain ⟨g, hg, hid⟩ := List.mem_flatMap.mp hmem
    obtain ⟨c, hc, hnot⟩ := h.exists_not_hexCharacters hg hid
    exact hnot (hrun c hc)
  · refine nodup_flatMap_of_mark (fun id => groupOf (beginning id)) (fun g => some g.id) ?_
      (fun g hg id hid => h.groupOf_eq hg hid) fun g hg => h.nodup_group hg
    show (groupNames.map fun g => some g.1).Nodup
    decide

theorem Holds.worded (h : r.Holds calls) (hrun : IsWord r.runId.toList) :
    r.toNode.WordedWithin recordWords 5 := by
  refine ⟨wordedHere_of_attrs ?_ hrun rfl ?_, fun c hc => ?_⟩
  · show "DebugRun" ∈ recordWords
    decide
  · simp [recordWords, AttrValue.identifier?]
  · rw [children_toNode] at hc
    obtain ⟨g, hg, rfl⟩ := List.mem_map.mp hc
    have hnames : ∀ e ∈ [("VmTrace", "trace"), ("StateSnapshots", "snapshots"),
        ("Syscalls", "syscalls"), ("LifecycleEvents", "events"), ("Diagnostics", "diagnostics")],
        e.1 ∈ recordWords ∧ IsWord e.2.toList := by decide +kernel
    obtain ⟨hkind, hid⟩ := hnames (g.kind, g.id)
      (List.mem_map_of_mem (f := fun g : Group => (g.kind, g.id)) hg)
    exact ⟨⟨hkind, hid, nofun⟩, (h.isCategory g hg).worded⟩

/-- A recorder that was made from a seed holds, after any calls, just the records of these calls. Steps
and snapshots go together and every category is numbered. All ids in the tree of the records are
distinct, and the tree comes back when its text is parsed. -/
theorem recorder_invariant (seed : String) (calls : List Call) :
    let r := (ofSeed seed).after calls
    r.Holds calls ∧ r.InStep calls ∧ r.toNode.ids.Nodup ∧
      ∃ root, parse r.toNode.format = ⟨some root, []⟩ ∧ root.unspanned = r.toNode.unspanned := by
  intro r
  have hholds : r.Holds calls := holds_after (runIdOf seed) calls
  have hrun : r.runId = runIdOf seed := runId_after (ofSeed seed) calls
  have hcharacters : ∀ c ∈ r.runId.toList, c ∈ hexCharacters := by
    rw [hrun]
    exact mem_hexCharacters_of_mem_runIdOf
  have hne : r.runId.toList ≠ [] := by
    rw [hrun]
    exact List.ne_nil_of_length_eq_add_one (length_runIdOf seed)
  have hword : IsWord r.runId.toList := isWord_of_hexCharacters hne hcharacters
  exact ⟨hholds, inStep_of_holds hholds, hholds.nodup_ids hcharacters,
    parse_format_of_worded areNames_recordWords (by decide) (hholds.worded hword)⟩

end Recorder

end Arbor
