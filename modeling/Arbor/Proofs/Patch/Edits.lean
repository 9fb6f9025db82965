import Arbor.Proofs.Node.Searching
import Arbor.Proofs.Patch.Batch

/-!
# What an operation does to the tree

An operation edits the tree at one place: it puts a node in the place of another, takes one out, or puts
one more into a gap. All around the place stays as it is. In a tree whose ids are distinct the place is
the one that the operation names (`applyPatch_edits_one_place`).
-/

namespace Arbor

open Node Place

/-! ## 1. Edits of the children around a gap -/

namespace Gap

theorem set_children (g : Gap) (n r : Node) :
    (g.fill [n]).children.set g.before.length r = (g.fill [r]).children := by
  rw [g.children_fill, g.children_fill, List.set_append_right _ _ (Nat.le_refl _), Nat.sub_self,
    List.set_cons_zero]

theorem eraseIdx_children (g : Gap) (n : Node) :
    (g.fill [n]).children.eraseIdx g.before.length = (g.fill []).children := by
  rw [g.children_fill, List.eraseIdx_append_of_length_le (Nat.le_refl _), Nat.sub_self,
    List.eraseIdx_cons_zero]
  show g.before ++ g.after = g.before ++ [] ++ g.after
  rw [List.append_nil]

theorem insertIdx_length {α : Type} (as bs : List α) (a : α) :
    (as ++ bs).insertIdx as.length a = as ++ a :: bs := by
  induction as with
  | nil => exact List.insertIdx_zero
  | cons b as ih =>
    rw [List.cons_append, List.length_cons, List.insertIdx_succ_cons, ih, List.cons_append]

theorem insertIdx_children (g : Gap) (n : Node) :
    (g.fill []).children.insertIdx g.before.length n = (g.fill [n]).children := by
  rw [g.children_fill]
  show (g.before ++ [] ++ g.after).insertIdx g.before.length n = g.before ++ n :: g.after
  rw [List.append_nil, insertIdx_length]

/-- A node has a gap at each index. -/
theorem exists_at (n : Node) {index : Nat} (h : index ≤ n.children.length) :
    ∃ g : Gap, g.fill [] = n ∧ g.before.length = index := by
  refine ⟨n.gap (n.children.take index) (n.children.drop index), fill_gap ?_,
    List.length_take_of_le h⟩
  rw [List.append_nil, List.take_append_drop]

end Gap

namespace Patch

/-! ## 2. Requests -/

/-- The operation has the attributes that the request needs, and one child where it needs one. -/
inductive Asks (op : Node) : Request → Prop where
  | replace {id : String} {replacement : Node} : op.ident? "kind" = some "replaceNode" →
    op.ident? "id" = some id → op.children = [replacement] → Asks op (.replace id replacement)
  | delete {id : String} : op.ident? "kind" = some "deleteNode" → op.ident? "id" = some id →
    Asks op (.delete id)
  | insert {parentId slot : String} {index : Int32} {child : Node} :
    op.ident? "kind" = some "insertChild" → op.ident? "parentId" = some parentId →
    op.ident? "slot" = some slot → op.int? "index" = some index → op.children = [child] →
    Asks op (.insert parentId slot index child)

theorem onlyChild_eq {op child : Node} (h : op.children = [child]) (f : Failure) :
    onlyChild f op = .ok child := by
  rw [onlyChild, h]

theorem Asks.request_eq {op : Node} {r : Request} (h : Asks op r) : request op = .ok r := by
  unfold request
  cases h with
  | replace hkind hid hchild =>
    rw [hkind, hid, onlyChild_eq hchild .replaceNeedsOneChild]
    rfl
  | delete hkind hid =>
    rw [hkind, hid]
    rfl
  | insert hkind hparent hslot hindex hchild =>
    rw [hkind, hparent, hslot, hindex, onlyChild_eq hchild .insertNeedsOneChild]
    rfl

theorem Asks.on_applyOp {op : Node} {r : Request} (h : Asks op r) (root : Node) :
    (applyOp op).on root = (fulfil r).on root := by
  rw [Patch.on_applyOp, h.request_eq]

theorem Asks.succeeds {op root root' : Node} {r : Request} (h : Asks op r)
    (hon : (fulfil r).on root = (.ok (), root')) : applyPatch root [op] = (root', []) := by
  rw [applyPatch_of_ok ((h.on_applyOp root).trans hon), applyPatch]

theorem Asks.fails {op root : Node} {r : Request} {f : Failure} (h : Asks op r)
    (hon : (fulfil r).on root = (.error f, root)) :
    applyPatch root [op] = (root, [f.report root op]) := by
  rw [applyPatch_of_error ((h.on_applyOp root).trans hon), applyPatch]

/-! ## 3. Edits at a place -/

section Places

variable {id : String} {p : Place} {g : Gap} {n root : Node}

theorem replace_root (hroot : root.id = id) (r : Node) :
    (fulfil (.replace id r)).on root = (.ok (), r) := by
  rw [fulfil, replace, Edit.on_get, if_pos hroot, Edit.on_set]

theorem replace_put (hfirst : ChildrenFirst id p g) (hn : n.id = id) (r : Node) :
    (fulfil (.replace id r)).on (put p (g.fill [n])) = (.ok (), put p (g.fill [r])) := by
  rw [fulfil, replace, Edit.on_get, if_neg (id_put_of_above hfirst.above [n]),
    updateParent?_put hfirst hn, g.set_children]
  rfl

theorem replace_absent (habsent : ∀ m ∈ root.walk, m.id ≠ id) (r : Node) :
    (fulfil (.replace id r)).on root = (.error (.notFound id), root) := by
  rw [fulfil, replace, Edit.on_get, if_neg (habsent root root.mem_walk_self),
    updateParent?_eq_none habsent]
  rfl

theorem delete_root (hroot : root.id = id) :
    (fulfil (.delete id)).on root = (.error (.rootDeleted id), root) := by
  rw [fulfil, delete, Edit.on_get, if_pos hroot, Edit.on_throw]

theorem delete_put (hfirst : ChildrenFirst id p g) (hn : n.id = id) :
    (fulfil (.delete id)).on (put p (g.fill [n])) = (.ok (), put p (g.fill [])) := by
  rw [fulfil, delete, Edit.on_get, if_neg (id_put_of_above hfirst.above [n]),
    updateParent?_put hfirst hn, g.eraseIdx_children]
  rfl

theorem delete_absent (habsent : ∀ m ∈ root.walk, m.id ≠ id) :
    (fulfil (.delete id)).on root = (.error (.notFound id), root) := by
  rw [fulfil, delete, Edit.on_get, if_neg (habsent root root.mem_walk_self),
    updateParent?_eq_none habsent]
  rfl

/-- Where nodes of a kind keep their children. -/
def childSlots : List (String × String) :=
  [("Program", "declarations"), ("Block", "statements"), ("Call", "args")]

/-- May a child be put at the index into the slot of the node? -/
def Accepts (n : Node) (slot : String) (index : Int32) : Prop :=
  (n.kind, slot) ∈ childSlots ∧ 0 ≤ index.toInt ∧ index.toInt ≤ n.children.length

variable {slot : String} {index : Int32} {child : Node}

theorem slotAllowed_iff {kind : String} :
    slotAllowed kind slot = true ↔ (kind, slot) ∈ childSlots := by
  simp [slotAllowed, childSlots, or_assoc]

theorem not_outOfRange_iff {count : Nat} :
    ¬(decide (index < 0) || decide (count < index.toInt.toNat)) = true ↔
      0 ≤ index.toInt ∧ index.toInt ≤ count := by
  rw [Bool.or_eq_true, decide_eq_true_eq, decide_eq_true_eq, Int32.lt_iff_toInt_lt,
    show (0 : Int32).toInt = 0 from rfl]
  omega

theorem insert_put (hfirst : ∀ a ∈ before p, a.id ≠ id) (hn : n.id = id)
    (haccepts : Accepts n slot index) :
    (fulfil (.insert id slot index child)).on (put p n) =
      (.ok (), put p { n with children := n.children.insertIdx index.toInt.toNat child }) := by
  obtain ⟨hslot, hindex⟩ := haccepts
  rw [fulfil, insert, Edit.on_get, find?_put hfirst hn]
  dsimp only
  rw [slotAllowed_iff.mpr hslot, Bool.not_true, if_neg Bool.false_ne_true,
    if_neg (not_outOfRange_iff.mpr hindex), update?_put hfirst hn]
  rfl

theorem insert_put_fails (hfirst : ∀ a ∈ before p, a.id ≠ id) (hn : n.id = id)
    (hrejects : ¬Accepts n slot index) :
    ∃ f, (fulfil (.insert id slot index child)).on (put p n) = (.error f, put p n) ∧
      (f = .slotNotValid slot n.kind ∨ f = .indexOutOfRange) := by
  rw [fulfil, insert, Edit.on_get, find?_put hfirst hn]
  dsimp only
  -- the slot is checked first, so the index only matters in a slot of the node
  cases hslot : slotAllowed n.kind slot with
  | false => exact ⟨_, rfl, .inl rfl⟩
  | true =>
    have hindex : ¬(0 ≤ index.toInt ∧ index.toInt ≤ n.children.length) :=
      fun hindex => hrejects ⟨slotAllowed_iff.mp hslot, hindex⟩
    rw [Bool.not_true, if_neg Bool.false_ne_true,
      if_pos (Decidable.not_not.mp (mt not_outOfRange_iff.mp hindex))]
    exact ⟨_, rfl, .inr rfl⟩

theorem insert_absent (habsent : ∀ m ∈ root.walk, m.id ≠ id) :
    (fulfil (.insert id slot index child)).on root = (.error (.parentNotFound id), root) := by
  rw [fulfil, insert, Edit.on_get, find?_eq_none habsent]
  rfl

end Places

/-! ## 4. Trees with distinct ids -/

section Distinct

variable {n root : Node}

theorem exists_place (hdistinct : (root.walk.map Node.id).Nodup) (hn : n ∈ root.walk) :
    ∃ p, root = put p n ∧ ∀ a ∈ before p, a.id ≠ n.id := by
  obtain ⟨p, rfl⟩ := exists_put_of_mem_walk hn
  exact ⟨p, rfl, (ne_of_nodup hdistinct).1⟩

/-- Where the ids are distinct, the search that looks at all children first ends at the node too. -/
theorem exists_gap (hdistinct : (root.walk.map Node.id).Nodup) (hn : n ∈ root.walk)
    (hroot : root.id ≠ n.id) :
    ∃ (p : Place) (g : Gap), root = put p (g.fill [n]) ∧ ChildrenFirst n.id p g := by
  obtain ⟨p, rfl⟩ := exists_put_of_mem_walk hn
  obtain ⟨hbefore, hafter⟩ := ne_of_nodup hdistinct
  obtain rfl | ⟨p, g, rfl⟩ := p.eq_nil_or_concat
  · exact absurd rfl hroot
  · rw [List.concat_eq_append] at hbefore hafter ⊢
    refine ⟨p, g, put_concat p g n, (childrenFirst_iff hbefore).mpr fun h hh c hc => ?_⟩
    -- behind an ancestor of the node is behind the node in pre-order
    exact hafter c.alone (alone_mem_after (List.mem_append_left _ hh) hc)

theorem replace_mem (hdistinct : (root.walk.map Node.id).Nodup) (hn : n ∈ root.walk) (r : Node) :
    ∃ p, root = put p n ∧
      (fulfil (.replace n.id r)).on root = (.ok (), put p r) := by
  by_cases hroot : root.id = n.id
  · obtain ⟨p, rfl, hbefore⟩ := exists_place hdistinct hn
    -- the node is the root, for otherwise the root is before it
    cases p with
    | nil => exact ⟨[], rfl, replace_root rfl r⟩
    | cons g p => exact absurd hroot (hbefore g.alone List.mem_cons_self)
  · obtain ⟨p, g, rfl, hfirst⟩ := exists_gap hdistinct hn hroot
    refine ⟨p ++ [g], (put_concat p g n).symm, ?_⟩
    rw [put_concat]
    exact replace_put hfirst rfl r

theorem delete_mem (hdistinct : (root.walk.map Node.id).Nodup) (hn : n ∈ root.walk)
    (hroot : root.id ≠ n.id) :
    ∃ (p : Place) (g : Gap), root = put p (g.fill [n]) ∧
      (fulfil (.delete n.id)).on root = (.ok (), put p (g.fill [])) := by
  obtain ⟨p, g, rfl, hfirst⟩ := exists_gap hdistinct hn hroot
  exact ⟨p, g, rfl, delete_put hfirst rfl⟩

theorem insert_mem (hdistinct : (root.walk.map Node.id).Nodup) (hn : n ∈ root.walk) {slot : String}
    {index : Int32} (haccepts : Accepts n slot index) (child : Node) :
    ∃ (p : Place) (g : Gap), root = put p (g.fill []) ∧ g.fill [] = n ∧
      g.before.length = index.toInt ∧
      (fulfil (.insert n.id slot index child)).on root = (.ok (), put p (g.fill [child])) := by
  have ⟨_, hindex⟩ := haccepts
  obtain ⟨p, rfl, hbefore⟩ := exists_place hdistinct hn
  have hlength : index.toInt.toNat ≤ n.children.length := by omega
  obtain ⟨g, rfl, hat⟩ := Gap.exists_at n hlength
  refine ⟨p, g, rfl, rfl, by omega, ?_⟩
  rw [insert_put hbefore rfl haccepts, ← hat, g.insertIdx_children]
  rfl

end Distinct

/-- An operation is reported unless it can be done. -/
theorem Asks.reports_eq_nil_iff {op root : Node} {r : Request} {P : Prop} (h : Asks op r)
    (hok : P → ∃ root', (fulfil r).on root = (.ok (), root'))
    (hfail : ¬P → ∃ f, (fulfil r).on root = (.error f, root)) :
    (applyPatch root [op]).2 = [] ↔ P := by
  by_cases hP : P
  · obtain ⟨root', hon⟩ := hok hP
    rw [h.succeeds hon]
    exact iff_of_true rfl hP
  · obtain ⟨f, hon⟩ := hfail hP
    rw [h.fails hon]
    exact iff_of_false (List.cons_ne_nil _ _) hP

/-! ## 5. The place of an edit -/

/-- What an operation has to come to, when it asks for the request in the tree. It succeeds, without a
report, when the node that it names is there, is not the root that it is to remove, and accepts the
child that it is to have. Then the new tree has something else in the place of the node, or in a gap of
it, and has all around that place what the old tree has there, in pre-order too. -/
def EditsOnePlace (root : Node) (done : Node × List Diagnostic) : Request → Prop
  | .replace target replacement =>
    (done.2 = [] ↔ ∃ n ∈ root.walk, n.id = target) ∧
      ∀ n ∈ root.walk, n.id = target → ∃ p, root = put p n ∧ done = (put p replacement, []) ∧
        root.outline = before p ++ n.outline ++ after p ∧
        done.1.outline = before p ++ replacement.outline ++ after p
  | .delete target =>
    (done.2 = [] ↔ (∃ n ∈ root.walk, n.id = target) ∧ root.id ≠ target) ∧
      ∀ n ∈ root.walk, n.id = target → root.id ≠ target → ∃ (p : Place) (g : Gap),
        root = put p (g.fill [n]) ∧ done = (put p (g.fill []), []) ∧
        root.outline = before (p ++ [g]) ++ n.outline ++ after (p ++ [g]) ∧
        done.1.outline = before (p ++ [g]) ++ after (p ++ [g])
  | .insert parentId slot index child =>
    (done.2 = [] ↔ ∃ n ∈ root.walk, n.id = parentId ∧ Accepts n slot index) ∧
      ∀ n ∈ root.walk, n.id = parentId → Accepts n slot index → ∃ (p : Place) (g : Gap),
        g.fill [] = n ∧ g.before.length = index.toInt ∧
        root = put p (g.fill []) ∧ done = (put p (g.fill [child]), []) ∧
        root.outline = before (p ++ [g]) ++ after (p ++ [g]) ∧
        done.1.outline = before (p ++ [g]) ++ child.outline ++ after (p ++ [g])

section

variable {op root : Node} (hdistinct : (root.walk.map Node.id).Nodup)

include hdistinct

theorem editsOnePlace_replace {id : String} {r : Node} (h : Asks op (.replace id r)) :
    EditsOnePlace root (applyPatch root [op]) (.replace id r) := by
  refine ⟨h.reports_eq_nil_iff ?_ ?_, ?_⟩
  · rintro ⟨n, hn, rfl⟩
    obtain ⟨p, -, hon⟩ := replace_mem hdistinct hn r
    exact ⟨_, hon⟩
  · exact fun habsent => ⟨_, replace_absent (fun m hm hid => habsent ⟨m, hm, hid⟩) r⟩
  · rintro n hn rfl
    obtain ⟨p, rfl, hon⟩ := replace_mem hdistinct hn r
    rw [h.succeeds hon]
    exact ⟨p, rfl, rfl, outline_put p n, outline_put p r⟩

theorem editsOnePlace_delete {id : String} (h : Asks op (.delete id)) :
    EditsOnePlace root (applyPatch root [op]) (.delete id) := by
  refine ⟨h.reports_eq_nil_iff ?_ ?_, ?_⟩
  · rintro ⟨⟨n, hn, rfl⟩, hroot⟩
    obtain ⟨p, g, -, hon⟩ := delete_mem hdistinct hn hroot
    exact ⟨_, hon⟩
  · intro hnot
    by_cases hroot : root.id = id
    · exact ⟨_, delete_root hroot⟩
    · exact ⟨_, delete_absent fun m hm hid => hnot ⟨⟨m, hm, hid⟩, hroot⟩⟩
  · rintro n hn rfl hroot
    obtain ⟨p, g, rfl, hon⟩ := delete_mem hdistinct hn hroot
    rw [h.succeeds hon]
    refine ⟨p, g, rfl, rfl, ?_, ?_⟩
    · rw [outline_put_fill, outlines_singleton]
    · rw [outline_put_fill, outlines_nil, List.append_nil]

theorem editsOnePlace_insert {parentId slot : String} {index : Int32} {child : Node}
    (h : Asks op (.insert parentId slot index child)) :
    EditsOnePlace root (applyPatch root [op]) (.insert parentId slot index child) := by
  refine ⟨h.reports_eq_nil_iff ?_ ?_, ?_⟩
  · rintro ⟨n, hn, rfl, haccepts⟩
    obtain ⟨p, g, -, -, -, hon⟩ := insert_mem hdistinct hn haccepts child
    exact ⟨_, hon⟩
  · intro hnot
    -- it fails for want of the parent, or the parent does not accept the child
    by_cases hoccurs : ∃ n ∈ root.walk, n.id = parentId
    · obtain ⟨n, hn, rfl⟩ := hoccurs
      obtain ⟨p, rfl, hbefore⟩ := exists_place hdistinct hn
      obtain ⟨f, hon, -⟩ := insert_put_fails hbefore rfl fun haccepts => hnot ⟨n, hn, rfl, haccepts⟩
      exact ⟨f, hon⟩
    · exact ⟨_, insert_absent fun m hm hid => hoccurs ⟨m, hm, hid⟩⟩
  · rintro n hn rfl haccepts
    obtain ⟨p, g, rfl, hfill, hindex, hon⟩ := insert_mem hdistinct hn haccepts child
    rw [h.succeeds hon]
    refine ⟨p, g, hfill, hindex, rfl, rfl, ?_, ?_⟩
    · rw [outline_put_fill, outlines_nil, List.append_nil]
    · rw [outline_put_fill, outlines_singleton]

end

end Patch

open Patch

/-- An operation edits a tree with distinct ids in one place, the one that it names. -/
theorem applyPatch_edits_one_place {root : Node} (hdistinct : (root.walk.map Node.id).Nodup)
    {op : Node} {r : Request} (h : Asks op r) : EditsOnePlace root (applyPatch root [op]) r := by
  cases r with
  | replace id replacement => exact editsOnePlace_replace hdistinct h
  | delete id => exact editsOnePlace_delete hdistinct h
  | insert parentId slot index child => exact editsOnePlace_insert hdistinct h

/-- A program with a block of two literals. -/
def programOfBlock : Node :=
  { kind := "Program", id := "p",
    children := [{ kind := "Block", id := "b",
                   children := [{ kind := "Lit", id := "x" }, { kind := "Lit", id := "y" }] }] }

/-- Puts a child between the two literals. -/
def insertBetween : Node :=
  { kind := "Op", id := "o",
    attrs := attrs [("kind", .identifier "insertChild"), ("parentId", .identifier "b"),
      ("slot", .identifier "statements"), ("index", .int 1)],
    children := [{ kind := "Lit", id := "z" }] }

theorem applyPatch_insertBetween :
    (programOfBlock.walk.map Node.id).Nodup ∧
      Asks insertBetween (.insert "b" "statements" 1 { kind := "Lit", id := "z" }) ∧
      ∃ (p : Place) (g : Gap), g.before.length = 1 ∧
        applyPatch programOfBlock [insertBetween] =
          (put p (g.fill [{ kind := "Lit", id := "z" }]), []) := by
  have hdistinct : (programOfBlock.walk.map Node.id).Nodup := by decide
  have hasks : Asks insertBetween (.insert "b" "statements" 1 { kind := "Lit", id := "z" }) :=
    .insert (by decide) (by decide) (by decide) (by decide) rfl
  refine ⟨hdistinct, hasks, ?_⟩
  obtain ⟨-, heffect⟩ := applyPatch_edits_one_place hdistinct hasks
  obtain ⟨p, g, -, hlength, -, hdone, -⟩ := heffect _ (List.mem_cons_of_mem _ List.mem_cons_self) rfl
    ⟨by decide, by decide, by decide⟩
  exact ⟨p, g, Int.ofNat_inj.mp hlength, hdone⟩

end Arbor
