import Arbor.Node.Printer
import Arbor.Node.Search
import Arbor.Proofs.Dict

/-!
# Nodes without their spans

`Node.recast change` drops every span of a tree and changes each attribute value as `change` says for
the node's kind and the attribute's key. So `unspanned` is the tree without its spans, and `readBack`
is what is left of a tree that was printed: an identifier that had to be quoted is a string there.
-/

namespace Arbor

open Text

namespace Node

section Recast

variable (change : String → String → AttrValue → AttrValue)

mutual

/-- Drops the spans and changes the attribute values, as `change` says for a kind and a key. -/
def recast : Node → Node
  | ⟨kind, id, attrs, children, _⟩ =>
    ⟨kind, id, attrs.mapEntries (change kind), recastList children, .nowhere⟩

/-- The trees, recast one by one. -/
def recastList : List Node → List Node
  | [] => []
  | c :: cs => recast c :: recastList cs

end

theorem recastList_eq_map (cs : List Node) : recastList change cs = cs.map (recast change) := by
  induction cs with
  | nil => rfl
  | cons c cs ih => rw [recastList, ih, List.map_cons]

theorem recast_eq (n : Node) :
    n.recast change = ⟨n.kind, n.id, n.attrs.mapEntries (change n.kind),
      n.children.map (recast change), .nowhere⟩ := by
  cases n
  rw [recast, recastList_eq_map]

@[simp] theorem kind_recast (n : Node) : (n.recast change).kind = n.kind := by rw [recast_eq]

@[simp] theorem id_recast (n : Node) : (n.recast change).id = n.id := by rw [recast_eq]

@[simp] theorem children_recast (n : Node) :
    (n.recast change).children = n.children.map (recast change) := by rw [recast_eq]

@[simp] theorem attr?_recast (n : Node) (key : String) :
    (n.recast change).attr? key = (n.attr? key).map (change n.kind key) := by
  rw [recast_eq]
  exact Dict.find?_mapEntries _ _ _

end Recast

/-- The changes agree on the attributes of the node. -/
def AgreeOn (f g : String → String → AttrValue → AttrValue) (n : Node) : Prop :=
  ∀ e ∈ n.attrs.entries, f n.kind e.1 e.2 = g n.kind e.1 e.2

section Compare

variable {f g : String → String → AttrValue → AttrValue}

theorem mapEntries_congr {n : Node} (h : AgreeOn f g n) :
    n.attrs.mapEntries (f n.kind) = n.attrs.mapEntries (g n.kind) := by
  refine Dict.ext (List.map_congr_left fun e he => ?_)
  rw [h e he]

mutual

theorem recast_congr : ∀ n : Node, (∀ m ∈ n.walk, AgreeOn f g m) → n.recast f = n.recast g
  | ⟨kind, id, attrs, children, span⟩, h => by
    have hhere : AgreeOn f g ⟨kind, id, attrs, children, span⟩ := h _ (by rw [walk]; simp)
    have hbelow : ∀ m ∈ walkList children, AgreeOn f g m := fun m hm =>
      h m (by rw [walk]; exact List.mem_cons_of_mem _ hm)
    rw [recast, recast, recastList_congr children hbelow]
    exact congrArg (Node.mk kind id · _ _) (mapEntries_congr hhere)

theorem recastList_congr : ∀ cs : List Node, (∀ m ∈ walkList cs, AgreeOn f g m) →
    recastList f cs = recastList g cs
  | [], _ => rfl
  | c :: cs, h => by
    rw [recastList, recastList,
      recast_congr c fun m hm => h m (by rw [walkList]; exact List.mem_append_left _ hm),
      recastList_congr cs fun m hm => h m (by rw [walkList]; exact List.mem_append_right _ hm)]

end

mutual

theorem recast_recast : ∀ n : Node,
    (n.recast f).recast g = n.recast fun kind key v => g kind key (f kind key v)
  | ⟨kind, id, attrs, children, span⟩ => by
    rw [recast, recast, recast, recastList_recastList children]
    refine congrArg (Node.mk kind id · _ _) (Dict.ext ?_)
    simp [Function.comp_def]

theorem recastList_recastList : ∀ cs : List Node,
    recastList g (recastList f cs) = recastList (fun kind key v => g kind key (f kind key v)) cs
  | [] => rfl
  | c :: cs => by rw [recastList, recastList, recastList, recast_recast c, recastList_recastList cs]

end

end Compare

/-- The tree without its spans. -/
def unspanned (n : Node) : Node := n.recast fun _ _ v => v

theorem attr?_unspanned (n : Node) (key : String) : n.unspanned.attr? key = n.attr? key := by
  unfold unspanned
  rw [attr?_recast, Option.map_id']

end Node

/-- The value as it is read back: an identifier that is printed between quotes comes back as a
string. -/
def AttrValue.readBack : AttrValue → AttrValue
  | identifier s => if isBareIdentifier s then identifier s else string s
  | v => v

namespace Node

/-- The tree as it is read back, without its spans. -/
def readBack (n : Node) : Node := n.recast fun _ _ => AttrValue.readBack

end Node

end Arbor
