import Arbor.Form

/-!
# The form of a node and its kind

A node that has a form has the kind of the form. So the form tells whether a node is a `Program`, a
`Block` or a `Fn`, and the other way round.
-/

namespace Arbor

theorem kind_of_form? {n : Node} {f : Form} (h : n.form? = some f) : n.kind = f.kind := by
  unfold Node.form? Form.ofKind? at h
  rcases Option.or_eq_some_iff.mp h with h | ⟨-, h⟩
  · have hfound := List.find?_some h
    exact (beq_iff_eq.mp hfound).symm
  · obtain ⟨op, hop, rfl⟩ := Option.map_eq_some_iff.mp h
    unfold Operator.ofKind? at hop
    have hfound := List.find?_some hop
    exact (beq_iff_eq.mp hfound).symm

namespace Node

theorem form?_of_kind {n : Node} {kind : String} (h : (n.kind == kind) = true) :
    n.form? = Form.ofKind? kind := by
  unfold form?
  rw [beq_iff_eq.mp h]

theorem form?_of_isBlock {n : Node} (h : n.isBlock = true) : n.form? = some .block :=
  (form?_of_kind h).trans (by decide)

theorem form?_of_isFn {n : Node} (h : n.isFn = true) : n.form? = some .fn :=
  (form?_of_kind h).trans (by decide)

theorem form?_of_isProgram {n : Node} (h : n.isProgram = true) : n.form? = some .program :=
  (form?_of_kind h).trans (by decide)

theorem isFn_of_form? {n : Node} {f : Form} (h : n.form? = some f) :
    n.isFn = (f.kind == Form.fn.kind) := by
  unfold isFn
  rw [kind_of_form? h]

theorem isBlock_of_form? {n : Node} {f : Form} (h : n.form? = some f) :
    n.isBlock = (f.kind == Form.block.kind) := by
  unfold isBlock
  rw [kind_of_form? h]

theorem isProgram_of_form? {n : Node} {f : Form} (h : n.form? = some f) :
    n.isProgram = (f.kind == Form.program.kind) := by
  unfold isProgram
  rw [kind_of_form? h]

end Node

end Arbor
