import Arbor.Node
import Arbor.Saturation

/-!
# Indices

Programs count and look up with 32-bit integers. A count below 2^31 stands for itself, and lists that
are no longer than that have an index for each of their elements.
-/

namespace Arbor

/-- A count of at most 31 bits does not saturate. -/
theorem toNat_saturateCount {n : Nat} (h : n < 2147483648) :
    ¬saturateCount n < 0 ∧ (saturateCount n).toInt.toNat = n := by
  have hcount : saturateCount n = Int32.ofInt n := by
    unfold saturateCount saturate
    rw [if_neg (by omega), if_neg (by omega)]
  have hvalue : (saturateCount n).toInt = n := by
    rw [hcount]
    exact Int32.toInt_ofInt_of_le (by omega) (by omega)
  refine ⟨?_, by omega⟩
  rw [Int32.lt_iff_toInt_lt, hvalue]
  simp

theorem eq_of_saturateCount_eq {k l : Nat} (hk : k < 2147483648) (hl : l < 2147483648)
    (h : saturateCount k = saturateCount l) : k = l := by
  rw [← (toNat_saturateCount hk).2, ← (toNat_saturateCount hl).2, h]

namespace Node

variable {α β : Type}

theorem at?_map (g : α → β) (l : List α) (index : Int32) :
    at? (l.map g) index = (at? l index).map g := by
  unfold at?
  split
  · rfl
  · rw [List.getElem?_map]

theorem mem_of_at? {l : List α} {index : Int32} {a : α} (h : at? l index = some a) : a ∈ l := by
  unfold at? at h
  split at h
  · cases h
  · exact List.mem_of_getElem? h

theorem at?_saturateCount (l : List α) {i : Nat} (hi : i < 2147483648) :
    at? l (saturateCount i) = l[i]? := by
  obtain ⟨hpositive, hvalue⟩ := toNat_saturateCount hi
  unfold at?
  rw [if_neg hpositive, hvalue]

/-- Lists in which every element has an index are equal when their elements are. -/
theorem eq_of_at?_eq {l r : List α} (hl : l.length < 2147483648) (hr : r.length < 2147483648)
    (h : ∀ index, at? l index = at? r index) : l = r := by
  refine List.ext_getElem? fun i => ?_
  by_cases hi : i < 2147483648
  · rw [← at?_saturateCount l hi, ← at?_saturateCount r hi, h]
  · rw [List.getElem?_eq_none (by omega), List.getElem?_eq_none (by omega)]

end Node

end Arbor
