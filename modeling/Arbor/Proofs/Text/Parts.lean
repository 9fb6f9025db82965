import Arbor.Text.Slice

/-!
# Parts of a text and what is left without them

A text is cut in three by a start and a length: what stands before the start, the part that
`substring` takes, and what follows it. `remove` leaves the first and the last piece
(`substring_remove_complementary`), although it looks at the position of each character and never takes
a piece. Both clamp the same bounds, and no bound is too large for a machine word, whatever the
integers are (`toNat_position`, `toNat_positionAfter`).
-/

namespace Arbor.Text

/-! ## 1. Bounds -/

theorem toInt_max (a b : Int32) : (max a b).toInt = max a.toInt b.toInt := by
  show (if a ≤ b then b else a).toInt = max a.toInt b.toInt
  by_cases h : a ≤ b
  · rw [if_pos h, Int.max_eq_right (Int32.le_iff_toInt_le.mp h)]
  · have hlt : b.toInt < a.toInt := by
      rw [Int32.le_iff_toInt_le] at h
      omega
    rw [if_neg h, Int.max_eq_left (Int.le_of_lt hlt)]

/-- The word is the integer, or zero for a negative one: what is not negative keeps its value in a word
without a sign. -/
theorem toNat_position (n : Int32) : ((position n).toNat : Int) = max n.toInt 0 := by
  have hvalue : (max n 0).toISize.toInt = max n.toInt 0 := by
    rw [Int32.toInt_toISize, toInt_max]
    rfl
  have hpositive : 0 ≤ (max n 0).toISize := by
    rw [ISize.le_iff_toInt_le, hvalue, ISize.toInt_zero]
    exact Int.le_max_right n.toInt 0
  unfold position
  rw [ISize.toNat_toUSize_of_le hpositive, ISize.toNatClampNeg, hvalue]
  omega

theorem toNat_addSaturating (a b : USize) :
    (addSaturating a b).toNat = min (a.toNat + b.toNat) (USize.size - 1) := by
  have hsize : 2 ^ 32 ≤ USize.size := USize.le_size
  unfold addSaturating
  exact USize.toNat_ofNat_of_lt' (by omega)

/-- Two counts below 2^31 have a sum that fits into any machine word, so it never saturates. -/
theorem toNat_positionAfter (start length : Int32) :
    (positionAfter start length).toNat = (position start).toNat + (position length).toNat := by
  have hstart := toNat_position start
  have hlength := toNat_position length
  have hstart_lt : start.toInt < 2 ^ 31 := Int32.toInt_lt start
  have hlength_lt : length.toInt < 2 ^ 31 := Int32.toInt_lt length
  have hsize : 2 ^ 32 ≤ USize.size := USize.le_size
  unfold positionAfter
  rw [toNat_addSaturating]
  omega

/-! ## 2. Pieces -/

/-- The characters outside of a stretch, when the first character stands at position `k`. -/
theorem map_filter_zipIdx {first past : Nat} (h : first ≤ past) (cs : List Char) (k : Nat) :
    ((cs.zipIdx k).filter fun (_, i) => i < first || past ≤ i).map Prod.fst =
      cs.take (first - k) ++ cs.drop (past - k) := by
  induction cs generalizing k with
  | nil => simp
  | cons c cs ih =>
    rw [List.zipIdx_cons, List.filter_cons]
    by_cases hfirst : k < first
    · -- the stretch is still ahead
      have htake : first - k = first - (k + 1) + 1 := by omega
      have hdrop : past - k = past - (k + 1) + 1 := by omega
      rw [if_pos (by simp [hfirst]), List.map_cons, ih, htake, hdrop]
      rfl
    · have htake : first - k = 0 := by omega
      have htake' : first - (k + 1) = 0 := by omega
      by_cases hpast : past ≤ k
      · -- nothing of the stretch is left
        have hdrop : past - k = 0 := by omega
        have hdrop' : past - (k + 1) = 0 := by omega
        rw [if_pos (by simp [hpast]), List.map_cons, ih, htake, htake', hdrop, hdrop']
        rfl
      · -- the character is in the stretch
        have hdrop : past - k = past - (k + 1) + 1 := by omega
        rw [if_neg (by simp [hfirst, hpast]), ih, htake, htake', hdrop]
        rfl

theorem outside_eq {first past : Nat} (h : first ≤ past) (cs : List Char) :
    outside first past cs = cs.take first ++ cs.drop past :=
  map_filter_zipIdx h cs 0

/-- What stands in a text before the part that is taken from it. -/
def beforePart (text : String) (start : Int32) : String :=
  String.ofList (text.toList.take (position start).toNat)

/-- What follows in a text the part that is taken from it. -/
def afterPart (text : String) (start length : Int32) : String :=
  String.ofList (text.toList.drop ((position start).toNat + (position length).toNat))

theorem beforePart_append_afterPart (text : String) (start length : Int32) :
    beforePart text start ++ substring text start length ++ afterPart text start length = text := by
  unfold beforePart substring afterPart
  rw [← String.ofList_append, ← String.ofList_append, List.append_assoc, ← List.drop_drop,
    List.take_append_drop, List.take_append_drop, String.ofList_toList]

theorem remove_eq (text : String) (start length : Int32) :
    remove text start length = beforePart text start ++ afterPart text start length := by
  unfold remove beforePart afterPart
  rw [toNat_positionAfter, outside_eq (Nat.le_add_right _ _), String.ofList_append]

theorem length_beforePart (text : String) (start : Int32) :
    ((beforePart text start).length : Int) = min (max start.toInt 0) text.length := by
  have hstart := toNat_position start
  unfold beforePart
  rw [String.length_ofList, List.length_take, String.length_toList]
  omega

theorem length_substring (text : String) (start length : Int32) :
    ((substring text start length).length : Int) =
      min (max length.toInt 0) (text.length - (beforePart text start).length) := by
  have hlength := toNat_position length
  unfold substring beforePart
  rw [String.length_ofList, String.length_ofList, List.length_take, List.length_drop,
    List.length_take, String.length_toList]
  omega

/-- A text is what stands before a part of it, the part, and what follows, and without the part it is
what stands before and what follows. As far as the text goes, there are as many characters before the
part as the start says and as many in it as the length says, and none where these are negative. The
bounds behind that are the integers themselves and their sum: no machine word overflows or saturates. -/
theorem substring_remove_complementary (text : String) (start length : Int32) :
    (∃ before after : String,
      text = before ++ substring text start length ++ after ∧
        remove text start length = before ++ after ∧
        (before.length : Int) = min (max start.toInt 0) text.length ∧
        ((substring text start length).length : Int) =
          min (max length.toInt 0) (text.length - before.length)) ∧
      ((position start).toNat : Int) = max start.toInt 0 ∧
      ((position length).toNat : Int) = max length.toInt 0 ∧
      (positionAfter start length).toNat = (position start).toNat + (position length).toNat := by
  refine ⟨⟨beforePart text start, afterPart text start length, ?_, ?_, ?_, ?_⟩, ?_, ?_, ?_⟩
  · exact (beforePart_append_afterPart text start length).symm
  · exact remove_eq text start length
  · exact length_beforePart text start
  · exact length_substring text start length
  · exact toNat_position start
  · exact toNat_position length
  · exact toNat_positionAfter start length

end Arbor.Text
