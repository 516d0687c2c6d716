-- Texts in lower case. Only the letters from A to Z have another case, and nothing in lower case
-- is one of them.
import Mathlib

namespace Permit.Text

theorem toLower_of_not_isUpper {c : Char} (h : c.isUpper = false) : c.toLower = c := by
  simp only [Char.isUpper, decide_eq_false_iff_not] at h
  exact dif_neg h

theorem isUpper_toLower (c : Char) : c.toLower.isUpper = false := by
  cases upper : c.isUpper with
  | false => rw [toLower_of_not_isUpper upper, upper]
  | true =>
    have letter : c.val ≥ 'A'.val ∧ c.val ≤ 'Z'.val := by
      simpa only [Char.isUpper, decide_eq_true_eq] using upper
    have moved : c.toLower.val = c.val + 32 := by
      rw [Char.toLower, dif_pos letter]
      rfl
    have bounds : 65 ≤ c.val.toNat ∧ c.val.toNat ≤ 90 := letter
    have past : c.toLower.val.toNat = c.val.toNat + 32 := by
      rw [moved, UInt32.toNat_add]
      exact Nat.mod_eq_of_lt (show c.val.toNat + 32 < 2 ^ 32 by omega)
    simp only [Char.isUpper, decide_eq_false_iff_not]
    rintro ⟨-, most⟩
    change c.toLower.val.toNat ≤ 90 at most
    omega

theorem toLower_toLower (s : String) : s.toLower.toLower = s.toLower := by
  have each (c : Char) : c.toLower.toLower = c.toLower :=
    toLower_of_not_isUpper (isUpper_toLower c)
  rw [← String.toList_inj]
  simp [String.toLower, each]

theorem toLower_of_forall {s : String} (small : ∀ c ∈ s.toList, c.isUpper = false) :
    s.toLower = s := by
  rw [← String.toList_inj, String.toLower, String.toList_map]
  have each : ∀ c ∈ s.toList, c.toLower = id c := fun c hc => toLower_of_not_isUpper (small c hc)
  rw [List.map_congr_left each, List.map_id]

end Permit.Text
