import Mathlib.Data.List.Sort
import Switching.Names

/-! The list of a set of names is determined by its members. -/
namespace Switching.Names

theorem pairwise_insert {name : String} {names : List String} (sorted : names.Pairwise (· < ·)) :
    (insert name names).Pairwise (· < ·) := by
  induction names with
  | nil => exact List.pairwise_singleton _ _
  | cons first rest ih =>
    obtain ⟨below, tail⟩ := List.pairwise_cons.mp sorted
    rw [insert]
    split
    · rename_i before
      refine List.pairwise_cons.mpr ⟨?_, sorted⟩
      intro other listed
      rcases List.mem_cons.mp listed with rfl | later
      · exact before
      · exact String.lt_trans before (below other later)
    · rename_i notBefore
      split
      · exact sorted
      · rename_i different
        refine List.pairwise_cons.mpr ⟨?_, ih tail⟩
        intro other listed
        rcases mem_insert.mp listed with rfl | later
        · by_contra notAfter
          exact different (String.le_antisymm notAfter notBefore)
        · exact below other later

theorem pairwise_ofList (names : List String) : (ofList names).Pairwise (· < ·) := by
  induction names with
  | nil => exact .nil
  | cons name rest ih => exact pairwise_insert ih

theorem ofList_congr {names others : List String} (same : ∀ name, name ∈ names ↔ name ∈ others) :
    ofList names = ofList others := by
  apply (pairwise_ofList names).eq_of_mem_iff (pairwise_ofList others)
  intro name
  rw [mem_ofList, mem_ofList, same]

end Switching.Names
