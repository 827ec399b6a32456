import Mathlib.Data.List.Nodup

/-! Sorted maps that are collected from pairs with distinct keys. -/
namespace Pals.Library
open Std

variable {α β : Type} [Ord α] [TransOrd α] [LawfulEqOrd α]

omit [TransOrd α] in
theorem pairwise_compare {pairs : List (α × β)} (distinct : (pairs.map Prod.fst).Nodup) :
    pairs.Pairwise fun left right => ¬compare left.1 right.1 = .eq := by
  have hkeys := List.pairwise_map.mp distinct
  exact hkeys.imp fun hne heq => hne (LawfulEqOrd.eq_of_compare heq)

theorem size_ofList {pairs : List (α × β)} (distinct : (pairs.map Prod.fst).Nodup) :
    (ExtTreeMap.ofList pairs compare).size = pairs.length :=
  ExtTreeMap.size_ofList (pairwise_compare distinct)

theorem getElem?_ofList_eq_some {pairs : List (α × β)} (distinct : (pairs.map Prod.fst).Nodup)
    {key : α} {value : β} :
    (ExtTreeMap.ofList pairs compare)[key]? = some value ↔ (key, value) ∈ pairs := by
  have hget {pair : α × β} (hmem : pair ∈ pairs) :
      (ExtTreeMap.ofList pairs compare)[pair.1]? = some pair.2 :=
    ExtTreeMap.getElem?_ofList_of_mem ReflCmp.compare_self (pairwise_compare distinct) hmem
  constructor
  · intro h
    have hkey : key ∈ ExtTreeMap.ofList pairs compare := by
      rw [ExtTreeMap.mem_iff_isSome_getElem?, h]
      rfl
    classical
    rw [ExtTreeMap.mem_ofList, List.contains_iff_mem] at hkey
    obtain ⟨pair, hpair, rfl⟩ := List.mem_map.mp hkey
    cases (hget hpair).symm.trans h
    exact hpair
  · exact hget

end Pals.Library
