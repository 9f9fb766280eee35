/-!
# Items at integer positions

An index is an integer. A position before the start of a list or beyond its end has no item.
-/

namespace Linearization

/-- The item at an integer position. -/
def itemAt? {α : Type} (items : List α) (position : Int) : Option α :=
  if position < 0 then none else items[position.toNat]?

variable {α β : Type} {items : List α} {item : α} {position : Int}

theorem itemAt?_eq_some_iff :
    itemAt? items position = some item ↔ 0 ≤ position ∧ items[position.toNat]? = some item := by
  unfold itemAt?
  split
  · rename_i hnegative
    simp [Int.not_le.2 hnegative]
  · rename_i hnot
    simp [Int.not_lt.1 hnot]

theorem mem_of_itemAt? (h : itemAt? items position = some item) : item ∈ items :=
  List.mem_of_getElem? (itemAt?_eq_some_iff.1 h).2

theorem itemAt?_isSome :
    (itemAt? items position).isSome ↔ 0 ≤ position ∧ position < items.length := by
  unfold itemAt?
  split
  · simp
    omega
  · rw [isSome_getElem?]
    omega

theorem exists_itemAt? (h : 0 ≤ position) (hlt : position < items.length) :
    ∃ item ∈ items, itemAt? items position = some item := by
  obtain ⟨item, hitem⟩ := Option.isSome_iff_exists.1 (itemAt?_isSome.2 ⟨h, hlt⟩)
  exact ⟨item, mem_of_itemAt? hitem, hitem⟩

theorem itemAt?_map (f : α → β) (items : List α) (position : Int) :
    itemAt? (items.map f) position = (itemAt? items position).map f := by
  unfold itemAt?
  split
  · rfl
  · rw [List.getElem?_map]

end Linearization
