import Mathlib.Data.List.AList

/-!
# Layered maps

A stack of maps, in which a key is looked up from the innermost layer outwards. An entry is put into
the innermost layer, and a layer is merged into the one outside of it, whose entries it hides, so
that what is found stays the same (`find_union`).
-/

set_option autoImplicit false

namespace Vere.Lib.Layers

variable {α β : Type*} [DecidableEq α]

/-- The entry in the innermost layer that has the key. -/
def find (layers : List (AList fun _ : α ↦ β)) (a : α) : Option β :=
  layers.findSome? fun layer ↦ layer.lookup a

variable {layer outer : AList fun _ : α ↦ β} {layers : List (AList fun _ : α ↦ β)}
  {a a' : α} {b : β}

@[simp]
theorem find_nil : find ([] : List (AList fun _ : α ↦ β)) a = none := rfl

theorem find_cons : find (layer :: layers) a = (layer.lookup a).or (find layers a) := by
  rw [find, List.findSome?_cons]
  cases layer.lookup a <;> rfl

theorem find_insert : find (layer.insert a b :: layers) a = some b := by
  rw [find_cons, AList.lookup_insert, Option.some_or]

theorem find_insert_ne (hne : a' ≠ a) :
    find (layer.insert a b :: layers) a' = find (layer :: layers) a' := by
  rw [find_cons, find_cons, AList.lookup_insert_ne hne]

theorem find_empty : find (∅ :: layers) a = find layers a := by
  rw [find_cons, AList.lookup_empty, Option.none_or]

theorem mem_of_find (hfind : find layers a = some b) : ∃ layer ∈ layers, layer.lookup a = some b :=
  List.exists_of_findSome?_eq_some hfind

/-- Merging a layer into the next one does not change what is found. -/
theorem find_union : find ((layer ∪ outer) :: layers) a = find (layer :: outer :: layers) a := by
  rw [find_cons, find_cons, find_cons]
  cases hlayer : layer.lookup a with
  | none =>
    rw [AList.lookup_union_right (AList.lookup_eq_none.mp hlayer), Option.none_or]
  | some b =>
    have hmem : a ∈ layer := AList.lookup_isSome.mp (by rw [hlayer]; rfl)
    rw [AList.lookup_union_left hmem, hlayer, Option.some_or, Option.some_or]

end Vere.Lib.Layers
