import Std.Data.HashMap

set_option autoImplicit false

/-! # Grouping values by key

A `Grouping κ α` is an index: it files values of type `α` under keys of type `κ` and gives back,
for a key, the values filed under it in the order of their filing. The one view of a grouping is
`get`; `get_empty` and `get_add` say what each operation does to it, and `get_ofList` says that
indexing a list is the same as filtering it. -/

namespace HornOntology

/-- Values filed under keys, each group in filing order. -/
structure Grouping (κ α : Type) [BEq κ] [Hashable κ] where
  /-- The groups that are not empty. -/
  groups : Std.HashMap κ (Array α)

namespace Grouping

variable {κ α : Type} [BEq κ] [Hashable κ]

/-- The grouping in which nothing is filed. -/
def empty : Grouping κ α := ⟨∅⟩

/-- The values filed under `key`, oldest first. -/
def get (g : Grouping κ α) (key : κ) : Array α := g.groups.getD key #[]

/-- File `value` under `key`, after the values already there. -/
def add (g : Grouping κ α) (key : κ) (value : α) : Grouping κ α :=
  ⟨g.groups.alter key fun group => some ((group.getD #[]).push value)⟩

/-- File each element of a list under its key, in order. -/
def ofList (key : α → κ) (values : List α) : Grouping κ α :=
  values.foldl (fun g a => g.add (key a) a) empty

@[simp] theorem get_empty (key : κ) : (empty : Grouping κ α).get key = #[] := by
  simp [get, empty]

variable [LawfulBEq κ] [LawfulHashable κ]

theorem get_add (g : Grouping κ α) (k key : κ) (value : α) :
    (g.add k value).get key = if k == key then (g.get key).push value else g.get key := by
  unfold get add
  rw [Std.HashMap.getD_alter]
  by_cases h : k == key
  · have hk : k = key := eq_of_beq h
    subst hk
    simp [Std.HashMap.getD_eq_getD_getElem?]
  · simp [h]

/-- Indexing a list is filtering it. -/
theorem get_ofList (key : α → κ) (values : List α) (k : κ) :
    ((ofList key values).get k).toList = values.filter fun a => key a == k := by
  have fold : ∀ (vs : List α) (g : Grouping κ α),
      ((vs.foldl (fun g a => g.add (key a) a) g).get k).toList
        = (g.get k).toList ++ vs.filter fun a => key a == k := by
    intro vs
    induction vs with
    | nil => simp
    | cons a vs ih =>
      intro g
      rw [List.foldl_cons, ih, get_add]
      by_cases h : key a == k <;> simp [h]
  simpa [ofList] using fold values empty

end Grouping

end HornOntology
