import HornOntology.Atom

set_option autoImplicit false

/-! # Bindings

A `Binding` gives entities to variables. It is a list sorted by variable name in which no name
occurs twice, so that two bindings that give the same answers are equal (`Binding.ext_get`). -/

namespace HornOntology

/-- Entities for variables, sorted by the names of the variables. -/
structure Binding where
  slots : List (Variable × EntityId)
  sorted : slots.Pairwise fun a b => a.1.name < b.1.name

namespace Binding

/-- The binding that binds nothing. -/
def empty : Binding := ⟨[], .nil⟩

/-- The entity at a name in a list of slots. -/
def find (v : Variable) : List (Variable × EntityId) → Option EntityId
  | [] => none
  | (w, id) :: rest => if w = v then some id else find v rest

/-- The entity of a variable. -/
def get? (b : Binding) (v : Variable) : Option EntityId := find v b.slots

/-- Whether a variable has an entity. -/
def isBound (b : Binding) (v : Variable) : Bool := (b.get? v).isSome

/-- The entity of a term: a constant is its own. -/
def resolve? (b : Binding) : Term EntityId → Option EntityId
  | .const id => some id
  | .var v => b.get? v

/-- How many variables are bound. -/
def size (b : Binding) : Nat := b.slots.length

/-- Whether nothing is bound. -/
def isEmpty (b : Binding) : Bool := b.slots.isEmpty

/-- Put a slot at its place in a sorted list; a slot of the same name is replaced. -/
def place (v : Variable) (id : EntityId) :
    List (Variable × EntityId) → List (Variable × EntityId)
  | [] => [(v, id)]
  | (w, old) :: rest =>
    if v = w then (v, id) :: rest
    else if v.name < w.name then (v, id) :: (w, old) :: rest
    else (w, old) :: place v id rest

theorem mem_place {v : Variable} {id : EntityId} {slots : List (Variable × EntityId)}
    {slot : Variable × EntityId} (h : slot ∈ place v id slots) :
    slot = (v, id) ∨ slot ∈ slots := by
  fun_induction place v id slots <;> simp_all <;> grind

theorem sorted_place (v : Variable) (id : EntityId) {slots : List (Variable × EntityId)}
    (h : slots.Pairwise fun a b => a.1.name < b.1.name) :
    (place v id slots).Pairwise fun a b => a.1.name < b.1.name := by
  induction slots with
  | nil => simp [place]
  | cons slot rest ih =>
    obtain ⟨w, old⟩ := slot
    rw [List.pairwise_cons] at h
    unfold place
    split
    · next e => subst e; exact List.pairwise_cons.2 h
    · next ne =>
      split
      · next lt =>
        refine List.pairwise_cons.2 ⟨fun s hs => ?_, List.pairwise_cons.2 h⟩
        rcases List.mem_cons.1 hs with rfl | hs
        · exact lt
        · exact String.lt_trans lt (h.1 s hs)
      · next nlt =>
        refine List.pairwise_cons.2 ⟨fun s hs => ?_, ih h.2⟩
        rcases mem_place hs with rfl | hs
        · have hle : w.name ≤ v.name := String.not_lt.1 nlt
          have hne : w.name ≠ v.name := fun e => ne (by cases v; cases w; simp_all)
          exact Std.lt_of_le_of_ne hle hne
        · exact h.1 s hs

/-- Give an entity to a variable, in place of the one it may have. -/
def insert (b : Binding) (v : Variable) (id : EntityId) : Binding :=
  ⟨place v id b.slots, sorted_place v id b.sorted⟩

/-- Bind pairs one after the other; a later pair wins. -/
def ofList (pairs : List (Variable × EntityId)) : Binding :=
  pairs.foldl (fun b (v, id) => b.insert v id) empty

/-- Make a term equal to an entity: a variable that is free is bound, everything else must agree
    already. -/
def unify (b : Binding) (term : Term EntityId) (id : EntityId) : Option Binding :=
  match term with
  | .const c => if c = id then some b else none
  | .var v =>
    match b.get? v with
    | some bound => if bound = id then some b else none
    | none => some (b.insert v id)

/-! ## What the operations do to the answers -/

theorem find_place (v w : Variable) (id : EntityId) (slots : List (Variable × EntityId)) :
    find w (place v id slots) = if v = w then some id else find w slots := by
  fun_induction place v id slots <;> (simp_all [find]; try grind)

theorem get?_insert (b : Binding) (v w : Variable) (id : EntityId) :
    (b.insert v id).get? w = if v = w then some id else b.get? w :=
  find_place v w id b.slots

theorem find_eq_none {v : Variable} {slots : List (Variable × EntityId)}
    (h : ∀ slot ∈ slots, v.name < slot.1.name) : find v slots = none := by
  induction slots with
  | nil => rfl
  | cons slot rest ih =>
    have ne : slot.1 ≠ v := fun e => String.lt_irrefl v.name (by
      simpa [e] using h slot List.mem_cons_self)
    simp [find, ne, ih fun s hs => h s (List.mem_cons_of_mem _ hs)]

theorem eq_of_find_eq {as bs : List (Variable × EntityId)}
    (ha : as.Pairwise fun a b => a.1.name < b.1.name)
    (hb : bs.Pairwise fun a b => a.1.name < b.1.name)
    (h : ∀ v, find v as = find v bs) : as = bs := by
  induction as generalizing bs with
  | nil =>
    cases bs with
    | nil => rfl
    | cons b bs => simpa [find] using h b.1
  | cons a as ih =>
    cases bs with
    | nil => simpa [find] using h a.1
    | cons b bs =>
      rw [List.pairwise_cons] at ha hb
      have before {x y : Variable × EntityId} {xs ys : List (Variable × EntityId)}
          (hys : ∀ s ∈ ys, y.1.name < s.1.name) (hf : find x.1 (x :: xs) = find x.1 (y :: ys)) :
          ¬ x.1.name < y.1.name := fun lt => by
        rw [@find_eq_none x.1 (y :: ys) fun s hs => ?_] at hf
        · simp [find] at hf
        · rcases List.mem_cons.1 hs with rfl | hs
          · exact lt
          · exact String.lt_trans lt (hys s hs)
      have hname : a.1.name = b.1.name :=
        String.le_antisymm (String.not_lt.1 (before ha.1 (h b.1).symm))
          (String.not_lt.1 (before hb.1 (h a.1)))
      have hv : a.1 = b.1 := by cases ha1 : a.1; cases hb1 : b.1; simp_all
      have hid : a.2 = b.2 := by simpa [find, hv] using h a.1
      have hab : a = b := Prod.ext hv hid
      subst hab
      refine congrArg _ (ih ha.2 hb.2 fun v => ?_)
      by_cases hva : a.1 = v
      · subst hva; rw [find_eq_none ha.1, find_eq_none hb.1]
      · simpa [find, hva] using h v

/-- Two bindings that give every variable the same entity are equal. -/
theorem ext_get {b c : Binding} (h : ∀ v, b.get? v = c.get? v) : b = c := by
  cases b with
  | mk bs hb =>
    cases c with
    | mk cs hc =>
      have e : bs = cs := eq_of_find_eq hb hc h
      subst e; rfl

end Binding

end HornOntology
