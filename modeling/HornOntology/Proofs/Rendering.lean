import HornOntology.Proofs.Interning
import Mathlib.Data.Set.Function

set_option autoImplicit false

/-! # What a printed name stands for

Whether an entity is printed by its local name depends on all other names of the registry: on those
that share the local name, and on an entity whose qualified name it is. Whatever these are, the
printed name leads back to the entity it was printed for, so no two entities are printed alike, and
a list of printed names can be read back name by name (`renderEntity_unambiguous`).

This holds of every registry that interning can lead to, also of one that has begun to use its
identifiers again. -/

namespace HornOntology.Registry

/-- The identifiers that belong to an entity. -/
def registered (r : Registry) : Set EntityId := {id | ∃ e, r.get? id = some e}

namespace Indexed

variable {r : Registry} (h : r.Indexed)

include h

theorem resolve_printed {id : EntityId} (hid : id ∈ r.registered) :
    r.resolve (r.renderEntity id) = .ok id := by
  obtain ⟨e, he⟩ := hid
  exact h.resolve_renderEntity he

theorem injOn_renderEntity : Set.InjOn r.renderEntity r.registered := by
  intro id hid other hother heq
  have hresolve := h.resolve_printed hid
  rw [heq, h.resolve_printed hother] at hresolve
  exact (Except.ok.inj hresolve).symm

/-- The names in a row of a table, or in a fact, are read back one by one. -/
theorem mapM_resolve_map_renderEntity {ids : List EntityId} (hids : ∀ id ∈ ids, id ∈ r.registered) :
    (ids.map r.renderEntity).mapM r.resolve = .ok ids := by
  rw [mapM_eq_ok_iff, List.forall₂_map_left_iff, List.forall₂_same]
  intro id hid
  exact h.resolve_printed (hids id hid)

end Indexed

/-- **A printed name stands for one entity.** In every registry that interning leads to, resolving
    the printed name of an entity gives that entity. Hence different entities are printed
    differently, a name that is printed is printed for one entity only, and what was printed for a
    list of entities tells them all. -/
theorem renderEntity_unambiguous {r : Registry} (hreachable : r.Reachable) :
    (∀ id ∈ r.registered, r.resolve (r.renderEntity id) = .ok id) ∧
      Set.InjOn r.renderEntity r.registered ∧
      (∀ name ∈ r.renderEntity '' r.registered,
        ∃! id, id ∈ r.registered ∧ r.renderEntity id = name) ∧
      ∀ ids : List EntityId, (∀ id ∈ ids, id ∈ r.registered) →
        (ids.map r.renderEntity).mapM r.resolve = .ok ids := by
  have hr := hreachable.indexed
  refine ⟨fun id hid => hr.resolve_printed hid, hr.injOn_renderEntity, ?_, ?_⟩
  · intro name hname
    obtain ⟨id, hid, heq⟩ := hname
    refine ⟨id, ⟨hid, heq⟩, ?_⟩
    intro other hother
    exact hr.injOn_renderEntity hother.1 hid (hother.2.trans heq.symm)
  · intro ids hids
    exact hr.mapM_resolve_map_renderEntity hids

namespace Homonyms

/-! Two entities with one local name, a third one that is called just that, and one whose name ends
where its local name would begin. -/

def woman : EntityId := .nth 0

def ship : EntityId := .nth 1

def plain : EntityId := .nth 2

def space : EntityId := .nth 3

def registry : Registry :=
  ((((empty.intern "http://a.org#Ada" .individual).2.intern "http://b.org/Ada" .cls).2.intern
    "Ada" .objectProperty).2.intern "http://a.org#" .individual).2

theorem reachable_registry : registry.Reachable :=
  .intern _ _ (.intern _ _ (.intern _ _ (.intern _ _ .empty)))

theorem built_registry : registry.Built ∧
    registry.all = [⟨woman, .individual, "http://a.org#Ada"⟩, ⟨ship, .cls, "http://b.org/Ada"⟩,
      ⟨plain, .objectProperty, "Ada"⟩, ⟨space, .individual, "http://a.org#"⟩] := by
  obtain ⟨hbuilt₁, -, hall₁⟩ := @Built.intern_new _ .empty "http://a.org#Ada" .individual woman rfl
    (by simp [empty, all])
  obtain ⟨hbuilt₂, -, hall₂⟩ := @Built.intern_new _ hbuilt₁ "http://b.org/Ada" .cls ship
    (by rw [hall₁]; rfl) (by rw [hall₁]; decide)
  rw [hall₁] at hall₂
  obtain ⟨hbuilt₃, -, hall₃⟩ := @Built.intern_new _ hbuilt₂ "Ada" .objectProperty plain
    (by rw [hall₂]; rfl) (by rw [hall₂]; decide)
  rw [hall₂] at hall₃
  obtain ⟨hbuilt₄, -, hall₄⟩ := @Built.intern_new _ hbuilt₃ "http://a.org#" .individual space
    (by rw [hall₃]; rfl) (by rw [hall₃]; decide)
  refine ⟨hbuilt₄, ?_⟩
  rw [registry, hall₄, hall₃]
  rfl

theorem get?_registry (id : EntityId) : registry.get? id =
    ([⟨woman, .individual, "http://a.org#Ada"⟩, ⟨ship, .cls, "http://b.org/Ada"⟩,
      ⟨plain, .objectProperty, "Ada"⟩, ⟨space, .individual, "http://a.org#"⟩] :
        List Entity)[id.toNat - 1]? := by
  rw [get?_eq_getElem?, built_registry.2]

/-- The local name of the first two is the name of the third, so they are printed in full. -/
theorem renderEntity_registry : [woman, ship, plain, space].map registry.renderEntity =
    ["http://a.org#Ada", "http://b.org/Ada", "Ada", "http://a.org#"] := by
  have hada : registry.resolve "Ada" = .ok plain :=
    built_registry.1.wellFormed.resolve_name (get?_registry plain)
  have hname (id : EntityId) {e : Entity} (he : registry.get? id = some e)
      (hshort : localName e.name = "Ada") (hother : plain ≠ id) :
      registry.renderEntity id = e.name := by
    unfold renderEntity
    simp only [name_eq he, hshort, hada, hother, if_false]
  simp only [List.map_cons, List.map_nil,
    hname woman (get?_registry woman) (by decide) (by decide),
    hname ship (get?_registry ship) (by decide) (by decide),
    renderEntity_eq_name (get?_registry plain) (by decide),
    renderEntity_eq_name (get?_registry space) (by decide)]

end Homonyms

/-- The entity that has the local name of two others as its name is the one that it stands for. -/
theorem renderEntity_unambiguous_homonyms :
    Homonyms.registry.Reachable ∧
      [Homonyms.woman, Homonyms.ship, Homonyms.plain, Homonyms.space].map
          Homonyms.registry.renderEntity =
        ["http://a.org#Ada", "http://b.org/Ada", "Ada", "http://a.org#"] ∧
      ["http://a.org#Ada", "http://b.org/Ada", "Ada", "http://a.org#"].mapM
          Homonyms.registry.resolve =
        .ok [Homonyms.woman, Homonyms.ship, Homonyms.plain, Homonyms.space] := by
  refine ⟨Homonyms.reachable_registry, Homonyms.renderEntity_registry, ?_⟩
  rw [← Homonyms.renderEntity_registry]
  refine (renderEntity_unambiguous Homonyms.reachable_registry).2.2.2 _ ?_
  simp only [List.forall_mem_cons]
  exact ⟨⟨_, Homonyms.get?_registry _⟩, ⟨_, Homonyms.get?_registry _⟩,
    ⟨_, Homonyms.get?_registry _⟩, ⟨_, Homonyms.get?_registry _⟩, List.forall_mem_nil _⟩

end HornOntology.Registry
