import Mathlib.Data.List.Forall2
import Mathlib.Data.List.Induction
import Mathlib.Data.List.Nodup

set_option autoImplicit false

/-! # Lists

Facts about lists that several proofs share. -/

namespace HornOntology

variable {α : Type} [BEq α] [LawfulBEq α]

theorem nodup_eraseDups (l : List α) : l.eraseDups.Nodup := by
  cases l with
  | nil => simp
  | cons a rest =>
    rw [List.eraseDups_cons, List.nodup_cons, List.mem_eraseDups]
    exact ⟨by simp, nodup_eraseDups (rest.filter fun b => !b == a)⟩
termination_by l.length
decreasing_by exact Nat.lt_succ_of_le (List.length_filter_le _ _)

omit [LawfulBEq α] in
theorem eraseDups_sublist (l : List α) : l.eraseDups.Sublist l := by
  cases l with
  | nil => simp
  | cons a rest =>
    rw [List.eraseDups_cons]
    exact ((eraseDups_sublist (rest.filter fun b => !b == a)).trans List.filter_sublist).cons_cons a
termination_by l.length
decreasing_by exact Nat.lt_succ_of_le (List.length_filter_le _ _)

theorem eraseDups_of_nodup {l : List α} (h : l.Nodup) : l.eraseDups = l := by
  induction l with
  | nil => rfl
  | cons a rest ih =>
    obtain ⟨hnew, hrest⟩ := List.nodup_cons.1 h
    have hkeep : (rest.filter fun b => !b == a) = rest :=
      List.filter_eq_self.2 (fun b hb => by simpa using ne_of_mem_of_not_mem hb hnew)
    rw [List.eraseDups_cons, hkeep, ih hrest]

/-- What keeps different elements different also keeps which of them are repeated. -/
theorem eraseDups_map_of_inj {β : Type} [BEq β] [LawfulBEq β] {f : α → β} {l : List α}
    (h : ∀ a ∈ l, ∀ b ∈ l, f a = f b → a = b) : (l.map f).eraseDups = l.eraseDups.map f := by
  induction l using List.reverseRecOn with
  | nil => rfl
  | append_singleton l a ih =>
    have hl : ∀ b ∈ l, b ∈ l ++ [a] := fun b hb => List.mem_append_left _ hb
    rw [List.map_append, List.map_singleton, List.eraseDups_append, List.eraseDups_append,
      List.map_append, ih fun b hb c hc => h b (hl b hb) c (hl c hc)]
    refine congrArg (l.eraseDups.map f ++ ·) ?_
    by_cases ha : a ∈ l
    · simp [List.removeAll, ha, List.mem_map_of_mem ha]
    · have hfa : f a ∉ l.map f := by
        intro hmem
        obtain ⟨b, hb, hba⟩ := List.mem_map.1 hmem
        exact ha (h b (hl b hb) a (List.mem_append_right _ List.mem_cons_self) hba ▸ hb)
      simp [List.removeAll, ha, hfa, List.eraseDups_cons]

/-- Repetitions leave no trace. -/
theorem eraseDups_append_append_of_subset {l l' : List α} (h : l' ⊆ l) (rest : List α) :
    (l ++ (l' ++ rest)).eraseDups = (l ++ rest).eraseDups := by
  have hnil : l'.removeAll l = [] := List.filter_eq_nil_iff.2 fun a ha => by simp [h ha]
  have hdrop : (l' ++ rest).removeAll l = rest.removeAll l := by
    rw [List.removeAll, List.filter_append]
    exact congrArg (· ++ rest.removeAll l) hnil
  rw [List.eraseDups_append, List.eraseDups_append, hdrop]

theorem eraseDups_append_cons_of_mem {l : List α} {a : α} (h : a ∈ l) (rest : List α) :
    (l ++ a :: rest).eraseDups = (l ++ rest).eraseDups :=
  eraseDups_append_append_of_subset (List.cons_subset.2 ⟨h, List.nil_subset l⟩) rest

theorem eraseDups_concat_of_not_mem {l : List α} {a : α} (h : a ∉ l) :
    (l ++ [a]).eraseDups = l.eraseDups ++ [a] := by
  have hone : [a].removeAll l = [a] := by simp [List.removeAll, h]
  rw [List.eraseDups_append, hone, eraseDups_of_nodup (List.nodup_singleton a)]

theorem eraseDups_append_congr {l l' : List α} (h : l.eraseDups = l'.eraseDups)
    (rest : List α) : (l ++ rest).eraseDups = (l' ++ rest).eraseDups := by
  have hmem (a : α) : a ∈ l ↔ a ∈ l' := by
    rw [← List.mem_eraseDups, h, List.mem_eraseDups]
  have hdrop : rest.removeAll l = rest.removeAll l' :=
    List.filter_congr fun a _ => by simp [hmem a]
  rw [List.eraseDups_append, List.eraseDups_append, h, hdrop]

/-- What a repeated element stands for is repeated as well. -/
theorem eraseDups_append_flatMap_eraseDups {β : Type} [BEq β] [LawfulBEq β] (f : β → List α)
    (first : List α) (l : List β) :
    (first ++ l.eraseDups.flatMap f).eraseDups = (first ++ l.flatMap f).eraseDups := by
  induction l using List.reverseRecOn with
  | nil => rfl
  | append_singleton l b ih =>
    have hlast : (l ++ [b]).eraseDups = l.eraseDups ++ ([b].removeAll l).eraseDups :=
      List.eraseDups_append
    rw [hlast, List.flatMap_append, List.flatMap_append, List.flatMap_singleton]
    by_cases hb : b ∈ l
    · have hsubset : f b ⊆ first ++ l.flatMap f := fun a ha =>
        List.mem_append_right _ (List.mem_flatMap.2 ⟨b, hb, ha⟩)
      have hnone : [b].removeAll l = [] := by simp [List.removeAll, hb]
      have hdrop := eraseDups_append_append_of_subset hsubset []
      rw [List.append_nil, List.append_nil, List.append_assoc] at hdrop
      rw [hnone, List.eraseDups_nil, List.flatMap_nil, List.append_nil, ih, hdrop]
    · have hone : [b].removeAll l = [b] := by simp [List.removeAll, hb]
      rw [hone, eraseDups_of_nodup (List.nodup_singleton b), List.flatMap_singleton,
        ← List.append_assoc, ← List.append_assoc]
      exact eraseDups_append_congr ih (f b)

/-- What is kept comes in the order of its first occurrences. -/
theorem pairwise_findIdx_eraseDups {β : Type} (f : β → Option α) (l : List β) :
    (l.filterMap f).eraseDups.Pairwise fun a b =>
      l.findIdx (fun x => f x == some a) < l.findIdx (fun x => f x == some b) := by
  induction l using List.reverseRecOn with
  | nil => simp
  | append_singleton l x ih =>
    -- what occurs already keeps its place, and what does not comes later
    have hold {a : α} (ha : a ∈ l.filterMap f) :
        (l ++ [x]).findIdx (fun y => f y == some a) = l.findIdx (fun y => f y == some a) ∧
          l.findIdx (fun y => f y == some a) < l.length := by
      obtain ⟨y, hy, hfy⟩ := List.mem_filterMap.1 ha
      have hlt : l.findIdx (fun y => f y == some a) < l.length :=
        List.findIdx_lt_length_of_exists ⟨y, hy, by simp [hfy]⟩
      exact ⟨by rw [List.findIdx_append, if_pos hlt], hlt⟩
    have hkept : (l.filterMap f).eraseDups.Pairwise fun a b =>
        (l ++ [x]).findIdx (fun y => f y == some a) <
          (l ++ [x]).findIdx (fun y => f y == some b) := by
      refine ih.imp_of_mem fun {a b} ha hb hlt => ?_
      rwa [(hold (List.mem_eraseDups.1 ha)).1, (hold (List.mem_eraseDups.1 hb)).1]
    cases hx : f x with
    | none =>
      rw [List.filterMap_append, List.filterMap_cons_none hx, List.filterMap_nil, List.append_nil]
      exact hkept
    | some c =>
      rw [List.filterMap_append, List.filterMap_cons_some hx, List.filterMap_nil]
      by_cases hc : c ∈ l.filterMap f
      · rw [eraseDups_append_cons_of_mem hc, List.append_nil]
        exact hkept
      · have hone : [c].removeAll (l.filterMap f) = [c] := by simp [List.removeAll, hc]
        have hlast : l.findIdx (fun y => f y == some c) = l.length := by
          refine List.findIdx_eq_length.2 fun y hy => ?_
          have hne : f y ≠ some c := fun hfy => hc (List.mem_filterMap.2 ⟨y, hy, hfy⟩)
          simpa using hne
        rw [List.eraseDups_append, hone, eraseDups_of_nodup (List.nodup_singleton c),
          List.pairwise_append]
        refine ⟨hkept, List.pairwise_singleton _ _, fun a ha b hb => ?_⟩
        obtain ⟨hsame, hlt⟩ := hold (List.mem_eraseDups.1 ha)
        rw [List.mem_singleton.1 hb, hsame, List.findIdx_append, hlast, if_neg (Nat.lt_irrefl _)]
        omega

/-- A key is looked up at its first place. -/
theorem lookup_eq_getElem? {β : Type} (l : List (α × β)) (a : α) :
    l.lookup a = (l[(l.map Prod.fst).idxOf a]?).map Prod.snd := by
  induction l with
  | nil => rfl
  | cons entry l ih =>
    obtain ⟨key, b⟩ := entry
    by_cases ha : a = key
    · simp [ha]
    · have hkey : (key == a) = false := beq_false_of_ne (Ne.symm ha)
      simp [List.lookup_cons, List.idxOf_cons, beq_false_of_ne ha, hkey, ih]

omit [BEq α] [LawfulBEq α] in
/-- A computation succeeds on a whole list exactly if it succeeds on each element. -/
theorem mapM_eq_ok_iff {β ε : Type} {f : α → Except ε β} {l : List α} {l' : List β} :
    l.mapM f = .ok l' ↔ List.Forall₂ (fun a b => f a = .ok b) l l' := by
  induction l generalizing l' with
  | nil => simp [pure, Except.pure, eq_comm]
  | cons a l ih =>
    rw [List.mapM_cons, List.forall₂_cons_left_iff]
    cases hfa : f a with
    | error e => simp [bind, Except.bind]
    | ok b =>
      simp only [bind, Except.bind, pure, Except.pure]
      cases hl : l.mapM f with
      | error e => simp [← ih, hl]
      | ok bs =>
        simp [← ih, hl, eq_comm]

omit [BEq α] [LawfulBEq α] in
theorem forall_mem_of_forall₂ {β : Type} {S : α → β → Prop} {P : α → Prop} {Q : β → Prop}
    (hPQ : ∀ a b, S a b → P a → Q b) {l : List α} {l' : List β} (h : List.Forall₂ S l l')
    (hP : ∀ a ∈ l, P a) : ∀ b ∈ l', Q b := by
  induction h with
  | nil => exact fun b hb => absurd hb List.not_mem_nil
  | cons hab _ ih =>
    rw [List.forall_mem_cons] at hP ⊢
    exact ⟨hPQ _ _ hab hP.1, ih hP.2⟩

omit [BEq α] [LawfulBEq α] in
theorem exists_of_forall₂_left {β : Type} {S : α → β → Prop} {l : List α} {l' : List β}
    (h : List.Forall₂ S l l') : ∀ a ∈ l, ∃ b, S a b :=
  forall_mem_of_forall₂ (P := fun _ => True) (fun b _ hab _ => ⟨b, hab⟩) h.flip fun _ _ => trivial

end HornOntology
