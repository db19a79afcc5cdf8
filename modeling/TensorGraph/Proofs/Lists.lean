import Mathlib.Algebra.Order.BigOperators.Group.List
import Mathlib.Algebra.Order.Ring.Nat
import Mathlib.Data.List.Forall2
import Mathlib.Data.List.Nodup

/-!
# Lists side by side, neighbours in a list, order of appearance, and counts

Lists whose members correspond one by one, members of a list that stand next to each other, which of
two members a list comes to first, and how many members are found by tests.
-/

namespace TensorGraph

/-! ### Lists side by side -/

section
variable {α β : Type} {r : α → β → Prop} {xs : List α} {ys : List β}

/-- A member of the left one of two lists in `List.Forall₂` has a member of the right one
beside it. -/
theorem exists_of_mem_left (h : List.Forall₂ r xs ys) {x : α} (hx : x ∈ xs) : ∃ y ∈ ys, r x y := by
  induction h with
  | nil => cases hx
  | cons hr _ ih =>
    rcases List.mem_cons.mp hx with rfl | hx
    · exact ⟨_, List.mem_cons_self, hr⟩
    · obtain ⟨y, hy, hxy⟩ := ih hx
      exact ⟨y, List.mem_cons_of_mem _ hy, hxy⟩

/-- A member of the right one of two lists in `List.Forall₂` has a member of the left one
beside it. -/
theorem exists_of_mem_right (h : List.Forall₂ r xs ys) {y : β} (hy : y ∈ ys) : ∃ x ∈ xs, r x y :=
  exists_of_mem_left h.flip hy

/-- Two lists in `List.Forall₂` stay so under `List.filter`, if the tests agree on members side by
side. -/
theorem forall₂_filter {p : α → Bool} {q : β → Bool} (h : List.Forall₂ r xs ys)
    (hpq : ∀ x ∈ xs, ∀ y, r x y → p x = q y) : List.Forall₂ r (xs.filter p) (ys.filter q) := by
  induction h with
  | nil => exact .nil
  | @cons x y xs ys hr _ ih =>
    obtain ⟨hhead, htail⟩ := List.forall_mem_cons.mp hpq
    have hsame := hhead y hr
    -- both heads are kept or both go
    cases hq : q y with
    | true =>
      rw [hq] at hsame
      rw [List.filter_cons_of_pos hsame, List.filter_cons_of_pos hq]
      exact .cons hr (ih htail)
    | false =>
      rw [hq] at hsame
      rw [List.filter_cons_of_neg (by simp [hsame]), List.filter_cons_of_neg (by simp [hq])]
      exact ih htail

/-- Lists in `List.Forall₂` whose members have the same images have the same `List.map`. -/
theorem map_eq_of_forall₂ {γ : Type} {f : α → γ} {g : β → γ} (h : List.Forall₂ r xs ys)
    (hfg : ∀ x y, r x y → f x = g y) : xs.map f = ys.map g := by
  induction h with
  | nil => rfl
  | cons hr _ ih => rw [List.map_cons, List.map_cons, hfg _ _ hr, ih]

/-- If `List.Forall₂` relates the members of two lists by a function, the second is the `List.map`
of the first. -/
theorem eq_map_of_forall₂ {f : α → β} (h : List.Forall₂ (fun x y => y = f x) xs ys) :
    ys = xs.map f := by
  induction h with
  | nil => rfl
  | cons hr _ ih => rw [List.map_cons, hr, ih]

/-- A relation under `List.Forall₂` may be weakened by what is known of the members of the right
list. -/
theorem forall₂_imp_of_mem {s : α → β → Prop} (h : List.Forall₂ r xs ys)
    (hs : ∀ x, ∀ y ∈ ys, r x y → s x y) : List.Forall₂ s xs ys := by
  induction h with
  | nil => exact .nil
  | cons hr _ ih =>
    refine .cons (hs _ _ List.mem_cons_self hr) (ih fun x y hy => ?_)
    exact hs x y (List.mem_cons_of_mem _ hy)

/-- Of three lists in `List.Forall₂` the outer two are so by way of the middle one. -/
theorem forall₂_comp {γ : Type} {s : β → γ → Prop} {zs : List γ} (h : List.Forall₂ r xs ys)
    (hs : List.Forall₂ s ys zs) : List.Forall₂ (fun x z => ∃ y, r x y ∧ s y z) xs zs := by
  induction h generalizing zs with
  | nil =>
    cases hs
    exact .nil
  | cons hr _ ih =>
    cases hs with
    | cons hhead htail => exact .cons ⟨_, hr, hhead⟩ (ih htail)

/-- If `List.Forall₂` gives a third thing for each pair, these things make up a list in
`List.Forall₂` with both. -/
theorem exists_between {γ : Type} {p : γ → α → Prop} {q : γ → β → Prop}
    (h : List.Forall₂ (fun x y => ∃ z, p z x ∧ q z y) xs ys) :
    ∃ zs, List.Forall₂ p zs xs ∧ List.Forall₂ q zs ys := by
  induction h with
  | nil => exact ⟨[], .nil, .nil⟩
  | cons hhead _ ih =>
    obtain ⟨z, hp, hq⟩ := hhead
    obtain ⟨zs, hps, hqs⟩ := ih
    exact ⟨z :: zs, .cons hp hps, .cons hq hqs⟩

/-- A `List.Sublist` of the right one of two lists in `List.Forall₂` has one of the left one
beside it. -/
theorem exists_sublist_left (h : List.Forall₂ r xs ys) {zs : List β} (hsub : zs.Sublist ys) :
    ∃ ws, ws.Sublist xs ∧ List.Forall₂ r ws zs := by
  induction hsub generalizing xs with
  | slnil => exact ⟨xs, List.Sublist.refl xs, h⟩
  -- the head is left out on the right, so it is left out on the left
  | cons y _ ih =>
    cases h with
    | cons _ hrest =>
      obtain ⟨ws, hws, hzs⟩ := ih hrest
      exact ⟨ws, hws.cons _, hzs⟩
  | cons_cons y _ ih =>
    cases h with
    | cons hr hrest =>
      obtain ⟨ws, hws, hzs⟩ := ih hrest
      exact ⟨_ :: ws, hws.cons_cons _, .cons hr hzs⟩

end

/-! ### Neighbours -/

/-- The pairs of members of a list that stand next to each other. -/
def neighbours {α : Type} (xs : List α) : List (α × α) := xs.zip xs.tail

section
variable {α : Type} {xs : List α} {a b : α}

@[simp] theorem neighbours_cons_cons (a b : α) (rest : List α) :
    neighbours (a :: b :: rest) = (a, b) :: neighbours (b :: rest) := rfl

theorem mem_of_mem_neighbours (h : (a, b) ∈ neighbours xs) : a ∈ xs ∧ b ∈ xs.tail :=
  List.of_mem_zip h

/-- If all members of a list differ, the pairs of `neighbours` do, even in their second parts. -/
theorem nodup_neighbours (h : xs.Nodup) : (neighbours xs).Nodup := by
  have hsnd : (neighbours xs).map Prod.snd = xs.tail := List.map_snd_zip (by simp)
  have htail : ((neighbours xs).map Prod.snd).Nodup := by
    rw [hsnd]
    exact h.sublist (List.tail_sublist xs)
  exact List.Nodup.of_map Prod.snd htail

/-- In a list with `List.IsChain` the pairs of `neighbours` are related. -/
theorem rel_of_mem_neighbours {r : α → α → Prop} (h : xs.IsChain r) (hab : (a, b) ∈ neighbours xs) :
    r a b := by
  induction xs with
  | nil => cases hab
  | cons x rest ih =>
    cases rest with
    | nil => cases hab
    | cons y rest =>
      rw [List.isChain_cons_cons] at h
      rw [neighbours_cons_cons, List.mem_cons] at hab
      cases hab with
      | inl heq =>
        -- the first two members
        cases heq
        exact h.1
      | inr hrest =>
        -- a later pair
        exact ih h.2 hrest

/-- Every member but the last is the first part of a pair of `neighbours`. -/
theorem exists_neighbour_after {z : α} (hlast : xs.getLast? = some z) (ha : a ∈ xs) (hne : a ≠ z) :
    ∃ b, (a, b) ∈ neighbours xs := by
  induction xs with
  | nil => cases ha
  | cons x rest ih =>
    cases rest with
    | nil =>
      -- the head is the last member, and the member asked for is not
      have hxz : x = z := by simpa using hlast
      exact absurd ((List.mem_singleton.mp ha).trans hxz) hne
    | cons y rest =>
      rw [List.getLast?_cons_cons] at hlast
      cases List.mem_cons.mp ha with
      | inl heq => exact ⟨y, by simp [heq]⟩
      | inr hrest =>
        obtain ⟨b, hb⟩ := ih hlast hrest
        exact ⟨b, by simp [hb]⟩

/-- Every member but the first is the second part of a pair of `neighbours`. -/
theorem exists_neighbour_before (hb : b ∈ xs.tail) : ∃ a, (a, b) ∈ neighbours xs := by
  induction xs with
  | nil => cases hb
  | cons x rest ih =>
    cases rest with
    | nil => cases hb
    | cons y rest =>
      cases List.mem_cons.mp hb with
      | inl heq => exact ⟨x, by simp [heq]⟩
      | inr hrest =>
        -- the neighbour stands in the rest
        obtain ⟨a, ha⟩ := ih hrest
        exact ⟨a, by simp [ha]⟩

end

/-! ### Order of appearance -/

section
variable {α : Type} [DecidableEq α] {xs : List α} {a b : α}

/-- Which of two members has the smaller `List.idxOf` stays the same when a list goes on. -/
theorem idxOf_lt_append (ha : a ∈ xs) (hb : b ∈ xs) (hlt : xs.idxOf a < xs.idxOf b)
    (more : List α) :
    (xs ++ more).idxOf a < (xs ++ more).idxOf b := by
  rwa [List.idxOf_append_of_mem ha, List.idxOf_append_of_mem hb]

/-- Something new at the end of a list has a larger `List.idxOf` than all members before it. -/
theorem idxOf_lt_idxOf_new (ha : a ∈ xs) (hb : b ∉ xs) :
    (xs ++ [b]).idxOf a < (xs ++ [b]).idxOf b := by
  rw [List.idxOf_append_of_mem ha, List.idxOf_append_of_notMem hb]
  have hlt := List.idxOf_lt_length_of_mem ha
  omega

end

/-! ### Sums over lists -/

section
variable {α β : Type}

/-- A list is no longer than the sum of `List.countP` over tests of which each member passes one. -/
theorem length_le_sum_countP {tests : List β} {passes : β → α → Bool} {xs : List α}
    (h : ∀ x ∈ xs, ∃ t ∈ tests, passes t x = true) :
    xs.length ≤ (tests.map fun t => xs.countP (passes t)).sum := by
  induction xs with
  | nil => exact Nat.zero_le _
  | cons x rest ih =>
    obtain ⟨⟨t, ht, hpass⟩, hrest⟩ := List.forall_mem_cons.mp h
    -- one more thing is found by at least one of the tests
    have hone : 1 ≤ (tests.map fun t => if passes t x = true then 1 else 0).sum :=
      List.le_sum_of_mem (List.mem_map.mpr ⟨t, ht, if_pos hpass⟩)
    simp only [List.countP_cons, List.length_cons]
    rw [List.sum_map_add]
    exact Nat.add_le_add (ih hrest) hone

end

end TensorGraph
