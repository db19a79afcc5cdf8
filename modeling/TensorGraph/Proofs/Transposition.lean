import Mathlib.Data.List.Nodup
import Mathlib.Data.List.Perm.Subperm
import TensorGraph.Proofs.Reshaping

/-!
# Transposition

A transposition picks the dimensions of its operand at the positions that a tuple of integers lists.
A tuple is taken if it is a permutation of all positions (`isPermutation_iff`). To pick from what
has been picked is to pick at the positions that the first tuple has at those of the second
(`pick_pick`), so transpositions compose as their tuples do. All else about them follows from this:
the positions in order change nothing, and for every permutation there is one that takes it back
(`exists_inverse_of_perm`).
-/

namespace TensorGraph

/-! ### Entries at given positions -/

/-- The entries of a list at the given places, in the order of the places. -/
def pick {α : Type} (xs : List α) (places : List Nat) : List α := places.filterMap (xs[·]?)

section
variable {α : Type} {xs : List α} {places : List Nat}

/-- `pick` has one entry for each place within a list. -/
private theorem map_some_pick (h : ∀ i ∈ places, i < xs.length) :
    (pick xs places).map some = places.map (xs[·]?) := by
  induction places with
  | nil => rfl
  | cons i rest ih =>
    rw [List.forall_mem_cons] at h
    have hi : xs[i]? = some xs[i] := List.getElem?_eq_getElem h.1
    rw [pick, List.filterMap_cons_some hi, List.map_cons, List.map_cons, hi]
    exact congrArg _ (ih h.2)

private theorem length_pick (h : ∀ i ∈ places, i < xs.length) :
    (pick xs places).length = places.length := by
  simpa using congrArg List.length (map_some_pick h)

/-- The entry of `pick` at an index is that of the list at the place with this index. -/
private theorem getElem?_pick (h : ∀ i ∈ places, i < xs.length) (k : Nat) :
    (pick xs places)[k]? = places[k]?.bind (xs[·]?) := by
  -- within the list every place gives an entry
  have hk : (pick xs places)[k]?.map some = places[k]?.map (xs[·]?) := by
    rw [← List.getElem?_map, ← List.getElem?_map, map_some_pick h]
  cases hplace : places[k]? with
  | none =>
    rw [hplace] at hk
    exact Option.map_eq_none_iff.mp hk
  | some i =>
    rw [hplace] at hk
    -- the place holds an entry of the list
    obtain ⟨x, hx, hi⟩ := Option.map_eq_some_iff.mp hk
    exact hx.trans hi

/-- To `pick` from what has been picked is to pick at the places that are picked from the first
ones. -/
private theorem pick_pick (h : ∀ i ∈ places, i < xs.length) (more : List Nat) :
    pick (pick xs places) more = pick xs (pick places more) := by
  show more.filterMap _ = (more.filterMap _).filterMap _
  rw [List.filterMap_filterMap]
  exact List.filterMap_congr fun k _ => getElem?_pick h k

/-- Entries may be changed before or after a `pick`. -/
private theorem pick_map {β : Type} (f : α → β) (xs : List α) (places : List Nat) :
    pick (xs.map f) places = (pick xs places).map f := by
  simp only [pick, List.getElem?_map, List.map_filterMap]

/-- To `pick` at all places in order changes nothing. -/
@[simp] theorem pick_range (xs : List α) : pick xs (List.range xs.length) = xs := by
  apply List.ext_getElem?
  intro k
  rw [getElem?_pick fun i hi => List.mem_range.mp hi]
  by_cases hk : k < xs.length <;> simp [hk]

private theorem pick_reverse (xs : List α) (places : List Nat) :
    pick xs places.reverse = (pick xs places).reverse :=
  List.filterMap_reverse

/-- To `pick` at all places, in any order, is to put the entries in another order. -/
private theorem pick_perm (h : places.Perm (List.range xs.length)) : (pick xs places).Perm xs := by
  have hperm := h.filterMap (xs[·]?)
  rwa [← pick, ← pick, pick_range] at hperm

end

/-- Where each place stands in a list of them, by `idxOf`, is its index, if the list holds every
place once. -/
private theorem map_idxOf_eq_range {places : List Nat} (h : places.Nodup) :
    places.map places.idxOf = List.range places.length := by
  apply List.ext_getElem
  · simp
  · intro k _ _
    simp [h.idxOf_getElem]

/-- Places that have been put in another order can be put back by a `pick`. -/
private theorem exists_pick_inverse {places : List Nat} {n : Nat} (h : places.Perm (List.range n)) :
    ∃ back, back.Perm (List.range n) ∧ pick places back = List.range n ∧
      pick back places = List.range n := by
  have hlength : places.length = n := by simpa using h.length_eq
  have hindex : places.map places.idxOf = List.range n := by
    rw [map_idxOf_eq_range (h.nodup_iff.mpr List.nodup_range), hlength]
  -- each place goes back to where it stands in the list
  refine ⟨(List.range n).map places.idxOf, ?_, ?_, ?_⟩
  · exact (h.symm.map places.idxOf).trans (List.Perm.of_eq hindex)
  · rw [pick, List.filterMap_map]
    refine (List.filterMap_congr ?_).trans List.filterMap_some
    exact fun i hi => List.getElem?_idxOf (h.mem_iff.mpr hi)
  · refine Eq.trans ?_ hindex
    rw [pick, ← List.filterMap_eq_map]
    refine List.filterMap_congr fun i hi => ?_
    have hi : i < n := List.mem_range.mp (h.mem_iff.mp hi)
    simp [hi]

/-! ### Permutations and their composition -/

/-- The positions of a number of dimensions, in order. -/
def positions (rank : Nat) : List Int := (List.range rank).map Int.ofNat

@[simp] theorem length_positions (rank : Nat) : (positions rank).length = rank := by
  simp [positions]

private theorem positions_nodup (rank : Nat) : (positions rank).Nodup :=
  List.nodup_range.map fun _ _ => Int.ofNat.inj

/-- Places hold every one below the rank once exactly if they are the `positions` as integers, in
some order. -/
private theorem map_perm_positions_iff {places : List Nat} {rank : Nat} :
    (places.map Int.ofNat).Perm (positions rank) ↔ places.Perm (List.range rank) :=
  List.map_perm_map_iff fun _ _ => Int.ofNat.inj

/-- The list `c` has, for each entry of `q`, the entry of `p` at that position. -/
def Composes (p q c : List Int) : Prop :=
  List.Forall₂ (fun i k : Int => ∃ n : Nat, i = n ∧ p[n]? = some k) q c

/-- Each of two lists of positions has what the other has moved away. -/
structure Inverse (rank : Nat) (p q : List Int) : Prop where
  right : Composes p q (positions rank)
  left : Composes q p (positions rank)

/-- What passes `isPermutation` names every position once. -/
theorem isPermutation_iff {perm : List Int} {rank : Nat} :
    isPermutation perm rank = true ↔ perm.Perm (positions rank) := by
  simp only [isPermutation, Bool.and_eq_true, beq_iff_eq, List.all_eq_true, List.mem_range,
    List.contains_iff_mem]
  constructor
  · intro h
    obtain ⟨hlength, hall⟩ := h
    -- a list that names all positions and is no longer than they are names each once
    have hsubset : positions rank ⊆ perm := by
      intro i hi
      obtain ⟨k, hk, rfl⟩ := List.mem_map.mp hi
      exact hall k (List.mem_range.mp hk)
    exact (((positions_nodup rank).subperm hsubset).perm_of_length_le (by simp [hlength])).symm
  · intro h
    refine ⟨by simpa using h.length_eq, fun i hi => h.mem_iff.mpr ?_⟩
    exact List.mem_map_of_mem (List.mem_range.mpr hi)

/-- A permutation of the `positions` lists places. -/
private theorem exists_places_of_perm {p : List Int} {rank : Nat} (h : p.Perm (positions rank)) :
    ∃ places : List Nat, p = places.map Int.ofNat ∧ places.Perm (List.range rank) := by
  obtain ⟨places, rfl⟩ : ∃ places : List Nat, p = places.map Int.ofNat := by
    apply Shape.exists_ints
    intro i hi
    obtain ⟨k, _, rfl⟩ := List.mem_map.mp (h.mem_iff.mp hi)
    exact Int.natCast_nonneg k
  exact ⟨places, rfl, map_perm_positions_iff.mp h⟩

/-- What `Composes` two lists is a `pick` from the first list at places that the second one
lists. -/
private theorem composes_iff {p q c : List Int} :
    Composes p q c ↔ ∃ places : List Nat,
      q = places.map Int.ofNat ∧ (∀ i ∈ places, i < p.length) ∧ c = pick p places := by
  constructor
  · intro h
    induction h with
    | nil => exact ⟨[], rfl, by simp, rfl⟩
    | cons hfirst _ ih =>
      -- the entry of the second list is the place of one of the first
      obtain ⟨n, rfl, hn⟩ := hfirst
      obtain ⟨places, rfl, hlt, rfl⟩ := ih
      refine ⟨n :: places, rfl, List.forall_mem_cons.mpr ⟨?_, hlt⟩, ?_⟩
      · exact (List.getElem?_eq_some_iff.mp hn).1
      · exact (List.filterMap_cons_some hn).symm
  · rintro ⟨places, rfl, hlt, rfl⟩
    induction places with
    | nil => exact .nil
    | cons i rest ih =>
      rw [List.forall_mem_cons] at hlt
      -- a place within the first list has an entry
      have hi : p[i]? = some p[i] := List.getElem?_eq_getElem hlt.1
      rw [pick, List.filterMap_cons_some hi]
      exact .cons ⟨i, rfl, hi⟩ (ih hlt.2)

/-- If the first of two lists has an entry for every position, what `Composes` them is a permutation
exactly if both are. -/
private theorem Composes.perm_iff {p q c : List Int} (h : Composes p q c) {rank : Nat}
    (hrank : p.length = rank) :
    c.Perm (positions rank) ↔ p.Perm (positions rank) ∧ q.Perm (positions rank) := by
  obtain ⟨places, rfl, hlt, rfl⟩ := composes_iff.mp h
  subst hrank
  rw [map_perm_positions_iff]
  constructor
  · intro hperm
    -- a place that came twice would give an entry that comes twice
    have hnodup : places.Nodup := by
      have hentries : ((pick p places).map some).Nodup :=
        (hperm.nodup_iff.mpr (positions_nodup _)).map (Option.some_injective _)
      rw [map_some_pick hlt] at hentries
      exact hentries.of_map _
    have hlength : p.length = places.length := by
      rw [← length_pick hlt]
      simpa using hperm.length_eq.symm
    have hsubset : places ⊆ List.range p.length := fun i hi => List.mem_range.mpr (hlt i hi)
    have hall := (hnodup.subperm hsubset).perm_of_length_le (by simp [hlength])
    exact ⟨(pick_perm hall).symm.trans hperm, hall⟩
  · rintro ⟨hp, hall⟩
    exact (pick_perm hall).trans hp

/-- Every permutation of the `positions` has an `Inverse`. -/
private theorem exists_inverse_of_perm {p : List Int} {rank : Nat} (h : p.Perm (positions rank)) :
    ∃ q, Inverse rank p q := by
  obtain ⟨places, rfl, hplaces⟩ := exists_places_of_perm h
  obtain ⟨back, hback, hright, hleft⟩ := exists_pick_inverse hplaces
  -- all places lie within lists of the length of the rank
  have hbelow : ∀ {these those : List Nat}, these.Perm (List.range rank) →
      those.Perm (List.range rank) → ∀ i ∈ these, i < (those.map Int.ofNat).length := by
    intro these those hthese hthose i hi
    rw [List.length_map, hthose.length_eq, List.length_range]
    exact List.mem_range.mp (hthese.mem_iff.mp hi)
  refine ⟨back.map Int.ofNat, composes_iff.mpr ⟨back, rfl, hbelow hback hplaces, ?_⟩,
    composes_iff.mpr ⟨places, rfl, hbelow hplaces hback, ?_⟩⟩
  · rw [pick_map, hright, positions]
  · rw [pick_map, hleft, positions]

/-! ### Transpositions -/

section
variable {attrs : Attributes} {x : TensorType}

/-- For a tuple that is a permutation, `inferTransposition` takes the dimensions from where it
says. -/
private theorem inferTransposition_of_perm {places : List Nat}
    (h : attrs.Lists "perm" (places.map Int.ofNat)) (hperm : places.Perm (List.range x.rank)) :
    inferTransposition attrs [some x] = .ok (some (x.withShape (pick x.shape places))) := by
  obtain ⟨a, hget, hread⟩ := h
  rw [Attribute.Spells] at hread
  -- the tuple passes, so its places are taken
  have htaken : isPermutation (places.map Int.ofNat) x.rank = true :=
    isPermutation_iff.mpr (hperm.map Int.ofNat)
  simp only [inferTransposition, InputTypes.first, Dict.contains, hget, Attributes.ints?, hread,
    bind, Except.bind, htaken, Option.isSome_some, Bool.not_true, Bool.false_eq_true, if_false,
    if_true, pick, List.filterMap_map]
  rfl

/-- `inferTransposition` defers on a tuple that is no permutation. -/
private theorem inferTransposition_of_not_perm {p : List Int} (h : attrs.Lists "perm" p)
    (hperm : ¬ p.Perm (positions x.rank)) : inferTransposition attrs [some x] = .ok none := by
  obtain ⟨a, hget, hread⟩ := h
  rw [Attribute.Spells] at hread
  have hrefused : isPermutation p x.rank ≠ true := fun htaken => hperm (isPermutation_iff.mp htaken)
  simp only [inferTransposition, InputTypes.first, Dict.contains, hget, Attributes.ints?, hread,
    bind, Except.bind, hrefused, Option.isSome_some, Bool.not_true, Bool.false_eq_true, if_false]
  rfl

private theorem inferTransposition_of_absent (h : attrs.get? "perm" = none) :
    inferTransposition attrs [some x] = .ok (some (x.withShape x.shape.reverse)) := by
  simp [inferTransposition, InputTypes.first, Dict.contains, h, pure, Except.pure]

private theorem rank_withShape_pick {places : List Nat} (h : places.Perm (List.range x.rank)) :
    (x.withShape (pick x.shape places)).rank = x.rank :=
  (pick_perm h).length_eq

/-- What `inferTransposition` gives for a tuple has at each place the dimension that the tuple names
there. -/
private theorem dimensions_of_inferTransposition {p : List Int} {y : TensorType}
    (h : attrs.Lists "perm" p) (hy : inferTransposition attrs [some x] = .ok (some y)) :
    y.rank = x.rank ∧
      ∀ i k : Nat, p[i]? = some (k : Int) → k < x.rank ∧ y.shape[i]? = x.shape[k]? := by
  by_cases hperm : p.Perm (positions x.rank)
  · obtain ⟨places, rfl, hplaces⟩ := exists_places_of_perm hperm
    have hlt : ∀ i ∈ places, i < x.shape.length := fun i hi =>
      List.mem_range.mp (hplaces.mem_iff.mp hi)
    rw [inferTransposition_of_perm h hplaces] at hy
    cases hy
    refine ⟨rank_withShape_pick hplaces, fun i k hk => ?_⟩
    -- the entry of the tuple at `i` is the place `k`
    obtain ⟨place, hplace, heq⟩ := Option.map_eq_some_iff.mp ((List.getElem?_map ..).symm.trans hk)
    obtain rfl : place = k := Int.ofNat.inj heq
    refine ⟨hlt place (List.mem_of_getElem? hplace), ?_⟩
    show (pick x.shape places)[i]? = x.shape[place]?
    rw [getElem?_pick hlt, hplace]
    rfl
  · rw [inferTransposition_of_not_perm h hperm] at hy
    cases hy

/-- Whatever the attributes are, `inferTransposition` only puts the dimensions in another order. -/
private theorem perm_of_inferTransposition {y : TensorType}
    (h : inferTransposition attrs [some x] = .ok (some y)) :
    ∃ s : Shape, y = x.withShape s ∧ s.Perm x.shape := by
  cases hget : attrs.get? "perm" with
  | none =>
    rw [inferTransposition_of_absent hget] at h
    cases h
    exact ⟨_, rfl, List.reverse_perm _⟩
  | some a =>
    cases hread : a.toInts? Text.Integer.digitLimit with
    | error cause =>
      -- the tuple breaks off
      simp [inferTransposition, InputTypes.first, Dict.contains, hget, Attributes.ints?, hread,
        bind, Except.bind] at h
    | ok read =>
      cases read with
      | none =>
        -- no tuple has been read
        simp [inferTransposition, InputTypes.first, Dict.contains, hget, Attributes.ints?, hread,
          bind, Except.bind, pure, Except.pure] at h
      | some p =>
        by_cases hperm : p.Perm (positions x.rank)
        · obtain ⟨places, rfl, hplaces⟩ := exists_places_of_perm hperm
          rw [inferTransposition_of_perm ⟨a, hget, hread⟩ hplaces] at h
          cases h
          exact ⟨_, rfl, pick_perm hplaces⟩
        · rw [inferTransposition_of_not_perm ⟨a, hget, hread⟩ hperm] at h
          cases h

end

/-- Transpose by the attributes of one operator, and the result by those of another. -/
def transposeInTurn (first second : Attributes) (x : TensorType) :
    Except Error (Option TensorType) :=
  inferTransposition first [some x] >>= fun y => inferTransposition second [y]

section
variable {first second both : Attributes} {x : TensorType}

/-- `transposeInTurn` takes the dimensions from the places that the first tuple has at those of the
second. -/
private theorem inferTransposition_twice {places more : List Nat}
    (hfirst : first.Lists "perm" (places.map Int.ofNat)) (hplaces : places.Perm (List.range x.rank))
    (hsecond : second.Lists "perm" (more.map Int.ofNat)) (hmore : more.Perm (List.range x.rank)) :
    transposeInTurn first second x =
      .ok (some (x.withShape (pick x.shape (pick places more)))) := by
  have hlt : ∀ i ∈ places, i < x.shape.length :=
    fun i hi => List.mem_range.mp (hplaces.mem_iff.mp hi)
  rw [transposeInTurn, inferTransposition_of_perm hfirst hplaces]
  show inferTransposition second [some (x.withShape (pick x.shape places))] = _
  rw [inferTransposition_of_perm hsecond (by rwa [rank_withShape_pick hplaces]), ← pick_pick hlt]
  rfl

/-- `transposeInTurn` is one transposition by the tuple that `Composes` the two, also where one of
these is no permutation. -/
private theorem inferTransposition_comp {p q c : List Int} (hfirst : first.Lists "perm" p)
    (hsecond : second.Lists "perm" q) (hboth : both.Lists "perm" c) (h : Composes p q c)
    (hlength : p.length = x.rank) :
    transposeInTurn first second x = inferTransposition both [some x] := by
  have hiff := h.perm_iff hlength
  obtain ⟨more, rfl, _, rfl⟩ := composes_iff.mp h
  by_cases hp : p.Perm (positions x.rank)
  · obtain ⟨places, rfl, hplaces⟩ := exists_places_of_perm hp
    rw [pick_map] at hboth hiff
    by_cases hq : (more.map Int.ofNat).Perm (positions x.rank)
    · -- both tuples are permutations, and so is what they compose to
      have hmore := map_perm_positions_iff.mp hq
      have hpicked := map_perm_positions_iff.mp (hiff.mpr ⟨hp, hq⟩)
      rw [inferTransposition_twice hfirst hplaces hsecond hmore,
        inferTransposition_of_perm hboth hpicked]
    · -- only the first is taken, and the second defers on what it gives
      rw [transposeInTurn, inferTransposition_of_perm hfirst hplaces,
        inferTransposition_of_not_perm hboth fun hc => hq (hiff.mp hc).2]
      exact inferTransposition_of_not_perm hsecond (by rwa [rank_withShape_pick hplaces])
  · rw [transposeInTurn, inferTransposition_of_not_perm hfirst hp,
      inferTransposition_of_not_perm hboth fun hc => hp (hiff.mp hc).1]
    rfl

/-- In `transposeInTurn` a tuple and its `Inverse` give the operand back. -/
private theorem inferTransposition_inverse {p q : List Int} (hfirst : first.Lists "perm" p)
    (hsecond : second.Lists "perm" q) (h : Inverse x.rank p q) :
    transposeInTurn first second x = .ok (some x) := by
  have hlength : p.length = x.rank := by simpa using h.left.length_eq
  obtain ⟨hp, hq⟩ := (h.right.perm_iff hlength).mp (List.Perm.refl _)
  obtain ⟨more, rfl, _, hpicked⟩ := composes_iff.mp h.right
  obtain ⟨places, rfl, hplaces⟩ := exists_places_of_perm hp
  -- what is picked are all places in order
  have hrange : pick places more = List.range x.rank := by
    rw [pick_map, positions] at hpicked
    exact (List.map_injective_iff.mpr fun _ _ => Int.ofNat.inj) hpicked.symm
  rw [inferTransposition_twice hfirst hplaces hsecond (map_perm_positions_iff.mp hq), hrange,
    TensorType.rank, pick_range]
  rfl

end

/-- `inferTransposition` acts on types as permutations do. A tuple `p` of integers is taken exactly
if it is a permutation of the positions of the dimensions, and otherwise defers; the result has as
many dimensions as the operand, and dimension `i` of it is dimension `p[i]` of the operand. To
transpose by `p` and then by `q` gives what one transposition by the tuple of the `p[q[i]]` gives;
if `p` has an entry for every dimension, this holds also where nothing is given. Every permutation
has an inverse, which takes its transposition back, and to transpose without a tuple is to transpose
by all positions backwards. Neither the element type nor the number of elements ever changes. -/
theorem transpositions_act_as_permutations (x : TensorType) :
    (∀ attrs p, attrs.Lists "perm" p →
      (∃ result, inferTransposition attrs [some x] = .ok result) ∧
        ((∃ y, inferTransposition attrs [some x] = .ok (some y)) ↔ p.Perm (positions x.rank))) ∧
      (∀ attrs p y, attrs.Lists "perm" p → inferTransposition attrs [some x] = .ok (some y) →
        y.rank = x.rank ∧
          ∀ i k : Nat, p[i]? = some (k : Int) → k < x.rank ∧ y.shape[i]? = x.shape[k]?) ∧
      (∀ first second both p q c, first.Lists "perm" p → second.Lists "perm" q →
        both.Lists "perm" c → Composes p q c →
          (∀ z, transposeInTurn first second x = .ok (some z) →
            inferTransposition both [some x] = .ok (some z)) ∧
          (p.length = x.rank → transposeInTurn first second x = inferTransposition both [some x])) ∧
      (∀ p, p.Perm (positions x.rank) → ∃ q, Inverse x.rank p q) ∧
      (∀ first second p q, first.Lists "perm" p → second.Lists "perm" q → Inverse x.rank p q →
        transposeInTurn first second x = .ok (some x)) ∧
      (∀ plain backwards, plain.get? "perm" = none →
        backwards.Lists "perm" (positions x.rank).reverse →
          inferTransposition plain [some x] = inferTransposition backwards [some x]) ∧
      ∀ attrs y, inferTransposition attrs [some x] = .ok (some y) →
        y.element = x.element ∧ y.shape.prod = x.shape.prod ∧ y.elementCount = x.elementCount := by
  refine ⟨fun attrs p h => ?_, fun attrs p y => dimensions_of_inferTransposition,
    fun first second both p q c hfirst hsecond hboth hcomp => ?_, fun p => exists_inverse_of_perm,
    fun first second p q => inferTransposition_inverse,
    fun plain backwards hplain h => ?_, fun attrs y h => ?_⟩
  · by_cases hperm : p.Perm (positions x.rank)
    · obtain ⟨places, rfl, hplaces⟩ := exists_places_of_perm hperm
      have htaken := inferTransposition_of_perm h hplaces
      exact ⟨⟨_, htaken⟩, iff_of_true ⟨_, htaken⟩ hperm⟩
    · have hdeferred := inferTransposition_of_not_perm h hperm
      refine ⟨⟨_, hdeferred⟩, iff_of_false ?_ hperm⟩
      rintro ⟨y, hy⟩
      rw [hdeferred] at hy
      cases hy
  · have hlaw := inferTransposition_comp (x := x) hfirst hsecond hboth hcomp
    refine ⟨fun z hz => ?_, hlaw⟩
    -- without the right length there would be nothing to transpose by `q`
    by_cases hperm : p.Perm (positions x.rank)
    · exact (hlaw (by simpa using hperm.length_eq)).symm.trans hz
    · rw [transposeInTurn, inferTransposition_of_not_perm hfirst hperm] at hz
      cases hz
  · rw [positions, ← List.map_reverse] at h
    rw [inferTransposition_of_absent hplain, inferTransposition_of_perm h (List.reverse_perm _),
      pick_reverse, TensorType.rank, pick_range]
  · obtain ⟨s, rfl, hs⟩ := perm_of_inferTransposition h
    exact ⟨rfl, hs.prod_eq, x.elementCount_perm hs⟩

/-- Attributes that ask for a permutation. -/
def permuting (p : List Int) : Attributes := Dict.ofList [("perm", .tuple (p.map .int))]

private theorem lists_permuting (p : List Int) : (permuting p).Lists "perm" p :=
  ⟨_, rfl, Attribute.spells_ints p⟩

/-- Three dimensions are turned round, so that the last one comes first, and back; two turns make
one; a position that comes twice defers. -/
theorem transpositions_act_on_three_dimensions :
    Composes [2, 0, 1] [0, 2, 1] [2, 1, 0] ∧ Inverse 3 [2, 0, 1] [1, 2, 0] ∧
      (∀ y, inferTransposition (permuting [2, 0, 1]) [some ⟨.float32, [2, 3, 4]⟩] = .ok (some y) →
        y.shape[0]? = some 4) ∧
      transposeInTurn (permuting [2, 0, 1]) (permuting [0, 2, 1]) ⟨.float32, [2, 3, 4]⟩ =
        inferTransposition (permuting [2, 1, 0]) [some ⟨.float32, [2, 3, 4]⟩] ∧
      transposeInTurn (permuting [2, 0, 1]) (permuting [1, 2, 0]) ⟨.float32, [2, 3, 4]⟩ =
        .ok (some ⟨.float32, [2, 3, 4]⟩) ∧
      ¬ ∃ y, inferTransposition (permuting [2, 0, 2]) [some ⟨.float32, [2, 3, 4]⟩] =
        .ok (some y) := by
  -- the second tuple swaps the last two entries of the first
  have hcomp : Composes [2, 0, 1] [0, 2, 1] [2, 1, 0] :=
    .cons ⟨0, rfl, rfl⟩ (.cons ⟨2, rfl, rfl⟩ (.cons ⟨1, rfl, rfl⟩ .nil))
  have hinverse : Inverse 3 [2, 0, 1] [1, 2, 0] :=
    ⟨.cons ⟨1, rfl, rfl⟩ (.cons ⟨2, rfl, rfl⟩ (.cons ⟨0, rfl, rfl⟩ .nil)),
      .cons ⟨2, rfl, rfl⟩ (.cons ⟨0, rfl, rfl⟩ (.cons ⟨1, rfl, rfl⟩ .nil))⟩
  obtain ⟨htaken, hdims, hlaw, _, hback, _⟩ :=
    transpositions_act_as_permutations ⟨.float32, [2, 3, 4]⟩
  refine ⟨hcomp, hinverse, ?_, ?_, ?_, ?_⟩
  · intro y hy
    exact (hdims _ _ y (lists_permuting _) hy).2 0 2 rfl |>.2
  · exact (hlaw _ _ _ _ _ _ (lists_permuting _) (lists_permuting _) (lists_permuting _) hcomp).2 rfl
  · exact hback _ _ _ _ (lists_permuting _) (lists_permuting _) hinverse
  · rw [(htaken _ _ (lists_permuting _)).2]
    decide

end TensorGraph
