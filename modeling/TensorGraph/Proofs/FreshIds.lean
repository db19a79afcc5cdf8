import TensorGraph.Graph.Basic

/-!
# Ids that are still to come

An id is a stem, an underscore and a number. The digits after the last underscore are the number, so
stem and number can be read off an id (`idOf_inj`). A source is fresh for a table of nodes if none
of the ids that it can still issue belongs to one of them; then the next id is new (`next_not_mem`),
and once it has been issued it does not come again (`FreshFor.next`). A run of a source, from
whatever count it begins and whatever the stems are, issues ids that it could all have issued first
(`canIssue_of_mem_nextAll`), so none of them comes twice.
-/

namespace TensorGraph.IdSource

/-- A list without a separator is cut off in one way only from a text that has the separator before
it, as `idOf` puts an underscore before digits. -/
private theorem append_separator_inj {xs ys : List Char} {ds es : List Char} {c : Char}
    (hd : c ∉ ds) (he : c ∉ es) (h : xs ++ c :: ds = ys ++ c :: es) : xs = ys ∧ ds = es := by
  -- where one text goes on longer before its cut, the separator would lie in the other's tail
  rw [List.append_eq_append_iff] at h
  obtain ⟨as, hys, htail⟩ | ⟨as, hxs, htail⟩ := h
  · cases as with
    | nil => simp_all
    | cons a as =>
      rw [List.cons_append, List.cons.injEq] at htail
      exact absurd (by simp [htail.2]) hd
  · cases as with
    | nil => simp_all
    | cons a as =>
      rw [List.cons_append, List.cons.injEq] at htail
      exact absurd (by simp [htail.2]) he

/-- The text of `idOf`: the stem, an underscore and the digits of the number. -/
private theorem toList_idOf (stem : String) (n : Nat) :
    (idOf stem n).toList = stem.toList ++ '_' :: Nat.toDigits 10 n := by
  have hnonneg : ¬ (n : Int) < 0 := by omega
  simp [idOf, Text.Integer.write, Text.Integer.chars, Text.Integer.natChars, hnonneg]

/-- Stem and number of an id are determined by the text that `idOf` makes of them. -/
theorem idOf_inj {s t : String} {n m : Nat} (h : idOf s n = idOf t m) : s = t ∧ n = m := by
  have hchars := congrArg String.toList h
  rw [toList_idOf, toList_idOf] at hchars
  -- digits are no underscores, so both texts are cut at their last underscore
  obtain ⟨hstem, hdigits⟩ := append_separator_inj Nat.underscore_not_in_toDigits
    Nat.underscore_not_in_toDigits hchars
  refine ⟨String.toList_inj.mp hstem, ?_⟩
  have hnumber := congrArg (fun ds => Nat.ofDigitChars 10 ds 0) hdigits
  simpa using hnumber

/-- `idOf` ends in a digit, not in an underscore. -/
theorem idOf_ne_append_underscore (stem text : String) (n : Nat) : idOf stem n ≠ text ++ "_" := by
  intro h
  have hchars := congrArg String.toList h
  rw [toList_idOf, String.toList_append] at hchars
  obtain ⟨_, hdigits⟩ := append_separator_inj Nat.underscore_not_in_toDigits List.not_mem_nil hchars
  have hnumber := congrArg List.length hdigits
  simp at hnumber

/-- An id that a source can still issue: one with a number that is yet to come, whatever its
stem. -/
def CanIssue (ids : IdSource) (id : String) : Prop :=
  ∃ stem n, ids.issued < n ∧ id = idOf stem n

/-- No node of a table has an id that the source can still issue. -/
def FreshFor (ids : IdSource) (t : NodeTable) : Prop := ∀ id ∈ t.ids, ¬ ids.CanIssue id

/-- `CanIssue` holds of the next id. -/
theorem canIssue_next (ids : IdSource) (stem : String) : ids.CanIssue (ids.next stem).1 :=
  ⟨stem, ids.issued + 1, Nat.lt_succ_self _, rfl⟩

/-- `CanIssue` does not hold of an id whose number has been reached. -/
theorem not_canIssue_idOf {ids : IdSource} {n : Nat} (stem : String) (hn : n ≤ ids.issued) :
    ¬ ids.CanIssue (idOf stem n) := by
  intro h
  obtain ⟨other, m, hlt, heq⟩ := h
  have hnumber := (idOf_inj heq).2
  omega

/-- `CanIssue` no longer holds of an id that has just been issued. -/
theorem not_canIssue_next (ids : IdSource) (stem : String) :
    ¬ (ids.next stem).2.CanIssue (ids.next stem).1 :=
  not_canIssue_idOf stem (Nat.le_refl _)

/-- If `CanIssue` holds later, it holds now. -/
theorem CanIssue.mono {ids later : IdSource} {id : String} (h : later.CanIssue id)
    (hle : ids.issued ≤ later.issued) : ids.CanIssue id := by
  obtain ⟨stem, n, hlt, rfl⟩ := h
  exact ⟨stem, n, by omega, rfl⟩

/-- If `CanIssue` holds after the next id has been issued, it held before. -/
theorem CanIssue.of_next {ids : IdSource} {stem id : String} (h : (ids.next stem).2.CanIssue id) :
    ids.CanIssue id := h.mono (Nat.le_succ _)

/-- A source is `FreshFor` nodes whose ids it has issued. -/
theorem freshFor_of_issued {ids : IdSource} {t : NodeTable} {issued : List (String × Nat)}
    (hids : t.ids = issued.map fun entry => idOf entry.1 entry.2)
    (hle : ∀ entry ∈ issued, entry.2 ≤ ids.issued) : ids.FreshFor t := by
  intro id hid
  rw [hids, List.mem_map] at hid
  obtain ⟨entry, hentry, rfl⟩ := hid
  exact not_canIssue_idOf entry.1 (hle entry hentry)

/-- The next id belongs to no node of a table that the source is `FreshFor`. -/
theorem FreshFor.next_not_mem {ids : IdSource} {t : NodeTable} (h : ids.FreshFor t)
    (stem : String) :
    (ids.next stem).1 ∉ t.ids := fun hmem => h _ hmem (ids.canIssue_next stem)

/-- A source stays `FreshFor` a table when nodes go. -/
theorem FreshFor.mono {ids : IdSource} {t u : NodeTable} (h : ids.FreshFor t)
    (hsub : ∀ id ∈ u.ids, id ∈ t.ids) : ids.FreshFor u := fun id hid => h id (hsub id hid)

/-- A source stays `FreshFor` a table when it issues an id and a node with that id comes in. -/
theorem FreshFor.next {ids : IdSource} {t u : NodeTable} {stem : String} (h : ids.FreshFor t)
    (hsub : ∀ id ∈ u.ids, id = (ids.next stem).1 ∨ id ∈ t.ids) : (ids.next stem).2.FreshFor u := by
  intro id hid hissue
  cases hsub id hid with
  | inl hnew => exact not_canIssue_next ids stem (hnew ▸ hissue)
  | inr hold => exact h id hold hissue.of_next

/-! ### Runs of a source -/

/-- Issue an id for each of several stems, one after the other. -/
def nextAll (ids : IdSource) : List String → List String × IdSource
  | [] => ([], ids)
  | stem :: stems =>
    let (id, ids) := ids.next stem
    let (rest, ids) := ids.nextAll stems
    (id :: rest, ids)

private theorem nextAll_cons (ids : IdSource) (stem : String) (stems : List String) :
    (ids.nextAll (stem :: stems)).1 =
      (ids.next stem).1 :: ((ids.next stem).2.nextAll stems).1 := rfl

/-- `nextAll` issues an id for each stem. -/
private theorem length_nextAll (ids : IdSource) (stems : List String) :
    (ids.nextAll stems).1.length = stems.length := by
  induction stems generalizing ids with
  | nil => rfl
  | cons stem stems ih => rw [nextAll_cons, List.length_cons, List.length_cons, ih]

/-- `CanIssue` holds of every id of a run when the run begins. -/
private theorem canIssue_of_mem_nextAll {ids : IdSource} {stems : List String} {id : String}
    (h : id ∈ (ids.nextAll stems).1) : ids.CanIssue id := by
  induction stems generalizing ids with
  | nil => cases h
  | cons stem stems ih =>
    rw [nextAll_cons, List.mem_cons] at h
    cases h with
    | inl hfirst => exact hfirst ▸ ids.canIssue_next stem
    | inr hlater => exact (ih hlater).of_next

/-- `nextAll` issues one id for each stem, and no two of them agree, whatever the stems are. -/
theorem nextAll_ids_distinct (ids : IdSource) (stems : List String) :
    (ids.nextAll stems).1.length = stems.length ∧ (ids.nextAll stems).1.Nodup := by
  refine ⟨ids.length_nextAll stems, ?_⟩
  induction stems generalizing ids with
  | nil => exact List.nodup_nil
  | cons stem stems ih =>
    rw [nextAll_cons, List.nodup_cons]
    -- a later id can still be issued once the first one cannot
    refine ⟨fun hagain => ?_, ih _⟩
    exact not_canIssue_next ids stem (canIssue_of_mem_nextAll hagain)

end TensorGraph.IdSource
