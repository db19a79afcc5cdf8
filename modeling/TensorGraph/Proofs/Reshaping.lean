import Mathlib.Tactic.Ring
import TensorGraph.Op.Inference
import TensorGraph.Proofs.ElementCount
import TensorGraph.Proofs.Parameters

/-!
# Reshaping

Elements are counted in machine words, so the count that a reshaping goes by is the volume of the
shape only as long as that fits a word (`TensorType.elementCount_eq_ok_iff`). A target that leaves
one dimension open, between dimensions of which none is 0, is completed to the one shape with the
right volume; beside a 0 either no dimension or every dimension would do, and there is no answer
(`makesUp_only_iff`). A target that leaves none open is taken as it stands, whatever its volume is
(`resolveTarget_eq_some_iff`).
-/

namespace TensorGraph

/-! ### Dimensions as integers -/

namespace Shape

/-- The dimensions as integers. -/
def ints (s : Shape) : List Int := s.map Int.ofNat

/-- Dimensions that are not negative are the `ints` of a shape. -/
theorem exists_ints {dims : List Int} (h : ∀ d ∈ dims, 0 ≤ d) : ∃ s : Shape, dims = s.ints := by
  refine ⟨dims.map Int.toNat, ?_⟩
  rw [ints, List.map_map]
  refine (List.map_id' dims).symm.trans (List.map_congr_left ?_)
  exact fun d hd => (Int.toNat_of_nonneg (h d hd)).symm

private theorem nonneg_of_mem_ints {s : Shape} {d : Int} (h : d ∈ s.ints) : 0 ≤ d := by
  obtain ⟨n, _, rfl⟩ := List.mem_map.mp h
  exact Int.natCast_nonneg n

/-- `ofInts` gives a shape back from its `ints`. -/
private theorem ofInts_ints (s : Shape) : ofInts s.ints = .ok s := by
  have hpos : s.ints.any (· < 0) = false := by
    simp only [List.any_eq_false, decide_eq_true_eq, not_lt]
    exact fun d hd => nonneg_of_mem_ints hd
  rw [ofInts, hpos]
  simp [ints, Function.comp_def]

/-- `ofInts` makes a shape of dimensions exactly if they are those of a shape. -/
private theorem ofInts_eq_ok_iff {dims : List Int} {s : Shape} :
    ofInts dims = .ok s ↔ dims = s.ints := by
  constructor
  · intro h
    unfold ofInts at h
    split at h
    · -- some dimension is negative
      cases h
    · rename_i hpos
      -- without negative ones the integers are those of a shape
      have hpos : ∀ d ∈ dims, 0 ≤ d := by simpa using hpos
      obtain ⟨t, rfl⟩ := exists_ints hpos
      cases h
      simp [ints]
  · rintro rfl
    exact ofInts_ints s

/-- `ofInts` fails exactly if a dimension is negative. -/
private theorem ofInts_eq_error_iff {dims : List Int} {cause : Error} :
    ofInts dims = .error cause ↔ cause = .negativeDimension dims ∧ ∃ d ∈ dims, d < 0 := by
  unfold ofInts
  split
  · rename_i hneg
    -- some dimension is negative
    have hneg : ∃ d ∈ dims, d < 0 := by simpa using hneg
    simp [hneg, eq_comm]
  · rename_i hpos
    -- none is negative
    have hpos : ¬ ∃ d ∈ dims, d < 0 := by simpa using hpos
    simp [hpos]

end Shape

/-! ### Targets -/

/-- A target without entries below -1 in which -1 does not occur lists the `ints` of a shape. -/
private theorem exists_ints_of_closed {target : List Int} (hleast : ∀ d ∈ target, -1 ≤ d)
    (hclosed : -1 ∉ target) : ∃ s : Shape, target = s.ints := by
  apply Shape.exists_ints
  intro d hd
  have hne : d ≠ -1 := fun heq => hclosed (heq ▸ hd)
  have := hleast d hd
  omega

/-- A target without entries below -1 in which -1 occurs once lists the `ints` of two shapes, before
and after it. -/
private theorem exists_ints_of_open {target : List Int} (hleast : ∀ d ∈ target, -1 ≤ d)
    (hopen : target.count (-1) = 1) :
    ∃ before after : Shape, target = before.ints ++ -1 :: after.ints := by
  have hmem : -1 ∈ target := List.count_pos_iff.mp (by omega)
  obtain ⟨before, after, rfl⟩ := List.append_of_mem hmem
  -- the open dimension is the only one, so none is open before it or after it
  have hcount : before.count (-1) = 0 ∧ after.count (-1) = 0 := by
    simp only [List.count_append, List.count_cons_self] at hopen
    omega
  obtain ⟨hbefore, hafter⟩ := hcount
  obtain ⟨s, rfl⟩ := exists_ints_of_closed (fun d hd => hleast d (by simp [hd]))
    (List.count_eq_zero.mp hbefore)
  obtain ⟨t, rfl⟩ := exists_ints_of_closed (fun d hd => hleast d (by simp [hd]))
    (List.count_eq_zero.mp hafter)
  exact ⟨s, t, rfl⟩

/-- The `ints` of a shape multiply to its volume. -/
private theorem foldl_mul_ints (s : Shape) (start : Int) :
    s.ints.foldl (· * ·) start = start * s.prod := by
  induction s generalizing start with
  | nil => simp [Shape.ints]
  | cons d rest ih =>
    show (Shape.ints rest).foldl (· * ·) (start * Int.ofNat d) = _
    rw [ih, List.prod_cons, Nat.cast_mul, mul_assoc]
    rfl

private theorem beq_of_mem_ints {s : Shape} {d : Int} (h : d ∈ s.ints) : (d == -1) = false := by
  have := Shape.nonneg_of_mem_ints h
  exact beq_false_of_ne (by omega)

/-- No place is left open among the `ints` of a shape. -/
private theorem filter_ints (s : Shape) :
    s.ints.filter (· != -1) = s.ints ∧ s.ints.filter (· == -1) = [] := by
  constructor
  · rw [List.filter_eq_self]
    intro d hd
    simp [bne, beq_of_mem_ints hd]
  · rw [List.filter_eq_nil_iff]
    intro d hd
    simp [beq_of_mem_ints hd]

/-- There is nothing to fill in among the `ints` of a shape. -/
private theorem map_fill_ints (s : Shape) (d : Int) :
    (s.ints.map fun wanted => if wanted == -1 then d else wanted) = s.ints := by
  refine (List.map_congr_left ?_).trans (List.map_id' _)
  intro wanted hwanted
  simp [beq_of_mem_ints hwanted]

/-- The `ints` of a shape have no entries below -1. -/
private theorem any_ints (s : Shape) : s.ints.any (· < -1) = false := by
  simp only [List.any_eq_false, decide_eq_true_eq, not_lt]
  intro d hd
  have := Shape.nonneg_of_mem_ints hd
  omega

/-- `resolveTarget` leaves a target that leaves nothing open as it is. -/
private theorem resolveTarget_closed (s : Shape) (count : Int) :
    resolveTarget s.ints count = some s.ints := by
  simp only [resolveTarget, any_ints, (filter_ints s).2]
  rfl

/-- `resolveTarget` gives a dimension that is left open the value that makes up for the others, if
there is one. -/
private theorem resolveTarget_open (before after : Shape) (count : Int) :
    resolveTarget (before.ints ++ -1 :: after.ints) count =
      if before.prod * after.prod ≠ 0 ∧ ((before.prod * after.prod : Nat) : Int) ∣ count
      then some (before.ints ++ Int.fdiv count (before.prod * after.prod : Nat) :: after.ints)
      else none := by
  -- what is known is the volume of the closed dimensions
  have hknown : ((before.ints ++ -1 :: after.ints).filter (· != -1)).foldl (· * ·) 1 =
      ((before.prod * after.prod : Nat) : Int) := by
    rw [List.filter_append, List.filter_cons_of_neg (by simp), (filter_ints before).1,
      (filter_ints after).1, List.foldl_append, foldl_mul_ints, foldl_mul_ints]
    simp
  have hopen : ((before.ints ++ -1 :: after.ints).filter (· == -1)).length = 1 := by
    rw [List.filter_append, List.filter_cons_of_pos (by simp), (filter_ints before).2,
      (filter_ints after).2]
    rfl
  have hfill : ∀ d : Int, ((before.ints ++ -1 :: after.ints).map fun wanted =>
      if wanted == -1 then d else wanted) = before.ints ++ d :: after.ints := by
    intro d
    rw [List.map_append, List.map_cons, map_fill_ints, map_fill_ints]
    rfl
  -- no dimension is below the open one
  have hleast : (before.ints ++ -1 :: after.ints).any (· < -1) = false := by
    rw [List.any_append, List.any_cons, any_ints, any_ints]
    rfl
  simp only [resolveTarget, hleast, hopen, hknown, hfill]
  generalize before.prod * after.prod = known
  by_cases hzero : known = 0
  · simp [hzero]
  · simp [hzero, Int.dvd_iff_fmod_eq_zero]

/-- What `resolveTarget` makes of a target that leaves one dimension open. -/
private theorem resolveTarget_open_eq_some_iff {before after : Shape} {count : Int}
    {dims : List Int} :
    resolveTarget (before.ints ++ -1 :: after.ints) count = some dims ↔
      before.prod * after.prod ≠ 0 ∧ ∃ d, (before.prod * after.prod : Nat) * d = count ∧
        dims = before.ints ++ d :: after.ints := by
  rw [resolveTarget_open]
  constructor
  · intro h
    split at h
    · -- the closed dimensions divide the count, so what is filled in makes it up
      rename_i hfits
      exact ⟨hfits.1, _, Int.mul_fdiv_cancel' hfits.2, (Option.some.inj h).symm⟩
    · cases h
  · rintro ⟨hknown, d, rfl, rfl⟩
    -- what makes up the count is the quotient
    have hne : ((before.prod * after.prod : Nat) : Int) ≠ 0 := by exact_mod_cast hknown
    rw [if_pos ⟨hknown, Dvd.intro d rfl⟩, Int.mul_fdiv_cancel_left _ hne]

/-- The target leaves one dimension open, between dimensions of which none is 0, and `d` in its
place makes up the count. -/
structure Completes (target : List Int) (count : Int) (before : Shape) (d : Int) (after : Shape) :
    Prop where
  target_eq : target = before.ints ++ -1 :: after.ints
  known_ne : before.prod * after.prod ≠ 0
  count_eq : (before.prod * after.prod : Nat) * d = count

/-- What `resolveTarget` makes of a target. -/
theorem resolveTarget_eq_some_iff {target : List Int} {count : Int} {dims : List Int} :
    resolveTarget target count = some dims ↔
      (∃ s : Shape, target = s.ints ∧ dims = s.ints) ∨
        ∃ before d after, Completes target count before d after ∧
          dims = before.ints ++ d :: after.ints := by
  constructor
  · intro h
    have hleast : ∀ d ∈ target, -1 ≤ d := by
      intro d hd
      by_contra hlow
      have hany : target.any (· < -1) = true := List.any_eq_true.mpr ⟨d, hd, by simpa using hlow⟩
      simp [resolveTarget, hany] at h
    have hcount := List.count_eq_length_filter (a := (-1 : Int)) (l := target)
    cases hopen : target.count (-1) with
    | zero =>
      obtain ⟨s, rfl⟩ := exists_ints_of_closed hleast (List.count_eq_zero.mp hopen)
      rw [resolveTarget_closed] at h
      exact Or.inl ⟨s, rfl, (Option.some.inj h).symm⟩
    | succ k =>
      cases k with
      | zero =>
        obtain ⟨before, after, rfl⟩ := exists_ints_of_open hleast hopen
        obtain ⟨hknown, d, hcount, rfl⟩ := resolveTarget_open_eq_some_iff.mp h
        exact Or.inr ⟨before, d, after, ⟨rfl, hknown, hcount⟩, rfl⟩
      | succ k =>
        -- with several dimensions left open there is no answer
        have hmany : (target.filter (· == -1)).length = k + 2 := by omega
        simp [resolveTarget, hmany] at h
  · rintro (⟨s, rfl, rfl⟩ | ⟨before, d, after, ⟨rfl, hknown, rfl⟩, rfl⟩)
    · exact resolveTarget_closed s count
    · exact resolveTarget_open_eq_some_iff.mpr ⟨hknown, d, rfl, rfl⟩

/-- In what `resolveTarget` gives only the dimension that was left open can come out negative. -/
private theorem exists_negative_iff {target : List Int} {count : Int} {cause : Error} :
    (∃ dims, resolveTarget target count = some dims ∧ Shape.ofInts dims = .error cause) ↔
      ∃ before d after, Completes target count before d after ∧ d < 0 ∧
        cause = .negativeDimension (before.ints ++ d :: after.ints) := by
  constructor
  · rintro ⟨dims, hdims, hfail⟩
    obtain ⟨rfl, d, hd, hneg⟩ := Shape.ofInts_eq_error_iff.mp hfail
    -- the dimensions of a shape are not negative, so a negative one has been filled in
    have hints : ∀ s : Shape, d ∉ s.ints := by
      intro s hmem
      have := Shape.nonneg_of_mem_ints hmem
      omega
    rcases resolveTarget_eq_some_iff.mp hdims with ⟨s, _, rfl⟩ |
      ⟨before, filled, after, hfilled, rfl⟩
    · exact absurd hd (hints s)
    · have heq : d = filled := by simpa [hints] using hd
      exact ⟨before, filled, after, hfilled, heq ▸ hneg, rfl⟩
  · rintro ⟨before, d, after, hfilled, hneg, rfl⟩
    refine ⟨before.ints ++ d :: after.ints, ?_, ?_⟩
    · exact resolveTarget_eq_some_iff.mpr (Or.inr ⟨before, d, after, hfilled, rfl⟩)
    · exact Shape.ofInts_eq_error_iff.mpr ⟨rfl, d, by simp, hneg⟩

/-! ### The dimension that is left open -/

/-- `d` is a dimension that, in place of the -1 of a target, makes its dimensions multiply to
`count`. -/
def MakesUp (target : List Int) (count d : Int) : Prop :=
  0 ≤ d ∧ (target.replace (-1) d).foldl (· * ·) 1 = count

instance (target : List Int) (count d : Int) : Decidable (MakesUp target count d) :=
  inferInstanceAs (Decidable (_ ∧ _))

private theorem replace_open (before after : Shape) (d : Int) :
    (before.ints ++ -1 :: after.ints).replace (-1) d = before.ints ++ d :: after.ints := by
  have hclosed : -1 ∉ before.ints := fun hmem => absurd (Shape.nonneg_of_mem_ints hmem) (by decide)
  rw [List.replace_append_right hclosed, List.replace_cons_self]

/-- What `MakesUp` says of a target that leaves one dimension open. -/
private theorem makesUp_open_iff {before after : Shape} {count d : Int} :
    MakesUp (before.ints ++ -1 :: after.ints) count d ↔
      0 ≤ d ∧ (before.prod * after.prod : Nat) * d = count := by
  have hproduct : (before.ints ++ d :: after.ints).foldl (· * ·) 1 =
      (before.prod * after.prod : Nat) * d := by
    rw [List.foldl_append, List.foldl_cons, foldl_mul_ints, foldl_mul_ints]
    push_cast
    ring
  rw [MakesUp, replace_open, hproduct]

/-- A dimension that `MakesUp` for the others is the only one exactly if none of these is 0. -/
private theorem makesUp_only_iff {before after : Shape} {count d : Int} (hcount : 0 ≤ count) :
    (MakesUp (before.ints ++ -1 :: after.ints) count d ∧
        ∀ e, MakesUp (before.ints ++ -1 :: after.ints) count e → e = d) ↔
      before.prod * after.prod ≠ 0 ∧ (before.prod * after.prod : Nat) * d = count := by
  simp only [makesUp_open_iff]
  generalize before.prod * after.prod = known
  constructor
  · rintro ⟨⟨hnonneg, rfl⟩, honly⟩
    refine ⟨?_, rfl⟩
    rintro rfl
    -- where one of the others is 0, the next dimension would do as well
    have hnext := honly (d + 1) ⟨by omega, by simp⟩
    omega
  · rintro ⟨hknown, rfl⟩
    have hpos : (0 : Int) < known := by omega
    refine ⟨⟨Int.nonneg_of_mul_nonneg_right hcount hpos, rfl⟩, ?_⟩
    rintro e ⟨_, hsame⟩
    exact Int.eq_of_mul_eq_mul_left (Int.ne_of_gt hpos) hsame

/-- In a target with one -1 and no other negative entries, `resolveTarget` replaces the -1 by a
dimension exactly if that is the only one that `MakesUp` the count, with which the dimensions
multiply to it. There is no answer exactly if no dimension does it, or more than one. -/
theorem resolveTarget_solves_uniquely {target : List Int} {count : Int}
    (hopen : target.count (-1) = 1) (hrest : ∀ d ∈ target, d ≠ -1 → 0 ≤ d) (hcount : 0 ≤ count) :
    (∀ d, resolveTarget target count = some (target.replace (-1) d) ↔
        MakesUp target count d ∧ ∀ e, MakesUp target count e → e = d) ∧
      (resolveTarget target count = none ↔
        (∀ d, ¬ MakesUp target count d) ∨
          ∃ d e, d ≠ e ∧ MakesUp target count d ∧ MakesUp target count e) := by
  have hleast : ∀ d ∈ target, -1 ≤ d := by
    intro d hd
    have := hrest d hd
    omega
  obtain ⟨before, after, rfl⟩ := exists_ints_of_open hleast hopen
  have hsome : ∀ d, resolveTarget (before.ints ++ -1 :: after.ints) count =
      some ((before.ints ++ -1 :: after.ints).replace (-1) d) ↔
        MakesUp (before.ints ++ -1 :: after.ints) count d ∧
          ∀ e, MakesUp (before.ints ++ -1 :: after.ints) count e → e = d := by
    intro d
    rw [makesUp_only_iff hcount, replace_open, resolveTarget_open_eq_some_iff]
    simp
  refine ⟨hsome, ?_⟩
  constructor
  · intro hnone
    by_cases hany : ∃ d, MakesUp (before.ints ++ -1 :: after.ints) count d
    · obtain ⟨d, hd⟩ := hany
      have hmany : ¬ ∀ e, MakesUp (before.ints ++ -1 :: after.ints) count e → e = d := by
        intro honly
        have hanswer := (hsome d).mpr ⟨hd, honly⟩
        rw [hnone] at hanswer
        cases hanswer
      obtain ⟨e, hmany⟩ := not_forall.mp hmany
      obtain ⟨he, hne⟩ := Classical.not_imp.mp hmany
      exact Or.inr ⟨e, d, hne, he, hd⟩
    · exact Or.inl (not_exists.mp hany)
  · intro hnotone
    rw [Option.eq_none_iff_forall_ne_some]
    intro dims hdims
    -- an answer would be a dimension that is the only one
    obtain ⟨_, d, _, rfl⟩ := resolveTarget_open_eq_some_iff.mp hdims
    rw [← replace_open before after d, hsome] at hdims
    obtain ⟨hd, honly⟩ := hdims
    rcases hnotone with hnever | ⟨e, f, hne, he, hf⟩
    · exact hnever d hd
    · exact hne ((honly e he).trans (honly f hf).symm)

/-- Between 2 and 3 only a 4 makes 24 elements. After a 0 every dimension makes none, so there is no
answer. -/
theorem resolveTarget_solves_uniquely_four :
    [2, -1, 3].count (-1 : Int) = 1 ∧ (∀ d ∈ [2, (-1 : Int), 3], d ≠ -1 → 0 ≤ d) ∧
      resolveTarget [2, -1, 3] 24 = some [2, 4, 3] ∧ (∀ e, MakesUp [2, -1, 3] 24 e → e = 4) ∧
      resolveTarget [0, -1] 0 = none := by
  have hopen : [2, -1, 3].count (-1 : Int) = 1 := by decide
  have hrest : ∀ d ∈ [2, (-1 : Int), 3], d ≠ -1 → 0 ≤ d := by decide
  have hanswer : resolveTarget [2, -1, 3] 24 = some [2, 4, 3] := by decide
  obtain ⟨hsome, _⟩ := resolveTarget_solves_uniquely hopen hrest (by decide : (0 : Int) ≤ 24)
  -- without elements any size would do, so none is taken
  have hempty : [0, -1].count (-1 : Int) = 1 ∧ ∀ d ∈ [0, (-1 : Int)], d ≠ -1 → 0 ≤ d := by decide
  obtain ⟨_, hnone⟩ := resolveTarget_solves_uniquely hempty.1 hempty.2 (Int.le_refl 0)
  refine ⟨hopen, hrest, hanswer, ((hsome 4).mp hanswer).2, hnone.mpr (Or.inr ⟨0, 1, ?_⟩)⟩
  exact ⟨by decide, by decide, by decide⟩

/-! ### Reshaping -/

section
variable {attrs : Attributes} {inputs : InputTypes} {x : TensorType} {a : Attribute}
  (hx : inputs.first = some x) (ha : attrs.get? "shape" = some a)
include hx ha

/-- `inferReshaping` with a target, step by step. -/
theorem inferReshaping_eq :
    inferReshaping attrs inputs =
      (a.toInts? Text.Integer.digitLimit >>= fun read => read.elim (.ok none) fun target =>
        x.elementCount >>= fun count => (resolveTarget target count).elim (.ok none) fun dims =>
          (Shape.ofInts dims).map fun s => some (x.withShape s)) := by
  simp only [inferReshaping, hx, Dict.contains, ha, Attributes.ints?]
  -- the four steps fail or defer in turn
  cases a.toInts? Text.Integer.digitLimit with
  | error cause => rfl
  | ok read =>
    cases read with
    | none => rfl
    | some target =>
      cases x.elementCount with
      | error cause => rfl
      | ok count =>
        simp only [bind, Except.bind, Option.elim_some]
        cases resolveTarget target count with
        | none => rfl
        | some dims =>
          simp only [TensorType.withDims, bind, Except.bind, Option.elim_some]
          cases Shape.ofInts dims <;> rfl

/-- `inferReshaping` gives a shape that `resolveTarget` makes of its target. -/
private theorem inferReshaping_eq_some_iff {t : TensorType} :
    inferReshaping attrs inputs = .ok (some t) ↔
      t.element = x.element ∧ ∃ target count, a.Spells target ∧ x.elementCount = .ok count ∧
        resolveTarget target count = some t.shape.ints := by
  rw [inferReshaping_eq hx ha]
  constructor
  · intro h
    obtain ⟨read, hread, h⟩ := exists_of_bind_eq_ok h
    cases read with
    | none => cases h
    | some target =>
      -- the target has been read, the elements counted, and the target completed
      obtain ⟨count, hcount, h⟩ := exists_of_bind_eq_ok h
      cases hdims : resolveTarget target count with
      | none =>
        rw [hdims] at h
        cases h
      | some dims =>
        rw [hdims] at h
        obtain ⟨s, hs, ht⟩ := exists_of_map_eq_ok h
        cases ht
        rw [Shape.ofInts_eq_ok_iff.mp hs] at hdims
        exact ⟨rfl, target, count, hread, hcount, hdims⟩
  · rintro ⟨helement, target, count, hread, hcount, hdims⟩
    rw [Attribute.Spells] at hread
    simp only [hread, hcount, hdims, bind, Except.bind, Option.elim_some, Shape.ofInts_ints,
      Except.map, TensorType.withShape, ← helement]

/-- `inferReshaping` fails where its target breaks off, where elements cannot be counted, or where
their count has wrapped around and the dimension that is left open would have to be negative. -/
theorem inferReshaping_eq_error_iff {cause : Error} :
    inferReshaping attrs inputs = .error cause ↔
      cause = .infiniteInteger ∧ a.BreaksOff ∨
        ∃ target, a.Spells target ∧
          (cause = .dimensionTooLarge ∧ (∃ d ∈ x.shape, TensorType.wordLimit ≤ d) ∨
            (∀ d ∈ x.shape, d < TensorType.wordLimit) ∧
              ∃ before d after, Completes target x.wrappedVolume before d after ∧ d < 0 ∧
                cause = .negativeDimension (before.ints ++ d :: after.ints)) := by
  rw [inferReshaping_eq hx ha, bind_eq_error_iff, Attribute.toInts?_eq_error_iff]
  refine or_congr_right ?_
  constructor
  · rintro ⟨read, hread, h⟩
    -- the target has been read, so the failure comes after it
    obtain ⟨target, rfl, h⟩ := elim_eq_error_iff.mp h
    refine ⟨target, hread, ?_⟩
    rcases bind_eq_error_iff.mp h with hcount | ⟨count, hcount, h⟩
    · -- the elements cannot be counted
      exact Or.inl (TensorType.elementCount_eq_error_iff.mp hcount)
    · -- a negative dimension has been filled in
      obtain ⟨hfits, hwrapped⟩ := TensorType.elementCount_eq_ok_iff.mp hcount
      obtain ⟨dims, hdims, h⟩ := elim_eq_error_iff.mp h
      rw [hwrapped] at hdims
      exact Or.inr ⟨hfits, exists_negative_iff.mp ⟨dims, hdims, eq_error_of_map_eq_error h⟩⟩
  · rintro ⟨target, hread, h⟩
    refine ⟨some target, hread, bind_eq_error_iff.mpr ?_⟩
    rcases h with hlarge | ⟨hfits, h⟩
    · exact Or.inl (TensorType.elementCount_eq_error_iff.mpr hlarge)
    · obtain ⟨dims, hdims, hneg⟩ := exists_negative_iff.mpr h
      refine Or.inr ⟨_, TensorType.elementCount_eq_ok_iff.mpr ⟨hfits, rfl⟩, ?_⟩
      exact elim_eq_error_iff.mpr ⟨dims, hdims, by rw [hneg]; rfl⟩

end

/-! ### Volumes that are counted right -/

/-- Elements can be counted, and a dimension that the target leaves open does not come out
negative. -/
def TensorType.CountsFor (x : TensorType) (target : List Int) : Prop :=
  (∀ d ∈ x.shape, d < wordLimit) ∧
    ∀ before d after, Completes target x.wrappedVolume before d after → 0 ≤ d

/-- A tensor whose volume is counted right `CountsFor` every target. -/
theorem TensorType.countsFor_of_volume_lt {x : TensorType} (hfits : ∀ d ∈ x.shape, d < wordLimit)
    (hvolume : x.shape.prod < 2 ^ 63) (target : List Int) : x.CountsFor target := by
  refine ⟨hfits, fun before d after ⟨_, hknown, hcount⟩ => ?_⟩
  by_contra hneg
  -- a negative dimension would make the volume negative
  have hpos : (0 : Int) < (before.prod * after.prod : Nat) := by omega
  have hlt := Int.mul_neg_of_pos_of_neg hpos (Int.not_le.mp hneg)
  rw [hcount, wrappedVolume_eq hvolume] at hlt
  omega

/-- How the `ints` of a shape can be split at one of its dimensions. -/
private theorem ints_eq_open_iff {s before after : Shape} {d : Int} :
    s.ints = before.ints ++ d :: after.ints ↔ ∃ n : Nat, d = n ∧ s = before ++ n :: after := by
  have hinj : Function.Injective (List.map Int.ofNat) :=
    List.map_injective_iff.mpr fun _ _ => Int.ofNat.inj
  constructor
  · intro h
    -- the dimension stands between the two parts, and is one of the shape
    obtain ⟨first, rest, rfl, hfirst, hrest⟩ := List.map_eq_append_iff.mp h
    obtain ⟨n, last, rfl, hn, hlast⟩ := List.map_eq_cons_iff.mp hrest
    rw [hinj hfirst, hinj hlast]
    exact ⟨n, hn.symm, rfl⟩
  · rintro ⟨n, rfl, rfl⟩
    simp [Shape.ints]

/-- `resolveTarget` makes a shape of a target if it lists the shape, or if it leaves one dimension
of it open and the shape has as many elements as asked for. -/
private theorem resolveTarget_eq_ints_iff {target : List Int} {count : Nat} {s : Shape} :
    resolveTarget target count = some s.ints ↔
      target = s.ints ∨
        s.prod = count ∧ ∃ (before : Shape) (d : Nat) (after : Shape), s = before ++ d :: after ∧
          target = before.ints ++ -1 :: after.ints ∧ before.prod * after.prod ≠ 0 := by
  have hinj : Function.Injective Shape.ints :=
    List.map_injective_iff.mpr fun _ _ => Int.ofNat.inj
  -- the volume is that of the closed dimensions times the open one
  have hvolume : ∀ (before after : Shape) (d : Nat),
      (((before ++ d :: after : Shape).prod : Nat) : Int) =
        (before.prod * after.prod : Nat) * d := by
    intro before after d
    rw [List.prod_append, List.prod_cons]
    push_cast
    ring
  rw [resolveTarget_eq_some_iff]
  constructor
  · rintro (⟨t, rfl, hs⟩ | ⟨before, d, after, ⟨rfl, hknown, hcount⟩, hs⟩)
    · -- nothing was open
      exact Or.inl hs.symm
    · -- the open dimension has been filled in
      obtain ⟨n, rfl, rfl⟩ := ints_eq_open_iff.mp hs
      refine Or.inr ⟨?_, before, n, after, rfl, rfl, hknown⟩
      exact_mod_cast (hvolume before after n).trans hcount
  · rintro (rfl | ⟨rfl, before, d, after, rfl, rfl, hknown⟩)
    · exact Or.inl ⟨s, rfl, rfl⟩
    · refine Or.inr ⟨before, d, after, ⟨rfl, hknown, (hvolume before after d).symm⟩, ?_⟩
      exact ints_eq_open_iff.mpr ⟨d, rfl, rfl⟩

/-- What `inferReshaping` does to a tensor whose elements can be counted in a word. It keeps the
element type. If the target leaves one dimension open, it keeps the number of elements too, and
there is an answer whenever some dimension makes up for the others, none of which is 0. A target
that leaves nothing open is the answer, whatever its number of elements. It fails if the target
breaks off at an infinite number, or if a dimension of the tensor itself does not fit a word; in all
other cases it defers. -/
theorem inferReshaping_completes_target {attrs : Attributes} {inputs : InputTypes} {x : TensorType}
    {a : Attribute} (hx : inputs.first = some x) (ha : attrs.get? "shape" = some a)
    (hvolume : x.shape.prod < 2 ^ 63) :
    (∀ t, inferReshaping attrs inputs = .ok (some t) ↔
      (∀ d ∈ x.shape, d < TensorType.wordLimit) ∧ t.element = x.element ∧
        (a.Spells t.shape.ints ∨
          t.shape.prod = x.shape.prod ∧ ∃ (before : Shape) (d : Nat) (after : Shape),
            t.shape = before ++ d :: after ∧ a.Spells (before.ints ++ -1 :: after.ints) ∧
              before.prod * after.prod ≠ 0)) ∧
      ∀ cause, inferReshaping attrs inputs = .error cause ↔
        cause = .infiniteInteger ∧ a.BreaksOff ∨
          cause = .dimensionTooLarge ∧ (∃ target, a.Spells target) ∧
            ∃ d ∈ x.shape, TensorType.wordLimit ≤ d := by
  -- a volume within a word is counted as it is
  have hcounted := TensorType.wrappedVolume_eq hvolume
  constructor
  · intro t
    rw [inferReshaping_eq_some_iff hx ha]
    constructor
    · rintro ⟨helement, target, count, hread, hcount, hdims⟩
      obtain ⟨hfits, hcount⟩ := TensorType.elementCount_eq_ok_iff.mp hcount
      rw [hcount, hcounted, resolveTarget_eq_ints_iff] at hdims
      refine ⟨hfits, helement, ?_⟩
      rcases hdims with rfl | ⟨hsame, before, d, after, hshape, rfl, hknown⟩
      · exact Or.inl hread
      · exact Or.inr ⟨hsame, before, d, after, hshape, hread, hknown⟩
    · rintro ⟨hfits, helement, h⟩
      have hcount := TensorType.elementCount_eq_ok_iff.mpr ⟨hfits, hcounted.symm⟩
      rcases h with hread | ⟨hsame, before, d, after, hshape, hread, hknown⟩
      · exact ⟨helement, _, _, hread, hcount, resolveTarget_eq_ints_iff.mpr (Or.inl rfl)⟩
      · exact ⟨helement, _, _, hread, hcount,
          resolveTarget_eq_ints_iff.mpr (Or.inr ⟨hsame, before, d, after, hshape, rfl, hknown⟩)⟩
  · intro cause
    rw [inferReshaping_eq_error_iff hx ha]
    refine or_congr_right ?_
    constructor
    · rintro ⟨target, hread, ⟨rfl, hlarge⟩ | ⟨hfits, before, d, after, hfilled, hneg, _⟩⟩
      · exact ⟨rfl, ⟨target, hread⟩, hlarge⟩
      · -- what is filled in makes up the volume, so it is not negative
        have hcounts := TensorType.countsFor_of_volume_lt hfits hvolume target
        have := hcounts.2 before d after hfilled
        omega
    · rintro ⟨rfl, ⟨target, hread⟩, hlarge⟩
      exact ⟨target, hread, Or.inl ⟨rfl, hlarge⟩⟩

/-- Twenty-four elements become one by four by six, where the four is left open. -/
theorem inferReshaping_completes_four :
    List.prod [2, 3, 4] < 2 ^ 63 ∧
      inferReshaping (Dict.ofList [("shape", .tuple [.bool true, .int (-1), .int 6])])
        [some ⟨.int8, [2, 3, 4]⟩] = .ok (some ⟨.int8, [1, 4, 6]⟩) := by
  have hvolume : List.prod [2, 3, 4] < 2 ^ 63 := by decide
  have hx : InputTypes.first [some ⟨.int8, [2, 3, 4]⟩] = some ⟨.int8, [2, 3, 4]⟩ := rfl
  have ha : (Dict.ofList [("shape", Attribute.tuple [.bool true, .int (-1), .int 6])]).get?
      "shape" = some (.tuple [.bool true, .int (-1), .int 6]) := rfl
  obtain ⟨hanswer, _⟩ := inferReshaping_completes_target hx ha hvolume
  refine ⟨hvolume, (hanswer _).mpr ⟨by decide, rfl, Or.inr ⟨rfl, [1], 4, [6], rfl, ?_, by decide⟩⟩⟩
  rfl

/-- Six elements become five, as the target that says so leaves nothing open. -/
theorem inferReshaping_changes_volume :
    List.prod [2, 3] < 2 ^ 63 ∧
      inferReshaping (Dict.ofList [("shape", .tuple [.int 5])]) [some ⟨.float32, [2, 3]⟩] =
        .ok (some ⟨.float32, [5]⟩) ∧
      List.prod [5] ≠ List.prod [2, 3] := by
  refine ⟨by decide, rfl, by decide⟩

end TensorGraph
