import Mathlib.Data.List.ReduceOption
import TensorGraph.Proofs.FormulaFailure
import TensorGraph.Proofs.Lists

/-!
# Concatenation

A concatenation adds up one dimension of its operands, and takes the others from the first. Along
the axis the sum over some operands and then others is the sum of the two sums, where a rank that
does not fit spoils either (`sumAlong_append`). A concatenation has the rank of its first operand
and the sum along the axis, so it can stand for the operands that it was made of: concatenations
that begin with a concatenation flatten.
-/

namespace TensorGraph

/-! ### Sums along an axis -/

/-- In `sumAlong` a typed operand of the right rank adds its length along the axis. -/
private theorem sumAlong_cons {position : Nat} {t : TensorType} (inputs : InputTypes) :
    sumAlong position t.rank (some t :: inputs) =
      (sumAlong position t.rank inputs).map (t.shape.getD position 0 + ·) := by
  rw [sumAlong, if_pos rfl]

/-- `sumAlong` over operands in two parts is the sum of the two sums, if there are both. -/
private theorem sumAlong_append (position rank : Nat) (xs ys : InputTypes) :
    sumAlong position rank (xs ++ ys) =
      (sumAlong position rank xs).bind fun total =>
        (sumAlong position rank ys).map (total + ·) := by
  induction xs with
  | nil => simp [sumAlong]
  | cons x rest ih =>
    cases x with
    | none => exact ih
    | some t =>
      by_cases hrank : t.rank = rank
      · simp only [List.cons_append, sumAlong, hrank, if_true, ih]
        cases sumAlong position rank rest <;> cases sumAlong position rank ys <;>
          simp [Nat.add_assoc]
      · -- an operand of another rank spoils both sides
        simp [sumAlong, hrank]

/-- `sumAlong` gives a sum if all typed operands have the rank, and it is that of their lengths
along the axis. -/
private theorem sumAlong_eq_some_iff {position rank n : Nat} {inputs : InputTypes} :
    sumAlong position rank inputs = some n ↔
      (∀ t, some t ∈ inputs → t.rank = rank) ∧
      n = (inputs.reduceOption.map (·.shape.getD position 0)).sum := by
  induction inputs generalizing n with
  | nil => simp [sumAlong, eq_comm]
  | cons x rest ih =>
    cases x with
    | none => simpa [sumAlong] using ih
    | some t =>
      by_cases hrank : t.rank = rank
      · -- the operand has the rank, so it adds its dimension
        rw [sumAlong, if_pos hrank, Option.map_eq_some_iff, List.reduceOption_cons_of_some,
          List.map_cons, List.sum_cons]
        constructor
        · rintro ⟨m, hm, rfl⟩
          obtain ⟨hrest, rfl⟩ := ih.mp hm
          exact ⟨by simpa [hrank] using hrest, rfl⟩
        · rintro ⟨hall, rfl⟩
          exact ⟨_, ih.mpr ⟨fun u hu => hall u (List.mem_cons_of_mem _ hu), rfl⟩, rfl⟩
      · rw [sumAlong, if_neg hrank]
        -- an operand of another rank leaves nothing to add
        exact iff_of_false (by simp) fun h => hrank (h.1 t List.mem_cons_self)

/-! ### Axes -/

/-- `axisPosition` lies within the rank. -/
private theorem lt_of_axisPosition {axis : Int} {rank position : Nat}
    (h : axisPosition axis rank = some position) : position < rank := by
  simp only [axisPosition, Bool.and_eq_true, decide_eq_true_eq, Option.ite_none_right_eq_some,
    Option.some.injEq] at h
  omega

/-- `axisPosition` is the same for an axis counted from the end or from the beginning. -/
private theorem axisPosition_sub_rank {axis : Int} {rank : Nat} (hnonneg : 0 ≤ axis)
    (hlt : axis < rank) :
    axisPosition (axis - rank) rank = axisPosition axis rank := by
  have hneg : axis - rank < 0 := by omega
  simp only [axisPosition, if_pos hneg, if_neg (Int.not_lt.mpr hnonneg), Int.sub_add_cancel]

/-! ### Concatenations -/

section
variable {attrs : Attributes} {x : TensorType} {axis : Int} {position : Nat}

/-- `inferConcatenation` defers without an axis among the dimensions of the first operand. -/
private theorem inferConcatenation_of_no_axis (haxis : attrs.int "axis" 0 = .ok axis)
    (hposition : axisPosition axis x.rank = none) (xs : InputTypes) :
    inferConcatenation attrs (some x :: xs) = .ok none := by
  simp [inferConcatenation, InputTypes.first, haxis, hposition, bind, Except.bind, pure,
    Except.pure]

/-- In `inferConcatenation` the operands add up along the axis to the length of the result, if all
ranks fit. -/
private theorem inferConcatenation_of_axis (haxis : attrs.int "axis" 0 = .ok axis)
    (hposition : axisPosition axis x.rank = some position) (xs : InputTypes) :
    inferConcatenation attrs (some x :: xs) =
      .ok ((sumAlong position x.rank (some x :: xs)).map fun total =>
        x.withShape (x.shape.set position total)) := by
  simp [inferConcatenation, InputTypes.first, haxis, hposition, bind, Except.bind, pure,
    Except.pure]

end

/-- Concatenate some operands, and the result with others. -/
def concatenateInTurn (attrs : Attributes) (xs ys : InputTypes) :
    Except Error (Option TensorType) :=
  inferConcatenation attrs xs >>= fun t => inferConcatenation attrs (t :: ys)

/-- `concatenateInTurn` is one `inferConcatenation`: a concatenation stands for the operands that it
was made of. -/
private theorem concatenateInTurn_eq (attrs : Attributes) (x : Option TensorType)
    (xs ys : InputTypes) :
    concatenateInTurn attrs (x :: xs) ys = inferConcatenation attrs (x :: xs ++ ys) := by
  cases x with
  | none => rfl
  | some x =>
    cases haxis : attrs.int "axis" 0 with
    | error cause =>
      simp [concatenateInTurn, inferConcatenation, InputTypes.first, haxis, bind, Except.bind]
    | ok axis =>
      cases hposition : axisPosition axis x.rank with
      | none =>
        rw [concatenateInTurn, List.cons_append, inferConcatenation_of_no_axis haxis hposition,
          inferConcatenation_of_no_axis haxis hposition]
        rfl
      | some position =>
        have hlt : position < x.shape.length := lt_of_axisPosition hposition
        rw [concatenateInTurn, List.cons_append, inferConcatenation_of_axis haxis hposition,
          inferConcatenation_of_axis haxis hposition, ← List.cons_append, sumAlong_append]
        cases htotal : sumAlong position x.rank (some x :: xs) with
        | none => rfl
        | some total =>
          -- the result so far has the rank of the first operand, and the total along the axis
          have hrank : (x.withShape (x.shape.set position total)).rank = x.rank := List.length_set
          show inferConcatenation attrs (some (x.withShape (x.shape.set position total)) :: ys) = _
          rw [inferConcatenation_of_axis haxis (hrank ▸ hposition), sumAlong_cons, hrank]
          simp [TensorType.withShape, hlt, List.set_set, Function.comp_def]

/-- `inferConcatenation` gives a type if its first operand is typed, the axis names a dimension of
it, and all typed operands have its rank. -/
private theorem inferConcatenation_eq_some_iff {attrs : Attributes} {inputs : InputTypes}
    {y : TensorType} :
    inferConcatenation attrs inputs = .ok (some y) ↔
      ∃ x axis position, inputs.first = some x ∧ attrs.int "axis" 0 = .ok axis ∧
        axisPosition axis x.rank = some position ∧ (∀ t, some t ∈ inputs → t.rank = x.rank) ∧
        y = x.withShape (x.shape.set position
          (inputs.reduceOption.map (·.shape.getD position 0)).sum) := by
  constructor
  · intro h
    cases hfirst : inputs.first with
    | none => simp [inferConcatenation, hfirst, pure, Except.pure] at h
    | some x =>
      simp only [inferConcatenation, hfirst] at h
      -- the axis and its position have been found, and all operands have the rank
      obtain ⟨axis, haxis, h⟩ := exists_of_bind_eq_ok h
      cases hposition : axisPosition axis x.rank with
      | none => simp [hposition, pure, Except.pure] at h
      | some position =>
        simp only [hposition, pure, Except.pure, Except.ok.injEq] at h
        obtain ⟨n, hn, rfl⟩ := Option.map_eq_some_iff.mp h
        obtain ⟨hranks, rfl⟩ := sumAlong_eq_some_iff.mp hn
        exact ⟨x, axis, position, rfl, haxis, hposition, hranks, rfl⟩
  · rintro ⟨x, axis, position, hfirst, haxis, hposition, hranks, rfl⟩
    have htotal : sumAlong position x.rank inputs =
        some (inputs.reduceOption.map (·.shape.getD position 0)).sum :=
      sumAlong_eq_some_iff.mpr ⟨hranks, rfl⟩
    simp [inferConcatenation, hfirst, haxis, hposition, htotal, bind, Except.bind, pure,
      Except.pure]

/-- Nested concatenations flatten: `concatenateInTurn` of some operands, of which there is at least
one, and then of the result with others, is `inferConcatenation` of all of them, whether that gives
a type, defers or fails. It does not fail if the axis is absent or an integer. An axis of the first
operand may be counted from the end. The type that is given is that of the first operand with the
lengths of all typed operands added up along the axis. -/
theorem concatenations_flatten (attrs : Attributes) (x : Option TensorType) (xs ys : InputTypes) :
    concatenateInTurn attrs (x :: xs) ys = inferConcatenation attrs (x :: xs ++ ys) ∧
      (attrs.HasInteger "axis" → ∃ result, inferConcatenation attrs (x :: xs ++ ys) = .ok result) ∧
      (∀ t other (axis : Int), x = some t → 0 ≤ axis → axis < t.rank →
        attrs.int "axis" 0 = .ok axis → other.int "axis" 0 = .ok (axis - t.rank) →
          inferConcatenation other (x :: xs) = inferConcatenation attrs (x :: xs)) ∧
      ∀ y, inferConcatenation attrs (x :: xs) = .ok (some y) ↔
        ∃ t axis position, x = some t ∧ attrs.int "axis" 0 = .ok axis ∧
          axisPosition axis t.rank = some position ∧ (∀ u, some u ∈ x :: xs → u.rank = t.rank) ∧
          y = t.withShape (t.shape.set position
            ((x :: xs).reduceOption.map (·.shape.getD position 0)).sum) := by
  refine ⟨concatenateInTurn_eq attrs x xs ys, fun hinteger => ?_, ?_,
    fun y => inferConcatenation_eq_some_iff⟩
  · cases x with
    | none =>
      -- without an operand nothing is asked for
      exact ⟨none, rfl⟩
    | some t => exact (exists_inferConcatenation_iff rfl).mpr hinteger
  · rintro t other axis rfl hnonneg hlt haxis hother
    -- an axis counted from the end has the same position
    have hposition := axisPosition_sub_rank hnonneg hlt
    simp only [inferConcatenation, InputTypes.first, haxis, hother, hposition, bind, Except.bind]

/-- Attributes with an axis. -/
def along (axis : Int) : Attributes := Dict.ofList [("axis", .int axis)]

/-- Columns are added to columns, whichever way their axis is counted; an untyped operand adds
none. -/
theorem concatenations_flatten_columns :
    (along 1).int "axis" 0 = .ok 1 ∧ (along (-1)).int "axis" 0 = .ok (1 - 2) ∧
      concatenateInTurn (along 1) [some ⟨.int8, [2, 3]⟩, none] [some ⟨.int8, [2, 5]⟩] =
        inferConcatenation (along 1) [some ⟨.int8, [2, 3]⟩, none, some ⟨.int8, [2, 5]⟩] ∧
      inferConcatenation (along 1) [some ⟨.int8, [2, 3]⟩, none, some ⟨.int8, [2, 5]⟩] =
        .ok (some ⟨.int8, [2, 8]⟩) ∧
      inferConcatenation (along (-1)) [some ⟨.int8, [2, 3]⟩, none, some ⟨.int8, [2, 5]⟩] =
        .ok (some ⟨.int8, [2, 8]⟩) := by
  obtain ⟨hflat, _⟩ :=
    concatenations_flatten (along 1) (some ⟨.int8, [2, 3]⟩) [none] [some ⟨.int8, [2, 5]⟩]
  obtain ⟨_, _, hcount, htype⟩ := concatenations_flatten (along 1) (some ⟨.int8, [2, 3]⟩)
    [none, some ⟨.int8, [2, 5]⟩] []
  -- three and five columns, with an operand of no type between them
  have hcolumns := (htype ⟨.int8, [2, 8]⟩).mpr ⟨_, 1, 1, rfl, rfl, rfl, by simp [TensorType.rank],
    rfl⟩
  refine ⟨rfl, rfl, hflat, hcolumns, ?_⟩
  rw [hcount _ (along (-1)) 1 rfl (by decide) (by decide) rfl rfl, hcolumns]

end TensorGraph
