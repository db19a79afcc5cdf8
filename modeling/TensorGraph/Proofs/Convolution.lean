import Mathlib.Data.Set.Card
import TensorGraph.Op.Inference

/-!
# Convolution

A convolution moves a window over the height and over the width of its operand, in steps of the
stride. A window that fits after some step has fitted after every step before it, so the steps after
which it fits are the first ones, and there are as many of them as the convolved dimension is long
(`encard_placements`). This holds for padding and windows of either sign; a window that is larger
than the padded length fits nowhere.
-/

namespace TensorGraph

/-! ### Windows -/

/-- The steps after which a window of `kernel`, moved by `stride` at each, still fits into the
padded length. -/
def placements (length : Nat) (kernel stride padding : Int) : Set Nat :=
  {step | (step : Int) * stride + kernel ≤ length + 2 * padding}

section
variable {length : Nat} {kernel stride padding : Int} (hstride : 0 < stride)
include hstride

/-- `windowCount` counts the steps in `placements`: those after which the window fits. -/
private theorem lt_windowCount_iff {step : Nat} :
    step < windowCount length kernel stride padding ↔
      step ∈ placements length kernel stride padding := by
  have hfits : (step : Int) ≤ Int.fdiv (length + 2 * padding - kernel) stride ↔
      (step : Int) * stride ≤ length + 2 * padding - kernel := by
    rw [Int.fdiv_eq_ediv_of_nonneg _ (Int.le_of_lt hstride), Int.le_ediv_iff_mul_le hstride]
  -- a quotient below 0 means that not even step 0 fits, and then nothing is counted
  calc step < windowCount length kernel stride padding
    _ ↔ (step : Int) < Int.fdiv (length + 2 * padding - kernel) stride + 1 := Int.lt_toNat
    _ ↔ (step : Int) ≤ Int.fdiv (length + 2 * padding - kernel) stride := Int.lt_add_one_iff
    _ ↔ (step : Int) * stride ≤ length + 2 * padding - kernel := hfits
    _ ↔ step ∈ placements length kernel stride padding := by
      rw [placements, Set.mem_ofPred_eq]
      omega

/-- There are as many `placements` of a window as `windowCount` says. -/
private theorem encard_placements :
    (placements length kernel stride padding).encard =
      windowCount length kernel stride padding := by
  have hrange : placements length kernel stride padding =
      (Finset.range (windowCount length kernel stride padding) : Set Nat) := by
    ext step
    rw [Finset.mem_coe, Finset.mem_range, lt_windowCount_iff hstride]
  rw [hrange, Set.encard_coe_eq_coe_finsetCard, Finset.card_range]

end

/-! ### Images -/

section
variable {attrs : Attributes} {inputs : InputTypes} {x : TensorType} {n c height width : Nat}
  {filters kernel stride padding : Int}
  (hx : inputs.first = some x) (hshape : x.shape = [n, c, height, width])
  (hfilters : attrs.int "filters" c = .ok filters) (hkernel : attrs.int "kernel" 3 = .ok kernel)
  (hstride : attrs.int "stride" 1 = .ok stride) (hpadding : attrs.int "padding" 0 = .ok padding)
include hx hshape hfilters hkernel hstride hpadding

/-- `inferConvolution` with parameters that can be read. -/
theorem inferConvolution_of_read :
    inferConvolution attrs inputs = .ok (if stride ≤ 0 ∨ filters < 0 then none else
      some (x.withShape [n, filters.toNat, windowCount height kernel stride padding,
        windowCount width kernel stride padding])) := by
  simp only [inferConvolution, hx, hshape, hfilters, hkernel, hstride, hpadding, bind, Except.bind,
    pure, Except.pure, Bool.or_eq_true, decide_eq_true_eq]
  split <;> rfl

end

/-- `inferConvolution` of an image, with integers for its parameters or without them, gives one
channel for each filter, and is as high and as wide as there are `placements` for the window. With a
stride that is not positive, or a negative number of filters, it defers. It never fails. -/
theorem inferConvolution_counts_placements {attrs : Attributes} {inputs : InputTypes}
    {x : TensorType} {n c height width : Nat} {filters kernel stride padding : Int}
    (hx : inputs.first = some x) (hshape : x.shape = [n, c, height, width])
    (hfilters : attrs.int "filters" c = .ok filters) (hkernel : attrs.int "kernel" 3 = .ok kernel)
    (hstride : attrs.int "stride" 1 = .ok stride) (hpadding : attrs.int "padding" 0 = .ok padding) :
    (0 < stride → 0 ≤ filters → ∃ rows columns : Nat,
        inferConvolution attrs inputs = .ok (some (x.withShape [n, filters.toNat, rows, columns])) ∧
          (placements height kernel stride padding).encard = rows ∧
          (placements width kernel stride padding).encard = columns) ∧
      (stride ≤ 0 ∨ filters < 0 → inferConvolution attrs inputs = .ok none) := by
  -- with all parameters read, the formula is a case distinction
  have hread := inferConvolution_of_read hx hshape hfilters hkernel hstride hpadding
  constructor
  · intro hmoves hmany
    -- along either side the filter has as many placements as the formula counts
    have hfits : ¬ (stride ≤ 0 ∨ filters < 0) := by omega
    rw [if_neg hfits] at hread
    exact ⟨_, _, hread, encard_placements hmoves, encard_placements hmoves⟩
  · intro hbad
    rw [hread, if_pos hbad]

/-- Attributes of a convolution. -/
def convolving (filters kernel stride padding : Int) : Attributes :=
  Dict.ofList [("filters", .int filters), ("kernel", .int kernel), ("stride", .int stride),
    ("padding", .int padding)]

/-- An image of two rows and seven columns loses one of them at each side. A window of three then
fits nowhere into the rows, and at two places into the columns. A stride of 0 defers. -/
theorem inferConvolution_counts_two_placements :
    inferConvolution (convolving 8 3 2 (-1)) [some ⟨.float16, [1, 4, 2, 7]⟩] =
        .ok (some ⟨.float16, [1, 8, 0, 2]⟩) ∧
      (placements 2 3 2 (-1)).encard = 0 ∧ (placements 7 3 2 (-1)).encard = 2 ∧
      inferConvolution (convolving 8 3 0 (-1)) [some ⟨.float16, [1, 4, 2, 7]⟩] = .ok none := by
  have hx : InputTypes.first [some ⟨.float16, [1, 4, 2, 7]⟩] = some ⟨.float16, [1, 4, 2, 7]⟩ := rfl
  have hread : ∀ stride : Int, (convolving 8 3 stride (-1)).int "filters" 4 = .ok 8 ∧
      (convolving 8 3 stride (-1)).int "kernel" 3 = .ok 3 ∧
      (convolving 8 3 stride (-1)).int "stride" 1 = .ok stride ∧
      (convolving 8 3 stride (-1)).int "padding" 0 = .ok (-1) := fun _ => ⟨rfl, rfl, rfl, rfl⟩
  obtain ⟨hfilters, hkernel, hstride, hpadding⟩ := hread 2
  obtain ⟨rows, columns, hanswer, hrows, hcolumns⟩ :=
    (inferConvolution_counts_placements hx rfl hfilters hkernel hstride hpadding).1 (by decide)
    (by decide)
  -- the answer is computed, and the theorem says what its numbers count
  have heval : inferConvolution (convolving 8 3 2 (-1)) [some ⟨.float16, [1, 4, 2, 7]⟩] =
      .ok (some ⟨.float16, [1, 8, 0, 2]⟩) := rfl
  rw [heval] at hanswer
  cases hanswer
  refine ⟨heval, hrows, hcolumns, ?_⟩
  obtain ⟨hfilters, hkernel, hstride, hpadding⟩ := hread 0
  exact (inferConvolution_counts_placements hx rfl hfilters hkernel hstride hpadding).2
    (Or.inl (by decide))

end TensorGraph
