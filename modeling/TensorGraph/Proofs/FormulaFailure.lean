import TensorGraph.Proofs.Convolution
import TensorGraph.Proofs.Transposition
import TensorGraph.Proofs.TypeAssignment

/-!
# Where inference fails

On a valid graph inference fails through the formula of a node, and a formula fails through the
attributes of the node only. Attributes that can be read but make no sense for the operand, such as
a stride of 0 or an axis that is not there, are no trouble: the node is deferred
(`Formula.infer_of_misfits`). Trouble is an attribute that should be an integer and is none, an
infinite number in a list, and a reshaping whose operand has more elements than can be counted
(`Formula.exists_infer_iff`).
-/

namespace TensorGraph

namespace Formula

/-- The attributes can be read where the formula reads them, with this first operand. -/
def Copes (f : Formula) (attrs : Attributes) (x : TensorType) : Prop :=
  match f with
  -- on anything but an image nothing is read
  | .convolution =>
    x.rank = 4 → ∀ key ∈ ["filters", "kernel", "stride", "padding"], attrs.HasInteger key
  | .pooling => x.rank = 4 → ∀ key ∈ ["kernel", "stride"], attrs.HasInteger key
  | .concatenation => attrs.HasInteger "axis"
  -- a scalar is reduced without a look at the axis
  | .reduction => x.rank ≠ 0 → attrs.HasInteger "axis"
  | .transposition => ∀ a, attrs.get? "perm" = some a → ¬ a.BreaksOff
  | .reshaping => ∀ a, attrs.get? "shape" = some a →
      ¬ a.BreaksOff ∧ ∀ target, a.Spells target → x.CountsFor target
  | _ => True

/-- The attributes make no sense for this first operand. A list that cannot be read is among those
that make no sense. -/
def Misfits (f : Formula) (attrs : Attributes) (x : TensorType) : Prop :=
  match f with
  | .convolution => (∃ i, attrs.Gives "stride" i ∧ i ≤ 0) ∨ ∃ i, attrs.Gives "filters" i ∧ i < 0
  -- without a stride the kernel is taken for it
  | .pooling => (∃ i, attrs.Gives "stride" i ∧ i ≤ 0) ∨
      attrs.get? "stride" = none ∧ ∃ i, attrs.Gives "kernel" i ∧ i ≤ 0
  | .concatenation => ∃ i, attrs.Gives "axis" i ∧ (i < -x.rank ∨ x.rank ≤ i)
  | .reduction => x.rank ≠ 0 ∧ ∃ i, attrs.Gives "axis" i ∧ (i < -x.rank ∨ x.rank ≤ i)
  | .transposition => ∃ a, attrs.get? "perm" = some a ∧
      ∀ perm, a.Spells perm → ¬ perm.Perm ((List.range x.rank).map Int.ofNat)
  | .reshaping => ∃ a, attrs.get? "shape" = some a ∧ ∀ target, a.Spells target →
      (∀ s : Shape, target ≠ s.ints) ∧
        ∀ before d after, ¬ Completes target x.wrappedVolume before d after
  | _ => False

end Formula

section
variable {attrs : Attributes} {inputs : InputTypes} {x : TensorType}

/-! ### Formulas that read integers -/

/-- `inferConvolution` defers on anything but an image. -/
private theorem inferConvolution_of_rank_ne (hx : inputs.first = some x) (hrank : x.rank ≠ 4) :
    inferConvolution attrs inputs = .ok none := by
  simp only [inferConvolution, hx]
  split
  · rename_i hshape
    simp [TensorType.rank, hshape] at hrank
  · rfl

/-- `inferPooling` defers on anything but an image. -/
private theorem inferPooling_of_rank_ne (hx : inputs.first = some x) (hrank : x.rank ≠ 4) :
    inferPooling attrs inputs = .ok none := by
  simp only [inferPooling, hx]
  split
  · rename_i hshape
    simp [TensorType.rank, hshape] at hrank
  · rfl

/-- `inferConvolution` answers exactly if the parameters of an image can be read. -/
private theorem exists_inferConvolution_iff (hx : inputs.first = some x) :
    (∃ t, inferConvolution attrs inputs = .ok t) ↔
      (x.rank = 4 → ∀ key ∈ ["filters", "kernel", "stride", "padding"], attrs.HasInteger key) := by
  by_cases hrank : x.rank = 4
  · -- the parameters are read in turn, each either absent or an integer
    obtain ⟨n, c, height, width, hshape⟩ := List.length_eq_four.mp hrank
    simp only [inferConvolution, hx, hshape]
    refine (Attributes.exists_int_bind_iff fun filters =>
      Attributes.exists_int_bind_iff fun kernel =>
        Attributes.exists_int_bind_iff fun stride =>
          Attributes.exists_int_bind_iff fun padding => iff_true_intro ?_).trans ?_
    · split <;> exact ⟨_, rfl⟩
    · simp [hrank]
  · simp [hrank, inferConvolution_of_rank_ne hx hrank]

/-- `inferPooling` answers exactly if the parameters of an image can be read. -/
private theorem exists_inferPooling_iff (hx : inputs.first = some x) :
    (∃ t, inferPooling attrs inputs = .ok t) ↔
      (x.rank = 4 → ∀ key ∈ ["kernel", "stride"], attrs.HasInteger key) := by
  by_cases hrank : x.rank = 4
  · -- the parameters are read in turn, each either absent or an integer
    obtain ⟨n, c, height, width, hshape⟩ := List.length_eq_four.mp hrank
    simp only [inferPooling, hx, hshape]
    refine (Attributes.exists_int_bind_iff fun kernel =>
      Attributes.exists_int_bind_iff fun stride => iff_true_intro ?_).trans ?_
    · split <;> exact ⟨_, rfl⟩
    · simp [hrank]
  · simp [hrank, inferPooling_of_rank_ne hx hrank]

/-- `inferConcatenation` answers exactly if the axis can be read. -/
theorem exists_inferConcatenation_iff (hx : inputs.first = some x) :
    (∃ t, inferConcatenation attrs inputs = .ok t) ↔ attrs.HasInteger "axis" := by
  simp only [inferConcatenation, hx]
  refine (Attributes.exists_int_bind_iff fun axis => iff_true_intro ?_).trans (and_iff_left trivial)
  split <;> exact ⟨_, rfl⟩

/-- `inferReduction` answers exactly if the axis can be read, or the operand is a scalar. -/
private theorem exists_inferReduction_iff (hx : inputs.first = some x) :
    (∃ t, inferReduction attrs inputs = .ok t) ↔ (x.rank ≠ 0 → attrs.HasInteger "axis") := by
  simp only [inferReduction, hx]
  split
  · -- a scalar stays as it is, whatever the axis
    rename_i hrank
    exact ⟨fun _ hne => absurd hrank hne, fun _ => ⟨_, rfl⟩⟩
  · rename_i hrank
    refine (Attributes.exists_int_bind_iff fun axis => iff_true_intro ?_).trans ?_
    · split <;> exact ⟨_, rfl⟩
    · simp [hrank]

/-! ### Formulas that read lists -/

/-- `inferTransposition` answers unless its tuple breaks off. -/
private theorem exists_inferTransposition_iff (hx : inputs.first = some x) :
    (∃ t, inferTransposition attrs inputs = .ok t) ↔
      ∀ a, attrs.get? "perm" = some a → ¬ a.BreaksOff := by
  cases hget : attrs.get? "perm" with
  | none => simp [inferTransposition, hx, Dict.contains, hget, pure, Except.pure]
  | some a =>
    simp only [inferTransposition, hx, Dict.contains, hget]
    cases hread : attrs.ints? "perm" with
    | error cause =>
      -- the list breaks off
      obtain ⟨_, b, hb, hbreaks⟩ := Attributes.ints?_eq_error_iff.mp hread
      refine iff_of_false ?_ fun hall => hall b (hget ▸ hb) hbreaks
      rintro ⟨t, ht⟩
      cases ht
    | ok read =>
      -- the list has been read, or given up quietly
      refine iff_of_true ?_ ?_
      · cases read with
        | none => exact ⟨_, rfl⟩
        | some perm =>
          simp only [bind, Except.bind]
          cases isPermutation perm x.rank <;> exact ⟨_, rfl⟩
      · rintro b hb hbreaks
        rw [Attributes.ints?_eq_error_iff.mpr ⟨rfl, b, hget ▸ hb, hbreaks⟩] at hread
        cases hread

/-- `inferReshaping` answers exactly if its target does not break off and the operand
`CountsFor` it. -/
private theorem exists_inferReshaping_iff (hx : inputs.first = some x) :
    (∃ t, inferReshaping attrs inputs = .ok t) ↔ ∀ a, attrs.get? "shape" = some a →
      ¬ a.BreaksOff ∧ ∀ target, a.Spells target → x.CountsFor target := by
  cases hget : attrs.get? "shape" with
  | none => simp [inferReshaping, hx, Dict.contains, hget, pure, Except.pure]
  | some a =>
    simp only [exists_eq_ok_iff, ne_eq, inferReshaping_eq_error_iff hx hget, Option.some.injEq,
      forall_eq']
    constructor
    · -- no failure means that every dimension fits and no negative one is left to fill in
      intro hall
      refine ⟨fun hbreaks => hall _ (Or.inl ⟨rfl, hbreaks⟩), fun target hread => ?_⟩
      have hfits : ∀ d ∈ x.shape, d < TensorType.wordLimit := by
        intro d hd
        by_contra hlarge
        exact hall _ (Or.inr ⟨target, hread, Or.inl ⟨rfl, d, hd, Nat.not_lt.mp hlarge⟩⟩)
      refine ⟨hfits, fun before d after hfilled => ?_⟩
      by_contra hneg
      exact hall _ (Or.inr ⟨target, hread, Or.inr ⟨hfits, before, d, after, hfilled,
        Int.not_le.mp hneg, rfl⟩⟩)
    · rintro ⟨hbreaks, hcounts⟩ cause hfail
      rcases hfail with ⟨_, hfail⟩ | ⟨target, hread, ⟨_, d, hd, hlarge⟩ | ⟨_, hneg⟩⟩
      · -- the failures are those that are excluded
        exact hbreaks hfail
      · exact absurd ((hcounts target hread).1 d hd) (Nat.not_lt.mpr hlarge)
      · obtain ⟨before, d, after, hfilled, hneg, _⟩ := hneg
        have := (hcounts target hread).2 before d after hfilled
        omega

end

namespace Formula

/-- `Formula.infer` answers exactly if the formula `Copes` with the attributes, once its first
operand has a type. -/
private theorem exists_infer_iff (f : Formula) (attrs : Attributes) (declared : Option TensorType)
    (inputs : InputTypes) :
    (∃ t, f.infer attrs declared inputs = .ok t) ↔
      ∀ x, inputs.first = some x → f.Copes attrs x := by
  cases hfirst : inputs.first with
  | none =>
    -- every formula that needs an operand defers without one
    refine iff_of_true ?_ nofun
    cases f <;>
      simp [infer, inferConvolution, inferPooling, inferReshaping, inferTransposition,
        inferConcatenation, inferReduction, hfirst, pure, Except.pure]
  | some x =>
    simp only [Option.some.injEq, forall_eq']
    cases f with
    | convolution => exact exists_inferConvolution_iff hfirst
    | pooling => exact exists_inferPooling_iff hfirst
    | reshaping => exact exists_inferReshaping_iff hfirst
    | transposition => exact exists_inferTransposition_iff hfirst
    | concatenation => exact exists_inferConcatenation_iff hfirst
    | reduction => exact exists_inferReduction_iff hfirst
    | _ => exact iff_of_true ⟨_, rfl⟩ trivial

end Formula

/-! ### Attributes that make no sense -/

section
variable {attrs : Attributes} {inputs : InputTypes} {x : TensorType}

private theorem axisPosition_eq_none {axis : Int} {rank : Nat} (h : axis < -rank ∨ rank ≤ axis) :
    axisPosition axis rank = none := by
  simp only [axisPosition, Bool.and_eq_true, decide_eq_true_eq, ite_eq_right_iff]
  split <;> omega

namespace Formula

variable (hx : inputs.first = some x)
include hx

/-- `inferConvolution` defers if its parameters make no sense. -/
private theorem inferConvolution_of_misfits (hcopes : convolution.Copes attrs x)
    (hmisfits : convolution.Misfits attrs x) : inferConvolution attrs inputs = .ok none := by
  by_cases hrank : x.rank = 4
  · obtain ⟨n, c, height, width, hshape⟩ := List.length_eq_four.mp hrank
    have hread : ∀ key ∈ ["filters", "kernel", "stride", "padding"], ∀ default : Int,
        ∃ i, attrs.int key default = .ok i := fun key hkey _ =>
      Attributes.exists_int_iff.mpr (hcopes hrank key hkey)
    obtain ⟨filters, hfilters⟩ := hread "filters" (by simp) c
    obtain ⟨kernel, hkernel⟩ := hread "kernel" (by simp) 3
    obtain ⟨stride, hstride⟩ := hread "stride" (by simp) 1
    obtain ⟨padding, hpadding⟩ := hread "padding" (by simp) 0
    -- the stride or the number of filters, whichever makes no sense, has been read as it is given
    have hbad : stride ≤ 0 ∨ filters < 0 := by
      rcases hmisfits with ⟨i, hgives, hi⟩ | ⟨i, hgives, hi⟩
      · rw [hgives.int_eq] at hstride
        cases hstride
        exact Or.inl hi
      · rw [hgives.int_eq] at hfilters
        cases hfilters
        exact Or.inr hi
    rw [inferConvolution_of_read hx hshape hfilters hkernel hstride hpadding, if_pos hbad]
  · exact inferConvolution_of_rank_ne hx hrank

/-- `inferPooling` defers if its stride makes no sense. -/
private theorem inferPooling_of_misfits (hcopes : pooling.Copes attrs x)
    (hmisfits : pooling.Misfits attrs x) : inferPooling attrs inputs = .ok none := by
  by_cases hrank : x.rank = 4
  · obtain ⟨n, c, height, width, hshape⟩ := List.length_eq_four.mp hrank
    have hread : ∀ key ∈ ["kernel", "stride"], ∀ default : Int,
        ∃ i, attrs.int key default = .ok i := fun key hkey _ =>
      Attributes.exists_int_iff.mpr (hcopes hrank key hkey)
    obtain ⟨kernel, hkernel⟩ := hread "kernel" (by simp) 2
    obtain ⟨stride, hstride⟩ := hread "stride" (by simp) kernel
    have hbad : stride ≤ 0 := by
      rcases hmisfits with ⟨i, hgives, hi⟩ | ⟨habsent, i, hgives, hi⟩
      · rw [hgives.int_eq] at hstride
        cases hstride
        exact hi
      · -- without a stride the kernel has been read in its place
        rw [hgives.int_eq] at hkernel
        cases hkernel
        simp only [Attributes.int, habsent, Except.ok.injEq] at hstride
        omega
    simp [inferPooling, hx, hshape, hkernel, hstride, hbad, bind, Except.bind, pure, Except.pure]
  · exact inferPooling_of_rank_ne hx hrank

/-- `inferTransposition` defers if its tuple is no permutation. -/
private theorem inferTransposition_of_misfits (hcopes : transposition.Copes attrs x)
    (hmisfits : transposition.Misfits attrs x) : inferTransposition attrs inputs = .ok none := by
  obtain ⟨a, hget, hperm⟩ := hmisfits
  simp only [inferTransposition, hx, Dict.contains, hget, Attributes.ints?]
  cases hread : a.toInts? Text.Integer.digitLimit with
  | error cause => exact absurd (Attribute.toInts?_eq_error_iff.mp hread).2 (hcopes a hget)
  | ok read =>
    cases read with
    | none =>
      -- no list has been read
      rfl
    | some perm =>
      show (if isPermutation perm x.rank = true then _ else pure none) = _
      exact if_neg fun h => hperm perm hread (isPermutation_iff.mp h)

/-- `inferReshaping` defers if its target cannot be completed. -/
private theorem inferReshaping_of_misfits (hcopes : reshaping.Copes attrs x)
    (hmisfits : reshaping.Misfits attrs x) : inferReshaping attrs inputs = .ok none := by
  obtain ⟨a, hget, htarget⟩ := hmisfits
  obtain ⟨hbreaks, hcounts⟩ := hcopes a hget
  rw [inferReshaping_eq hx hget]
  cases hread : a.toInts? Text.Integer.digitLimit with
  | error cause => exact absurd (Attribute.toInts?_eq_error_iff.mp hread).2 hbreaks
  | ok read =>
    cases read with
    | none => rfl
    | some target =>
      -- what completes the target would do so by one of the two ways that are excluded
      obtain ⟨hclosed, hopen⟩ := htarget target hread
      have hcount := TensorType.elementCount_eq_ok_iff.mpr ⟨(hcounts target hread).1, rfl⟩
      have hnone : resolveTarget target x.wrappedVolume = none := by
        rw [Option.eq_none_iff_forall_not_mem]
        intro dims hdims
        rcases resolveTarget_eq_some_iff.mp hdims with ⟨s, heq, _⟩ | ⟨before, d, after, hfilled, _⟩
        · exact hclosed s heq
        · exact hopen before d after hfilled
      show (x.elementCount >>= _) = _
      rw [hcount]
      show (resolveTarget _ _).elim _ _ = _
      rw [hnone]
      rfl

/-- `Formula.infer` defers where the formula `Copes` with attributes that make no sense. -/
private theorem infer_of_misfits {f : Formula} {declared : Option TensorType}
    (hcopes : f.Copes attrs x) (hmisfits : f.Misfits attrs x) :
    f.infer attrs declared inputs = .ok none := by
  cases f with
  | convolution => exact inferConvolution_of_misfits hx hcopes hmisfits
  | pooling => exact inferPooling_of_misfits hx hcopes hmisfits
  | reshaping => exact inferReshaping_of_misfits hx hcopes hmisfits
  | transposition => exact inferTransposition_of_misfits hx hcopes hmisfits
  | concatenation =>
    -- the axis lies outside the rank
    obtain ⟨axis, hgives, hout⟩ := hmisfits
    simp [infer, inferConcatenation, hx, hgives.int_eq, axisPosition_eq_none hout, bind,
      Except.bind, pure, Except.pure]
  | reduction =>
    obtain ⟨hrank, axis, hgives, hout⟩ := hmisfits
    simp [infer, inferReduction, hx, hrank, hgives.int_eq, axisPosition_eq_none hout, bind,
      Except.bind, pure, Except.pure]
  | _ => cases hmisfits

end Formula

end

namespace Graph

/-- On a valid graph `inferTypes` answers exactly if every node `Copes` with its attributes, given
the types found for the nodes that it depends on. Then a node whose attributes make no sense is
deferred: it keeps the types of its output ports. Elements count as by `TensorType.elementCount`, in
machine words. -/
theorem inferTypes_answers_iff {g : Graph} (hvalid : g.validate = .ok ()) :
    ((∃ h, g.inferTypes = .ok h) ↔
      ∀ types, ∀ n ∈ g.nodes.toList,
        (∀ m ∈ g.nodes.toList, Relation.TransGen g.Feeds m.id n.id → g.Fits types m) →
          ∀ x, (g.arrivingTypes types n).first = some x → n.op.signature.formula.Copes n.attrs x) ∧
      ∀ h, g.inferTypes = .ok h → ∃ types, g.TypedBy types ∧ ∀ n ∈ g.nodes.toList, ∀ x,
        (g.arrivingTypes types n).first = some x → n.op.signature.formula.Misfits n.attrs x →
          ∃ m, h.nodes.find? n.id = some m ∧ m.outputs = n.outputs := by
  have hg := validate_eq_ok_iff.mp hvalid
  constructor
  · rw [exists_inferTypes_iff hg]
    -- node by node, given the types of the nodes before it
    refine forall_congr' fun types => forall₃_congr fun n hn hbefore => ?_
    exact n.op.signature.formula.exists_infer_iff n.attrs n.outputType _
  · intro h hok
    obtain ⟨types, htyped, rfl⟩ := (inferTypes_eq_ok_iff hg).mp hok
    refine ⟨types, htyped, fun n hn x hx hmisfits => ?_⟩
    -- a node that is typed has coped, so the formula has deferred and found no type
    have hfits : n.infer (g.arrivingTypes types n) = .ok (types n.id) := htyped n hn
    have hcopes := (n.op.signature.formula.exists_infer_iff n.attrs n.outputType _).mp
      ⟨_, hfits⟩ x hx
    have hnone : types n.id = none := by
      rw [Node.infer, Formula.infer_of_misfits hx hcopes hmisfits] at hfits
      exact (Except.ok.inj hfits).symm
    refine ⟨g.retypeNode types n, ?_, ?_⟩
    · exact NodeTable.find?_of_mem (mem_retyped_iff.mpr ⟨n, hn, rfl⟩)
    · simp [retypeNode, hnone, Port.withType]

/-- An operator on an image. -/
def imageNode (id : String) (op : OpKind) (arity : Nat) (attrs : List (String × Attribute)) :
    Node :=
  { id := id
    op := op
    name := .str id
    inputs := List.replicate arity ⟨.str "in", none⟩
    outputs := [⟨.str "out", some ⟨.float32, [1, 3, 8, 8]⟩⟩]
    attrs := Dict.ofList attrs }

/-- A convolution, a transposition and a reshaping of one image, whose attributes make no sense. -/
def misusedImage : Graph where
  id := "g_1"
  nodes :=
    ⟨[imageNode "x_2" .input 0 [], imageNode "c_3" .conv2d 1 [("stride", .int 0)],
      imageNode "t_4" .transpose 1 [("perm", .tuple [.int 0, .int 5])],
      imageNode "s_5" .reshape 1 [("shape", .tuple [.int 5, .int (-1)])]], by decide⟩
  edges :=
    [layerEdge "e_6" "x_2" "c_3" 0, layerEdge "e_7" "x_2" "t_4" 0, layerEdge "e_8" "x_2" "s_5" 0]

/-- Inference answers on `misusedImage`, and the convolution keeps the type that it declares. -/
theorem inferTypes_misusedImage_answers :
    misusedImage.validate = .ok () ∧
      ∃ h, misusedImage.inferTypes = .ok h ∧ ∃ m, h.nodes.find? "c_3" = some m ∧
        m.outputs = [⟨.str "out", some ⟨.float32, [1, 3, 8, 8]⟩⟩] := by
  have hvalid : misusedImage.validate = .ok () := validate_of_forward rfl (by decide)
  obtain ⟨hanswers, hdefers⟩ := inferTypes_answers_iff hvalid
  have himage : ∀ types, misusedImage.Fits types (imageNode "x_2" .input 0 []) →
      types "x_2" = some ⟨.float32, [1, 3, 8, 8]⟩ := fun types hfits => (Except.ok.inj hfits).symm
  have hcopes : ∃ h, misusedImage.inferTypes = .ok h := by
    refine hanswers.mpr fun types n hn hbefore x hx => ?_
    simp only [misusedImage, List.mem_cons, List.not_mem_nil, or_false] at hn
    rcases hn with rfl | rfl | rfl | rfl
    · exact trivial
    · intro _ key hkey a ha
      simp only [List.mem_cons, List.not_mem_nil, or_false] at hkey
      rcases hkey with rfl | rfl | rfl | rfl <;> cases ha
      trivial
    · rintro a ha
      cases ha
      have hperm : (Attribute.tuple [.int 0, .int 5]).Spells [0, 5] := rfl
      exact hperm.not_breaksOff
    · have hx : types "x_2" = some x := hx
      rw [himage types (hbefore _ List.mem_cons_self
        (.single ⟨layerEdge "e_8" "x_2" "s_5" 0, by decide, rfl, rfl⟩))] at hx
      cases hx
      rintro a ha
      cases ha
      have htarget : (Attribute.tuple [.int 5, .int (-1)]).Spells [5, -1] := rfl
      exact ⟨htarget.not_breaksOff,
        fun target _ => TensorType.countsFor_of_volume_lt (by decide) (by decide) target⟩
  obtain ⟨h, hok⟩ := hcopes
  obtain ⟨types, htyped, hdefers⟩ := hdefers h hok
  -- the convolution reads the image, and its stride is 0
  have hx : types "x_2" = some ⟨.float32, [1, 3, 8, 8]⟩ :=
    himage types (htyped _ List.mem_cons_self)
  exact ⟨hvalid, h, hok, hdefers (imageNode "c_3" .conv2d 1 [("stride", .int 0)]) (by decide) _ hx
    (Or.inl ⟨0, ⟨.int 0, rfl, rfl⟩, le_rfl⟩)⟩

/-- A convolution of an image whose kernel is given as a pair. -/
def pairedKernel : Graph where
  id := "g_1"
  nodes :=
    ⟨[imageNode "x_2" .input 0 [], imageNode "c_3" .conv2d 1 [("kernel", .tuple [.int 3, .int 3])]],
      by decide⟩
  edges := [layerEdge "e_4" "x_2" "c_3" 0]

/-- Inference fails on `pairedKernel`, though it is valid. -/
theorem inferTypes_pairedKernel_fails :
    pairedKernel.validate = .ok () ∧ pairedKernel.inferTypes = .error .notANumber := by
  have hvalid : pairedKernel.validate = .ok () := validate_of_forward rfl (by decide)
  -- the order is needed to evaluate, as searching does not reduce by itself
  have horder : pairedKernel.topologicalOrder = pairedKernel.nodes.toList := by
    simp [topologicalOrder, explore, search, Frame.enter, pairedKernel, imageNode, layerEdge,
      inputEdges, NodeTable.ids, NodeTable.find?]
  refine ⟨hvalid, ?_⟩
  unfold inferTypes
  rw [horder]
  rfl

end Graph

end TensorGraph
