import TensorGraph.Attribute
import TensorGraph.Proofs.Outcome

/-!
# Reading parameters

An operator reads its attributes as integers or as lists of integers. To read an integer fails on
every attribute that is none (`Attributes.exists_int_iff`). To read a list gives up without failing,
except where it comes upon an infinite number before anything else that is no integer
(`Attributes.ints?_eq_error_iff`).
-/

namespace TensorGraph

namespace Attribute

/-- Truth values, finite numbers, and texts that spell an integer. -/
def IsInteger : Attribute → Prop
  | .bool _ => True
  | .int _ => True
  | .float x => ∃ negative m, x.reading = .finite negative m
  | .str s => ∃ i, Text.Integer.read? Text.Integer.digitLimit s = some i
  | .tuple _ => False

/-- Positive and negative infinity. -/
def IsInfinite : Attribute → Prop
  | .float x => ∃ negative, x.reading = .infinite negative
  | _ => False

/-- Infinite numbers, and tuples in which an infinite number comes before anything else that is no
integer. -/
def BreaksOff : Attribute → Prop
  | .tuple items => ∃ before a after,
      items = before ++ a :: after ∧ (∀ b ∈ before, b.IsInteger) ∧ a.IsInfinite
  | a => a.IsInfinite

/-- The integers that an attribute lists. -/
def Spells (a : Attribute) (values : List Int) : Prop :=
  a.toInts? Text.Integer.digitLimit = .ok (some values)

/-- `toInt` reads exactly the attributes with `IsInteger`. -/
private theorem exists_toInt_iff {a : Attribute} :
    (∃ i, a.toInt Text.Integer.digitLimit = .ok i) ↔ a.IsInteger := by
  cases a with
  | bool b => simp [toInt, IsInteger]
  | int i => simp [toInt, IsInteger]
  | float x =>
    -- a number is an integer, infinite, or neither
    cases hx : x.reading <;> simp [toInt, IsInteger, Number.Binary64.toInt, hx]
  | str s =>
    -- a text may spell an integer
    cases hs : Text.Integer.read? Text.Integer.digitLimit s <;>
      simp [toInt, IsInteger, integerOfText, hs]
  | tuple items => simp [toInt, IsInteger]

/-- What `toInt` cannot read is given up quietly, unless it is infinite. -/
private theorem toInt_eq_error {limit : Nat} {a : Attribute} {cause : Error}
    (h : a.toInt limit = .error cause) :
    cause = .notAnInteger ∨ cause = .notANumber ∨ cause = .infiniteInteger ∧ a.IsInfinite := by
  cases a with
  | bool b => cases h
  | int i => cases h
  | float x =>
    -- a number that is no integer is given up, an infinite one is not
    cases hx : x.reading <;> simp [toInt, Number.Binary64.toInt, hx] at h <;>
      simp [← h, IsInfinite, hx]
  | str s =>
    cases hs : Text.Integer.read? limit s <;> simp [toInt, integerOfText, hs] at h
    exact Or.inl h.symm
  | tuple items =>
    cases h
    exact Or.inr (Or.inl rfl)

/-- `toInt` fails on an infinite number with a cause of its own. -/
private theorem toInt_of_isInfinite {limit : Nat} {a : Attribute} (h : a.IsInfinite) :
    a.toInt limit = .error .infiniteInteger := by
  cases a with
  | float x =>
    obtain ⟨negative, hx⟩ := h
    simp [toInt, Number.Binary64.toInt, hx]
  | _ => cases h

end Attribute

/-- `quietly` passes on all failures but those of what is no integer or no number. -/
private theorem quietly_eq_error_iff {α : Type} {x : Except Error α} {cause : Error} :
    quietly x = .error cause ↔ x = .error cause ∧ cause ≠ .notAnInteger ∧ cause ≠ .notANumber := by
  cases x with
  | ok a => simp [quietly]
  | error first => cases first <;> simp [quietly] <;> rintro rfl <;> simp

/-- `toInts?` fails exactly on attributes with `BreaksOff`, for an infinite number. -/
theorem Attribute.toInts?_eq_error_iff {a : Attribute} {cause : Error} :
    a.toInts? Text.Integer.digitLimit = .error cause ↔ cause = .infiniteInteger ∧ a.BreaksOff := by
  -- a failure that is not given up quietly comes from an infinite number, and the other way round
  have hread : ∀ b : Attribute, b.toInt Text.Integer.digitLimit = .error cause ∧
      cause ≠ .notAnInteger ∧ cause ≠ .notANumber ↔ cause = .infiniteInteger ∧ b.IsInfinite := by
    intro b
    constructor
    · rintro ⟨hfail, hinteger, hnumber⟩
      rcases toInt_eq_error hfail with rfl | rfl | hinfinite
      · exact absurd rfl hinteger
      · exact absurd rfl hnumber
      · exact hinfinite
    · rintro ⟨rfl, hinfinite⟩
      exact ⟨toInt_of_isInfinite hinfinite, by simp, by simp⟩
  have hsingle : ∀ b : Attribute,
      quietly ((b.toInt Text.Integer.digitLimit).map fun i => [i]) = .error cause ↔
        cause = .infiniteInteger ∧ b.IsInfinite := by
    intro b
    rw [quietly_eq_error_iff, ← hread b]
    cases b.toInt Text.Integer.digitLimit <;> simp [Except.map]
  cases a with
  | bool b => exact hsingle (.bool b)
  | int i => exact hsingle (.int i)
  | float x => exact hsingle (.float x)
  | str s => simp [toInts?, BreaksOff, IsInfinite]
  | tuple items =>
    rw [toInts?, quietly_eq_error_iff, mapM_eq_error_iff, BreaksOff]
    constructor
    · rintro ⟨⟨before, b, after, rfl, hbefore, hfail⟩, hcause⟩
      obtain ⟨rfl, hinfinite⟩ := (hread b).mp ⟨hfail, hcause⟩
      exact ⟨rfl, before, b, after, rfl, fun c hc => exists_toInt_iff.mp (hbefore c hc), hinfinite⟩
    · rintro ⟨rfl, before, b, after, rfl, hbefore, hinfinite⟩
      obtain ⟨hfail, hcause⟩ := (hread b).mpr ⟨rfl, hinfinite⟩
      exact ⟨⟨before, b, after, rfl, fun c hc => exists_toInt_iff.mpr (hbefore c hc), hfail⟩,
        hcause⟩

/-- What `Spells` a list does not break off. -/
theorem Attribute.Spells.not_breaksOff {a : Attribute} {values : List Int} (h : a.Spells values) :
    ¬ a.BreaksOff := by
  intro hbreaks
  rw [Spells, toInts?_eq_error_iff.mpr ⟨rfl, hbreaks⟩] at h
  cases h

/-- `toInts?` reads a tuple of integers as them, whatever the limit on the digits of texts. -/
theorem Attribute.toInts?_ints (limit : Nat) (values : List Int) :
    (Attribute.tuple (values.map .int)).toInts? limit = .ok (some values) := by
  -- integers are read as themselves
  have hread : (values.map Attribute.int).mapM (toInt limit) = .ok values := by
    induction values with
    | nil => rfl
    | cons i rest ih =>
      rw [List.map_cons, List.mapM_cons, ih]
      rfl
  rw [toInts?, hread]
  rfl

/-- A tuple of integers `Spells` them. -/
theorem Attribute.spells_ints (values : List Int) :
    (Attribute.tuple (values.map .int)).Spells values :=
  toInts?_ints _ values

namespace Attributes

variable {attrs : Attributes} {key : String}

/-- A parameter that is absent or an integer. -/
def HasInteger (attrs : Attributes) (key : String) : Prop :=
  ∀ a, attrs.get? key = some a → a.IsInteger

/-- A parameter that is there and stands for an integer. -/
def Gives (attrs : Attributes) (key : String) (i : Int) : Prop :=
  ∃ a, attrs.get? key = some a ∧ a.toInt Text.Integer.digitLimit = .ok i

/-- A parameter that is there and lists these integers. -/
def Lists (attrs : Attributes) (key : String) (values : List Int) : Prop :=
  ∃ a, attrs.get? key = some a ∧ a.Spells values

/-- `Attributes.int` reads a parameter exactly if it is absent or an integer. -/
theorem exists_int_iff {default : Int} :
    (∃ i, attrs.int key default = .ok i) ↔ attrs.HasInteger key := by
  cases hget : attrs.get? key with
  | none => simp [int, HasInteger, hget]
  | some a => simp [int, HasInteger, hget, Attribute.exists_toInt_iff]

theorem Gives.int_eq {i default : Int} (h : attrs.Gives key i) : attrs.int key default = .ok i := by
  obtain ⟨a, hget, hread⟩ := h
  simp [int, hget, hread]

/-- To read a parameter by `Attributes.int` and go on gives an answer if the parameter is absent or
an integer, and what comes after it gives one whatever it is. -/
theorem exists_int_bind_iff {α : Type} {default : Int} {f : Int → Except Error α} {P : Prop}
    (h : ∀ i, (∃ t, f i = .ok t) ↔ P) :
    (∃ t, (attrs.int key default >>= f) = .ok t) ↔ attrs.HasInteger key ∧ P := by
  rw [← exists_int_iff]
  constructor
  · rintro ⟨t, ht⟩
    -- the parameter has been read, or there would be no answer
    obtain ⟨i, hi, ht⟩ := exists_of_bind_eq_ok ht
    exact ⟨⟨i, hi⟩, (h i).mp ⟨t, ht⟩⟩
  · rintro ⟨⟨i, hi⟩, hP⟩
    rw [hi]
    exact (h i).mpr hP

/-- `Attributes.ints?` fails exactly if the parameter is there and breaks off. -/
theorem ints?_eq_error_iff {cause : Error} :
    attrs.ints? key = .error cause ↔
      cause = .infiniteInteger ∧ ∃ a, attrs.get? key = some a ∧ a.BreaksOff := by
  cases hget : attrs.get? key with
  | none => simp [ints?, hget]
  | some a => simp [ints?, hget, Attribute.toInts?_eq_error_iff]

end Attributes

end TensorGraph
