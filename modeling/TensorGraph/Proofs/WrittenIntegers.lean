import TensorGraph.Proofs.Parameters

/-!
# Lists of integers, written and read back

Reading a list of integers trims what encloses it, splits it at commas, skips blank parts and reads
the rest as integers. Each step undoes one of writing: no integer has a bracket, a comma or a blank
in its text (`Integer.isNumeral_of_mem_chars`), so trimming and splitting give back the texts of the
entries (`IntegerList.splitAtChar_joinChars`), and each of these is read as the entry that it was
written for (`Integer.readChars?_chars`).
-/

namespace TensorGraph.Text

/-! ### Trimming and splitting -/

section
variable {p : Char → Bool} (before cs after : List Char)

/-- `dropWhile` takes away what stands before a text, if the text itself does not begin with such
characters. -/
private theorem dropWhile_enclosed (hbefore : ∀ c ∈ before, p c = true)
    (hfirst : ∀ c ∈ cs.head?, p c = false) :
    (before ++ cs).dropWhile p = cs := by
  rw [List.dropWhile_append_of_pos hbefore]
  cases cs with
  | nil => rfl
  | cons c rest => exact List.dropWhile_cons_of_neg (by simpa using hfirst)

/-- `trimBoth` takes away what encloses a text, if the text itself does not begin or end with such
characters. -/
private theorem trimBoth_enclosed (hbefore : ∀ c ∈ before, p c = true)
    (hafter : ∀ c ∈ after, p c = true) (hfirst : ∀ c ∈ cs.head?, p c = false)
    (hlast : ∀ c ∈ cs.getLast?, p c = false) :
    trimBoth p (before ++ cs ++ after) = cs := by
  by_cases hempty : cs = []
  · -- between what encloses it there is nothing, so all is dropped from the front
    have hall : ∀ c ∈ before ++ cs ++ after, p c = true := by
      simp only [hempty, List.append_nil, List.mem_append]
      rintro c (hc | hc)
      · exact hbefore c hc
      · exact hafter c hc
    have hnone : (before ++ cs ++ after).dropWhile p = [] := by
      simpa using dropWhile_enclosed _ [] hall (by simp)
    rw [trimBoth, hnone, hempty]
    rfl
  · have hfront : (before ++ cs ++ after).dropWhile p = cs ++ after := by
      rw [List.append_assoc]
      refine dropWhile_enclosed before (cs ++ after) hbefore ?_
      rwa [List.head?_append_of_ne_nil _ hempty]
    have hback : (cs ++ after).reverse.dropWhile p = cs.reverse := by
      rw [List.reverse_append]
      refine dropWhile_enclosed after.reverse cs.reverse (by simpa using hafter) ?_
      rwa [List.head?_reverse]
    rw [trimBoth, hfront, hback, List.reverse_reverse]

end

section
variable {separator : Char} {part : List Char} (h : separator ∉ part)
include h

/-- `splitAtChar` leaves a text whole that has no separator. -/
private theorem splitAtChar_of_not_mem : splitAtChar separator part = [part] := by
  induction part with
  | nil => rfl
  | cons c rest ih =>
    rw [List.mem_cons, not_or] at h
    rw [splitAtChar, if_neg (Ne.symm h.1), ih h.2]

/-- `splitAtChar` takes off one part at a time. -/
private theorem splitAtChar_append (more : List Char) :
    splitAtChar separator (part ++ separator :: more) = part :: splitAtChar separator more := by
  induction part with
  | nil => rw [List.nil_append, splitAtChar, if_pos rfl]
  | cons c rest ih =>
    rw [List.mem_cons, not_or] at h
    rw [List.cons_append, splitAtChar, if_neg (Ne.symm h.1), ih h.2]

end

/-! ### Integers -/

namespace Integer

/-- What the texts of integers are made of: digits and the sign. -/
def IsNumeral (c : Char) : Prop := c = '-' ∨ c.isDigit = true

instance (c : Char) : Decidable (IsNumeral c) := inferInstanceAs (Decidable (_ ∨ _))

private theorem isDigit_of_mem_natChars {n : Nat} {c : Char} (h : c ∈ natChars n) :
    c.isDigit = true :=
  Nat.isDigit_of_mem_toDigits (by decide) (by decide) h

/-- The text of an integer is made of characters with `IsNumeral`. -/
private theorem isNumeral_of_mem_chars {i : Int} {c : Char} (h : c ∈ chars i) : IsNumeral c := by
  unfold chars at h
  split at h
  · rcases List.mem_cons.mp h with hsign | hdigit
    · exact Or.inl hsign
    · exact Or.inr (isDigit_of_mem_natChars hdigit)
  · exact Or.inr (isDigit_of_mem_natChars h)

/-- No integer has an empty text for its `chars`. -/
private theorem chars_ne_nil (i : Int) : chars i ≠ [] := by
  unfold chars
  split
  · exact List.cons_ne_nil _ _
  · exact Nat.toDigits_ne_nil

private theorem comma_not_mem_chars (i : Int) : ',' ∉ chars i :=
  fun h => absurd (isNumeral_of_mem_chars h) (by decide)

/-- What `IsNumeral` is no blank. -/
private theorem IsNumeral.not_blank {c : Char} (h : IsNumeral c) : isBlank c = false := by
  have hcode : c.toNat = 45 ∨ 48 ≤ c.toNat ∧ c.toNat ≤ 57 := by
    rcases h with rfl | hdigit
    · exact Or.inl rfl
    · exact Or.inr (Char.isDigit_iff_toNat.mp hdigit)
  simp only [isBlank, inRanges, blankRanges, List.any_cons, List.any_nil, Bool.or_false,
    Bool.or_eq_false_iff, Bool.and_eq_false_iff, decide_eq_false_iff_not]
  omega

private theorem IsNumeral.not_padding {c : Char} (h : IsNumeral c) : isPadding c = false := by
  rw [isPadding, h.not_blank, Bool.false_and]

private theorem IsNumeral.not_edge {c : Char} (h : IsNumeral c) : IntegerList.isEdge c = false := by
  by_contra hedge
  simp only [IntegerList.isEdge, Bool.not_eq_false, Bool.or_eq_true, beq_iff_eq] at hedge
  rcases hedge with (((rfl | rfl) | rfl) | rfl) | rfl <;> exact absurd h (by decide)

/-- The digits 0 to 9 come first among the digits of all scripts, so `digit?` finds them there. -/
private theorem digit?_of_isDigit {c : Char} (h : c.isDigit = true) :
    digit? c = some (c.toNat - 48) := by
  have hcode : 48 ≤ c.toNat ∧ c.toNat ≤ 57 := Char.isDigit_iff_toNat.mp h
  have hfirst : zeroDigits.find? (fun z => z ≤ c.toNat && c.toNat ≤ z + 9) = some 48 := by
    refine List.find?_cons_of_pos ?_
    simp only [Bool.and_eq_true, decide_eq_true_eq]
    omega
  rw [digit?, hfirst]
  rfl

/-- `readRest` reads digits from the left, each after ten times what was read before it. -/
private theorem readRest_of_digits {cs : List Char} (h : ∀ c ∈ cs, c.isDigit = true) (acc : Nat) :
    readRest acc cs = some (Nat.ofDigitChars 10 cs acc) := by
  induction cs generalizing acc with
  | nil => simp [readRest]
  | cons c rest ih =>
    rw [List.forall_mem_cons] at h
    rw [readRest, digit?_of_isDigit h.1, Option.bind_some, ih h.2, Nat.ofDigitChars_cons]
    · rfl
    · -- an underscore would be skipped, but is no digit
      rintro d more rfl _
      exact absurd h.1 (by decide)

/-- `readDigits?` undoes `natChars`. -/
private theorem readDigits?_natChars (n : Nat) : readDigits? (natChars n) = some n := by
  have hvalue : Nat.ofDigitChars 10 (natChars n) 0 = n := Nat.ofDigitChars_ten_toDigits
  cases hchars : natChars n with
  | nil => exact absurd hchars Nat.toDigits_ne_nil
  | cons c rest =>
    -- digits are read one by one from the first
    have hdigits : ∀ d ∈ c :: rest, d.isDigit = true :=
      fun d hd => isDigit_of_mem_natChars (hchars ▸ hd)
    rw [List.forall_mem_cons] at hdigits
    rw [hchars, Nat.ofDigitChars_cons] at hvalue
    rw [readDigits?, digit?_of_isDigit hdigits.1, Option.bind_some, readRest_of_digits hdigits.2]
    simpa using hvalue

/-- `readNat?` undoes `natChars`, within the limit on digits. -/
private theorem readNat?_natChars {limit n : Nat} (h : (natChars n).length ≤ limit) :
    readNat? limit (natChars n) = some n := by
  -- digits are no underscores, so all characters count
  have hcount : (natChars n).countP (· != '_') = (natChars n).length := by
    rw [List.countP_eq_length]
    rintro c hc
    have hunderscore : c ≠ '_' := by
      rintro rfl
      exact Nat.underscore_not_in_toDigits hc
    simpa using hunderscore
  rw [readNat?, hcount, if_pos h, readDigits?_natChars]

/-- `readSigned?` undoes `chars`, within the limit on digits. -/
private theorem readSigned?_chars {limit : Nat} {i : Int} (h : fits limit i = true) :
    readSigned? limit (chars i) = some i := by
  have hread : readNat? limit (natChars i.natAbs) = some i.natAbs :=
    readNat?_natChars (by simpa [fits] using h)
  unfold chars
  split
  · rw [readSigned?, hread]
    show some (-(i.natAbs : Int)) = some i
    congr 1
    omega
  · cases hchars : natChars i.natAbs with
    | nil => exact absurd hchars Nat.toDigits_ne_nil
    | cons c rest =>
      have hdigit : c.isDigit = true := isDigit_of_mem_natChars (hchars ▸ List.mem_cons_self)
      -- the first character is a digit, so no sign is read
      rw [readSigned?, ← hchars, hread]
      · show some (i.natAbs : Int) = some i
        congr 1
        omega
      · rintro more ⟨⟩
        exact absurd hdigit (by decide)
      · rintro more ⟨⟩
        exact absurd hdigit (by decide)

/-- `readChars?` undoes `chars`, also where padding stands before the text. -/
private theorem readChars?_chars {limit : Nat} {i : Int} {gap : List Char}
    (hgap : ∀ c ∈ gap, isPadding c = true) (h : fits limit i = true) :
    readChars? limit (gap ++ chars i) = some i := by
  have htrim := trimBoth_enclosed gap (chars i) [] hgap (by simp)
    (fun c hc => (isNumeral_of_mem_chars (List.mem_of_mem_head? hc)).not_padding)
    (fun c hc => (isNumeral_of_mem_chars (List.mem_of_mem_getLast? hc)).not_padding)
  rw [List.append_nil] at htrim
  rw [readChars?, htrim, readSigned?_chars h]

end Integer

/-! ### Lists -/

namespace IntegerList

/-- The entries of a list, a comma and some spaces between two of them. -/
def separated (spaces : Nat) (is : List Int) : String :=
  String.ofList (joinChars (',' :: List.replicate spaces ' ') is)

/-- The end of a list in parentheses: a single entry has a comma after it. -/
def closing : List Int → List Char
  | [_] => [',', ')']
  | _ => [')']

/-- A list of integers in parentheses. -/
def parenthesised (is : List Int) : String :=
  String.ofList ('(' :: joinChars [',', ' '] is ++ closing is)

/-- The entries that the parts of a text stand for. -/
def readParts? (limit : Nat) (parts : List (List Char)) : Option (List Int) :=
  (parts.filter fun part => !part.all isBlank).mapM (Integer.readChars? limit)

private theorem readChars?_eq (limit : Nat) (cs : List Char) :
    readChars? limit cs = readParts? limit (splitAtChar ',' (trimBoth isEdge cs)) := rfl

section
variable {limit : Nat} {gap : List Char}

/-- `readParts?` reads the entry that its first part stands for. -/
private theorem readParts?_cons {i : Int} (hgap : ∀ c ∈ gap, isPadding c = true)
    (h : Integer.fits limit i = true) (parts : List (List Char)) :
    readParts? limit ((gap ++ Integer.chars i) :: parts) =
      (readParts? limit parts).map (i :: ·) := by
  -- a part with a numeral is not blank, so it is kept
  have hkept : (!(gap ++ Integer.chars i).all isBlank) = true := by
    obtain ⟨c, hc⟩ := List.exists_mem_of_ne_nil _ (Integer.chars_ne_nil i)
    have := (Integer.isNumeral_of_mem_chars hc).not_blank
    simp only [Bool.not_eq_true', List.all_eq_false]
    exact ⟨c, List.mem_append_right _ hc, by simp [this]⟩
  rw [readParts?, List.filter_cons, if_pos hkept, List.mapM_cons, Integer.readChars?_chars hgap h]
  show (readParts? limit parts >>= fun entries => some (i :: entries)) = _
  cases readParts? limit parts <;> rfl

/-- `readParts?` reads the entries that parts have been written for. -/
private theorem readParts?_entries {values : List Int} (hgap : ∀ c ∈ gap, isPadding c = true)
    (h : ∀ i ∈ values, Integer.fits limit i = true) :
    readParts? limit (values.map (gap ++ Integer.chars ·)) = some values := by
  induction values with
  | nil => rfl
  | cons i rest ih =>
    rw [List.forall_mem_cons] at h
    rw [List.map_cons, readParts?_cons hgap h.1, ih h.2, Option.map_some]

end

/-- `splitAtChar` gives back the texts that `joinChars` has joined, all but the first after
the gap. -/
private theorem splitAtChar_joinChars {lead gap : List Char} (hlead : ',' ∉ lead) (hgap : ',' ∉ gap)
    (i : Int) (rest : List Int) :
    splitAtChar ',' (lead ++ joinChars (',' :: gap) (i :: rest)) =
      (lead ++ Integer.chars i) :: rest.map (gap ++ Integer.chars ·) := by
  have hpart : ∀ {front : List Char}, ',' ∉ front → ∀ k, ',' ∉ front ++ Integer.chars k := by
    intro front hfront k
    simp [hfront, Integer.comma_not_mem_chars k]
  -- nothing leads the first entry and the gap leads all others, so what leads varies in the
  -- induction
  induction rest generalizing lead i with
  | nil => exact splitAtChar_of_not_mem (hpart hlead i)
  | cons j more ih =>
    have hsplit : lead ++ joinChars (',' :: gap) (i :: j :: more) =
        (lead ++ Integer.chars i) ++ ',' :: (gap ++ joinChars (',' :: gap) (j :: more)) := by
      simp [joinChars]
    rw [hsplit, splitAtChar_append (hpart hlead i), ih hgap j, List.map_cons]

/-- What `joinChars` makes of a list does not begin with an edge. -/
private theorem not_edge_of_head?_joinChars (separator : List Char) (values : List Int) :
    ∀ c ∈ (joinChars separator values).head?, isEdge c = false := by
  intro c hc
  cases values with
  | nil => cases hc
  | cons i rest =>
    -- the text begins with that of the first entry
    have hhead : (joinChars separator (i :: rest)).head? = (Integer.chars i).head? := by
      cases rest with
      | nil => rfl
      | cons j more =>
        rw [joinChars, List.append_assoc, List.head?_append_of_ne_nil _ (Integer.chars_ne_nil i)]
        exact List.cons_ne_nil _ _
    rw [hhead] at hc
    exact (Integer.isNumeral_of_mem_chars (List.mem_of_mem_head? hc)).not_edge

/-- What `joinChars` makes of a list does not end with an edge. -/
private theorem not_edge_of_getLast?_joinChars (separator : List Char) (values : List Int) :
    ∀ c ∈ (joinChars separator values).getLast?, isEdge c = false := by
  induction values with
  | nil => exact fun c hc => nomatch hc
  | cons i rest ih =>
    cases rest with
    | nil =>
      exact fun c hc => (Integer.isNumeral_of_mem_chars (List.mem_of_mem_getLast? hc)).not_edge
    | cons j more =>
      -- the text ends with that of the last entry
      have hne : joinChars separator (j :: more) ≠ [] := by
        cases more <;> simp [joinChars, Integer.chars_ne_nil]
      rw [joinChars, List.getLast?_append_of_ne_nil _ hne]
      · exact ih
      · exact List.cons_ne_nil _ _

/-- `readChars?` reads a list back from its entries between commas, whatever edges enclose them. -/
private theorem readChars?_enclosed {limit : Nat} (before gap after : List Char) {values : List Int}
    (hbefore : ∀ c ∈ before, isEdge c = true) (hafter : ∀ c ∈ after, isEdge c = true)
    (hgap : ∀ c ∈ gap, c = ' ') (h : ∀ i ∈ values, Integer.fits limit i = true) :
    readChars? limit (before ++ joinChars (',' :: gap) values ++ after) = some values := by
  rw [readChars?_eq, trimBoth_enclosed _ _ _ hbefore hafter (not_edge_of_head?_joinChars _ _)
      (not_edge_of_getLast?_joinChars _ _)]
  cases values with
  | nil => rfl
  | cons i rest =>
    -- the gaps are blanks, so they neither split nor spoil what is read
    have hcomma : ',' ∉ gap := fun hmem => absurd (hgap _ hmem) (by decide)
    have hpadding : ∀ c ∈ gap, isPadding c = true := by
      intro c hc
      rw [hgap c hc]
      decide
    rw [List.forall_mem_cons] at h
    have hsplit := splitAtChar_joinChars List.not_mem_nil hcomma i rest
    rw [List.nil_append] at hsplit
    rw [hsplit, readParts?_cons (by simp) h.1, readParts?_entries hpadding h.2, Option.map_some]

/-- In `readChars?` a comma after the only entry of a list does no harm. -/
private theorem readChars?_single {limit : Nat} {i : Int} (h : Integer.fits limit i = true) :
    readChars? limit ('(' :: Integer.chars i ++ [',', ')']) = some [i] := by
  have htext : '(' :: Integer.chars i ++ [',', ')'] =
      ['('] ++ (Integer.chars i ++ [',']) ++ [')'] := by simp
  have hfirst : ∀ c ∈ (Integer.chars i ++ [',']).head?, isEdge c = false := by
    rw [List.head?_append_of_ne_nil _ (Integer.chars_ne_nil i)]
    exact not_edge_of_head?_joinChars [] [i]
  have htrim : trimBoth isEdge ('(' :: Integer.chars i ++ [',', ')']) =
      Integer.chars i ++ [','] := by
    rw [htext]
    exact trimBoth_enclosed _ _ _ (by simp [isEdge]) (by simp [isEdge]) hfirst (by simp [isEdge])
  -- what comes after the comma is blank
  rw [readChars?_eq, htrim, splitAtChar_append (Integer.comma_not_mem_chars i)]
  exact readParts?_cons (List.forall_mem_nil _) h [[]]

end IntegerList

end TensorGraph.Text

/-! ### Attributes -/

namespace TensorGraph

open Text

/-- The ways in which an attribute holds a list of integers: as a tuple, or as one of its texts. -/
inductive Attribute.Holds (values : List Int) : Attribute → Prop
  | tuple : Holds values (.tuple (values.map .int))
  | bracketed : Holds values (.str (IntegerList.write values))
  | separated (spaces : Nat) : Holds values (.str (IntegerList.separated spaces values))
  | parenthesised : Holds values (.str (IntegerList.parenthesised values))

private theorem Attribute.toInts?_ofList (limit : Nat) (cs : List Char) :
    (Attribute.str (String.ofList cs)).toInts? limit = .ok (IntegerList.readChars? limit cs) := by
  rw [toInts?, IntegerList.read?, String.toList_ofList]

/-- `toInts?` reads a list from an attribute that `Holds` it, if integers are read from as many
digits as its entries have. -/
private theorem Attribute.Holds.toInts?_eq {values : List Int} {a : Attribute} (ha : a.Holds values)
    {limit : Nat} (h : ∀ i ∈ values, Integer.fits limit i = true) :
    a.toInts? limit = .ok (some values) := by
  cases ha with
  | tuple => exact toInts?_ints limit values
  | bracketed =>
    have hread := IntegerList.readChars?_enclosed ['['] [' '] [']'] (by simp [IntegerList.isEdge])
      (by simp [IntegerList.isEdge]) (by simp) h
    rw [IntegerList.write, toInts?_ofList]
    exact congrArg Except.ok hread
  | separated spaces =>
    -- between the entries stand only blanks
    have hspaces : ∀ c ∈ List.replicate spaces ' ', c = ' ' :=
      fun c hc => List.eq_of_mem_replicate hc
    have hread := IntegerList.readChars?_enclosed [] (List.replicate spaces ' ') []
      (by simp) (by simp) hspaces h
    rw [List.nil_append, List.append_nil] at hread
    rw [IntegerList.separated, toInts?_ofList, hread]
  | parenthesised =>
    rw [IntegerList.parenthesised, toInts?_ofList]
    refine congrArg Except.ok ?_
    unfold IntegerList.closing
    split
    · -- a single entry is followed by a comma
      exact IntegerList.readChars?_single (h _ List.mem_cons_self)
    · exact IntegerList.readChars?_enclosed ['('] [' '] [')'] (by simp [IntegerList.isEdge])
        (by simp [IntegerList.isEdge]) (by simp) h

/-- Reading undoes writing. A list of integers is read back by `toInts?` from the tuple and from
each of its texts, if the reader takes as many digits as the entries have, however many these are.
The limit that parameters are read with is also the one that lists are written with, so all that can
be written is read back. -/
theorem Attribute.reading_undoes_writing (values : List Int) :
    (∀ (limit : Nat) (a : Attribute), (∀ i ∈ values, Integer.fits limit i = true) → a.Holds values →
        a.toInts? limit = .ok (some values)) ∧
      ((∀ i ∈ values, Integer.fits Integer.digitLimit i = true) →
        Numeral.list values = .ok (IntegerList.write values) ∧
          ∀ (attrs : Attributes) (key : String) (a : Attribute), attrs.get? key = some a →
            a.Holds values → attrs.ints? key = .ok (some values)) := by
  refine ⟨fun limit a h ha => ha.toInts?_eq h, fun h => ⟨?_, ?_⟩⟩
  · have hchecked : values.forM Numeral.check = .ok () := forM_eq_ok fun i hi => if_pos (h i hi)
    rw [Numeral.list, hchecked]
    rfl
  · intro attrs key a hget ha
    rw [Attributes.ints?, hget]
    exact ha.toInts?_eq h

/-- Signs beside brackets, a single entry and no entry at all. -/
theorem Attribute.reading_undoes_writing_signs :
    (∀ i ∈ [-12, 0, (-7 : Int)], Integer.fits 2 i = true) ∧
      (Attribute.str "[-12, 0, -7]").toInts? 2 = .ok (some [-12, 0, -7]) ∧
      (Attribute.str "-12,0,-7").toInts? 2 = .ok (some [-12, 0, -7]) ∧
      (Attribute.str "(-5,)").toInts? 1 = .ok (some [-5]) ∧
      Attributes.ints? (Dict.ofList [("perm", .str "()")]) "perm" = .ok (some []) := by
  have hfits : ∀ i ∈ [-12, 0, (-7 : Int)], Integer.fits 2 i = true := by decide
  obtain ⟨hread, _⟩ := reading_undoes_writing [-12, 0, -7]
  obtain ⟨hsingle, _⟩ := reading_undoes_writing [-5]
  obtain ⟨_, hempty⟩ := reading_undoes_writing []
  refine ⟨hfits, hread 2 _ hfits .bracketed, hread 2 _ hfits (.separated 0), ?_, ?_⟩
  · exact hsingle 1 _ (by decide) .parenthesised
  · exact (hempty (List.forall_mem_nil _)).2 _ "perm" _ rfl .parenthesised

end TensorGraph
