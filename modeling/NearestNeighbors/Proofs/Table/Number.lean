import NearestNeighbors.Proofs.Decimal.Rounded
import NearestNeighbors.Proofs.Table.Reader

/-!
# The numbers of a record

The first four of five texts are numbers exactly when the rules say so. The leftmost one that is
none is reported, and where all of them are, each is stored as the double that is closest to what
its text amounts to.

* `IsSpelled`, `StoredAs`: texts that are numbers, and the doubles that are read for them.
* `isSpelled_iff`, `IsNumber.storedAs`: what is read goes by the rules.
* `ReadsNumbers`: what becomes of a record with five texts.
* `parse_numbers` (every record that is reached): its numbers are read by the rules.
-/

namespace NearestNeighbors.Table

open Csv (Record dataRecords)

variable {bytes : List UInt8} {text name : String} {numbers : List String} {x : Float}

/-- The text is a number by the rules. -/
def IsSpelled (text : String) : Prop := ∃ negative a, Numeral.Spells text.toList negative a

/-- **The double that is read for a text**: the text is a number, and whatever the rules say that
it amounts to is read as `x`. -/
structure StoredAs (text : String) (x : Float) : Prop where
  spelled : IsSpelled text
  reads : ∀ negative a, Numeral.Spells text.toList negative a → Numeral.Reads negative a x

/-- **Texts are numbers by the rules alone.** -/
theorem isSpelled_iff : IsSpelled text ↔ ∃ x, IsNumber text x := by
  constructor
  · rintro ⟨negative, a, h⟩
    obtain ⟨q, hparse, -⟩ := Numeral.parse?_of_spells h
    exact ⟨_, _, hparse, rfl⟩
  · rintro ⟨x, n, hparse, -⟩
    exact ⟨_, _, Numeral.spells_of_parse? hparse⟩

/-- **What is read is closest** to what the rules say. -/
theorem IsNumber.storedAs (h : IsNumber text x) : StoredAs text x := by
  refine ⟨isSpelled_iff.2 ⟨x, h⟩, fun negative a hspells => ?_⟩
  obtain ⟨n, hparse, rfl⟩ := h
  obtain ⟨q, hparse', rfl⟩ := Numeral.parse?_of_spells hspells
  rw [hparse'] at hparse
  cases hparse
  exact Numeral.toFloat_reads ⟨negative, q⟩

/-- **What becomes of a record** with four texts and one more, behind as many records as
`position` says. -/
structure ReadsNumbers (bytes : List UInt8) (position : ℕ) (r : Record) (numbers : List String)
    (name : String) : Prop where
  /-- A text that is no number is reported when it is the leftmost one. -/
  refused : ∀ text, parse bytes = .error (.invalidNumber (position + 1) text) ↔
    ∃ left right, numbers = left ++ text :: right ∧ (∀ t ∈ left, IsSpelled t) ∧ ¬IsSpelled text
  /-- Four numbers and a species are a sample. -/
  accepted : (∃ s, sampleOf (position + 1) r = .ok s) ↔
    (∀ t ∈ numbers, IsSpelled t) ∧ name ∈ species
  /-- The features of a sample are the doubles closest to what the texts amount to. -/
  stored : ∀ s, sampleOf (position + 1) r = .ok s →
    List.Forall₂ StoredAs numbers s.features.toList
  /-- It is the sample of the table. -/
  sample : ∀ samples, parse bytes = .ok samples →
    ∃ s, samples[position]? = some s ∧ sampleOf (position + 1) r = .ok s

variable {before after : List Record} {r : Record} {number : ℕ}

theorem sampleOf_eq_sampleOfTexts {texts : List String} (h : List.Forall₂ IsText r.fields texts) :
    sampleOf number r = sampleOfTexts number texts := by
  unfold sampleOf
  rw [fieldTexts_eq_ok.2 h]
  rfl

/-- An error about a number carries the number of its record. -/
theorem Defect.eq_of_invalidNumber {n : ℕ} (h : Defect number r (.invalidNumber n text)) :
    n = number := by
  cases h with
  | texts _ htexts =>
    cases htexts
    rfl

/-- A record that is reached gives the errors about its numbers. -/
theorem parse_eq_invalidNumber (hrecords : dataRecords bytes = before ++ r :: after)
    (hbefore : ∀ x ∈ before, ∃ s, Describes x.fields s) :
    parse bytes = .error (.invalidNumber (before.length + 1) text) ↔
      sampleOf (before.length + 1) r = .error (.invalidNumber (before.length + 1) text) := by
  constructor
  · intro h
    obtain ⟨before', r', after', hrecords', -, hdefect⟩ := parse_eq_error.1 h
    have hlen : before.length = before'.length := Nat.succ.inj hdefect.eq_of_invalidNumber
    obtain ⟨-, htail⟩ := List.append_inj (hrecords.symm.trans hrecords') hlen
    cases htail
    rw [← hlen] at hdefect
    exact sampleOf_eq_error.2 hdefect
  · intro h
    exact parse_eq_error.2 ⟨before, r, after, hrecords, hbefore, sampleOf_eq_error.1 h⟩

/-- The leftmost text that is no number. -/
theorem sampleOfTexts_eq_invalidNumber (hlen : numbers.length = dimensions) :
    sampleOfTexts number (numbers ++ [name]) = .error (.invalidNumber number text) ↔
      ∃ left right, numbers = left ++ text :: right ∧ (∀ t ∈ left, IsSpelled t) ∧
        ¬IsSpelled text := by
  simp only [isSpelled_iff, not_exists]
  rw [sampleOfTexts_numbers_error hlen, mapM_feature_eq_error]
  constructor
  · rintro (⟨left, t, right, hnumbers, hleft, ht, heq⟩ | ⟨-, hlabel⟩)
    · cases heq
      exact ⟨left, right, hnumbers, hleft, ht⟩
    · cases (label_eq_error.1 hlabel).2
  · rintro ⟨left, right, hnumbers, hleft, ht⟩
    exact .inl ⟨left, text, right, hnumbers, hleft, ht, rfl⟩

/-- Four numbers and a species. -/
theorem exists_sampleOfTexts (hlen : numbers.length = dimensions) :
    (∃ s, sampleOfTexts number (numbers ++ [name]) = .ok s) ↔
      (∀ t ∈ numbers, IsSpelled t) ∧ name ∈ species := by
  have hread : (∃ xs, numbers.mapM (feature number) = .ok xs) ↔ _ := exists_mapM_feature
  simp only [isSpelled_iff]
  rw [← hread]
  cases h : sampleOfTexts number (numbers ++ [name]) with
  | ok s =>
    obtain ⟨hread, hlabel⟩ := (sampleOfTexts_numbers_ok hlen).1 h
    exact iff_of_true ⟨s, rfl⟩ ⟨⟨_, hread⟩, List.mem_of_getElem? (label_eq_ok.1 hlabel)⟩
  | error e =>
    refine iff_of_false nofun ?_
    rintro ⟨⟨xs, hread⟩, hname⟩
    rcases (sampleOfTexts_numbers_error hlen).1 h with hread' | ⟨-, hlabel⟩
    · rw [hread] at hread'
      cases hread'
    · exact (label_eq_error.1 hlabel).1 hname

/-- The sample of a record stands where the record stands. -/
theorem exists_sample {samples : List Sample} (hrecords : dataRecords bytes = before ++ r :: after)
    (h : parse bytes = .ok samples) :
    ∃ s, samples[before.length]? = some s ∧ sampleOf number r = .ok s := by
  have hall := parse_eq_ok.1 h
  rw [List.forall₂_map_left_iff, hrecords] at hall
  have hr : before.length < (before ++ r :: after).length := by
    rw [List.length_append, List.length_cons]
    omega
  have hs : before.length < samples.length := hall.length_eq ▸ hr
  have hget := hall.get hr hs
  rw [List.get_eq_getElem, List.getElem_append_right le_rfl] at hget
  simp only [Nat.sub_self, List.getElem_cons_zero] at hget
  exact ⟨_, List.getElem?_eq_getElem hs, (sampleOf_eq_ok number).2 hget⟩

/-- **Numbers are read by the rules.** Of a record of five texts that is reached, the leftmost of
the first four texts that is no number is reported. Where there is none and the last text is a
species, the record is a sample, and its features are the doubles closest to what the texts
amount to. -/
theorem parse_numbers (hrecords : dataRecords bytes = before ++ r :: after)
    (hbefore : ∀ x ∈ before, ∃ s, Describes x.fields s)
    (htexts : List.Forall₂ IsText r.fields (numbers ++ [name]))
    (hlen : numbers.length = dimensions) :
    ReadsNumbers bytes before.length r numbers name := by
  have hsample : ∀ number, sampleOf number r = sampleOfTexts number (numbers ++ [name]) :=
    fun _ => sampleOf_eq_sampleOfTexts htexts
  refine ⟨fun text => ?_, ?_, fun s hs => ?_, fun samples h => exists_sample hrecords h⟩
  · rw [parse_eq_invalidNumber hrecords hbefore, hsample, sampleOfTexts_eq_invalidNumber hlen]
  · rw [hsample, exists_sampleOfTexts hlen]
  · rw [hsample] at hs
    have hread := ((sampleOfTexts_numbers_ok hlen).1 hs).1
    exact ((mapM_eq_ok_iff fun _ _ => feature_eq_ok).1 hread).imp fun _ _ => IsNumber.storedAs

/-- A point in front, an exponent behind a point, a word, and an exponent that has no digits. -/
theorem parse_numbers_near_miss :
    dataRecords "a,b,c,d,e\n.5, +1.E2,INF,1e,setosa".toUTF8.toList = [] ++
        ⟨.start, [".5", " +1.E2", "INF", "1e", "setosa"].map fun s => s.toUTF8.toList⟩ :: [] ∧
      parse "a,b,c,d,e\n.5, +1.E2,INF,1e,setosa".toUTF8.toList =
        .error (.invalidNumber 1 "1e") := by
  have hrecords : dataRecords "a,b,c,d,e\n.5, +1.E2,INF,1e,setosa".toUTF8.toList = [] ++
      ⟨.start, [".5", " +1.E2", "INF", "1e", "setosa"].map fun s => s.toUTF8.toList⟩ :: [] := by
    decide +kernel
  have htexts : List.Forall₂ IsText
      ([".5", " +1.E2", "INF", "1e", "setosa"].map fun s => s.toUTF8.toList)
      ([".5", "+1.E2", "INF", "1e"] ++ ["setosa"]) := by
    rw [List.forall₂_map_left_iff]
    refine .cons ⟨_, rfl, ?_⟩ <| .cons ⟨_, rfl, ?_⟩ <| .cons ⟨_, rfl, ?_⟩ <|
      .cons ⟨_, rfl, ?_⟩ <| .cons ⟨_, rfl, ?_⟩ .nil
    all_goals decide +kernel
  have hreads := parse_numbers hrecords nofun htexts rfl
  refine ⟨hrecords, (hreads.refused "1e").2 ⟨[".5", "+1.E2", "INF"], [], rfl, ?_, ?_⟩⟩
  · have hall : ∀ t ∈ [".5", "+1.E2", "INF"], (Numeral.parse? t).isSome := by decide +kernel
    intro t ht
    obtain ⟨n, hn⟩ := Option.isSome_iff_exists.1 (hall t ht)
    exact isSpelled_iff.2 ⟨_, n, hn, rfl⟩
  · have hnone : Numeral.parse? "1e" = none := by decide +kernel
    rw [isSpelled_iff]
    rintro ⟨x, n, hn, -⟩
    rw [hnone] at hn
    cases hn

end NearestNeighbors.Table
