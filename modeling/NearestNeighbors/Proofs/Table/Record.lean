import Mathlib
import NearestNeighbors.Except
import NearestNeighbors.Proofs.Text.Blank
import NearestNeighbors.Table.Reader

/-!
# What a record holds

A record holds a sample, or it has a defect. What it holds is said field by field; of
several defects the one that counts is the first of these: a field that is not text, the
number of fields, the leftmost text that is no number, the species.

* `IsText`, `IsNumber`, `Holds`, `Describes`: what a field, the texts of a record and a
  record hold.
* `TextDefect`, `Defect`: what is wrong otherwise.
* `sampleOf_eq_ok`, `sampleOf_eq_error`: a record is read as the one or the other.
-/

namespace NearestNeighbors.Table

open Csv (Record)

/-! ## Numbered lists -/

section Numbered

variable {ε α β γ : Type} {f : α × ℕ → Except ε β} {g : γ × ℕ → Except ε β} {R : α → β → Prop}
  {S : α → γ → Prop} {l : List α} {l' : List γ} {bs : List β} {e : ε} {k : ℕ}

theorem mapM_eq_ok_iff {f : α → Except ε β} (hf : ∀ a b, f a = .ok b ↔ R a b) :
    l.mapM f = .ok bs ↔ List.Forall₂ R l bs := by
  rw [mapM_eq_ok, ← List.forall₂_eq_eq_eq, List.forall₂_map_left_iff, List.forall₂_map_right_iff]
  simp only [hf]

/-- Steps whose success does not depend on their number. -/
theorem mapM_zipIdx_eq_ok (hf : ∀ a i b, f (a, i) = .ok b ↔ R a b) :
    (l.zipIdx k).mapM f = .ok bs ↔ List.Forall₂ R l bs := by
  rw [mapM_eq_ok_iff fun p b => hf p.1 p.2 b, ← List.forall₂_map_left_iff, List.zipIdx_map_fst]

/-- The step that fails carries its number. -/
theorem mapM_zipIdx_eq_error (hf : ∀ a i b, f (a, i) = .ok b ↔ R a b) :
    (l.zipIdx k).mapM f = .error e ↔ ∃ before a after, l = before ++ a :: after ∧
      (∀ x ∈ before, ∃ b, R x b) ∧ f (a, k + before.length) = .error e := by
  rw [mapM_eq_error]
  constructor
  · rintro ⟨before, ⟨a, i⟩, after, h, hbefore, ha⟩
    obtain ⟨first, rest, rfl, hfirst, hrest⟩ := List.zipIdx_eq_append_iff.1 h
    obtain ⟨a, rest, rfl, ⟨⟩, -⟩ := List.zipIdx_eq_cons_iff.1 hrest.symm
    refine ⟨first, a, rest, rfl, fun x hx => ?_, ha⟩
    obtain ⟨i, hi, hx⟩ := List.mem_iff_getElem.1 hx
    have hmem : (x, k + i) ∈ before := by
      rw [hfirst, List.mk_mem_zipIdx_iff_le_and_getElem?_sub]
      exact ⟨Nat.le_add_right k i, by simp [hi, hx]⟩
    obtain ⟨b, hb⟩ := hbefore _ hmem
    exact ⟨b, (hf x _ b).1 hb⟩
  · rintro ⟨before, a, after, rfl, hbefore, ha⟩
    refine ⟨before.zipIdx k, (a, k + before.length), after.zipIdx (k + before.length + 1), ?_,
      ?_, ha⟩
    · rw [List.zipIdx_append, List.zipIdx_cons]
    · rintro ⟨x, i⟩ hx
      obtain ⟨b, hb⟩ := hbefore x (List.fst_mem_of_mem_zipIdx hx)
      exact ⟨b, (hf x i b).2 hb⟩

/-- Lists whose elements are treated alike under the same number. -/
theorem mapM_zipIdx_congr (h : List.Forall₂ S l l') (hfg : ∀ a c i, S a c → f (a, i) = g (c, i)) :
    (l.zipIdx k).mapM f = (l'.zipIdx k).mapM g := by
  induction h generalizing k with
  | nil => rfl
  | cons hac _ ih =>
    rw [List.zipIdx_cons, List.zipIdx_cons, List.mapM_cons, List.mapM_cons, hfg _ _ k hac, ih]

end Numbered

/-! ## Fields -/

/-- The bytes are a text, which is `text` with blanks around it. -/
def IsText (field : List UInt8) (text : String) : Prop :=
  ∃ s : String, field = s.toUTF8.toList ∧ text = Text.trim s

/-- The length of the longest front that is text, once the blanks around the bytes are gone. -/
def TextLength (field : List UInt8) (n : ℕ) : Prop :=
  IsGreatest {m | m ≤ (Text.trimWith Text.isAsciiBlank field).length ∧
    ∃ s : String, (Text.trimWith Text.isAsciiBlank field).take m = s.toUTF8.toList} n

variable {field : List UInt8} {text name : String} {n l : ℕ}

theorem fieldText_of_isText (h : IsText field text) : fieldText field = .ok text := by
  obtain ⟨s, rfl, rfl⟩ := h
  unfold fieldText
  rw [Text.toList_toUTF8, Text.trimWith_encode]
  have hdecode : Text.decode (Text.encode (Text.trimWith Text.isAsciiBlankChar s.toList)) =
      .ok (String.ofList (Text.trimWith Text.isAsciiBlankChar s.toList)) := by
    rw [Text.decode_eq_ok, Text.toList_toUTF8, String.toList_ofList]
  rw [hdecode]
  show Except.ok (Text.trim _) = _
  rw [Text.trim_trimAscii, String.ofList_toList]

/-- Blank bytes around a text are not part of it. -/
theorem isText_surround {front back : List UInt8} (hfront : ∀ b ∈ front, Text.isAsciiBlank b)
    (hback : ∀ b ∈ back, Text.isAsciiBlank b) (s : String) :
    IsText (front ++ s.toUTF8.toList ++ back) (Text.trim s) := by
  obtain ⟨before, rfl, hbefore⟩ := Text.exists_encode_eq front hfront
  obtain ⟨behind, rfl, hbehind⟩ := Text.exists_encode_eq back hback
  refine ⟨String.ofList (before ++ s.toList ++ behind), ?_, ?_⟩
  · rw [Text.toList_toUTF8, Text.toList_toUTF8, String.toList_ofList, Text.encode_append,
      Text.encode_append]
  · rw [Text.trim_ofList_surround (fun c hc => Text.isBlank_of_isAsciiBlankChar (hbefore c hc))
      (fun c hc => Text.isBlank_of_isAsciiBlankChar (hbehind c hc)), String.ofList_toList]

theorem isText_of_fieldText (h : fieldText field = .ok text) : IsText field text := by
  obtain ⟨s, hdecode, rfl⟩ := map_eq_ok.1 h
  -- what was trimmed off are the bytes of blanks, so the whole field is text as well
  obtain ⟨front, back, heq, hfront, hback, -⟩ := Text.exists_trimWith Text.isAsciiBlank field
  rw [Text.decode_eq_ok.1 hdecode] at heq
  rw [heq]
  exact isText_surround hfront hback s

theorem fieldText_eq_ok : fieldText field = .ok text ↔ IsText field text :=
  ⟨isText_of_fieldText, fieldText_of_isText⟩

theorem fieldText_eq_error : fieldText field = .error n ↔
    (∀ text, ¬IsText field text) ∧ TextLength field n := by
  have hlength : ∀ {m}, fieldText field = .error m → TextLength field m := fun h =>
    Text.decode_eq_error (map_eq_error.1 h)
  constructor
  · intro h
    refine ⟨fun text htext => ?_, hlength h⟩
    rw [fieldText_of_isText htext] at h
    cases h
  · rintro ⟨hno, hn⟩
    cases h : fieldText field with
    | ok text => exact absurd (isText_of_fieldText h) (hno text)
    | error m => rw [(hlength h).unique hn]

/-- The text is a number in decimal notation, or a word for one, and rounds to `x`. -/
def IsNumber (text : String) (x : Float) : Prop :=
  ∃ numeral, Numeral.parse? text = some numeral ∧ numeral.toFloat = x

theorem feature_eq_ok {x : Float} : feature n text = .ok x ↔ IsNumber text x := by
  unfold feature IsNumber
  cases Numeral.parse? text with
  | none => simp
  | some numeral => simp

theorem feature_eq_error {e : Error} :
    feature n text = .error e ↔ (∀ x, ¬IsNumber text x) ∧ e = .invalidNumber n text := by
  unfold feature IsNumber
  cases Numeral.parse? text with
  | none => simp [eq_comm]
  | some numeral => simp

theorem label_eq_ok : label name = .ok l ↔ species[l]? = some name := by
  have hnodup : species.Nodup := by decide
  unfold label
  cases h : species.idxOf? name with
  | none =>
    rw [List.idxOf?_eq_none_iff] at h
    refine iff_of_false nofun fun hl => h (List.mem_of_getElem? hl)
  | some i =>
    obtain ⟨hi, hname, -⟩ := List.idxOf?_eq_some_iff.1 h
    have hget : species[i]? = some name := by
      rw [List.getElem?_eq_getElem hi, hname]
    show Except.ok i = Except.ok l ↔ _
    rw [Except.ok.injEq]
    constructor
    · rintro rfl
      exact hget
    · intro hl
      exact (List.getElem?_inj hi hnodup).1 (hget.trans hl.symm)

theorem label_eq_error {e : Error} :
    label name = .error e ↔ name ∉ species ∧ e = .unknownSpecies name := by
  unfold label
  cases h : species.idxOf? name with
  | none => simp [List.idxOf?_eq_none_iff.1 h, eq_comm]
  | some i =>
    obtain ⟨hi, hname, -⟩ := List.idxOf?_eq_some_iff.1 h
    have hmem : name ∈ species := hname ▸ List.getElem_mem hi
    simp [hmem]

/-! ## Texts -/

/-- The texts are four numbers and the name of a species, those of the sample. -/
def Holds (texts : List String) (s : Sample) : Prop :=
  ∃ numbers name, texts = numbers ++ [name] ∧ List.Forall₂ IsNumber numbers s.features.toList ∧
    species[s.label]? = some name

/-- **What is wrong with the texts** of record `number`. -/
inductive TextDefect (number : ℕ) (texts : List String) : Error → Prop where
  | fieldCount (hlen : texts.length ≠ dimensions + 1) :
    TextDefect number texts (.fieldCount number (dimensions + 1) texts.length)
  | invalidNumber {before after : List String} {text name : String}
    (htexts : texts = before ++ text :: after ++ [name])
    (hlen : texts.length = dimensions + 1) (hbefore : ∀ t ∈ before, ∃ x, IsNumber t x)
    (htext : ∀ x, ¬IsNumber text x) : TextDefect number texts (.invalidNumber number text)
  | unknownSpecies {numbers : List String} {name : String} (htexts : texts = numbers ++ [name])
    (hlen : texts.length = dimensions + 1) (hnumbers : ∀ t ∈ numbers, ∃ x, IsNumber t x)
    (hname : name ∉ species) : TextDefect number texts (.unknownSpecies name)

variable {texts numbers : List String} {s : Sample} {e : Error} {number : ℕ}

/-- As many texts as there should be are numbers and a name. -/
theorem exists_numbers (h : texts.length = dimensions + 1) :
    ∃ numbers name, texts = numbers ++ [name] ∧ numbers.length = dimensions := by
  rcases List.eq_nil_or_concat texts with rfl | ⟨numbers, name, rfl⟩
  · cases h
  · rw [List.concat_eq_append, List.length_append, List.length_singleton] at h
    exact ⟨numbers, name, List.concat_eq_append, Nat.succ.inj h⟩

theorem sampleOfTexts_of_length (h : texts.length ≠ dimensions + 1) :
    sampleOfTexts number texts = .error (.fieldCount number (dimensions + 1) texts.length) := by
  unfold sampleOfTexts
  split
  · exact absurd rfl h
  · rfl

/-- The numbers are read one after another, then the species. -/
theorem sampleOfTexts_map (number : ℕ) (h : numbers.length = dimensions) (name : String) :
    (sampleOfTexts number (numbers ++ [name])).map (fun s => (s.features.toList, s.label)) =
      numbers.mapM (feature number) >>= fun xs => label name >>= fun l => .ok (xs, l) := by
  obtain ⟨a, b, c, d, rfl⟩ : ∃ a b c d, numbers = [a, b, c, d] := by
    match numbers, h with
    | [a, b, c, d], _ => exact ⟨a, b, c, d, rfl⟩
  simp only [List.cons_append, List.nil_append, sampleOfTexts, List.mapM_cons, List.mapM_nil]
  cases feature number a <;> cases feature number b <;> cases feature number c <;>
    cases feature number d <;> cases label name <;> rfl

/-- Two samples with the same entries are one. -/
theorem sample_ext {t : Sample} (hfeatures : s.features.toList = t.features.toList)
    (hlabel : s.label = t.label) : s = t := by
  cases s
  cases t
  rw [Sample.mk.injEq]
  exact ⟨Vector.toList_inj.1 hfeatures, hlabel⟩

theorem sampleOfTexts_numbers_ok (h : numbers.length = dimensions) :
    sampleOfTexts number (numbers ++ [name]) = .ok s ↔
      numbers.mapM (feature number) = .ok s.features.toList ∧ label name = .ok s.label := by
  have hentries : sampleOfTexts number (numbers ++ [name]) = .ok s ↔
      (sampleOfTexts number (numbers ++ [name])).map (fun s => (s.features.toList, s.label)) =
        .ok (s.features.toList, s.label) := by
    rw [map_eq_ok]
    refine ⟨fun hs => ⟨s, hs, rfl⟩, ?_⟩
    rintro ⟨t, ht, heq⟩
    obtain ⟨hfeatures, hlabel⟩ := Prod.mk.inj heq
    rw [ht, sample_ext hfeatures hlabel]
  rw [hentries, sampleOfTexts_map number h name]
  simp [bind_eq_ok]

theorem sampleOfTexts_numbers_error (h : numbers.length = dimensions) :
    sampleOfTexts number (numbers ++ [name]) = .error e ↔
      numbers.mapM (feature number) = .error e ∨
        (∃ xs, numbers.mapM (feature number) = .ok xs) ∧ label name = .error e := by
  rw [← map_eq_error, sampleOfTexts_map number h name]
  simp [bind_eq_error]

/-- **Texts that are read** hold the sample. -/
theorem sampleOfTexts_eq_ok : sampleOfTexts number texts = .ok s ↔ Holds texts s := by
  constructor
  · intro h
    by_cases hlen : texts.length = dimensions + 1
    · obtain ⟨numbers, name, rfl, hnumbers⟩ := exists_numbers hlen
      obtain ⟨hread, hname⟩ := (sampleOfTexts_numbers_ok hnumbers).1 h
      exact ⟨numbers, name, rfl, (mapM_eq_ok_iff fun _ _ => feature_eq_ok).1 hread,
        label_eq_ok.1 hname⟩
    · rw [sampleOfTexts_of_length hlen] at h
      cases h
  · rintro ⟨numbers, name, rfl, hnumbers, hname⟩
    have hlen : numbers.length = dimensions := by
      rw [hnumbers.length_eq, Vector.length_toList]
    exact (sampleOfTexts_numbers_ok hlen).2
      ⟨(mapM_eq_ok_iff fun _ _ => feature_eq_ok).2 hnumbers, label_eq_ok.2 hname⟩

/-- Numbers that are all read, or the leftmost that is not. -/
theorem mapM_feature_eq_error : numbers.mapM (feature number) = .error e ↔
    ∃ before text after, numbers = before ++ text :: after ∧
      (∀ t ∈ before, ∃ x, IsNumber t x) ∧ (∀ x, ¬IsNumber text x) ∧
      e = .invalidNumber number text := by
  simp only [mapM_eq_error, feature_eq_ok, feature_eq_error]

theorem exists_mapM_feature :
    (∃ xs, numbers.mapM (feature number) = .ok xs) ↔ ∀ t ∈ numbers, ∃ x, IsNumber t x := by
  simp only [exists_mapM_eq_ok, feature_eq_ok]

/-- **Texts that are not read** have the defect that is reported. -/
theorem sampleOfTexts_eq_error :
    sampleOfTexts number texts = .error e ↔ TextDefect number texts e := by
  constructor
  · intro h
    by_cases hlen : texts.length = dimensions + 1
    · obtain ⟨numbers, name, rfl, hnumbers⟩ := exists_numbers hlen
      rcases (sampleOfTexts_numbers_error hnumbers).1 h with hread | ⟨hread, hlabel⟩
      · obtain ⟨before, text, after, rfl, hbefore, htext, rfl⟩ := mapM_feature_eq_error.1 hread
        exact .invalidNumber rfl hlen hbefore htext
      · obtain ⟨hname, rfl⟩ := label_eq_error.1 hlabel
        exact .unknownSpecies rfl hlen (exists_mapM_feature.1 hread) hname
    · rw [sampleOfTexts_of_length hlen] at h
      cases h
      exact .fieldCount hlen
  · rintro (hlen | ⟨rfl, hlen, hbefore, htext⟩ | ⟨rfl, hlen, hnumbers, hname⟩)
    · exact sampleOfTexts_of_length hlen
    · rw [List.length_append] at hlen
      exact (sampleOfTexts_numbers_error (Nat.succ.inj hlen)).2
        (.inl (mapM_feature_eq_error.2 ⟨_, _, _, rfl, hbefore, htext, rfl⟩))
    · rw [List.length_append] at hlen
      exact (sampleOfTexts_numbers_error (Nat.succ.inj hlen)).2
        (.inr ⟨exists_mapM_feature.2 hnumbers, label_eq_error.2 ⟨hname, rfl⟩⟩)

/-! ## Records -/

/-- **The fields of a sample**: they are text and hold it. -/
def Describes (fields : List (List UInt8)) (s : Sample) : Prop :=
  ∃ texts, List.Forall₂ IsText fields texts ∧ Holds texts s

/-- **What is wrong with record `number`**: its first field that is not text, or what is
wrong with its texts. -/
inductive Defect (number : ℕ) (r : Record) : Error → Prop where
  | encoding {before after : List (List UInt8)} {field : List UInt8} {valid : ℕ}
    (hfields : r.fields = before ++ field :: after)
    (hbefore : ∀ f ∈ before, ∃ text, IsText f text) (hfield : ∀ text, ¬IsText field text)
    (hvalid : TextLength field valid) :
    Defect number r (.encoding r.start before.length valid)
  | texts {texts : List String} {e : Error} (hfields : List.Forall₂ IsText r.fields texts)
    (htexts : TextDefect number texts e) : Defect number r e

variable {r : Record}

theorem fieldTexts_eq_ok : fieldTexts r = .ok texts ↔ List.Forall₂ IsText r.fields texts := by
  refine mapM_zipIdx_eq_ok fun field i text => ?_
  rw [← fieldText_eq_ok]
  dsimp only
  cases fieldText field <;> simp

theorem fieldTexts_eq_error : fieldTexts r = .error e ↔
    ∃ before field after valid, r.fields = before ++ field :: after ∧
      (∀ f ∈ before, ∃ text, IsText f text) ∧ (∀ text, ¬IsText field text) ∧
      TextLength field valid ∧ e = .encoding r.start before.length valid := by
  unfold fieldTexts
  rw [mapM_zipIdx_eq_error (R := IsText)]
  · refine exists_congr fun before => exists_congr fun field => exists_congr fun after => ?_
    dsimp only
    rw [Nat.zero_add]
    cases h : fieldText field with
    | error valid =>
      obtain ⟨hno, hvalid⟩ := fieldText_eq_error.1 h
      constructor
      · rintro ⟨hfields, hbefore, herror⟩
        cases herror
        exact ⟨valid, hfields, hbefore, hno, hvalid, rfl⟩
      · rintro ⟨valid', hfields, hbefore, -, hvalid', rfl⟩
        rw [hvalid'.unique hvalid]
        exact ⟨hfields, hbefore, rfl⟩
    | ok text =>
      refine iff_of_false ?_ ?_
      · rintro ⟨-, -, herror⟩
        cases herror
      · rintro ⟨valid, -, -, hno, -⟩
        exact hno text (fieldText_eq_ok.1 h)
  · intro field i text
    rw [← fieldText_eq_ok]
    dsimp only
    cases fieldText field <;> simp

theorem sampleOf_eq_ok (number : ℕ) : sampleOf number r = .ok s ↔ Describes r.fields s := by
  unfold sampleOf Describes
  simp only [bind_eq_ok, fieldTexts_eq_ok, sampleOfTexts_eq_ok]

theorem sampleOf_eq_error : sampleOf number r = .error e ↔ Defect number r e := by
  unfold sampleOf
  simp only [bind_eq_error, fieldTexts_eq_ok, fieldTexts_eq_error, sampleOfTexts_eq_error]
  constructor
  · rintro (⟨before, field, after, valid, hfields, hbefore, hfield, hvalid, rfl⟩ |
      ⟨texts, hfields, htexts⟩)
    · exact .encoding hfields hbefore hfield hvalid
    · exact .texts hfields htexts
  · rintro (⟨hfields, hbefore, hfield, hvalid⟩ | ⟨hfields, htexts⟩)
    · exact .inl ⟨_, _, _, _, hfields, hbefore, hfield, hvalid, rfl⟩
    · exact .inr ⟨_, hfields, htexts⟩

end NearestNeighbors.Table
