import NearestNeighbors.Proofs.Decimal.Notation

/-!
# The grammar of numbers

What is a number, and which one, is said here by rules alone: a sign that may be left out, then a
word in any mixture of cases or digits with a point and an exponent. Neither the digits nor the
exponent have a limit. The reader takes a text for a number exactly when the rules do, and for the
same one.

* `Digits`, `SpellsSign`, `SpellsFixed`, `SpellsExponent`: the parts of a decimal.
* `Amount`, `SpellsAmount`, `Spells`: decimals, words, and both with a sign.
* `parse?_of_spells`, `spells_of_parse?`: the reader goes by the rules.
-/

namespace NearestNeighbors.Numeral

variable {c : Char} {cs ds fs es rest : List Char} {n k : ℕ} {v : ℚ} {e : ℤ}

/-! ## The rules -/

/-- Digits, one at least, and the natural number that they denote. -/
inductive Digits : List Char → ℕ → Prop where
  | one {c : Char} (hc : isDigit c) : Digits [c] (digitValue c)
  | more {ds : List Char} {n : ℕ} {c : Char} (h : Digits ds n) (hc : isDigit c) :
    Digits (ds ++ [c]) (10 * n + digitValue c)

/-- A sign, or none; `true` is a minus. -/
inductive SpellsSign : List Char → Bool → Prop where
  | none : SpellsSign [] false
  | plus : SpellsSign ['+'] false
  | minus : SpellsSign ['-'] true

/-- Digits with a point behind them, between them or in front of them, or with none. -/
inductive SpellsFixed : List Char → ℚ → Prop where
  | whole {ds : List Char} {n : ℕ} (h : Digits ds n) : SpellsFixed ds n
  | point {ds : List Char} {n : ℕ} (h : Digits ds n) : SpellsFixed (ds ++ ['.']) n
  | places {ds fs : List Char} {n k : ℕ} (h : Digits ds n) (hf : Digits fs k) :
    SpellsFixed (ds ++ '.' :: fs) (n + k / 10 ^ fs.length)
  | fraction {fs : List Char} {k : ℕ} (hf : Digits fs k) :
    SpellsFixed ('.' :: fs) (k / 10 ^ fs.length)

/-- A letter, a sign that may be left out and digits, or nothing at all. -/
inductive SpellsExponent : List Char → ℤ → Prop where
  | none : SpellsExponent [] 0
  | positive {c : Char} {sign ds : List Char} {n : ℕ} (hc : c = 'e' ∨ c = 'E')
    (hs : SpellsSign sign false) (h : Digits ds n) : SpellsExponent (c :: (sign ++ ds)) n
  | negative {c : Char} {sign ds : List Char} {n : ℕ} (hc : c = 'e' ∨ c = 'E')
    (hs : SpellsSign sign true) (h : Digits ds n) : SpellsExponent (c :: (sign ++ ds)) (-n)

/-- What a number amounts to, without its sign. -/
inductive Amount where
  | finite (value : ℚ)
  | infinity
  | notANumber

/-- The letters of a word, each one small or capital. -/
def InAnyCase (cs word : List Char) : Prop :=
  List.Forall₂ (fun c l => c = l ∨ c = l.toUpper) cs word

/-- A word or a decimal. -/
inductive SpellsAmount : List Char → Amount → Prop where
  | inf {cs : List Char} (h : InAnyCase cs ['i', 'n', 'f']) : SpellsAmount cs .infinity
  | infinity {cs : List Char} (h : InAnyCase cs ['i', 'n', 'f', 'i', 'n', 'i', 't', 'y']) :
    SpellsAmount cs .infinity
  | nan {cs : List Char} (h : InAnyCase cs ['n', 'a', 'n']) : SpellsAmount cs .notANumber
  | decimal {fixed exponent : List Char} {v : ℚ} {e : ℤ} (hf : SpellsFixed fixed v)
    (he : SpellsExponent exponent e) : SpellsAmount (fixed ++ exponent) (.finite (v * 10 ^ e))

/-- **The spelling of a number**: a sign that may be left out, and what follows it. -/
inductive Spells : List Char → Bool → Amount → Prop where
  | signed {sign cs : List Char} {negative : Bool} {a : Amount} (hs : SpellsSign sign negative)
    (ha : SpellsAmount cs a) : Spells (sign ++ cs) negative a

/-! ## Digits -/

theorem ofDigits_concat (cs : List Char) (c : Char) :
    ofDigits (cs ++ [c]) = 10 * ofDigits cs + digitValue c := by
  unfold ofDigits
  rw [List.foldl_append]
  rfl

/-- Digits behind digits. -/
theorem ofDigits_append (cs ds : List Char) :
    ofDigits (cs ++ ds) = ofDigits cs * 10 ^ ds.length + ofDigits ds := by
  induction ds using List.reverseRecOn with
  | nil =>
    rw [List.append_nil, List.length_nil, Nat.pow_zero, Nat.mul_one]
    rfl
  | append_singleton ds c ih =>
    rw [← List.append_assoc, ofDigits_concat, ofDigits_concat, ih, List.length_append,
      List.length_singleton]
    ring

/-- **Digits** are a row of characters that are digits, and denote what is read off them. -/
theorem digits_iff : Digits cs n ↔ cs ≠ [] ∧ (∀ c ∈ cs, isDigit c) ∧ ofDigits cs = n := by
  constructor
  · intro h
    induction h with
    | one hc =>
      refine ⟨List.cons_ne_nil _ _, fun c hmem => ?_, ?_⟩
      · rw [List.mem_singleton.1 hmem]
        exact hc
      · show 10 * 0 + _ = _
        rw [Nat.mul_zero, Nat.zero_add]
    | @more ds n c h hc ih =>
      obtain ⟨-, hall, hvalue⟩ := ih
      refine ⟨List.concat_ne_nil _ _, fun c hmem => ?_, by rw [ofDigits_concat, hvalue]⟩
      rcases List.mem_append.1 hmem with hmem | hmem
      · exact hall c hmem
      · rw [List.mem_singleton.1 hmem]
        exact hc
  · rintro ⟨hne, hall, rfl⟩
    induction cs using List.reverseRecOn with
    | nil => exact absurd rfl hne
    | append_singleton cs c ih =>
      have hc : isDigit c := hall c (List.mem_append_right cs (List.mem_singleton_self c))
      rw [ofDigits_concat]
      by_cases hcs : cs = []
      · subst hcs
        have h := Digits.one hc
        rwa [← Nat.zero_add (digitValue c)] at h
      · exact .more (ih hcs fun c hmem => hall c (List.mem_append_left _ hmem)) hc

theorem Digits.ne_nil (h : Digits ds n) : ds ≠ [] := (digits_iff.1 h).1

theorem Digits.all (h : Digits ds n) : ∀ c ∈ ds, isDigit c := (digits_iff.1 h).2.1

theorem Digits.ofDigits_eq (h : Digits ds n) : ofDigits ds = n := (digits_iff.1 h).2.2

/-- Digits are taken up to the first character that is none. -/
theorem span_digits (h : ∀ c ∈ ds, isDigit c) (hrest : ∀ c ∈ rest.head?, isDigit c = false) :
    (ds ++ rest).takeWhile isDigit = ds ∧ (ds ++ rest).dropWhile isDigit = rest := by
  rw [List.takeWhile_append_of_pos h, List.dropWhile_append_of_pos h]
  cases rest with
  | nil => simp
  | cons c rest =>
    have hc : isDigit c = false := hrest c rfl
    simp [hc]

/-! ## Signs -/

/-- A sign is split off, and where there is none nothing is. -/
theorem splitSign_of_spells {sign : List Char} {negative : Bool} (hs : SpellsSign sign negative)
    (hcs : ∀ c ∈ cs.head?, c ≠ '+' ∧ c ≠ '-') : splitSign (sign ++ cs) = (negative, cs) := by
  cases hs with
  | none =>
    cases cs with
    | nil => rfl
    | cons c cs =>
      obtain ⟨hplus, hminus⟩ := hcs c rfl
      rw [List.nil_append]
      unfold splitSign
      split
      · rename_i heq
        exact absurd (List.cons.inj heq).1 hminus
      · rename_i heq
        exact absurd (List.cons.inj heq).1 hplus
      · rfl
  | plus => rfl
  | minus => rfl

theorem spells_splitSign (cs : List Char) :
    ∃ sign, cs = sign ++ (splitSign cs).2 ∧ SpellsSign sign (splitSign cs).1 := by
  unfold splitSign
  split
  · exact ⟨['-'], rfl, .minus⟩
  · exact ⟨['+'], rfl, .plus⟩
  · exact ⟨[], rfl, .none⟩

theorem ne_sign_of_isDigit (h : isDigit c) : c ≠ '+' ∧ c ≠ '-' := by
  constructor
  · rintro rfl
    cases h
  · rintro rfl
    cases h

theorem Digits.head (h : Digits ds n) : ∀ c ∈ ds.head?, isDigit c :=
  fun c hc => h.all c (List.mem_of_mem_head? hc)

/-! ## Exponents -/

theorem SpellsExponent.head (h : SpellsExponent es e) :
    ∀ c ∈ es.head?, isDigit c = false ∧ c ≠ '.' := by
  have hletter : ∀ c, c = 'e' ∨ c = 'E' → isDigit c = false ∧ c ≠ '.' := by
    rintro c (rfl | rfl)
    · decide
    · decide
  cases h with
  | none => nofun
  | positive hc hs h =>
    rintro c ⟨⟩
    exact hletter _ hc
  | negative hc hs h =>
    rintro c ⟨⟩
    exact hletter _ hc

theorem parseExponent?_cons (c : Char) (cs : List Char) : parseExponent? (c :: cs) =
    if c = 'e' ∨ c = 'E' then
      if (splitSign cs).2 ≠ [] ∧ (splitSign cs).2.all isDigit then
        some (if (splitSign cs).1 then -(ofDigits (splitSign cs).2 : ℤ)
          else ofDigits (splitSign cs).2)
      else none
    else none := rfl

/-- **Exponents are read by the rules.** -/
theorem parseExponent?_eq_some_iff : parseExponent? es = some e ↔ SpellsExponent es e := by
  constructor
  · intro h
    cases es with
    | nil =>
      cases h
      exact .none
    | cons c cs =>
      obtain ⟨sign, hcs, hs⟩ := spells_splitSign cs
      rw [parseExponent?_cons] at h
      generalize splitSign cs = split at h hcs hs
      obtain ⟨negative, ds⟩ := split
      dsimp only at h hcs hs
      subst hcs
      split_ifs at h with hc hds hneg
      · have hdigits := digits_iff.2 ⟨hds.1, List.all_eq_true.1 hds.2, rfl⟩
        cases h
        exact .negative hc (hneg ▸ hs) hdigits
      · have hdigits := digits_iff.2 ⟨hds.1, List.all_eq_true.1 hds.2, rfl⟩
        cases h
        rw [Bool.not_eq_true] at hneg
        exact .positive hc (hneg ▸ hs) hdigits
  · have hread : ∀ {c : Char} {sign ds : List Char} {negative : Bool} {n : ℕ}, c = 'e' ∨ c = 'E' →
        SpellsSign sign negative → Digits ds n → parseExponent? (c :: (sign ++ ds)) =
          some (if negative then -(n : ℤ) else n) := by
      intro c sign ds negative n hc hs h
      have hsplit := splitSign_of_spells hs fun c hmem => ne_sign_of_isDigit (h.head c hmem)
      have hall : ds.all isDigit = true := List.all_eq_true.2 h.all
      rw [parseExponent?_cons, hsplit, if_pos hc, if_pos ⟨h.ne_nil, hall⟩, h.ofDigits_eq]
    intro h
    cases h with
    | none => rfl
    | positive hc hs h => exact hread hc hs h
    | negative hc hs h => exact hread hc hs h

/-! ## Decimals -/

/-- The value of digits with a point between them. -/
theorem value_places (whole fraction : List Char) (e : ℤ) :
    Decimal.value ⟨ofDigits (whole ++ fraction), e - fraction.length⟩ =
      (ofDigits whole + ofDigits fraction / 10 ^ fraction.length) * 10 ^ e := by
  have hten : (10 : ℚ) ≠ 0 := by norm_num
  unfold Decimal.value
  dsimp only
  rw [ofDigits_append, zpow_sub₀ hten, zpow_natCast]
  push_cast
  field_simp

theorem splitFraction_of_ne (h : ∀ c ∈ rest.head?, c ≠ '.') : splitFraction rest = ([], rest) := by
  unfold splitFraction
  split
  · exact absurd rfl (h '.' rfl)
  · rfl

theorem splitFraction_point (hf : ∀ c ∈ fs, isDigit c)
    (h : ∀ c ∈ rest.head?, isDigit c = false) : splitFraction ('.' :: (fs ++ rest)) = (fs, rest) := by
  obtain ⟨htake, hdrop⟩ := span_digits hf h
  show ((fs ++ rest).takeWhile isDigit, (fs ++ rest).dropWhile isDigit) = _
  rw [htake, hdrop]

/-- What is split off is nothing, or a point and the digits behind it. -/
theorem splitFraction_cases (rest : List Char) : splitFraction rest = ([], rest) ∨
    ∃ fs es, rest = '.' :: (fs ++ es) ∧ (∀ c ∈ fs, isDigit c) ∧ splitFraction rest = (fs, es) := by
  cases rest with
  | nil => exact .inl rfl
  | cons c cs =>
    by_cases hc : c = '.'
    · subst hc
      exact .inr ⟨cs.takeWhile isDigit, cs.dropWhile isDigit,
        by rw [List.takeWhile_append_dropWhile], fun c hmem => List.mem_takeWhile_imp hmem, rfl⟩
    · refine .inl (splitFraction_of_ne ?_)
      rintro c ⟨⟩
      exact hc

theorem parseDecimal?_eq (cs : List Char) : parseDecimal? cs =
    if cs.takeWhile isDigit = [] ∧ (splitFraction (cs.dropWhile isDigit)).1 = [] then none
    else (parseExponent? (splitFraction (cs.dropWhile isDigit)).2).map fun exponent =>
      ⟨ofDigits (cs.takeWhile isDigit ++ (splitFraction (cs.dropWhile isDigit)).1),
        exponent - (splitFraction (cs.dropWhile isDigit)).1.length⟩ := rfl

/-- The parts of a decimal, once it is cut into them. -/
theorem parseDecimal?_of_parts {whole fraction : List Char} (htake : cs.takeWhile isDigit = whole)
    (hsplit : splitFraction (cs.dropWhile isDigit) = (fraction, es))
    (hne : ¬ (whole = [] ∧ fraction = [])) (he : SpellsExponent es e) :
    parseDecimal? cs = some ⟨ofDigits (whole ++ fraction), e - fraction.length⟩ := by
  rw [parseDecimal?_eq, htake, hsplit, if_neg hne, parseExponent?_eq_some_iff.2 he]
  rfl

theorem parseDecimal?_of_spells {fixed : List Char} (hf : SpellsFixed fixed v)
    (he : SpellsExponent es e) :
    ∃ d, parseDecimal? (fixed ++ es) = some d ∧ d.value = v * 10 ^ e := by
  have hhead : ∀ c ∈ es.head?, isDigit c = false := fun c hc => (he.head c hc).1
  have hpoint : ∀ rest, ∀ c ∈ ('.' :: rest).head?, isDigit c = false := by
    rintro rest c ⟨⟩
    rfl
  cases hf with
  | whole h =>
    obtain ⟨htake, hdrop⟩ := span_digits h.all hhead
    have hsplit : splitFraction ((fixed ++ es).dropWhile isDigit) = ([], es) := by
      rw [hdrop]
      exact splitFraction_of_ne fun c hc => (he.head c hc).2
    refine ⟨_, parseDecimal?_of_parts htake hsplit (fun hnil => h.ne_nil hnil.1) he, ?_⟩
    rw [value_places, h.ofDigits_eq]
    simp [ofDigits]
  | @point ds n h =>
    obtain ⟨htake, hdrop⟩ := span_digits h.all (hpoint es)
    rw [List.append_assoc, List.singleton_append]
    have hsplit : splitFraction ((ds ++ '.' :: es).dropWhile isDigit) = ([], es) := by
      have hnone : ∀ c ∈ ([] : List Char), isDigit c := nofun
      rw [hdrop]
      exact splitFraction_point hnone hhead
    refine ⟨_, parseDecimal?_of_parts htake hsplit (fun hnil => h.ne_nil hnil.1) he, ?_⟩
    rw [value_places, h.ofDigits_eq]
    simp [ofDigits]
  | @places ds fs n k h hf =>
    obtain ⟨htake, hdrop⟩ := span_digits h.all (hpoint (fs ++ es))
    rw [List.append_assoc, List.cons_append]
    have hsplit : splitFraction ((ds ++ '.' :: (fs ++ es)).dropWhile isDigit) = (fs, es) := by
      rw [hdrop]
      exact splitFraction_point hf.all hhead
    refine ⟨_, parseDecimal?_of_parts htake hsplit (fun hnil => h.ne_nil hnil.1) he, ?_⟩
    rw [value_places, h.ofDigits_eq, hf.ofDigits_eq]
  | @fraction fs k hf =>
    have hnone : ∀ c ∈ ([] : List Char), isDigit c := nofun
    obtain ⟨htake, hdrop⟩ := span_digits hnone (hpoint (fs ++ es))
    rw [List.nil_append] at htake hdrop
    rw [List.cons_append]
    have hsplit : splitFraction (('.' :: (fs ++ es)).dropWhile isDigit) = (fs, es) := by
      rw [hdrop]
      exact splitFraction_point hf.all hhead
    refine ⟨_, parseDecimal?_of_parts htake hsplit (fun hnil => hf.ne_nil hnil.2) he, ?_⟩
    rw [value_places, hf.ofDigits_eq]
    simp [ofDigits]

theorem spells_of_parseDecimal? {d : Decimal} (h : parseDecimal? cs = some d) :
    ∃ fixed es v e, cs = fixed ++ es ∧ SpellsFixed fixed v ∧ SpellsExponent es e ∧
      d.value = v * 10 ^ e := by
  have hcut := List.takeWhile_append_dropWhile (p := isDigit) (l := cs)
  have hwhole : ∀ c ∈ cs.takeWhile isDigit, isDigit c := fun c hc => List.mem_takeWhile_imp hc
  rw [parseDecimal?_eq] at h
  generalize cs.takeWhile isDigit = whole at h hcut hwhole
  generalize cs.dropWhile isDigit = rest at h hcut
  subst hcut
  rcases splitFraction_cases rest with hsplit | ⟨fs, es, rfl, hfs, hsplit⟩
  · rw [hsplit] at h
    split_ifs at h with hne
    obtain ⟨e, he, rfl⟩ := Option.map_eq_some_iff.1 h
    have hdigits : Digits whole (ofDigits whole) :=
      digits_iff.2 ⟨fun hnil => hne ⟨hnil, rfl⟩, hwhole, rfl⟩
    refine ⟨whole, rest, _, e, rfl, .whole hdigits, parseExponent?_eq_some_iff.1 he, ?_⟩
    rw [value_places]
    simp [ofDigits]
  · rw [hsplit] at h
    split_ifs at h with hne
    obtain ⟨e, he, rfl⟩ := Option.map_eq_some_iff.1 h
    have he' := parseExponent?_eq_some_iff.1 he
    by_cases hw : whole = []
    · have hf : Digits fs (ofDigits fs) := digits_iff.2 ⟨fun hnil => hne ⟨hw, hnil⟩, hfs, rfl⟩
      refine ⟨'.' :: fs, es, _, e, by rw [hw]; rfl, .fraction hf, he', ?_⟩
      rw [value_places, hw]
      simp [ofDigits]
    · have hdigits : Digits whole (ofDigits whole) := digits_iff.2 ⟨hw, hwhole, rfl⟩
      by_cases hf : fs = []
      · refine ⟨whole ++ ['.'], es, _, e, by rw [hf, List.append_assoc]; rfl, .point hdigits, he', ?_⟩
        rw [value_places, hf]
        simp [ofDigits]
      · refine ⟨whole ++ '.' :: fs, es, _, e, by rw [List.append_assoc]; rfl,
          .places hdigits (digits_iff.2 ⟨hf, hfs, rfl⟩), he', ?_⟩
        exact value_places whole fs e

/-! ## Words -/

/-- A small letter stands for itself and its capital. -/
theorem toLower_eq_iff {l : Char} (hl : l.isLower) : c.toLower = l ↔ c = l ∨ c = l.toUpper := by
  have hself : l.toLower = l := Char.toLower_eq_of_not_isUpper (Char.not_isUpper_of_isLower hl)
  constructor
  · intro h
    by_cases hc : c.isUpper
    · right
      have hup := Char.toUpper_toLower_eq_toUpper c
      rw [h, Char.toUpper_eq_of_not_isLower (Char.not_isLower_of_isUpper hc)] at hup
      exact hup.symm
    · left
      rwa [Char.toLower_eq_of_not_isUpper hc] at h
  · rintro (rfl | rfl)
    · exact hself
    · rw [Char.toLower_toUpper_eq_toLower, hself]

theorem map_toLower_eq_iff {word : List Char} (hw : word.all Char.isLower) :
    cs.map Char.toLower = word ↔ InAnyCase cs word := by
  unfold InAnyCase
  induction cs generalizing word with
  | nil =>
    cases word with
    | nil => exact iff_of_true rfl .nil
    | cons l word => exact iff_of_false nofun nofun
  | cons c cs ih =>
    cases word with
    | nil => exact iff_of_false nofun nofun
    | cons l word =>
      rw [List.all_cons, Bool.and_eq_true] at hw
      rw [List.map_cons, List.cons.injEq, toLower_eq_iff hw.1, ih hw.2, List.forall₂_cons]

/-- **Words are read by the rules.** -/
theorem parseWord?_cases (cs : List Char) :
    (parseWord? cs = some .infinity ∧ (InAnyCase cs ['i', 'n', 'f'] ∨
        InAnyCase cs ['i', 'n', 'f', 'i', 'n', 'i', 't', 'y'])) ∨
      (parseWord? cs = some .notANumber ∧ InAnyCase cs ['n', 'a', 'n']) ∨
      (parseWord? cs = none ∧ ¬ InAnyCase cs ['i', 'n', 'f'] ∧
        ¬ InAnyCase cs ['i', 'n', 'f', 'i', 'n', 'i', 't', 'y'] ∧
        ¬ InAnyCase cs ['n', 'a', 'n']) := by
  have hinf : cs.map Char.toLower = "inf".toList ↔ InAnyCase cs ['i', 'n', 'f'] :=
    map_toLower_eq_iff (by decide)
  have hinfinity : cs.map Char.toLower = "infinity".toList ↔
      InAnyCase cs ['i', 'n', 'f', 'i', 'n', 'i', 't', 'y'] := map_toLower_eq_iff (by decide)
  have hnan : cs.map Char.toLower = "nan".toList ↔ InAnyCase cs ['n', 'a', 'n'] :=
    map_toLower_eq_iff (by decide)
  unfold parseWord?
  dsimp only
  split_ifs with h h'
  · exact .inl ⟨rfl, h.imp hinf.1 hinfinity.1⟩
  · exact .inr (.inl ⟨rfl, hnan.1 h'⟩)
  · exact .inr (.inr ⟨rfl, fun hi => h (.inl (hinf.2 hi)), fun hi => h (.inr (hinfinity.2 hi)),
      fun hi => h' (hnan.2 hi)⟩)

/-- The first letter of a word. -/
theorem InAnyCase.head {l : Char} {word : List Char} (h : InAnyCase cs (l :: word)) :
    ∀ c ∈ cs.head?, c = l ∨ c = l.toUpper := by
  cases h with
  | cons hc _ =>
    rintro c ⟨⟩
    exact hc

theorem SpellsFixed.head {fixed : List Char} (h : SpellsFixed fixed v) (es : List Char) :
    ∀ c ∈ (fixed ++ es).head?, isDigit c ∨ c = '.' := by
  have hdigits : ∀ {ds n}, Digits ds n → ∀ rest, ∀ c ∈ (ds ++ rest).head?, isDigit c ∨ c = '.' := by
    intro ds n h rest c hc
    rw [List.head?_append_of_ne_nil _ h.ne_nil] at hc
    exact .inl (h.head c hc)
  cases h with
  | whole h => exact hdigits h es
  | point h =>
    rw [List.append_assoc]
    exact hdigits h _
  | places h _ =>
    rw [List.append_assoc]
    exact hdigits h _
  | fraction _ =>
    rintro c ⟨⟩
    exact .inr rfl

/-! ## Numbers -/

/-- What a quantity amounts to. -/
def amount : Quantity → Amount
  | .decimal d => .finite d.value
  | .infinity => .infinity
  | .notANumber => .notANumber

/-- No amount begins with a sign. -/
theorem SpellsAmount.head {a : Amount} (h : SpellsAmount cs a) :
    ∀ c ∈ cs.head?, c ≠ '+' ∧ c ≠ '-' := by
  have hi : ∀ c, c = 'i' ∨ c = 'i'.toUpper → c ≠ '+' ∧ c ≠ '-' := by
    rintro c (rfl | rfl)
    · decide
    · decide
  have hn : ∀ c, c = 'n' ∨ c = 'n'.toUpper → c ≠ '+' ∧ c ≠ '-' := by
    rintro c (rfl | rfl)
    · decide
    · decide
  intro c hc
  cases h with
  | inf h => exact hi c (h.head c hc)
  | infinity h => exact hi c (h.head c hc)
  | nan h => exact hn c (h.head c hc)
  | decimal hf _ =>
    rcases hf.head _ c hc with hdigit | rfl
    · exact ne_sign_of_isDigit hdigit
    · decide

/-- A word begins with a letter, which no decimal does. -/
theorem parseWord?_of_spellsFixed {fixed : List Char} (hf : SpellsFixed fixed v) (es : List Char) :
    parseWord? (fixed ++ es) = none := by
  have hne : ∀ {l : Char} {word : List Char}, (isDigit l = false ∧ l ≠ '.') →
      (isDigit l.toUpper = false ∧ l.toUpper ≠ '.') → ¬ InAnyCase (fixed ++ es) (l :: word) := by
    intro l word hl hu h
    cases hcs : fixed ++ es with
    | nil =>
      rw [hcs] at h
      cases h
    | cons c cs =>
      have hc := hf.head es c (by rw [hcs]; rfl)
      rcases h.head c (by rw [hcs]; rfl) with rfl | rfl
      · exact hc.elim (fun hd => by rw [hl.1] at hd; cases hd) hl.2
      · exact hc.elim (fun hd => by rw [hu.1] at hd; cases hd) hu.2
  rcases parseWord?_cases (fixed ++ es) with ⟨-, h | h⟩ | ⟨-, h⟩ | ⟨h, -⟩
  · exact absurd h (hne (by decide) (by decide))
  · exact absurd h (hne (by decide) (by decide))
  · exact absurd h (hne (by decide) (by decide))
  · exact h

theorem parse?_eq {text : String} {negative : Bool}
    (h : splitSign text.toList = (negative, cs)) : parse? text =
      (parseWord? cs <|> (parseDecimal? cs).map Quantity.decimal).map (Numeral.mk negative) := by
  unfold parse?
  rw [h]
  dsimp only
  cases parseWord? cs with
  | some q => rfl
  | none => exact (Option.map_map _ _ _).symm

/-- **What is spelled by the rules is read**, and for what it is. -/
theorem parse?_of_spells {text : String} {negative : Bool} {a : Amount}
    (h : Spells text.toList negative a) :
    ∃ q, parse? text = some ⟨negative, q⟩ ∧ amount q = a := by
  generalize hcs : text.toList = letters at h
  cases h with
  | @signed sign cs _ _ hs ha =>
    have hread := parse?_eq (hcs ▸ splitSign_of_spells hs ha.head)
    have hword : ∀ {word : List Char}, word.all Char.isLower → InAnyCase cs word →
        cs.map Char.toLower = word := fun hlower => (map_toLower_eq_iff hlower).2
    cases ha with
    | inf h =>
      refine ⟨.infinity, ?_, rfl⟩
      rw [hread, parseWord?, hword (by decide) h]
      rfl
    | infinity h =>
      refine ⟨.infinity, ?_, rfl⟩
      rw [hread, parseWord?, hword (by decide) h]
      rfl
    | nan h =>
      refine ⟨.notANumber, ?_, rfl⟩
      rw [hread, parseWord?, hword (by decide) h]
      rfl
    | decimal hf he =>
      obtain ⟨d, hd, hvalue⟩ := parseDecimal?_of_spells hf he
      refine ⟨.decimal d, ?_, congrArg Amount.finite hvalue⟩
      rw [hread, parseWord?_of_spellsFixed hf, hd]
      rfl

/-- **What is read is spelled by the rules**, and is what they say. -/
theorem spells_of_parse? {text : String} {n : Numeral} (h : parse? text = some n) :
    Spells text.toList n.negative (amount n.quantity) := by
  obtain ⟨sign, hcs, hs⟩ := spells_splitSign text.toList
  unfold parse? at h
  generalize splitSign text.toList = split at h hcs hs
  obtain ⟨negative, cs⟩ := split
  dsimp only at h hcs hs
  rw [hcs]
  rcases parseWord?_cases cs with ⟨hw, hword⟩ | ⟨hw, hword⟩ | ⟨hw, -⟩
  · rw [hw] at h
    cases h
    exact .signed hs (hword.elim .inf .infinity)
  · rw [hw] at h
    cases h
    exact .signed hs (.nan hword)
  · rw [hw] at h
    obtain ⟨d, hd, rfl⟩ := Option.map_eq_some_iff.1 h
    obtain ⟨fixed, es, v, e, rfl, hf, he, hvalue⟩ := spells_of_parseDecimal? hd
    have hspells := Spells.signed hs (.decimal hf he)
    rw [← hvalue] at hspells
    exact hspells

end NearestNeighbors.Numeral
