import Mathlib
import NearestNeighbors.Proofs.Text.Utf8
import NearestNeighbors.Text.Blank

/-!
# Trimming

What is trimmed off is blank, and what is left neither starts nor ends with a blank, so
blanks written around something do not matter. The ASCII blanks are blank bytes and blank
characters at once, and trimming bytes first changes nothing.

* `exists_trimWith`, `trimWith_eq`, `trimWith_surround`: trimming by its parts.
* `trimWith_encode`: bytes are trimmed character by character.
* `trim_ofList_surround`, `trim_trimAscii`: blanks around a text.
-/

namespace NearestNeighbors.Text

variable {α : Type} {blank : α → Bool} {l front middle back : List α}

/-! ## Trimming a list -/

/-- Neither end is blank. -/
def Trimmed (blank : α → Bool) (l : List α) : Prop :=
  (∀ a, l.head? = some a → blank a = false) ∧ ∀ a, l.getLast? = some a → blank a = false

/-- Blanks around something are trimmed off. -/
theorem trimWith_surround (hfront : ∀ a ∈ front, blank a) (hback : ∀ a ∈ back, blank a) :
    trimWith blank (front ++ middle ++ back) = trimWith blank middle := by
  unfold trimWith
  rw [List.append_assoc, List.dropWhile_append_of_pos hfront, List.dropWhile_append]
  split_ifs with h
  · -- nothing but blanks
    rw [List.isEmpty_iff] at h
    rw [h, List.dropWhile_eq_nil_iff.2 hback]
  · rw [List.reverse_append, List.dropWhile_append_of_pos fun a ha =>
      hback a (List.mem_reverse.1 ha)]

theorem Trimmed.trimWith_eq_self (h : Trimmed blank l) : trimWith blank l = l := by
  unfold trimWith
  have hdrop : ∀ l : List α, (∀ a, l.head? = some a → blank a = false) →
      l.dropWhile blank = l := by
    intro l hl
    cases l with
    | nil => rfl
    | cons a l => exact List.dropWhile_cons_of_neg (by simp [hl a rfl])
  rw [hdrop l h.1, hdrop l.reverse (by simpa using h.2), List.reverse_reverse]

/-- **Trimming** takes the blanks around the trimmed part away. -/
theorem trimWith_eq (hfront : ∀ a ∈ front, blank a) (hmiddle : Trimmed blank middle)
    (hback : ∀ a ∈ back, blank a) : trimWith blank (front ++ middle ++ back) = middle := by
  rw [trimWith_surround hfront hback, hmiddle.trimWith_eq_self]

/-- A list is its trimmed part with blanks around it. -/
theorem exists_trimWith (blank : α → Bool) (l : List α) :
    ∃ front back, l = front ++ trimWith blank l ++ back ∧ (∀ a ∈ front, blank a) ∧
      (∀ a ∈ back, blank a) ∧ Trimmed blank (trimWith blank l) := by
  have hsplit : l.dropWhile blank =
      trimWith blank l ++ (l.dropWhile blank).rtakeWhile blank :=
    List.rdropWhile_append_rtakeWhile.symm
  refine ⟨l.takeWhile blank, (l.dropWhile blank).rtakeWhile blank, ?_, ?_, ?_, ?_, ?_⟩
  · rw [List.append_assoc, ← hsplit, List.takeWhile_append_dropWhile]
  · exact fun a ha => List.mem_takeWhile_imp ha
  · exact fun a ha => List.mem_rtakeWhile_imp ha
  · intro a ha
    have hhead := List.head?_dropWhile_not blank l
    rw [hsplit, List.head?_append, ha] at hhead
    exact hhead
  · intro a ha
    rw [trimWith, List.getLast?_reverse] at ha
    have hhead := List.head?_dropWhile_not blank (l.dropWhile blank).reverse
    rw [ha] at hhead
    exact hhead

/-! ## Bytes and characters -/

/-- The ASCII blanks among the characters. -/
def isAsciiBlankChar (c : Char) : Bool :=
  c.toNat < 128 && isAsciiBlank (UInt8.ofNat c.toNat)

variable {b : UInt8} {c : Char} {cs before behind : List Char} {s t : String}

theorem toNat_lt_of_isAsciiBlank (h : isAsciiBlank b) : b.toNat < 128 := by
  simp only [isAsciiBlank, Bool.or_eq_true, decide_eq_true_eq] at h
  rcases h with (((rfl | rfl) | rfl) | rfl) | rfl <;> decide

/-- The ASCII blanks are blank. -/
theorem isBlank_of_isAsciiBlankChar (h : isAsciiBlankChar c) : isBlank c := by
  rw [isAsciiBlankChar, Bool.and_eq_true, decide_eq_true_eq] at h
  obtain ⟨hlt, h⟩ := h
  have hall : ∀ n < 128, isAsciiBlank (UInt8.ofNat n) → isBlank (Char.ofNat n) := by decide
  rw [← Char.ofNat_toNat c]
  exact hall c.toNat hlt h

theorem isAsciiBlankChar_of_mem (h : b ∈ String.utf8EncodeChar c) (hb : isAsciiBlank b) :
    isAsciiBlankChar c := by
  have hlt := toNat_lt_of_isAsciiBlank hb
  have heq := toNat_eq_of_mem_utf8EncodeChar h hlt
  rw [isAsciiBlankChar, heq, UInt8.ofNat_toNat, hb, decide_eq_true hlt]
  rfl

theorem isAsciiBlank_of_mem_encode (h : ∀ c ∈ cs, isAsciiBlankChar c) (hb : b ∈ encode cs) :
    isAsciiBlank b := by
  obtain ⟨c, hc, hb⟩ := List.mem_flatMap.1 hb
  have hblank := h c hc
  rw [isAsciiBlankChar, Bool.and_eq_true, decide_eq_true_eq] at hblank
  rw [utf8EncodeChar_ascii hblank.1, List.mem_singleton] at hb
  rw [hb]
  exact hblank.2

/-- Blank bytes are the bytes of blank characters. -/
theorem exists_encode_eq (l : List UInt8) (h : ∀ b ∈ l, isAsciiBlank b) :
    ∃ cs, l = encode cs ∧ ∀ c ∈ cs, isAsciiBlankChar c := by
  induction l with
  | nil => exact ⟨[], rfl, nofun⟩
  | cons b l ih =>
    have hb := h b List.mem_cons_self
    have hlt := toNat_lt_of_isAsciiBlank hb
    obtain ⟨cs, rfl, hcs⟩ := ih fun b' hb' => h b' (List.mem_cons_of_mem _ hb')
    have hnat : (Char.ofNat b.toNat).toNat = b.toNat := by
      rw [Char.toNat_ofNat, if_pos (Or.inl (by omega))]
    have hchar : String.utf8EncodeChar (Char.ofNat b.toNat) = [b] := by
      rw [utf8EncodeChar_ascii (hnat.trans_lt hlt), hnat, UInt8.ofNat_toNat]
    refine ⟨Char.ofNat b.toNat :: cs, by rw [encode_cons, hchar]; rfl, ?_⟩
    intro c hc
    rcases List.mem_cons.1 hc with rfl | hc
    · exact isAsciiBlankChar_of_mem (hchar ▸ List.mem_singleton_self b) hb
    · exact hcs c hc

theorem trimmed_encode (h : Trimmed isAsciiBlankChar cs) : Trimmed isAsciiBlank (encode cs) := by
  -- a blank byte at an end would be a blank character there
  have hbyte : ∀ c b, isAsciiBlankChar c = false → b ∈ String.utf8EncodeChar c →
      isAsciiBlank b = false := by
    intro c b hc hb
    by_contra hblank
    rw [isAsciiBlankChar_of_mem hb (by simpa using hblank)] at hc
    cases hc
  constructor
  · intro b hb
    cases cs with
    | nil => cases hb
    | cons c cs =>
      rw [encode_cons, List.head?_append_of_ne_nil _ (utf8EncodeChar_ne_nil c)] at hb
      exact hbyte c b (h.1 c rfl) (List.mem_of_mem_head? hb)
  · intro b hb
    rcases List.eq_nil_or_concat cs with rfl | ⟨cs, c, rfl⟩
    · cases hb
    · rw [List.concat_eq_append, encode_append, encode_cons, encode_nil, List.append_nil,
        List.getLast?_append_of_ne_nil _ (utf8EncodeChar_ne_nil c)] at hb
      exact hbyte c b (h.2 c (by simp)) (List.mem_of_getLast? hb)

/-- The bytes of a text are trimmed as its characters are. -/
theorem trimWith_encode (cs : List Char) :
    trimWith isAsciiBlank (encode cs) = encode (trimWith isAsciiBlankChar cs) := by
  obtain ⟨front, back, heq, hfront, hback, htrimmed⟩ := exists_trimWith isAsciiBlankChar cs
  conv_lhs => rw [heq, encode_append, encode_append]
  exact trimWith_eq (fun _ => isAsciiBlank_of_mem_encode hfront) (trimmed_encode htrimmed)
    (fun _ => isAsciiBlank_of_mem_encode hback)

/-- Blank characters around a text do not matter. -/
theorem trim_ofList_surround (hbefore : ∀ c ∈ before, isBlank c)
    (hbehind : ∀ c ∈ behind, isBlank c) :
    trim (String.ofList (before ++ cs ++ behind)) = trim (String.ofList cs) := by
  unfold trim
  rw [String.toList_ofList, String.toList_ofList, trimWith_surround hbefore hbehind]

/-- Trimming the ASCII blanks first changes nothing. -/
theorem trim_trimAscii (cs : List Char) :
    trim (String.ofList (trimWith isAsciiBlankChar cs)) = trim (String.ofList cs) := by
  obtain ⟨front, back, heq, hfront, hback, -⟩ := exists_trimWith isAsciiBlankChar cs
  conv_rhs => rw [heq]
  exact (trim_ofList_surround (fun c hc => isBlank_of_isAsciiBlankChar (hfront c hc))
    fun c hc => isBlank_of_isAsciiBlankChar (hback c hc)).symm

/-- A text without blanks stays as it is. -/
theorem trim_eq_self (h : ∀ c ∈ s.toList, isBlank c = false) : trim s = s := by
  have htrimmed : Trimmed isBlank s.toList :=
    ⟨fun c hc => h c (List.mem_of_mem_head? hc), fun c hc => h c (List.mem_of_getLast? hc)⟩
  unfold trim
  rw [htrimmed.trimWith_eq_self, String.ofList_toList]

end NearestNeighbors.Text
