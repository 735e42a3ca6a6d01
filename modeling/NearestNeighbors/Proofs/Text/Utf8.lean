import Mathlib
import NearestNeighbors.Text.Utf8

/-!
# Text and its bytes

The bytes of a text are those of its characters one after another, and no character can
be mistaken for another one or for a part of it. Decoding therefore finds the text that
was encoded, or stops where no character starts.

* `encode`: the bytes of a row of characters, `toList_toUTF8` of a text.
* `decodeFrom_cases`: how far decoding comes.
* `decode_eq_ok`: the bytes that are text.
* `decode_eq_error`: the longest front that is text, where the whole is not.
-/

namespace NearestNeighbors.Text

open String (utf8EncodeChar)

/-- The bytes of a row of characters. -/
def encode (cs : List Char) : List UInt8 := cs.flatMap utf8EncodeChar

variable {c d : Char} {cs ds : List Char} {s : String} {l more more' : List UInt8}

@[simp] theorem encode_nil : encode [] = [] := rfl

@[simp] theorem encode_cons : encode (c :: cs) = utf8EncodeChar c ++ encode cs := rfl

@[simp] theorem encode_append : encode (cs ++ ds) = encode cs ++ encode ds :=
  List.flatMap_append

theorem utf8EncodeChar_ne_nil (c : Char) : utf8EncodeChar c ≠ [] := by
  rw [← List.length_pos_iff, String.length_utf8EncodeChar]
  exact c.utf8Size_pos

/-- A byte array as a list is what its loop collects. -/
theorem toList_loop (bs : ByteArray) (i : ℕ) (r : List UInt8) :
    ByteArray.toList.loop bs i r = r.reverse ++ bs.data.toList.drop i := by
  fun_induction ByteArray.toList.loop bs i r with
  | case1 i r h ih =>
    have hi : i < bs.data.toList.length := by simpa using h
    have hget : bs.get! i = bs.data.toList[i] := by simp [ByteArray.get!, h]
    rw [ih, List.drop_eq_getElem_cons hi, hget]
    simp
  | case2 i r h =>
    rw [List.drop_eq_nil_of_le (by simpa using Nat.le_of_not_lt h)]
    simp

theorem toList_eq_data (bs : ByteArray) : bs.toList = bs.data.toList := by
  simp [ByteArray.toList, toList_loop]

theorem toList_toUTF8 (s : String) : s.toUTF8.toList = encode s.toList := by
  have h : s.toUTF8 = (encode s.toList).toByteArray := String.utf8Encode_toList.symm
  rw [h, toList_eq_data, List.toList_data_toByteArray]

theorem toUTF8_append (s t : String) :
    (s ++ t).toUTF8.toList = s.toUTF8.toList ++ t.toUTF8.toList := by
  rw [toList_toUTF8, toList_toUTF8, toList_toUTF8, String.toList_append, encode_append]

/-! ## Single characters -/

/-- The character found at a position is the one whose bytes stand there. -/
theorem utf8DecodeChar?_eq_some (before : List UInt8) :
    (ByteArray.mk (before ++ l).toArray).utf8DecodeChar? before.length = some c ↔
      ∃ more, l = utf8EncodeChar c ++ more := by
  have hrest : (ByteArray.mk (before ++ l).toArray).extract before.length
      (ByteArray.mk (before ++ l).toArray).size = l.toByteArray := by
    apply ByteArray.ext
    apply Array.toList_inj.1
    simp [ByteArray.data_extract, ByteArray.size]
  rw [ByteArray.utf8DecodeChar?_eq_utf8DecodeChar?_extract, hrest]
  constructor
  · intro h
    obtain ⟨more, hmore⟩ := ByteArray.exists_of_utf8DecodeChar?_eq_some h
    refine ⟨more.data.toList, ?_⟩
    have hlist := congrArg (fun b : ByteArray => b.data.toList) hmore
    simpa using hlist
  · rintro ⟨more, rfl⟩
    rw [List.toByteArray_append]
    exact ByteArray.utf8DecodeChar?_utf8EncodeChar_append

/-- What starts with the bytes of a character starts with those of no other one. -/
theorem utf8EncodeChar_append_inj (h : utf8EncodeChar c ++ more = utf8EncodeChar d ++ more') :
    c = d ∧ more = more' := by
  have hc := (utf8DecodeChar?_eq_some (c := c) []).2 ⟨more, rfl⟩
  have hd := (utf8DecodeChar?_eq_some (c := d) []).2 ⟨more', h⟩
  obtain rfl : c = d := Option.some.inj (hc.symm.trans hd)
  exact ⟨rfl, List.append_cancel_left h⟩

/-- A text that starts with another one goes on with a text. -/
theorem exists_of_encode_eq_append (h : encode ds = encode cs ++ l) :
    ∃ es, ds = cs ++ es ∧ l = encode es := by
  induction cs generalizing ds with
  | nil => exact ⟨ds, rfl, h.symm⟩
  | cons c cs ih =>
    rw [encode_cons, List.append_assoc] at h
    cases ds with
    | nil => exact absurd (List.append_eq_nil_iff.1 h.symm).1 (utf8EncodeChar_ne_nil c)
    | cons d ds =>
      rw [encode_cons] at h
      obtain ⟨rfl, hrest⟩ := utf8EncodeChar_append_inj h
      obtain ⟨es, rfl, hes⟩ := ih hrest
      exact ⟨es, rfl, hes⟩

theorem encode_eq_nil : encode cs = [] ↔ cs = [] := by
  cases cs with
  | nil => simp
  | cons c cs => simp [utf8EncodeChar_ne_nil c]

theorem encode_injective : Function.Injective encode := by
  intro cs ds h
  obtain ⟨es, rfl, hes⟩ := exists_of_encode_eq_append (h.symm.trans (List.append_nil _).symm)
  rw [encode_eq_nil.1 hes.symm, List.append_nil]

/-! ## ASCII -/

theorem utf8EncodeChar_ascii (h : c.toNat < 128) : utf8EncodeChar c = [UInt8.ofNat c.toNat] := by
  have hv : c.val.toNat ≤ 0x7f := Nat.le_of_lt_succ h
  unfold utf8EncodeChar
  exact if_pos hv

/-- A byte below 128 is a character of its own, never a part of another one. -/
theorem toNat_eq_of_mem_utf8EncodeChar {b : UInt8} (h : b ∈ utf8EncodeChar c)
    (hb : b.toNat < 128) : c.toNat = b.toNat := by
  -- the bytes of a longer character carry marks above 127
  have hmarked : ∀ n m : ℕ, 128 ≤ m → n + m < 256 → b ≠ UInt8.ofNat (n + m) := by
    rintro n m hle hlt rfl
    rw [UInt8.toNat_ofNat_of_lt' hlt] at hb
    omega
  unfold utf8EncodeChar at h
  dsimp only at h
  split_ifs at h with h1 h2 h3
  · rw [List.mem_singleton] at h
    rw [h, UInt8.toNat_ofNat_of_lt' (Nat.lt_of_le_of_lt h1 (by norm_num))]
    rfl
  · simp only [List.mem_cons, List.not_mem_nil, or_false] at h
    rcases h with h | h <;> exact absurd h (hmarked _ _ (by norm_num) (by omega))
  · simp only [List.mem_cons, List.not_mem_nil, or_false] at h
    rcases h with h | h | h <;> exact absurd h (hmarked _ _ (by norm_num) (by omega))
  · simp only [List.mem_cons, List.not_mem_nil, or_false] at h
    rcases h with h | h | h | h <;> exact absurd h (hmarked _ _ (by norm_num) (by omega))

/-! ## Decoding -/

/-- No character starts here. -/
def Stuck (l : List UInt8) : Prop := l ≠ [] ∧ ∀ c more, l ≠ utf8EncodeChar c ++ more

theorem Stuck.ne_encode (h : Stuck l) (hl : l = encode cs ++ more) : cs = [] := by
  cases cs with
  | nil => rfl
  | cons c cs =>
    rw [encode_cons, List.append_assoc] at hl
    exact absurd hl (h.2 c _)

/-- Decoding comes to the end of a text, or to where no character starts. -/
theorem decodeFrom_cases (before l : List UInt8) :
    (∃ cs, l = encode cs ∧
      decodeFrom ⟨(before ++ l).toArray⟩ before.length = .ok cs) ∨
    ∃ cs more, l = encode cs ++ more ∧ Stuck more ∧
      decodeFrom ⟨(before ++ l).toArray⟩ before.length =
        .error (before.length + (encode cs).length) := by
  have hsize : (ByteArray.mk (before ++ l).toArray).size = before.length + l.length := by
    simp [ByteArray.size]
  rw [decodeFrom, hsize]
  by_cases hl : l = []
  · subst hl
    exact .inl ⟨[], rfl, by simp⟩
  rw [if_pos (Nat.lt_add_of_pos_right (List.length_pos_iff.2 hl))]
  cases hc : (ByteArray.mk (before ++ l).toArray).utf8DecodeChar? before.length with
  | none =>
    refine .inr ⟨[], l, rfl, ⟨hl, fun c more hmore => ?_⟩, rfl⟩
    rw [(utf8DecodeChar?_eq_some before).2 ⟨more, hmore⟩] at hc
    cases hc
  | some c =>
    obtain ⟨more, rfl⟩ := (utf8DecodeChar?_eq_some before).1 hc
    have hlen : (before ++ utf8EncodeChar c).length = before.length + c.utf8Size := by
      rw [List.length_append, String.length_utf8EncodeChar]
    have hlt : more.length < (utf8EncodeChar c ++ more).length := by
      rw [List.length_append, String.length_utf8EncodeChar]
      exact Nat.lt_add_of_pos_left c.utf8Size_pos
    have ih := decodeFrom_cases (before ++ utf8EncodeChar c) more
    rw [hlen, List.append_assoc] at ih
    dsimp only
    rcases ih with ⟨cs, rfl, heq⟩ | ⟨cs, tail, rfl, hstuck, heq⟩
    · exact .inl ⟨c :: cs, rfl, by rw [heq]; rfl⟩
    · refine .inr ⟨c :: cs, tail, by simp, hstuck, ?_⟩
      rw [heq, encode_cons, List.length_append, String.length_utf8EncodeChar, ← Nat.add_assoc]
      rfl
termination_by l.length

theorem decode_cases (l : List UInt8) :
    (∃ s, l = encode s.toList ∧ decode l = .ok s) ∨
    ∃ cs more, l = encode cs ++ more ∧ Stuck more ∧ decode l = .error (encode cs).length := by
  unfold decode
  rcases decodeFrom_cases [] l with ⟨cs, hl, heq⟩ | ⟨cs, more, hl, hstuck, heq⟩
  · refine .inl ⟨String.ofList cs, by simpa using hl, ?_⟩
    simp only [List.nil_append, List.length_nil] at heq
    rw [heq]
    rfl
  · refine .inr ⟨cs, more, hl, hstuck, ?_⟩
    simp only [List.nil_append, List.length_nil, Nat.zero_add] at heq
    rw [heq]
    rfl

/-- **What can be decoded** are the bytes of a text, and decoding gives the text. -/
theorem decode_eq_ok : decode l = .ok s ↔ l = s.toUTF8.toList := by
  rw [toList_toUTF8]
  rcases decode_cases l with ⟨t, ht, heq⟩ | ⟨cs, more, hl, hstuck, heq⟩
  · rw [heq, Except.ok.injEq, ht]
    exact ⟨fun h => h ▸ rfl, fun h => String.toList_inj.1 (encode_injective h)⟩
  · rw [heq]
    refine iff_of_false nofun fun h => ?_
    obtain ⟨es, -, hes⟩ := exists_of_encode_eq_append (h.symm.trans hl)
    have hnil := hstuck.ne_encode (hes.trans (List.append_nil _).symm)
    exact hstuck.1 (hes.trans (hnil ▸ rfl))

/-- **Where decoding stops** is the end of the longest front that is text. -/
theorem decode_eq_error {n : ℕ} (h : decode l = .error n) :
    IsGreatest {m | m ≤ l.length ∧ ∃ s : String, l.take m = s.toUTF8.toList} n := by
  rcases decode_cases l with ⟨t, -, heq⟩ | ⟨cs, more, rfl, hstuck, heq⟩
  · rw [heq] at h
    cases h
  obtain rfl : (encode cs).length = n := Except.error.inj (heq.symm.trans h)
  refine ⟨⟨by simp, String.ofList cs, ?_⟩, ?_⟩
  · rw [toList_toUTF8, String.toList_ofList, List.take_left]
  rintro m ⟨hm, s, hs⟩
  by_contra hlt
  rw [toList_toUTF8, List.take_append, List.take_of_length_le (by omega)] at hs
  obtain ⟨es, -, hes⟩ := exists_of_encode_eq_append hs.symm
  -- a front that reaches further has a character where decoding stopped
  have hmore : more = encode es ++ more.drop (m - (encode cs).length) := by
    rw [← hes, List.take_append_drop]
  have hnil := hstuck.ne_encode hmore
  rw [hnil, encode_nil, List.take_eq_nil_iff] at hes
  rcases hes with hes | hes
  · omega
  · exact hstuck.1 hes

end NearestNeighbors.Text
