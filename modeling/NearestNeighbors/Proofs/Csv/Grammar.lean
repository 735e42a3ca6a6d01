import Mathlib
import NearestNeighbors.Csv.Reader

/-!
# The grammar of a comma-separated table

The rules of a table as a grammar over bytes, without a reader:

    table  = [mark] {blank | line end-of-line} [last line]
    line   = field {"," field}                             not empty
    field  = tail | quote {byte but quote | quote quote} quote tail
    tail   = {byte but comma and line end}                 not starting with a quote

A blank is a line end of its own. The last field of the input may leave its quotes open.

* `Field`, `LastField`, `Line`, `Rows`, `Reads`: the bytes of each part and what they hold.
* `exists_field`, `exists_line`, `exists_rows`, `exists_reads`: every input is a table.
-/

namespace NearestNeighbors.Csv

/-- The values of a row, field by field. -/
abbrev Row := List (List UInt8)

/-- The byte order mark. -/
def mark : List UInt8 := [0xEF, 0xBB, 0xBF]

/-- Neither a comma nor a line end. -/
def isPlain (b : UInt8) : Bool := !(b == comma) && !isLineEnd b

/-- A value as it stands between quotes: with its own quotes doubled. -/
def escape (v : List UInt8) : List UInt8 :=
  v.flatMap fun b => if b = quote then [quote, quote] else [b]

/-- Plain bytes that no quote comes in front of. -/
structure Tail (w : List UInt8) : Prop where
  plain : ∀ b ∈ w, isPlain b
  head_ne : w.head? ≠ some quote

/-- The bytes of a field and its value. -/
inductive Field : List UInt8 → List UInt8 → Prop where
  | bare {v : List UInt8} (h : Tail v) : Field v v
  | quoted (v : List UInt8) {tail : List UInt8} (h : Tail tail) :
    Field (quote :: escape v ++ quote :: tail) (v ++ tail)

/-- A field at the end of the input. -/
inductive LastField : List UInt8 → List UInt8 → Prop where
  | closed {w v : List UInt8} (h : Field w v) : LastField w v
  | unclosed (v : List UInt8) : LastField (quote :: escape v) v

/-- Fields with commas between them, the last one written as `Last` says. -/
inductive Line (Last : List UInt8 → List UInt8 → Prop) : List UInt8 → Row → Prop where
  | last {w v : List UInt8} (h : Last w v) : Line Last w [v]
  | cons {w v rest : List UInt8} {vs : Row} (h : Field w v) (hrest : Line Last rest vs) :
    Line Last (w ++ comma :: rest) (v :: vs)

/-- The rows of an input that has no mark. -/
inductive Rows : List UInt8 → List Row → Prop where
  | nil : Rows [] []
  | blank {b : UInt8} {bytes : List UInt8} {rows : List Row} (hb : isLineEnd b)
    (h : Rows bytes rows) : Rows (b :: bytes) rows
  | line {w : List UInt8} {vs : Row} {b : UInt8} {bytes : List UInt8} {rows : List Row}
    (hline : Line Field w vs) (hw : w ≠ []) (hb : isLineEnd b) (h : Rows bytes rows) :
    Rows (w ++ b :: bytes) (vs :: rows)
  | last {w : List UInt8} {vs : Row} (hline : Line LastField w vs) (hw : w ≠ []) :
    Rows w [vs]

/-- The rows of an input. -/
inductive Reads : List UInt8 → List Row → Prop where
  | marked {bytes : List UInt8} {rows : List Row} (h : Rows bytes rows) :
    Reads (mark ++ bytes) rows
  | unmarked {bytes : List UInt8} {rows : List Row} (hmark : ¬mark <+: bytes)
    (h : Rows bytes rows) : Reads bytes rows

variable {b : UInt8} {v l : List UInt8}

theorem isPlain_iff : isPlain b ↔ b ≠ comma ∧ isLineEnd b = false := by
  simp [isPlain]

@[simp] theorem escape_nil : escape [] = [] := rfl

theorem escape_cons (h : b ≠ quote) : escape (b :: v) = b :: escape v := by
  simp [escape, h]

/-! ## Every input is a table -/

/-- An input is plain up to its end, a comma or a line end. -/
theorem exists_plain (l : List UInt8) :
    (∀ b ∈ l, isPlain b) ∨
      ∃ w b rest, l = w ++ b :: rest ∧ (∀ b ∈ w, isPlain b) ∧ isPlain b = false := by
  cases h : l.dropWhile isPlain with
  | nil => exact .inl (List.dropWhile_eq_nil_iff.1 h)
  | cons b rest =>
    refine .inr ⟨l.takeWhile isPlain, b, rest, ?_, fun _ => List.mem_takeWhile_imp, ?_⟩
    · rw [← h, List.takeWhile_append_dropWhile]
    · have hhead := List.head?_dropWhile_not isPlain l
      rw [h] at hhead
      exact hhead

/-- Quotes are doubled up to the end or to one that closes. -/
theorem exists_escape : ∀ l : List UInt8,
    (∃ v, l = escape v) ∨ ∃ v rest, l = escape v ++ quote :: rest ∧ rest.head? ≠ some quote
  | [] => .inl ⟨[], rfl⟩
  | [b] => by
    by_cases hb : b = quote
    · exact .inr ⟨[], [], by rw [hb]; rfl, nofun⟩
    · exact .inl ⟨[b], by rw [escape_cons hb]; rfl⟩
  | b :: c :: l => by
    by_cases hb : b = quote
    · -- the next byte says whether this quote closes
      subst hb
      by_cases hc : c = quote
      · subst hc
        rcases exists_escape l with ⟨v, rfl⟩ | ⟨v, rest, rfl, hrest⟩
        · exact .inl ⟨quote :: v, rfl⟩
        · exact .inr ⟨quote :: v, rest, rfl, hrest⟩
      · exact .inr ⟨[], c :: l, rfl, by simpa using hc⟩
    · rcases exists_escape (c :: l) with ⟨v, hv⟩ | ⟨v, rest, hv, hrest⟩
      · exact .inl ⟨b :: v, by rw [escape_cons hb, hv]⟩
      · exact .inr ⟨b :: v, rest, by rw [escape_cons hb, hv]; rfl, hrest⟩

/-- What follows a closing quote, or stands for itself. -/
theorem exists_tail (l : List UInt8) (h : l.head? ≠ some quote) :
    Tail l ∨ ∃ w b rest, l = w ++ b :: rest ∧ Tail w ∧ isPlain b = false := by
  rcases exists_plain l with hall | ⟨w, b, rest, rfl, hw, hb⟩
  · exact .inl ⟨hall, h⟩
  · refine .inr ⟨w, b, rest, rfl, ⟨hw, fun hhead => h ?_⟩, hb⟩
    rw [List.head?_append, hhead]
    rfl

/-- A field comes to an end. -/
theorem exists_field (l : List UInt8) :
    (∃ v, LastField l v) ∨ ∃ w v b rest, l = w ++ b :: rest ∧ Field w v ∧ isPlain b = false := by
  by_cases hquote : l.head? = some quote
  · obtain ⟨l, rfl⟩ := List.head?_eq_some_iff.1 hquote
    rcases exists_escape l with ⟨v, rfl⟩ | ⟨v, rest, rfl, hrest⟩
    · exact .inl ⟨v, .unclosed v⟩
    rcases exists_tail rest hrest with htail | ⟨w, b, rest, rfl, htail, hb⟩
    · exact .inl ⟨_, .closed (.quoted v htail)⟩
    · exact .inr ⟨_, _, b, rest, by simp, .quoted v htail, hb⟩
  · rcases exists_tail l hquote with htail | ⟨w, b, rest, rfl, htail, hb⟩
    · exact .inl ⟨l, .closed (.bare htail)⟩
    · exact .inr ⟨w, w, b, rest, rfl, .bare htail, hb⟩

/-- A line comes to an end. -/
theorem exists_line (l : List UInt8) :
    (∃ vs, Line LastField l vs) ∨
      ∃ w vs b rest, l = w ++ b :: rest ∧ Line Field w vs ∧ isLineEnd b := by
  rcases exists_field l with ⟨v, hv⟩ | ⟨w, v, b, rest, rfl, hv, hb⟩
  · exact .inl ⟨[v], .last hv⟩
  by_cases hend : isLineEnd b
  · exact .inr ⟨w, [v], b, rest, rfl, .last hv, hend⟩
  -- neither plain nor a line end
  obtain rfl : b = comma := by
    by_contra hcomma
    rw [isPlain_iff.2 ⟨hcomma, by simpa using hend⟩] at hb
    cases hb
  have hlt : rest.length < (w ++ comma :: rest).length := by
    rw [List.length_append, List.length_cons]
    omega
  rcases exists_line rest with ⟨vs, hvs⟩ | ⟨w', vs, b, rest', rfl, hvs, hb⟩
  · exact .inl ⟨v :: vs, .cons hv hvs⟩
  · exact .inr ⟨w ++ comma :: w', v :: vs, b, rest', by simp, .cons hv hvs, hb⟩
termination_by l.length

theorem exists_rows (l : List UInt8) : ∃ rows, Rows l rows := by
  by_cases hl : l = []
  · exact ⟨[], hl ▸ .nil⟩
  rcases exists_line l with ⟨vs, hvs⟩ | ⟨w, vs, b, rest, rfl, hvs, hb⟩
  · exact ⟨[vs], .last hvs hl⟩
  have hlt : rest.length < (w ++ b :: rest).length := by
    rw [List.length_append, List.length_cons]
    omega
  obtain ⟨rows, hrows⟩ := exists_rows rest
  by_cases hw : w = []
  · exact ⟨rows, hw ▸ .blank hb hrows⟩
  · exact ⟨vs :: rows, .line hvs hw hb hrows⟩
termination_by l.length

/-- **Every input is a table.** -/
theorem exists_reads (bytes : List UInt8) : ∃ rows, Reads bytes rows := by
  by_cases hmark : mark <+: bytes
  · obtain ⟨rest, rfl⟩ := hmark
    obtain ⟨rows, hrows⟩ := exists_rows rest
    exact ⟨rows, .marked hrows⟩
  · obtain ⟨rows, hrows⟩ := exists_rows bytes
    exact ⟨rows, .unmarked hmark hrows⟩

end NearestNeighbors.Csv
