import Mathlib
import NearestNeighbors.Proofs.Csv.Grammar

/-!
# The reader reads by the grammar

What a reader has read is its mode, the open field, the fields before it and the rows;
lines and bytes are counted beside that. One byte changes it in one of eight ways, and
from these it follows, by induction on the grammar, what a field, a line and the rest of
an input come to.

* `State.At`: what has been read; `State.At.comma` and so on: one byte.
* `State.At.field`, `State.At.line`, `State.At.rest`: the parts of the grammar.
* `reads_iff`: the records of an input are its rows by the grammar.
* `State.Clean`: what a reader holds between two records.
-/

namespace NearestNeighbors.Csv

namespace State

/-- What a reader has read. -/
structure At (s : State) (mode : Mode) (field : List UInt8) (fields : Row) (rows : List Row) :
    Prop where
  mode_eq : s.mode = mode
  field_eq : s.field.toList = field
  fields_eq : s.fields.toList = fields
  rows_eq : s.records.toList.map Record.fields = rows

variable {s : State} {m : Mode} {b : UInt8} {v w u : List UInt8} {vs fs : Row}
  {rows rows' : List Row}

@[simp] theorem run_nil (s : State) : s.run [] = s := rfl

@[simp] theorem run_cons (s : State) (b : UInt8) (w : List UInt8) :
    s.run (b :: w) = (s.step b).run w := rfl

/-- Modes in front of a field. -/
def Opens (m : Mode) : Prop := m = .recordStart ∨ m = .fieldStart

/-- Modes in which a field ends with the next comma or line end. -/
def Closes (m : Mode) : Prop := m ≠ .quoted

namespace At

theorem afterMark (byte : ℕ) : (State.afterMark byte).At .recordStart [] [] [] :=
  ⟨rfl, rfl, rfl, rfl⟩

/-! ## One byte -/

theorem endField (h : s.At m v fs rows) : s.endField.At .fieldStart [] (fs ++ [v]) rows := by
  refine ⟨rfl, rfl, ?_, h.rows_eq⟩
  simp [State.endField, h.field_eq, h.fields_eq]

theorem endRecord (h : s.At m v fs rows) :
    s.endRecord.At .recordStart [] [] (rows ++ [fs ++ [v]]) := by
  refine ⟨rfl, rfl, rfl, ?_⟩
  simp [State.endRecord, h.field_eq, h.fields_eq, h.rows_eq]

theorem push (h : s.At m v fs rows) (m' : Mode) (b : UInt8) :
    (s.push m' b).At m' (v ++ [b]) fs rows := by
  refine ⟨rfl, ?_, h.fields_eq, h.rows_eq⟩
  simp [State.push, h.field_eq]

/-- Counting does not change what has been read. -/
theorem count (h : s.At m v fs rows) (b : UInt8) : (s.count b).At m v fs rows :=
  ⟨h.mode_eq, h.field_eq, h.fields_eq, h.rows_eq⟩

theorem comma (h : s.At m v fs rows) (hm : Closes m) :
    (s.step Csv.comma).At .fieldStart [] (fs ++ [v]) rows := by
  have hc := h.count Csv.comma
  have hend := hc.endField
  unfold step act
  rw [hc.mode_eq]
  cases m with
  | quoted => exact absurd rfl hm
  | recordStart | fieldStart | bare | quoteEnd => exact hend

/-- A line end in front of a record. -/
theorem blank (h : s.At .recordStart v fs rows) (hb : isLineEnd b) :
    (s.step b).At .recordStart v fs rows := by
  have hc := h.count b
  unfold step act
  rw [hc.mode_eq]
  simp only [hb, if_true]
  exact hc

theorem lineEnd (h : s.At m v fs rows) (hm : Closes m) (hopen : m ≠ .recordStart)
    (hb : isLineEnd b) : (s.step b).At .recordStart [] [] (rows ++ [fs ++ [v]]) := by
  have hc := h.count b
  have hcomma : b ≠ Csv.comma := by
    rintro rfl
    cases hb
  have hquote : b ≠ quote := by
    rintro rfl
    cases hb
  have hend := hc.endRecord
  unfold step act
  rw [hc.mode_eq]
  cases m with
  | quoted => exact absurd rfl hm
  | recordStart => exact absurd rfl hopen
  | fieldStart | bare | quoteEnd =>
    simp only [opening, outside, hquote, hcomma, hb, if_true, if_false]
    exact hend

/-- A plain byte outside quotes. A quote is one as well, once a field is under way. -/
theorem plain (h : s.At m v fs rows) (hm : Closes m) (hb : isPlain b)
    (hquote : m = .bare ∨ b ≠ quote) : (s.step b).At .bare (v ++ [b]) fs rows := by
  obtain ⟨hcomma, hend⟩ := isPlain_iff.1 hb
  have hc := h.count b
  have hpush := hc.push .bare b
  unfold step act
  rw [hc.mode_eq]
  cases m with
  | quoted => exact absurd rfl hm
  | bare =>
    simp only [outside, hcomma, hend, if_false, Bool.false_eq_true]
    exact hpush
  | recordStart | fieldStart | quoteEnd =>
    have hne : b ≠ quote := hquote.resolve_left (by decide)
    simp only [opening, outside, hne, hcomma, hend, if_false, Bool.false_eq_true]
    exact hpush

/-- A quote in front of a field. -/
theorem openQuote (h : s.At m v fs rows) (hm : Opens m) :
    (s.step quote).At .quoted v fs rows := by
  have hc := h.count quote
  unfold step act
  rw [hc.mode_eq]
  rcases hm with rfl | rfl
  · exact ⟨rfl, hc.field_eq, hc.fields_eq, hc.rows_eq⟩
  · exact ⟨rfl, hc.field_eq, hc.fields_eq, hc.rows_eq⟩

/-- A byte between quotes. -/
theorem inside (h : s.At .quoted v fs rows) (hb : b ≠ quote) :
    (s.step b).At .quoted (v ++ [b]) fs rows := by
  have hc := h.count b
  have hpush := hc.push .quoted b
  unfold step act
  rw [hc.mode_eq]
  simp only [hb, if_false]
  exact hpush

theorem closeQuote (h : s.At .quoted v fs rows) : (s.step quote).At .quoteEnd v fs rows := by
  have hc := h.count quote
  unfold step act
  rw [hc.mode_eq]
  exact ⟨rfl, hc.field_eq, hc.fields_eq, hc.rows_eq⟩

/-- A second quote. -/
theorem doubled (h : s.At .quoteEnd v fs rows) :
    (s.step quote).At .quoted (v ++ [quote]) fs rows := by
  have hc := h.count quote
  have hpush := hc.push .quoted quote
  unfold step act
  rw [hc.mode_eq]
  exact hpush

/-! ## Parts of the grammar -/

theorem plains (h : s.At .bare v fs rows) (hw : ∀ b ∈ w, isPlain b) :
    (s.run w).At .bare (v ++ w) fs rows := by
  induction w generalizing s v with
  | nil => simpa using h
  | cons b w ih =>
    have hstep := h.plain nofun (hw b List.mem_cons_self) (.inl rfl)
    have hrest := ih hstep fun b' hb' => hw b' (List.mem_cons_of_mem _ hb')
    rw [List.append_assoc] at hrest
    exact hrest

theorem tail (h : s.At m v fs rows) (hm : Closes m) (hw : Tail w) :
    ∃ m', (s.run w).At m' (v ++ w) fs rows ∧ Closes m' ∧ (m' = .bare ∨ w = [] ∧ m' = m) := by
  cases w with
  | nil => exact ⟨m, by simpa using h, hm, .inr ⟨rfl, rfl⟩⟩
  | cons b w =>
    have hb : b ≠ quote := fun heq => hw.head_ne (heq ▸ rfl)
    have hstep := h.plain hm (hw.plain b List.mem_cons_self) (.inr hb)
    have hrest := hstep.plains fun b' hb' => hw.plain b' (List.mem_cons_of_mem _ hb')
    rw [List.append_assoc] at hrest
    exact ⟨.bare, hrest, nofun, .inl rfl⟩

theorem escaped (h : s.At .quoted v fs rows) (u : List UInt8) :
    (s.run (escape u)).At .quoted (v ++ u) fs rows := by
  induction u generalizing s v with
  | nil => simpa using h
  | cons b u ih =>
    have hpair : v ++ [b] ++ u = v ++ b :: u := List.append_assoc v [b] u
    by_cases hb : b = quote
    · subst hb
      rw [← hpair]
      exact ih h.closeQuote.doubled
    · rw [escape_cons hb, ← hpair]
      exact ih (h.inside hb)

/-- The reader has taken `w` in and holds the open field `v` with `fs` before it. It is in
front of a record only if it was there and `w` is empty. -/
def Taken (s : State) (m : Mode) (w v : List UInt8) (fs : Row) (rows : List Row)
    (Ends : Mode → Prop) : Prop :=
  ∃ m', (s.run w).At m' v fs rows ∧ Ends m' ∧ (m' = .recordStart → w = [] ∧ m = .recordStart)

theorem field (hw : Field w v) (h : s.At m [] fs rows) (hm : Opens m) :
    Taken s m w v fs rows Closes := by
  cases hw with
  | bare htail =>
    have hcloses : Closes m := by rcases hm with rfl | rfl <;> exact nofun
    obtain ⟨m', hrun, hm', hmode⟩ := h.tail hcloses htail
    refine ⟨m', hrun, hm', ?_⟩
    rintro rfl
    rcases hmode with hmode | ⟨hnil, hmode⟩
    · cases hmode
    · exact ⟨hnil, hmode.symm⟩
  | quoted v htail =>
    have hinside := (h.openQuote hm).escaped v
    obtain ⟨m', hrun, hm', hmode⟩ := hinside.closeQuote.tail nofun htail
    refine ⟨m', ?_, hm', ?_⟩
    · rw [run_append]
      exact hrun
    · rintro rfl
      rcases hmode with hmode | ⟨-, hmode⟩ <;> cases hmode

theorem lastField (hw : LastField w v) (h : s.At m [] fs rows) (hm : Opens m) :
    Taken s m w v fs rows fun _ => True := by
  cases hw with
  | closed hw =>
    obtain ⟨m', hrun, -, hstart⟩ := field hw h hm
    exact ⟨m', hrun, trivial, hstart⟩
  | unclosed => exact ⟨.quoted, (h.openQuote hm).escaped v, trivial, nofun⟩

/-- A line is read field by field, whatever its last field may be. -/
theorem line {Last : List UInt8 → List UInt8 → Prop} {Ends : Mode → Prop}
    (hlast : ∀ {s m w v fs}, Last w v → s.At m [] fs rows → Opens m → Taken s m w v fs rows Ends)
    (hw : Line Last w vs) (h : s.At m [] fs rows) (hm : Opens m) :
    ∃ v us, fs ++ vs = us ++ [v] ∧ Taken s m w v us rows Ends := by
  induction hw generalizing s m fs with
  | last hw => exact ⟨_, fs, rfl, hlast hw h hm⟩
  | @cons w v rest vs hw hrest ih =>
    obtain ⟨m₁, hfield, hcloses, -⟩ := field hw h hm
    obtain ⟨v', us, heq, m₂, hrun, hends, hstart⟩ := ih (hfield.comma hcloses) (.inr rfl)
    refine ⟨v', us, ?_, m₂, ?_, hends, fun hm₂ => ?_⟩
    · rw [← heq, List.append_assoc]
      rfl
    · rw [run_append]
      exact hrun
    · cases (hstart hm₂).2

theorem finish (h : s.At m v fs rows) (hm : m ≠ .recordStart) :
    s.finish.map Record.fields = rows ++ [fs ++ [v]] := by
  have hmode : ¬s.mode = .recordStart := h.mode_eq ▸ hm
  unfold State.finish
  rw [if_neg hmode]
  exact h.endRecord.rows_eq

theorem finish_recordStart (h : s.At .recordStart v fs rows) :
    s.finish.map Record.fields = rows := by
  unfold State.finish
  rw [if_pos h.mode_eq]
  exact h.rows_eq

/-- **The rest of an input** adds its rows. -/
theorem rest {bytes : List UInt8} (hbytes : Rows bytes rows')
    (h : s.At .recordStart [] [] rows) :
    (s.run bytes).finish.map Record.fields = rows ++ rows' := by
  induction hbytes generalizing s rows with
  | nil => simpa using h.finish_recordStart
  | blank hb _ ih => exact ih (h.blank hb)
  | @line w vs b bytes rows' hline hw hb _ ih =>
    obtain ⟨v, us, heq, m', hrun, hcloses, hstart⟩ := line field hline h (.inl rfl)
    -- a line that is not empty leaves a field open for its line end
    have hend := hrun.lineEnd hcloses (fun hm' => hw (hstart hm').1) hb
    rw [run_append, run_cons, ih hend, ← heq, List.append_assoc]
    rfl
  | last hline hw =>
    obtain ⟨v, us, heq, m', hrun, -, hstart⟩ := line lastField hline h (.inl rfl)
    rw [hrun.finish fun hm' => hw (hstart hm').1, ← heq]
    rfl

end At

/-! ## Between two records -/

/-- In front of a record nothing is left of the one before it. -/
def Clean (s : State) : Prop := s.mode = .recordStart → s.field = #[] ∧ s.fields = #[]

theorem Clean.step (h : s.Clean) (b : UInt8) : (s.step b).Clean := by
  unfold Clean at h ⊢
  intro hmode
  cases hs : s.mode <;> grind [State.step, act, opening, outside, State.endField,
    State.endRecord, State.push, State.count]

theorem Clean.run (h : s.Clean) (bytes : List UInt8) : (s.run bytes).Clean := by
  induction bytes generalizing s with
  | nil => exact h
  | cons b bytes ih => exact ih (h.step b)

theorem Clean.at (h : s.Clean) (hmode : s.mode = .recordStart) :
    s.At .recordStart [] [] (s.records.toList.map Record.fields) := by
  obtain ⟨hfield, hfields⟩ := h hmode
  exact ⟨hmode, by rw [hfield], by rw [hfields], rfl⟩

end State

/-! ## Whole inputs -/

theorem opened_cases (bytes : List UInt8) :
    (∃ rest, bytes = mark ++ rest ∧ opened bytes = (.afterMark 3, rest)) ∨
      ¬mark <+: bytes ∧ opened bytes = (.afterMark 0, bytes) := by
  unfold opened
  split
  · exact .inl ⟨_, rfl, rfl⟩
  · rename_i h
    refine .inr ⟨?_, rfl⟩
    rintro ⟨rest, rfl⟩
    exact h rest rfl

theorem readerAfter_clean (bytes : List UInt8) : (readerAfter bytes).Clean := by
  have hnew : ∀ byte, (State.afterMark byte).Clean := fun _ _ => ⟨rfl, rfl⟩
  unfold readerAfter
  rcases opened_cases bytes with ⟨rest, -, heq⟩ | ⟨-, heq⟩
  · rw [heq]
    exact (hnew 3).run rest
  · rw [heq]
    exact (hnew 0).run bytes

theorem Reads.readAll {bytes : List UInt8} {rows : List Row} (h : Reads bytes rows) :
    (readAll bytes).map Record.fields = rows := by
  unfold Csv.readAll readerAfter
  cases h with
  | marked h => exact State.At.rest h (.afterMark 3)
  | unmarked hmark h =>
    rcases opened_cases bytes with ⟨rest, rfl, -⟩ | ⟨-, heq⟩
    · exact absurd (List.prefix_append mark rest) hmark
    · rw [heq]
      exact State.At.rest h (.afterMark 0)

/-- **The reader reads by the grammar**: the records of an input are its rows, and an input
has no other rows. -/
theorem reads_iff {bytes : List UInt8} {rows : List Row} :
    Reads bytes rows ↔ (readAll bytes).map Record.fields = rows := by
  refine ⟨Reads.readAll, ?_⟩
  rintro rfl
  obtain ⟨rows, h⟩ := exists_reads bytes
  rw [h.readAll]
  exact h

end NearestNeighbors.Csv
