import Mathlib
import NearestNeighbors.Proofs.Table.Reader
import NearestNeighbors.Table.Writer

/-!
# How a table is written down

A table of texts can be written down in many ways: with a mark in front, with fields in
quotes, with blanks around them, with one line end or another, with more line ends than
needed or without the last one. None of this can be told from what is read.

* `SpellsField`, `SpellsRow`, `SpellsRows`, `Spells`: the ways to write a table down.
* `SpellsRows.rows`, `Spells.reads`: what is written down are rows with these texts.
* `spells_lines`: plain lines are one of the ways.
* `readTexts`, `parse_join_line`: what a table of texts is read as, its plain lines first.
* `parse_spells` (every table and two ways to write it down): both are read as this.
-/

namespace NearestNeighbors.Table

open Csv (Record Row Rows Reads Line Field LastField Tail comma quote escape isLineEnd isPlain mark
  dataRecords)

/-! ## Spellings -/

/-- Spaces and tabs. -/
def IsPad (w : List UInt8) : Prop := ∀ b ∈ w, b = 32 ∨ b = 9

/-- The end of a line. -/
inductive LineEnd : List UInt8 → Prop where
  | lf : LineEnd [10]
  | crlf : LineEnd [13, 10]
  | cr : LineEnd [13]

/-- Line ends without lines. -/
inductive Blanks : List UInt8 → Prop where
  | nil : Blanks []
  | cons {w ws : List UInt8} (h : LineEnd w) (hs : Blanks ws) : Blanks (w ++ ws)

/-- A text that needs no quotes. -/
def IsBare (text : String) : Prop :=
  ∀ c ∈ text.toList, c ≠ ',' ∧ c ≠ '"' ∧ c ≠ '\r' ∧ c ≠ '\n'

instance (text : String) : Decidable (IsBare text) :=
  decidable_of_iff (text.toList.all fun c => c ≠ ',' ∧ c ≠ '"' ∧ c ≠ '\r' ∧ c ≠ '\n') <| by
    simp only [List.all_eq_true, decide_eq_true_eq, IsBare]

/-- The ways to write a text as a field. -/
inductive SpellsField : String → List UInt8 → Prop where
  | bare {text : String} {before after : List UInt8} (h : IsBare text) (hbefore : IsPad before)
    (hafter : IsPad after) : SpellsField text (before ++ text.toUTF8.toList ++ after)
  | quoted {text : String} {before after behind : List UInt8} (hbefore : IsPad before)
    (hafter : IsPad after) (hbehind : IsPad behind) :
    SpellsField text (quote :: escape (before ++ text.toUTF8.toList ++ after) ++ quote :: behind)

/-- Fields with commas between them. -/
inductive SpellsRow : List String → List UInt8 → Prop where
  | nil : SpellsRow [] []
  | last {text : String} {w : List UInt8} (h : SpellsField text w) : SpellsRow [text] w
  | cons {text next : String} {texts : List String} {w ws : List UInt8} (h : SpellsField text w)
    (hs : SpellsRow (next :: texts) ws) : SpellsRow (text :: next :: texts) (w ++ comma :: ws)

/-- Rows with their line ends. The last row may go without. -/
inductive SpellsRows : List (List String) → List UInt8 → Prop where
  | nil : SpellsRows [] []
  | last {row : List String} {w : List UInt8} (h : SpellsRow row w) : SpellsRows [row] w
  | cons {row : List String} {rows : List (List String)} {w lineEnd blanks ws : List UInt8}
    (h : SpellsRow row w) (hend : LineEnd lineEnd) (hblanks : Blanks blanks)
    (hs : SpellsRows rows ws) : SpellsRows (row :: rows) (w ++ lineEnd ++ blanks ++ ws)

/-- **The ways to write a table down**, its header first. -/
inductive Spells (table : List (List String)) : List UInt8 → Prop where
  | intro {front blanks w : List UInt8} (hfront : front = [] ∨ front = mark)
    (hblanks : Blanks blanks) (h : SpellsRows table w) : Spells table (front ++ blanks ++ w)

/-- **What can be written down**: a table that does not start with the character of the mark,
in which no row is a single empty field. -/
structure IsTable (table : List (List String)) : Prop where
  head_ne : ∀ text texts rows, table = (text :: texts) :: rows →
    text.toList.head? ≠ some (Char.ofNat 0xFEFF)
  row_ne : ∀ row ∈ table, row ≠ [""]

variable {text : String} {row : List String} {rest table : List (List String)}
  {w ws before after bytes : List UInt8} {b : UInt8}

/-! ## Fields -/

theorem toNat_eq_of_mem (hb : b ∈ text.toUTF8.toList) (hlt : b.toNat < 128) :
    ∃ c ∈ text.toList, c.toNat = b.toNat := by
  rw [Text.toList_toUTF8, Text.encode, List.mem_flatMap] at hb
  obtain ⟨c, hc, hb⟩ := hb
  exact ⟨c, hc, Text.toNat_eq_of_mem_utf8EncodeChar hb hlt⟩

/-- A byte that is plain and no quote. -/
def IsSolid (b : UInt8) : Prop := isPlain b ∧ b ≠ quote

theorem IsPad.isSolid (h : IsPad w) (hb : b ∈ w) : IsSolid b := by
  rcases h b hb with rfl | rfl
  · exact ⟨rfl, by decide⟩
  · exact ⟨rfl, by decide⟩

/-- A byte of a bare text is no delimiter, for these are characters of their own. -/
theorem IsBare.isSolid (h : IsBare text) (hb : b ∈ text.toUTF8.toList) : IsSolid b := by
  have hne : ∀ d : Char, (∀ c ∈ text.toList, c ≠ d) → d.toNat < 128 → b.toNat ≠ d.toNat := by
    intro d hd hlt heq
    obtain ⟨c, hc, hcb⟩ := toNat_eq_of_mem hb (heq ▸ hlt)
    exact hd c hc (Char.toNat_inj.1 (hcb.trans heq))
  have hcomma := hne ',' (fun c hc => (h c hc).1) (by decide)
  have hquote := hne '"' (fun c hc => (h c hc).2.1) (by decide)
  have hcr := hne '\r' (fun c hc => (h c hc).2.2.1) (by decide)
  have hlf := hne '\n' (fun c hc => (h c hc).2.2.2) (by decide)
  refine ⟨Csv.isPlain_iff.2 ⟨?_, ?_⟩, ?_⟩
  · rintro rfl
    exact hcomma rfl
  · by_contra hend
    simp only [isLineEnd, Bool.not_eq_false, Bool.or_eq_true, decide_eq_true_eq] at hend
    rcases hend with rfl | rfl
    · exact hcr rfl
    · exact hlf rfl
  · rintro rfl
    exact hquote rfl

theorem tail_of_isSolid (h : ∀ b ∈ w, IsSolid b) : Tail w where
  plain := fun b hb => (h b hb).1
  head_ne := fun hhead => (h quote (List.mem_of_mem_head? hhead)).2 rfl

theorem IsPad.isAsciiBlank (h : IsPad w) : ∀ b ∈ w, Text.isAsciiBlank b := by
  intro b hb
  rcases h b hb with rfl | rfl <;> rfl

theorem IsPad.append (hbefore : IsPad before) (hafter : IsPad after) : IsPad (before ++ after) := by
  intro b hb
  rcases List.mem_append.1 hb with hb | hb
  · exact hbefore b hb
  · exact hafter b hb

/-- A field as it is written holds its text. -/
theorem SpellsField.field (h : SpellsField text w) :
    ∃ v, Field w v ∧ IsText v (Text.trim text) ∧ (w = [] → text = "") := by
  cases h with
  | bare h hbefore hafter =>
    refine ⟨_, .bare (tail_of_isSolid fun b hb => ?_),
      isText_surround hbefore.isAsciiBlank hafter.isAsciiBlank text, ?_⟩
    · rw [List.mem_append, List.mem_append] at hb
      rcases hb with (hb | hb) | hb
      · exact hbefore.isSolid hb
      · exact h.isSolid hb
      · exact hafter.isSolid hb
    · intro hnil
      rw [List.append_eq_nil_iff, List.append_eq_nil_iff, Text.toList_toUTF8,
        Text.encode_eq_nil] at hnil
      exact String.toList_eq_nil_iff.1 hnil.1.2
  | quoted hbefore hafter hbehind =>
    refine ⟨_, .quoted _ (tail_of_isSolid fun b hb => hbehind.isSolid hb), ?_, nofun⟩
    rw [List.append_assoc]
    exact isText_surround hbefore.isAsciiBlank (hafter.append hbehind).isAsciiBlank text

/-! ## Rows -/

/-- The fields of a row hold its texts, one by one. -/
def HoldsTexts (vs : Row) (row : List String) : Prop := List.Forall₂ IsText vs (row.map Text.trim)

/-- A row as it is written is a line, unless it has no fields. -/
theorem SpellsRow.line (h : SpellsRow row w) (hrow : row ≠ []) :
    ∃ vs, Line Field w vs ∧ HoldsTexts vs row ∧ (w = [] → row = [""]) := by
  induction h with
  | nil => exact absurd rfl hrow
  | last h =>
    obtain ⟨v, hfield, htext, hnil⟩ := h.field
    exact ⟨[v], .last hfield, .cons htext .nil, fun hw => by rw [hnil hw]⟩
  | cons h _ ih =>
    obtain ⟨v, hfield, htext, -⟩ := h.field
    obtain ⟨vs, hline, htexts, -⟩ := ih nofun
    refine ⟨v :: vs, .cons hfield hline, .cons htext htexts, fun hw => ?_⟩
    cases (List.append_eq_nil_iff.1 hw).2

theorem SpellsRow.eq_nil (h : SpellsRow [] w) : w = [] := by
  cases h
  rfl

theorem LineEnd.isLineEnd (h : LineEnd w) : ∀ b ∈ w, isLineEnd b := by
  intro b hb
  cases h with
  | lf | cr =>
    rw [List.mem_singleton] at hb
    exact hb ▸ rfl
  | crlf =>
    rcases List.mem_cons.1 hb with rfl | hb
    · rfl
    · rw [List.mem_singleton] at hb
      exact hb ▸ rfl

theorem Blanks.isLineEnd (h : Blanks w) : ∀ b ∈ w, isLineEnd b := by
  induction h with
  | nil => exact nofun
  | cons h _ ih =>
    intro b hb
    rcases List.mem_append.1 hb with hb | hb
    · exact h.isLineEnd b hb
    · exact ih b hb

theorem rows_blanks {vss : List Row} (hw : ∀ b ∈ w, isLineEnd b) (h : Rows ws vss) :
    Rows (w ++ ws) vss := by
  induction w with
  | nil => exact h
  | cons b w ih =>
    exact .blank (hw b List.mem_cons_self) (ih fun b' hb' => hw b' (List.mem_cons_of_mem _ hb'))

/-- A line ends where its line end begins. -/
theorem rows_line {vs : Row} {vss : List Row} {lineEnd : List UInt8} (hline : Line Field w vs)
    (hw : w ≠ []) (hend : LineEnd lineEnd) (h : Rows ws vss) :
    Rows (w ++ (lineEnd ++ ws)) (vs :: vss) := by
  cases hend with
  | lf => exact .line hline hw rfl h
  | crlf => exact .line hline hw rfl (.blank rfl h)
  | cr => exact .line hline hw rfl h

theorem line_lastField {vs : Row} (h : Line Field w vs) : Line LastField w vs := by
  induction h with
  | last h => exact .last (.closed h)
  | cons h _ ih => exact .cons h ih

/-- The rows that leave a trace: those with fields. -/
def written (table : List (List String)) : List (List String) :=
  table.filter fun row => !row.isEmpty

theorem written_cons (hrow : row ≠ []) : written (row :: rest) = row :: written rest := by
  simp [written, hrow]

/-- **Rows as they are written** hold their texts. -/
theorem SpellsRows.rows (h : SpellsRows table w) (htable : ∀ row ∈ table, row ≠ [""]) :
    ∃ vss, Rows w vss ∧ List.Forall₂ HoldsTexts vss (written table) := by
  induction h with
  | nil => exact ⟨[], .nil, .nil⟩
  | @last row w h =>
    by_cases hrow : row = []
    · subst hrow
      rw [h.eq_nil]
      exact ⟨[], .nil, .nil⟩
    · obtain ⟨vs, hline, htexts, hnil⟩ := h.line hrow
      have hw : w ≠ [] := fun hw => htable row List.mem_cons_self (hnil hw)
      refine ⟨[vs], .last (line_lastField hline) hw, ?_⟩
      rw [written_cons hrow]
      exact .cons htexts .nil
  | @cons row rows w lineEnd blanks ws h hend hblanks _ ih =>
    obtain ⟨vss, hrest, hall⟩ := ih fun row hmem => htable row (List.mem_cons_of_mem _ hmem)
    have hblank := rows_blanks hblanks.isLineEnd hrest
    rw [List.append_assoc, List.append_assoc]
    by_cases hrow : row = []
    · subst hrow
      rw [h.eq_nil, List.nil_append]
      exact ⟨vss, rows_blanks hend.isLineEnd hblank, hall⟩
    · obtain ⟨vs, hline, htexts, hnil⟩ := h.line hrow
      have hw : w ≠ [] := fun hw => htable row List.mem_cons_self (hnil hw)
      refine ⟨vs :: vss, rows_line hline hw hend hblank, ?_⟩
      rw [written_cons hrow]
      exact .cons htexts hall

/-! ## Tables -/

/-- What starts with an ASCII byte, if it does with any. -/
def AsciiLed (w : List UInt8) : Prop := ∀ b, w.head? = some b → b.toNat < 128

theorem AsciiLed.not_mark (h : AsciiLed w) : ¬mark <+: w := by
  rintro ⟨more, rfl⟩
  exact absurd (h 0xEF rfl) (by decide)

theorem asciiLed_cons (h : b.toNat < 128) : AsciiLed (b :: w) := by
  rintro _ ⟨⟩
  exact h

theorem IsPad.toNat_lt (h : IsPad w) (hb : b ∈ w) : b.toNat < 128 := by
  rcases h b hb with rfl | rfl <;> decide

theorem LineEnd.asciiLed (h : LineEnd w) : AsciiLed (w ++ ws) := by
  cases h <;> exact asciiLed_cons (by decide)

theorem IsPad.asciiLed (h : IsPad w) (hws : AsciiLed ws) : AsciiLed (w ++ ws) := by
  cases w with
  | nil => exact hws
  | cons b w => exact asciiLed_cons (h.toNat_lt List.mem_cons_self)

/-- No field starts with a mark that its text does not start with. -/
theorem SpellsField.not_mark (h : SpellsField text w)
    (hhead : text.toList.head? ≠ some (Char.ofNat 0xFEFF)) (hws : AsciiLed ws) :
    ¬mark <+: w ++ ws := by
  cases h with
  | quoted hbefore hafter hbehind => exact (asciiLed_cons (by decide)).not_mark
  | @bare before after h hbefore hafter =>
    cases before with
    | cons b before =>
      exact (asciiLed_cons (hbefore.toNat_lt List.mem_cons_self)).not_mark
    | nil =>
      rw [Text.toList_toUTF8, List.nil_append, List.append_assoc]
      cases htext : text.toList with
      | nil => exact (hafter.asciiLed hws).not_mark
      | cons c cs =>
        rintro ⟨more, hmore⟩
        rw [Text.encode_cons, List.append_assoc] at hmore
        have hmark : mark = String.utf8EncodeChar (Char.ofNat 0xFEFF) := by decide
        obtain ⟨rfl, -⟩ := Text.utf8EncodeChar_append_inj (hmark ▸ hmore)
        exact hhead (by rw [htext]; rfl)

theorem SpellsRow.not_mark (h : SpellsRow row w)
    (hhead : ∀ text texts, row = text :: texts → text.toList.head? ≠ some (Char.ofNat 0xFEFF))
    (hws : AsciiLed ws) : ¬mark <+: w ++ ws := by
  cases h with
  | nil => exact hws.not_mark
  | last h => exact h.not_mark (hhead _ _ rfl) hws
  | cons h hs =>
    rw [List.append_assoc]
    exact h.not_mark (hhead _ _ rfl) (asciiLed_cons (by decide))

theorem SpellsRows.not_mark (h : SpellsRows table w) (htable : IsTable table) : ¬mark <+: w := by
  cases h with
  | nil => exact AsciiLed.not_mark nofun
  | last h =>
    rw [← List.append_nil w]
    exact h.not_mark (fun text texts heq => htable.head_ne text texts _ (by rw [heq])) nofun
  | cons h hend hblanks hs =>
    rw [List.append_assoc, List.append_assoc]
    exact h.not_mark (fun text texts heq => htable.head_ne text texts _ (by rw [heq]))
      hend.asciiLed

/-- **A table as it is written** is read as rows that hold its texts. -/
theorem Spells.reads (h : Spells table bytes) (htable : IsTable table) :
    ∃ vss, Reads bytes vss ∧ List.Forall₂ HoldsTexts vss (written table) := by
  obtain ⟨hfront, hblanks, hrows⟩ := h
  obtain ⟨vss, hread, hall⟩ := hrows.rows htable.row_ne
  have hread := rows_blanks hblanks.isLineEnd hread
  refine ⟨vss, ?_, hall⟩
  rw [List.append_assoc]
  rcases hfront with rfl | rfl
  · refine .unmarked ?_ hread
    cases hblanks with
    | nil => exact hrows.not_mark htable
    | cons hend _ =>
      rw [List.append_assoc, List.nil_append]
      exact hend.asciiLed.not_mark
  · exact .marked hread

/-! ## Plain lines -/

theorem isPad_nil : IsPad [] := nofun

theorem IsBare.spellsField (h : IsBare text) : SpellsField text text.toUTF8.toList := by
  have hfield := SpellsField.bare h isPad_nil isPad_nil
  simpa using hfield

/-- Texts with commas between them. -/
theorem spellsRow_intercalate (h : ∀ text ∈ row, IsBare text) :
    SpellsRow row (",".intercalate row).toUTF8.toList := by
  have hnone : "".toUTF8.toList = [] := by decide +kernel
  have hcomma : ",".toUTF8.toList = [comma] := by decide +kernel
  induction row with
  | nil =>
    rw [String.intercalate_nil, hnone]
    exact .nil
  | cons text row ih =>
    have htext := (h text List.mem_cons_self).spellsField
    have hrow := ih fun t ht => h t (List.mem_cons_of_mem _ ht)
    cases row with
    | nil => exact .last htext
    | cons next row =>
      rw [String.intercalate_cons_cons, Text.toUTF8_append, Text.toUTF8_append, List.append_assoc,
        hcomma]
      exact .cons htext hrow

/-- Lines of texts. -/
theorem spellsRows_lines (h : ∀ row ∈ table, ∀ text ∈ row, IsBare text) :
    SpellsRows table (String.join (table.map line)).toUTF8.toList := by
  have hnone : "".toUTF8.toList = [] := by decide +kernel
  have hend : "\n".toUTF8.toList = [10] := by decide +kernel
  induction table with
  | nil =>
    rw [List.map_nil, String.join_nil, hnone]
    exact .nil
  | cons row table ih =>
    have hrow := spellsRow_intercalate (h row List.mem_cons_self)
    have hrest := ih fun r hr => h r (List.mem_cons_of_mem _ hr)
    have hline := SpellsRows.cons hrow .lf .nil hrest
    rw [List.append_nil] at hline
    rw [List.map_cons, String.join_cons, Text.toUTF8_append, line, Text.toUTF8_append, hend]
    exact hline

/-- Lines of texts, with nothing else. -/
theorem spells_lines (h : ∀ row ∈ table, ∀ text ∈ row, IsBare text) :
    Spells table (String.join (table.map line)).toUTF8.toList := by
  have hspells := Spells.intro (.inl rfl) .nil (spellsRows_lines h)
  rwa [List.append_nil, List.nil_append] at hspells

/-! ## What is read -/

/-- What a table of texts is read as: the rows after the first that have fields. -/
def readTexts (table : List (List String)) : Except Error (List Sample) :=
  ((written table).tail.zipIdx 1).mapM fun p => sampleOfTexts p.2 (p.1.map Text.trim)

theorem parse_of_holdsTexts {vss : List Row} (hread : Reads bytes vss)
    (hall : List.Forall₂ HoldsTexts vss (written table)) : parse bytes = readTexts table := by
  have hfields : (dataRecords bytes).map Record.fields = vss.tail := by
    rw [dataRecords_fields, hread.readAll]
  have htail : List.Forall₂ HoldsTexts vss.tail (written table).tail := by
    rw [← List.drop_one, ← List.drop_one]
    exact List.forall₂_drop 1 hall
  rw [← hfields, List.forall₂_map_left_iff] at htail
  refine mapM_zipIdx_congr htail fun r texts number htexts => ?_
  show sampleOf number r = _
  unfold sampleOf
  rw [fieldTexts_eq_ok.2 htexts]
  rfl

/-- Lines of texts are read as these texts. -/
theorem parse_join_line (htable : IsTable table) (h : ∀ row ∈ table, ∀ text ∈ row, IsBare text) :
    parse (String.join (table.map line)).toUTF8.toList = readTexts table := by
  obtain ⟨vss, hread, hall⟩ := (spells_lines h).reads htable
  exact parse_of_holdsTexts hread hall

/-- **A table is read as it is, however it is written down**: as its texts, so that two ways
to write it down give the same samples, or the same error with the same number and text. -/
theorem parse_spells {bytes' : List UInt8} (htable : IsTable table) (h : Spells table bytes)
    (h' : Spells table bytes') :
    parse bytes = parse bytes' ∧ parse bytes = readTexts table ∧
      ∀ e, parse bytes = .error e → ∃ number texts, TextDefect number texts e := by
  obtain ⟨vss, hread, hall⟩ := h.reads htable
  obtain ⟨vss', hread', hall'⟩ := h'.reads htable
  have hparse := parse_of_holdsTexts hread hall
  refine ⟨hparse.trans (parse_of_holdsTexts hread' hall').symm, hparse, fun e he => ?_⟩
  rw [hparse, readTexts, mapM_eq_error] at he
  obtain ⟨-, ⟨texts, number⟩, -, -, -, he⟩ := he
  exact ⟨number, _, sampleOfTexts_eq_error.1 he⟩

/-- A header and one flower. -/
def oneFlower : List (List String) := [["h"], ["7", "3", "4.7", "1.4", "versicolor"]]

theorem oneFlower_isTable : IsTable oneFlower where
  head_ne := by
    rintro text texts rows heq
    obtain ⟨⟨rfl, -⟩, -⟩ := heq
    decide
  row_ne := by decide

theorem oneFlower_isBare : ∀ row ∈ oneFlower, ∀ text ∈ row, IsBare text := by
  simp [oneFlower, IsBare]

/-- With a mark, blanks and quotes, and without the last line end. -/
theorem spells_oneFlower : Spells oneFlower
    (mark ++ "\r\n\"h\"\r 7,3,\"4.7\",1.4,\" versicolor\"\t".toUTF8.toList) := by
  have hbare : ∀ text ∈ ["7", "3", "1.4"], IsBare text := by simp [IsBare]
  have hspace : IsPad [32] := by simp [IsPad]
  have htab : IsPad [9] := by simp [IsPad]
  have hheader : SpellsField "h" _ := .quoted isPad_nil isPad_nil isPad_nil
  have hseven := SpellsField.bare (hbare "7" (by simp)) hspace isPad_nil
  have hthree := (hbare "3" (by simp)).spellsField
  have hquoted : SpellsField "4.7" _ := .quoted isPad_nil isPad_nil isPad_nil
  have hlast := (hbare "1.4" (by simp)).spellsField
  have hname : SpellsField "versicolor" _ := .quoted hspace isPad_nil htab
  have hrow := SpellsRow.cons hseven (.cons hthree (.cons hquoted (.cons hlast (.last hname))))
  have hspells : Spells oneFlower _ :=
    .intro (.inr rfl) (.cons .crlf .nil) (.cons (.last hheader) .cr .nil (.last hrow))
  convert hspells using 1
  decide +kernel

/-- **One table, written down in two ways**: with plain lines, and with all that is allowed. -/
theorem parse_spells_oneFlower :
    ∃ xs, parse (String.join (oneFlower.map line)).toUTF8.toList = .ok xs ∧
      parse (mark ++ "\r\n\"h\"\r 7,3,\"4.7\",1.4,\" versicolor\"\t".toUTF8.toList) = .ok xs ∧
      xs.map Sample.label = [1] := by
  obtain ⟨hboth, -⟩ :=
    parse_spells oneFlower_isTable (spells_lines oneFlower_isBare) spells_oneFlower
  obtain ⟨xs, hxs, hlabels⟩ := exists_parse_of_labels
    (String.join (oneFlower.map line)).toUTF8.toList [1] (by decide +kernel)
  exact ⟨xs, hxs, hboth ▸ hxs, hlabels⟩

end NearestNeighbors.Table
