import NearestNeighbors.Proofs.Csv.Boundary

/-!
# Where the reading of a record began

The reading of a record begins where the record before it ended: behind its line end, with all
blanks still to come. The reader keeps that position while it takes in a record and moves it when
the record ends, so the position says how many rows there are in front of it, how many line feeds
and how many bytes.

* `Ended`, `Front`: fronts of an input that end with the line end of their last row.
* `State.Moves`, `State.moves_step`: what one byte does to records and positions.
* `State.Behind`, `State.Behind.run`: the positions of the records that are still to come.
* `EndsAt`, `readAll_start`, `dataRecords_start` (every record of every input): where its
  reading began.
-/

namespace NearestNeighbors.Csv

variable {bytes front blanks w : List UInt8} {b : UInt8} {rows rows' : List Row} {vs : Row}

/-! ## Fronts -/

/-- **Bytes that end with the line end of their last row**, and their rows. -/
inductive Ended : List UInt8 → List Row → Prop where
  | none : Ended [] []
  | line {front blanks w : List UInt8} {b : UInt8} {rows : List Row} {vs : Row}
    (h : Ended front rows) (hblanks : ∀ b ∈ blanks, isLineEnd b) (hline : Line Field w vs)
    (hw : w ≠ []) (hb : isLineEnd b) : Ended (front ++ blanks ++ w ++ [b]) (rows ++ [vs])

/-- **The front of an input** up to where one of its rows ended, with the mark if there is one.
Up to the first row nothing is in front. -/
inductive Front : List UInt8 → List Row → Prop where
  | none : Front [] []
  | marked {front : List UInt8} {rows : List Row} (h : Ended front rows) (hrows : rows ≠ []) :
    Front (mark ++ front) rows
  | unmarked {front : List UInt8} {rows : List Row} (hmark : ¬mark <+: front)
    (h : Ended front rows) : Front front rows

theorem Rows.behind_blanks (hblanks : ∀ b ∈ blanks, isLineEnd b) (h : Rows bytes rows) :
    Rows (blanks ++ bytes) rows := by
  induction blanks with
  | nil => exact h
  | cons b blanks ih =>
    exact .blank (hblanks b List.mem_cons_self) (ih fun b' hb' =>
      hblanks b' (List.mem_cons_of_mem _ hb'))

/-- Rows may come behind. -/
theorem Ended.append (h : Ended front rows) (hbytes : Rows bytes rows') :
    Rows (front ++ bytes) (rows ++ rows') := by
  induction h generalizing bytes rows' with
  | none => exact hbytes
  | @line front blanks w b rows vs h hblanks hline hw hb ih =>
    have hrest := ih ((Rows.line hline hw hb hbytes).behind_blanks hblanks)
    simpa using hrest

/-- The last byte ended the last row. -/
theorem Ended.getLast (h : Ended front rows) : ∀ b ∈ front.getLast?, isLineEnd b := by
  cases h with
  | none => nofun
  | line h hblanks hline hw hb =>
    intro b' hb'
    rw [List.getLast?_concat, Option.mem_some_iff] at hb'
    exact hb' ▸ hb

theorem Front.getLast (h : Front front rows) : ∀ b ∈ front.getLast?, isLineEnd b := by
  cases h with
  | none => nofun
  | unmarked _ h => exact h.getLast
  | @marked front rows h hrows =>
    cases h with
    | none => exact absurd rfl hrows
    | line h hblanks hline hw hb =>
      intro b' hb'
      rw [← List.append_assoc, List.getLast?_concat, Option.mem_some_iff] at hb'
      exact hb' ▸ hb

/-- **A front has its rows and no others.** -/
theorem Front.reads_iff (h : Front front rows) : Reads front rows' ↔ rows' = rows := by
  have hreads : Reads front rows := by
    cases h with
    | none => exact .unmarked (by decide) .nil
    | marked h _ =>
      have hrows := h.append .nil
      rw [List.append_nil, List.append_nil] at hrows
      exact .marked hrows
    | unmarked hmark h =>
      have hrows := h.append .nil
      rw [List.append_nil, List.append_nil] at hrows
      exact .unmarked hmark hrows
  rw [Csv.reads_iff] at hreads ⊢
  rw [hreads, eq_comm]

namespace State

variable {s : State}

/-! ## One byte -/

/-- What may become of records and positions: nothing, or the open record ends here and the next
one begins. -/
def Moves (s t : State) : Prop :=
  t.records = s.records ∧ t.start = s.start ∨
    ∃ fields, t.records = s.records.push ⟨s.start, fields⟩ ∧
      t.start = ⟨s.records.size + 1, t.line, t.byte⟩

theorem moves_step (s : State) (b : UInt8) : s.Moves (s.step b) := by
  unfold Moves
  grind [step, act, opening, outside, endField, endRecord, push, count]

/-- Line feeds are counted. -/
theorem line_step (s : State) (b : UInt8) : (s.step b).line = s.line + [b].count lineFeed := by
  grind [step, act, opening, outside, endField, endRecord, push, count]

theorem line_run (s : State) (w : List UInt8) : (s.run w).line = s.line + w.count lineFeed := by
  induction w generalizing s with
  | nil => rfl
  | cons b w ih =>
    rw [run_cons, ih, line_step, ← List.singleton_append (l := w), List.count_append]
    omega

/-- Where no record has ended, the position is kept. -/
theorem kept_run (hsize : (s.run w).records.size = s.records.size) :
    (s.run w).records = s.records ∧ (s.run w).start = s.start := by
  induction w generalizing s with
  | nil => exact ⟨rfl, rfl⟩
  | cons b w ih =>
    rw [run_cons] at hsize ⊢
    rcases moves_step s b with ⟨hrecords, hstart⟩ | ⟨fields, hrecords, -⟩
    · rw [← hrecords, ← hstart]
      exact ih (by rw [hsize, hrecords])
    · -- no record is taken back
      have hle := (records_run (s.step b) w).length_le
      rw [Array.length_toList, Array.length_toList, hsize, hrecords, Array.size_push] at hle
      omega

theorem At.size_eq {m : Mode} {v : List UInt8} {fs : Row} (h : s.At m v fs rows) :
    s.records.size = rows.length := by
  rw [← h.rows_eq, List.length_map, Array.length_toList]

/-! ## One record -/

/-- Where a reader is that has `rows` behind it, and the front of the input that they end. A mark
has the first `offset` bytes. -/
def position (offset : ℕ) (front : List UInt8) (rows : List Row) : Position :=
  if rows = [] then .start else ⟨rows.length, 1 + front.count lineFeed, offset + front.length⟩

/-- **A reader in front of a record**, behind the rows of `front` and some blanks. -/
structure Behind (s : State) (offset : ℕ) (front blanks : List UInt8) (rows : List Row) :
    Prop where
  at_start : s.At .recordStart [] [] rows
  ended : Ended front rows
  line_ends : ∀ b ∈ blanks, isLineEnd b
  byte_eq : s.byte = offset + (front ++ blanks).length
  line_eq : s.line = 1 + (front ++ blanks).count lineFeed
  start_eq : s.start = position offset front rows

namespace Behind

variable {offset : ℕ}

theorem afterMark (offset : ℕ) : (State.afterMark offset).Behind offset [] [] [] :=
  ⟨.afterMark offset, .none, nofun, rfl, rfl, rfl⟩

/-- A blank moves lines and bytes on, but not the position. -/
theorem blank (h : s.Behind offset front blanks rows) (hb : isLineEnd b) :
    (s.step b).Behind offset front (blanks ++ [b]) rows := by
  have hat := h.at_start.blank hb
  obtain ⟨-, hstart⟩ := kept_run (w := [b]) (hat.size_eq.trans h.at_start.size_eq.symm)
  refine ⟨hat, h.ended, fun b' hb' => ?_, ?_, ?_, hstart.trans h.start_eq⟩
  · rcases List.mem_append.1 hb' with hb' | hb'
    · exact h.line_ends b' hb'
    · rw [List.mem_singleton.1 hb']
      exact hb
  · rw [byte_step, h.byte_eq]
    simp only [List.length_append, List.length_singleton]
    omega
  · rw [line_step, h.line_eq]
    simp only [List.count_append]
    omega

/-- **A line** is a record that begins at the position, and moves it behind its line end. -/
theorem line (h : s.Behind offset front blanks rows) (hline : Line Field w vs) (hw : w ≠ [])
    (hb : isLineEnd b) :
    ((s.run w).step b).Behind offset (front ++ blanks ++ w ++ [b]) [] (rows ++ [vs]) ∧
      ((s.run w).step b).records = s.records.push ⟨s.start, vs⟩ := by
  obtain ⟨v, us, heq, m', hrun, hcloses, hmode⟩ :=
    At.line At.field hline h.at_start (.inl rfl)
  have hend := hrun.lineEnd hcloses (fun hm' => hw (hmode hm').1) hb
  rw [List.nil_append] at heq
  rw [← heq] at hend
  obtain ⟨hrecords, hstart⟩ := kept_run (hrun.size_eq.trans h.at_start.size_eq.symm)
  have hcount : ((s.run w).step b).line = 1 + (front ++ blanks ++ w ++ [b]).count lineFeed := by
    rw [line_step, line_run, h.line_eq]
    simp only [List.count_append]
    omega
  have hbyte : ((s.run w).step b).byte = offset + (front ++ blanks ++ w ++ [b]).length := by
    rw [byte_step, byte_run, h.byte_eq]
    simp only [List.length_append, List.length_singleton]
    omega
  rcases moves_step (s.run w) b with ⟨hsame, -⟩ | ⟨fields, hpush, hmoved⟩
  · -- a record has ended
    have hsize := hend.size_eq
    rw [hsame, hrun.size_eq, List.length_append, List.length_singleton] at hsize
    omega
  · have hfields := hend.rows_eq
    rw [hpush, Array.toList_push, List.map_append, hrun.rows_eq] at hfields
    obtain rfl : fields = vs := by simpa using hfields
    refine ⟨⟨hend, .line h.ended h.line_ends hline hw hb, nofun, ?_, ?_, ?_⟩, ?_⟩
    · rw [List.append_nil, hbyte]
    · rw [List.append_nil, hcount]
    · rw [hmoved, hcount, hbyte, hrun.size_eq]
      unfold position
      have hlen : (rows ++ [fields]).length = rows.length + 1 := List.length_append
      rw [if_neg (by simp), hlen]
    · rw [hpush, hrecords, hstart]

end Behind

/-! ## All records -/

/-- **Where a record begins** that has `rows` in front of it. -/
def Begins (offset : ℕ) (bytes : List UInt8) (rows : List Row) (r : Record) : Prop :=
  ∃ front rest, bytes = front ++ rest ∧ Ended front rows ∧ r.start = position offset front rows

theorem Behind.begins {offset : ℕ} {fields : Row} (h : s.Behind offset front blanks rows)
    (bytes : List UInt8) : Begins offset (front ++ blanks ++ bytes) rows ⟨s.start, fields⟩ :=
  ⟨front, blanks ++ bytes, List.append_assoc _ _ _, h.ended, h.start_eq⟩

/-- **The records that are still to come** begin behind the rows in front of them. The induction
is on the rows of the rest of the input; every blank and every line leaves the reader in front of
a record. -/
theorem Behind.run {offset : ℕ} (hbytes : Rows bytes rows')
    (h : s.Behind offset front blanks rows) :
    ∃ more, (s.run bytes).finish = s.records.toList ++ more ∧ ∀ i r, more[i]? = some r →
      Begins offset (front ++ blanks ++ bytes) (rows ++ rows'.take i) r := by
  induction hbytes generalizing s front blanks rows with
  | nil =>
    refine ⟨[], ?_, nofun⟩
    unfold finish
    rw [run_nil, if_pos h.at_start.mode_eq, List.append_nil]
  | @blank b bytes rows' hb _ ih =>
    obtain ⟨more, hmore, hbegins⟩ := ih (h.blank hb)
    have hrecords := (kept_run (w := [b])
      ((h.blank hb).at_start.size_eq.trans h.at_start.size_eq.symm)).1
    refine ⟨more, ?_, fun i r hr => ?_⟩
    · rw [run_cons, hmore]
      exact congrArg (fun records => records.toList ++ more) hrecords
    · have hbegin := hbegins i r hr
      rwa [← List.append_assoc, List.append_assoc _ [b]] at hbegin
  | @line w vs b bytes rows' hline hw hb _ ih =>
    obtain ⟨hnext, hrecords⟩ := h.line hline hw hb
    obtain ⟨more, hmore, hbegins⟩ := ih hnext
    refine ⟨⟨s.start, vs⟩ :: more, ?_, fun i r hr => ?_⟩
    · rw [run_append, run_cons, hmore, hrecords, Array.toList_push, List.append_assoc]
      rfl
    · cases i with
      | zero =>
        cases hr
        rw [List.take_zero, List.append_nil]
        exact h.begins _
      | succ i =>
        have hbytes : front ++ blanks ++ (w ++ b :: bytes) = front ++ blanks ++ w ++ [b] ++ bytes := by
          simp
        have hbegin := hbegins i r hr
        rw [List.append_nil, List.append_assoc _ [vs]] at hbegin
        rw [hbytes]
        exact hbegin
  | @last w vs hline hw =>
    obtain ⟨v, us, heq, m', hrun, -, hmode⟩ := At.line At.lastField hline h.at_start (.inl rfl)
    rw [List.nil_append] at heq
    obtain ⟨hrecords, hstart⟩ := kept_run (hrun.size_eq.trans h.at_start.size_eq.symm)
    refine ⟨[⟨s.start, vs⟩], ?_, fun i r hr => ?_⟩
    · have hopen : ¬(s.run w).mode = .recordStart :=
        hrun.mode_eq ▸ fun hm' => hw (hmode hm').1
      unfold finish
      rw [if_neg hopen, endRecord, Array.toList_push, hrecords, hstart, Array.toList_push,
        hrun.field_eq, hrun.fields_eq, heq]
    · cases i with
      | zero =>
        cases hr
        rw [List.take_zero, List.append_nil]
        exact h.begins _
      | succ i => cases hr

end State

/-! ## Whole inputs -/

/-- **Where `rows` ended in an input**: how many they are, the line feeds and the bytes up to
there, which are a front that ends with the last of them. -/
structure EndsAt (bytes : List UInt8) (rows : List Row) (p : Position) : Prop where
  records_eq : p.records = rows.length
  byte_le : p.byte ≤ bytes.length
  line_eq : p.line = 1 + (bytes.take p.byte).count lineFeed
  front : Front (bytes.take p.byte) rows
  eq_start_iff : p = .start ↔ rows = []

theorem endsAt_start (bytes : List UInt8) : EndsAt bytes [] .start :=
  ⟨rfl, Nat.zero_le _, rfl, .none, iff_of_true rfl rfl⟩

/-- A record begins where the rows in front of it ended, whether there is a mark or not. -/
theorem endsAt_of_begins {first : List UInt8} {r : Record} (hfirst : first.count lineFeed = 0)
    (hfront : ∀ front, front <+: bytes → Ended front rows → rows ≠ [] → Front (first ++ front) rows)
    (h : State.Begins first.length bytes rows r) : EndsAt (first ++ bytes) rows r.start := by
  obtain ⟨front, rest, rfl, hended, hstart⟩ := h
  rw [hstart]
  unfold State.position
  split_ifs with hrows
  · rw [hrows]
    exact endsAt_start _
  · have htake : (first ++ (front ++ rest)).take (first.length + front.length) =
        first ++ front := by
      rw [← List.append_assoc]
      exact List.take_left' List.length_append
    refine ⟨rfl, ?_, ?_, ?_, iff_of_false (fun hp => hrows ?_) hrows⟩
    · simp only [List.length_append]
      omega
    · dsimp only
      rw [htake, List.count_append, hfirst, Nat.zero_add]
    · dsimp only
      rw [htake]
      exact hfront front (List.prefix_append front rest) hended hrows
    · exact List.length_eq_zero_iff.1 (congrArg Position.records hp)

/-- **The reading of a record began where the rows in front of it ended.** -/
theorem readAll_start {i : ℕ} {r : Record} (hr : (readAll bytes)[i]? = some r) :
    EndsAt bytes (((readAll bytes).map Record.fields).take i) r.start := by
  unfold readAll readerAfter at hr ⊢
  rcases opened_cases bytes with ⟨rest, rfl, heq⟩ | ⟨hmark, heq⟩
  · rw [heq] at hr ⊢
    obtain ⟨rows, hrows⟩ := exists_rows rest
    obtain ⟨more, hmore, hbegins⟩ := (State.Behind.afterMark 3).run hrows
    rw [State.At.rest hrows (.afterMark 3)]
    rw [hmore] at hr
    exact endsAt_of_begins (by decide) (fun front _ hended hne => .marked hended hne)
      (hbegins i r hr)
  · rw [heq] at hr ⊢
    obtain ⟨rows, hrows⟩ := exists_rows bytes
    obtain ⟨more, hmore, hbegins⟩ := (State.Behind.afterMark 0).run hrows
    rw [State.At.rest hrows (.afterMark 0)]
    rw [hmore] at hr
    show EndsAt ([] ++ bytes) _ _
    exact endsAt_of_begins rfl
      (fun front hprefix hended _ => .unmarked (fun hm => hmark (hm.trans hprefix)) hended)
      (hbegins i r hr)

/-- **The reading of the first record after the header** began in front of everything, that of
any other one where the rows in front of it ended. -/
theorem dataRecords_start {before after : List Record} {r : Record}
    (h : dataRecords bytes = before ++ r :: after) :
    ∃ rows, rows <+: (readAll bytes).map Record.fields ∧ EndsAt bytes rows r.start ∧
      rows.length = if before = [] then 0 else before.length + 1 := by
  cases hall : readAll bytes with
  | nil =>
    unfold dataRecords at h
    rw [hall] at h
    cases before <;> cases h
  | cons header records =>
    rw [dataRecords_of_readAll hall] at h
    cases records with
    | nil => cases before <;> cases h
    | cons first rest =>
      cases before with
      | nil =>
        cases h
        have hheader := readAll_start (i := 0) (by rw [hall]; rfl)
        exact ⟨[], List.nil_prefix, hheader, rfl⟩
      | cons first' before =>
        obtain ⟨-, rfl⟩ := List.cons.inj h
        have hr : (readAll bytes)[before.length + 2]? = some r := by
          rw [hall]
          simp
        have hstart := readAll_start hr
        rw [hall] at hstart
        refine ⟨_, List.take_prefix _ _, hstart, ?_⟩
        rw [if_neg (by simp)]
        simp

end NearestNeighbors.Csv
