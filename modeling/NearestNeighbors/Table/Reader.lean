import NearestNeighbors.Csv.Reader
import NearestNeighbors.Decimal.Numeral
import NearestNeighbors.Sample
import NearestNeighbors.Text.Blank
import NearestNeighbors.Text.Utf8

/-!
# Reading a table of samples

After the header, each record of a table is a sample: four numbers and a species. The
first record that is not one decides the error, whatever follows it, and within a
record the order is: fields that are not text, the number of fields, the numbers from
left to right, the species.

* `fieldTexts`: the fields of a record as trimmed texts.
* `sampleOf`: the sample that a record holds.
* `parse`: all samples of a table.
-/

namespace NearestNeighbors.Table

open Csv

/-- A field without the blanks around it. Blank bytes go before the bytes are taken as
text, blank characters after; the error is the length of the part that is text. -/
def fieldText (field : List UInt8) : Except Nat String :=
  (Text.decode (Text.trimWith Text.isAsciiBlank field)).map Text.trim

/-- The fields of a record as texts, or an error that names the first field that is not
text. -/
def fieldTexts (r : Record) : Except Error (List String) :=
  r.fields.zipIdx.mapM fun (field, i) =>
    match fieldText field with
    | .ok text => .ok text
    | .error valid => .error (.encoding r.start i valid)

/-- The number in a field of record `number`. -/
def feature (number : Nat) (text : String) : Except Error Float :=
  match Numeral.parse? text with
  | some n => .ok n.toFloat
  | none => .error (.invalidNumber number text)

/-- The sample that the texts of record `number` describe. -/
def sampleOfTexts (number : Nat) : List String → Except Error Sample
  | [a, b, c, d, name] => do
    let a ← feature number a
    let b ← feature number b
    let c ← feature number c
    let d ← feature number d
    let l ← label name
    return ⟨#v[a, b, c, d], l⟩
  | texts => .error (.fieldCount number (dimensions + 1) texts.length)

/-- The sample that record `number` holds. -/
def sampleOf (number : Nat) (r : Record) : Except Error Sample := do
  let texts ← fieldTexts r
  sampleOfTexts number texts

/-- The samples of a table, or what is wrong with the first record that is not one. -/
def parse (bytes : List UInt8) : Except Error (List Sample) :=
  ((dataRecords bytes).zipIdx 1).mapM fun (r, number) => sampleOf number r

end NearestNeighbors.Table
