/-!
# Text out of bytes

A field is a row of bytes; it is text when the bytes are well-formed UTF-8. Where they
are not, the length of the well-formed part in front is what an error reports.

* `decode`: the text, or the length of the longest part in front that is text.
-/

namespace NearestNeighbors.Text

/-- The characters of `bytes` from position `i` on, or the position of the first byte
that starts no character. -/
def decodeFrom (bytes : ByteArray) (i : Nat) : Except Nat (List Char) :=
  if i < bytes.size then
    match bytes.utf8DecodeChar? i with
    | none => .error i
    | some c => do
      let cs ← decodeFrom bytes (i + c.utf8Size)
      return c :: cs
  else .ok []
termination_by bytes.size - i
decreasing_by have := c.utf8Size_pos; omega

/-- The text that `bytes` encode, or the length of its longest well-formed front. -/
def decode (bytes : List UInt8) : Except Nat String :=
  (decodeFrom ⟨bytes.toArray⟩ 0).map String.ofList

end NearestNeighbors.Text
