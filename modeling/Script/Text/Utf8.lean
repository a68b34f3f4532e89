/-! # Bytes and texts

Output is counted in bytes and input arrives in bytes, so texts are encoded on the way out and
decoded on the way in. -/

namespace Script.Text

/-- The text that the bytes encode, if they are valid UTF-8. -/
def decode? (bytes : List UInt8) : Option String :=
  String.fromUTF8? ⟨bytes.toArray⟩

/-- What is said of bytes that encode no text. -/
def undecodable : String := "stream did not contain valid UTF-8"

/-- What can be read of the start of a valid encoding: a character that is cut short at the end is
shown as the replacement character. -/
def decodeCut (bytes : ByteArray) : String :=
  let rec shorter : Nat → String
    | 0 => ""
    | k + 1 =>
      match String.fromUTF8? (bytes.extract 0 k) with
      | some text => text.push '�'
      | none => shorter k
  match String.fromUTF8? bytes with
  | some text => text
  | none => shorter bytes.size

end Script.Text
