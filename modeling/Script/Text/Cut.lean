/-! # Pieces of a text by byte offsets

Offsets into a text count the bytes of its encoding. Only some of them lie between two characters, and
a text can be cut at those alone. -/

namespace Script.Text

/-- The offset lies between two characters of the text, or at one of its ends. -/
def Boundary (s : String) (offset : Nat) : Prop := (⟨offset⟩ : String.Pos.Raw).IsValid s

instance (s : String) (offset : Nat) : Decidable (Boundary s offset) :=
  inferInstanceAs (Decidable ((⟨offset⟩ : String.Pos.Raw).IsValid s))

/-- The text between two offsets. There is none if they are in the wrong order, if one of them lies
behind the end, or if a character would have to be cut apart. -/
def cut? (s : String) (first last : Nat) : Option String :=
  if h : first ≤ last ∧ Boundary s first ∧ Boundary s last then
    some (String.extract (s := s) ⟨⟨first⟩, h.2.1⟩ ⟨⟨last⟩, h.2.2⟩)
  else none

theorem boundary_append (before after : String) :
    Boundary (before ++ after) before.utf8ByteSize :=
  String.Pos.Raw.isValid_iff_exists_append.mpr ⟨before, after, rfl, rfl⟩

/-- What stands between two other pieces of a text is cut out by their sizes. -/
theorem cut?_append (before piece after : String) :
    cut? (before ++ piece ++ after) before.utf8ByteSize
      (before.utf8ByteSize + piece.utf8ByteSize) = some piece := by
  have hfirst : Boundary (before ++ piece ++ after) before.utf8ByteSize := by
    rw [String.append_assoc]
    exact boundary_append before _
  have hlast : Boundary (before ++ piece ++ after)
      (before.utf8ByteSize + piece.utf8ByteSize) := by
    rw [← String.utf8ByteSize_append]
    exact boundary_append _ after
  have hnone : before.toByteArray.extract before.utf8ByteSize
      (before.utf8ByteSize + piece.utf8ByteSize) = ByteArray.empty := by
    rw [ByteArray.extract_eq_empty_iff, String.size_toByteArray]
    omega
  have hall : piece.toByteArray.extract 0 piece.utf8ByteSize = piece.toByteArray := by
    rw [← String.size_toByteArray, ByteArray.extract_zero_size]
  rw [cut?, dif_pos ⟨Nat.le_add_right _ _, hfirst, hlast⟩, Option.some_inj,
    ← String.toByteArray_inj]
  simp [String.extract, ByteArray.extract_append, hnone, hall]

end Script.Text
