import Mathlib.Data.List.DropRight
import Script.Machine.Input

/-!
# Reading the lines of a text

A text that arrives as input is read line by line. No byte of another character is mistaken for a
newline, so the lines that are read are the lines of the text, each of them once and in order, and
behind the last one there is the end of the input, however often it is read. What is read of a line
lacks its terminator, and also the carriage returns right before the terminator: they are not told
apart from it.
-/

namespace Script.Input

/-! ## Bytes of a text -/

def encode (cs : List Char) : List UInt8 := cs.flatMap String.utf8EncodeChar

@[simp] theorem encode_nil : encode [] = [] := rfl

@[simp] theorem encode_append (cs ds : List Char) : encode (cs ++ ds) = encode cs ++ encode ds :=
  List.flatMap_append

theorem encode_newline : encode ['\n'] = [10] := by decide

theorem encode_toList (text : String) : encode text.toList = text.toUTF8.data.toList := by
  have h : text.toList.utf8Encode = text.toUTF8 := String.utf8Encode_toList
  rw [← h]
  simp [List.utf8Encode, encode]

theorem encode_ne_nil {cs : List Char} (h : cs ≠ []) : encode cs ≠ [] := by
  obtain ⟨c, rest, rfl⟩ := List.exists_cons_of_ne_nil h
  simp [encode, String.utf8EncodeChar_ne_nil]

theorem decode?_encode (cs : List Char) : Text.decode? (encode cs) = some (String.ofList cs) := by
  have hbytes : (⟨(encode cs).toArray⟩ : ByteArray) = (String.ofList cs).toByteArray := by
    apply ByteArray.ext
    rw [String.toByteArray_ofList, List.utf8Encode, List.data_toByteArray]
    rfl
  rw [Text.decode?, hbytes, String.fromUTF8?, dif_pos (String.ofList cs).isValidUTF8]
  rfl

/-- Only a newline is encoded with the byte of a newline: other characters are encoded as themselves,
or with bytes above 127. -/
theorem newline_mem_utf8EncodeChar {c : Char} (h : 10 ∈ String.utf8EncodeChar c) : c = '\n' := by
  have hbyte : ∀ n : Nat, n < 256 → 10 = UInt8.ofNat n → n = 10 := by
    intro n hn he
    have hnat := congrArg UInt8.toNat he
    rw [UInt8.toNat_ofNat', Nat.mod_eq_of_lt hn] at hnat
    exact hnat.symm
  unfold String.utf8EncodeChar at h
  simp only at h
  split at h
  next hascii =>
    have hval := hbyte _ (by omega) (List.mem_singleton.mp h)
    exact Char.ext (UInt32.toNat_inj.mp hval)
  next =>
    -- the bytes of a character that is not encoded as itself are above 127
    exfalso
    split at h
    next =>
      simp only [List.mem_cons, List.not_mem_nil, or_false] at h
      rcases h with h | h <;> have := hbyte _ (by omega) h <;> omega
    next =>
      split at h
      next =>
        simp only [List.mem_cons, List.not_mem_nil, or_false] at h
        rcases h with h | h | h <;> have := hbyte _ (by omega) h <;> omega
      next =>
        simp only [List.mem_cons, List.not_mem_nil, or_false] at h
        rcases h with h | h | h | h <;> have := hbyte _ (by omega) h <;> omega

theorem not_newline_of_mem {cs : List Char} (h : '\n' ∉ cs) {x : UInt8} (hx : x ∈ encode cs) :
    (x != 10) = true := by
  rw [bne_iff_ne]
  rintro rfl
  obtain ⟨c, hc, hb⟩ := List.mem_flatMap.mp hx
  exact h (newline_mem_utf8EncodeChar hb ▸ hc)

/-! ## Lines -/

/-- The lines of a text, each with the newline that ends it. There is nothing behind the last
newline if the text ends there. -/
def lines : List Char → List (List Char)
  | [] => []
  | c :: cs =>
    if c = '\n' then [c] :: lines cs
    else
      match lines cs with
      | [] => [[c]]
      | line :: rest => (c :: line) :: rest

theorem flatten_lines (cs : List Char) : (lines cs).flatten = cs := by
  induction cs with
  | nil => rfl
  | cons c cs ih =>
    rw [lines]
    split
    · rw [List.flatten_cons, ih]
      rfl
    · split
      next he =>
        rw [he] at ih
        rw [← ih]
        rfl
      next line rest he =>
        rw [he] at ih
        rw [← ih]
        rfl

/-- The first line ends with the first newline, or with the text. -/
theorem lines_first {cs line : List Char} {rest : List (List Char)} (h : lines cs = line :: rest) :
    lines rest.flatten = rest ∧ ((∃ b, '\n' ∉ b ∧ line = b ++ ['\n']) ∨
      (line ≠ [] ∧ '\n' ∉ line ∧ rest = [])) := by
  induction cs generalizing line rest with
  | nil => cases h
  | cons c cs ih =>
    rw [lines] at h
    split at h
    next hc =>
      cases h
      rw [flatten_lines, hc]
      exact ⟨rfl, .inl ⟨[], by simp, rfl⟩⟩
    next hc =>
      split at h
      next he =>
        cases h
        exact ⟨rfl, .inr ⟨by simp, by simpa using Ne.symm hc, rfl⟩⟩
      next first others he =>
        cases h
        obtain ⟨hrest, ⟨b, hb, rfl⟩ | ⟨hne, hline, hnone⟩⟩ := ih he
        · exact ⟨hrest, .inl ⟨c :: b, by simp [Ne.symm hc, hb], rfl⟩⟩
        · exact ⟨hrest, .inr ⟨by simp, by simp [Ne.symm hc, hline], hnone⟩⟩

/-- A line without its terminator, which is a newline, or a carriage return and a newline. -/
def unterminated (line : List Char) : List Char :=
  match line.reverse with
  | '\n' :: '\r' :: body => body.reverse
  | '\n' :: body => body.reverse
  | _ => line

/-- A line as it is read: the carriage returns before its terminator are missing as well. -/
def stripped (line : List Char) : List Char := (unterminated line).rdropWhile (· == '\r')

theorem stripped_eq_iff {line : List Char} :
    stripped line = unterminated line ↔ (unterminated line).getLast? ≠ some '\r' := by
  rw [stripped, List.rdropWhile_eq_self_iff]
  rcases List.eq_nil_or_concat (unterminated line) with he | ⟨ds, c, he⟩ <;> simp [he]

/-- Where there is no newline, a carriage return is the only line end. -/
theorem rdropWhile_isLineEnd {cs : List Char} (h : '\n' ∉ cs) :
    cs.rdropWhile isLineEnd = cs.rdropWhile (· == '\r') := by
  induction cs using List.reverseRecOn with
  | nil => rfl
  | append_singleton cs c ih =>
    simp only [List.mem_append, List.mem_singleton, not_or] at h
    have hc : isLineEnd c = (c == '\r') := by simp [isLineEnd, Ne.symm h.2]
    rw [List.rdropWhile_concat, List.rdropWhile_concat, ih h.1, hc]

/-- Whether a carriage return belongs to the terminator or not, it is missing. -/
theorem stripped_newline (b : List Char) :
    stripped (b ++ ['\n']) = b.rdropWhile (· == '\r') := by
  rcases List.eq_nil_or_concat b with rfl | ⟨ds, c, rfl⟩
  · rfl
  · rw [List.concat_eq_append, List.rdropWhile_concat]
    by_cases hc : c = '\r'
    · simp [stripped, unterminated, hc]
    · have hbody : unterminated (ds ++ [c] ++ ['\n']) = ds ++ [c] := by
        simp [unterminated, hc]
      rw [stripped, hbody, List.rdropWhile_concat]

theorem stripped_last {line : List Char} (h : '\n' ∉ line) :
    stripped line = line.rdropWhile (· == '\r') := by
  rw [stripped, unterminated]
  split
  next body he => exact absurd (List.mem_reverse.mp (he ▸ .head _)) h
  next body _ he => exact absurd (List.mem_reverse.mp (he ▸ .head _)) h
  next => rfl

/-! ## Reading line after line -/

theorem splitLine_newline {b : List Char} (h : '\n' ∉ b) (rest : List Char) :
    splitLine (encode (b ++ ['\n'] ++ rest)) = (encode (b ++ ['\n']), encode rest) := by
  have hb : ∀ x ∈ encode b, (x != 10) = true := fun x hx => not_newline_of_mem h hx
  rw [encode_append, encode_append, encode_newline, List.append_assoc, splitLine,
    List.dropWhile_append_of_pos hb, List.takeWhile_append_of_pos hb]
  simp

theorem splitLine_last {line : List Char} (h : '\n' ∉ line) :
    splitLine (encode line) = (encode line, []) := by
  have hnone : (encode line).dropWhile (· != 10) = [] := by
    rw [List.dropWhile_eq_nil_iff]
    exact fun x hx => not_newline_of_mem h hx
  rw [splitLine, hnone]

/-- What is left of a line without the line ends behind it. -/
theorem trimEnd_line {line : List Char} (h : (∃ b, '\n' ∉ b ∧ line = b ++ ['\n']) ∨ '\n' ∉ line) :
    (Reading.line (String.ofList line)).trimEnd = .line (String.ofList (stripped line)) := by
  have hstrip : Text.dropEndWhile isLineEnd line = stripped line := by
    show line.rdropWhile isLineEnd = _
    rcases h with ⟨b, hb, rfl⟩ | hline
    · rw [List.rdropWhile_concat_pos _ _ _ rfl, rdropWhile_isLineEnd hb, stripped_newline]
    · rw [rdropWhile_isLineEnd hline, stripped_last hline]
  rw [Reading.trimEnd, String.toList_ofList, hstrip]

/-- One read takes one line. -/
theorem takeLine_lines {cs line : List Char} {rest : List (List Char)} (h : lines cs = line :: rest) :
    takeLine (encode cs) = (.line (String.ofList line), encode rest.flatten) := by
  have hcs : line ++ rest.flatten = cs := by rw [← flatten_lines cs, h, List.flatten_cons]
  have hne : (encode cs).isEmpty = false := by
    rw [List.isEmpty_eq_false_iff]
    apply encode_ne_nil
    rintro rfl
    cases h
  have hsplit : splitLine (encode cs) = (encode line, encode rest.flatten) := by
    rw [← hcs]
    rcases (lines_first h).2 with ⟨b, hb, rfl⟩ | ⟨-, hline, rfl⟩
    · exact splitLine_newline hb _
    · simpa using splitLine_last hline
  simp [takeLine, hne, hsplit, decode?_encode]

theorem takeLine_ended : takeLine [] = (.ended, []) := rfl

theorem leftAfter_add (n k : Nat) (bytes : List UInt8) :
    leftAfter (n + k) bytes = leftAfter k (leftAfter n bytes) := by
  induction n generalizing bytes with
  | zero => rw [Nat.zero_add, leftAfter]
  | succ n ih => rw [Nat.succ_add, leftAfter, ih, leftAfter]

theorem leftAfter_encode (cs : List Char) (n : Nat) :
    leftAfter n (encode cs) = encode ((lines cs).drop n).flatten := by
  induction n generalizing cs with
  | zero => rw [List.drop_zero, flatten_lines, leftAfter]
  | succ n ih =>
    rw [leftAfter]
    cases h : lines cs with
    | nil =>
      have hcs : cs = [] := by rw [← flatten_lines cs, h, List.flatten_nil]
      subst hcs
      rw [encode_nil, takeLine_ended, ← encode_nil, ih, h, List.drop_nil, List.drop_nil]
    | cons line rest => rw [takeLine_lines h, ih, (lines_first h).1, List.drop_succ_cons]

/-- So many reads in a row: what each of them gives, and the input that they leave. -/
def readLines : Nat → Input → List Reading × Input
  | 0, i => ([], i)
  | n + 1, i =>
    let later := readLines n i.readLine.2
    (i.readLine.1 :: later.1, later.2)

theorem readLines_count (n : Nat) (i : Input) : (readLines n i).2 = { i with count := i.count + n } := by
  induction n generalizing i with
  | zero => rfl
  | succ n ih =>
    rw [readLines, ih, readLine, Nat.add_assoc, Nat.add_comm 1 n]

/-- Inputs are read alike as far as what comes of their readings is the same. -/
theorem readLines_congr {i i' : Input} (h : ∀ k, i.readings (i.count + k) = i'.readings (i'.count + k))
    (n : Nat) : (readLines n i).1 = (readLines n i').1 := by
  induction n generalizing i i' with
  | zero => rfl
  | succ n ih =>
    have hlater : (readLines n i.readLine.2).1 = (readLines n i'.readLine.2).1 := by
      refine ih fun k => ?_
      have hk := h (k + 1)
      rwa [Nat.add_comm k 1, ← Nat.add_assoc, ← Nat.add_assoc] at hk
    have hfirst : i.readLine.1 = i'.readLine.1 := congrArg Reading.trimEnd (h 0)
    rw [readLines, readLines, hfirst, hlater]

/-- What is left when lines have been read is the input of the bytes that are left. -/
theorem readLines_leftAfter (n m : Nat) (bytes : List UInt8) :
    (readLines m { ofBytes bytes with count := n }).1 =
      (readLines m (ofBytes (leftAfter n bytes))).1 := by
  refine readLines_congr (fun k => ?_) m
  show (takeLine (leftAfter (n + k) bytes)).1 = (takeLine (leftAfter (0 + k) (leftAfter n bytes))).1
  rw [leftAfter_add, Nat.zero_add]

theorem readLines_succ (n : Nat) (bytes : List UInt8) :
    (readLines (n + 1) (ofBytes bytes)).1 =
      (takeLine bytes).1.trimEnd :: (readLines n (ofBytes (takeLine bytes).2)).1 :=
  congrArg ((takeLine bytes).1.trimEnd :: ·) (readLines_leftAfter 1 n bytes)

theorem readLines_encode (cs : List Char) (n : Nat) :
    (readLines n (ofBytes (encode cs))).1 =
      ((lines cs).map fun line => .line (String.ofList (stripped line))).take n ++
        List.replicate (n - (lines cs).length) .ended := by
  -- behind the first line there is a text again, and its lines are the others
  induction n generalizing cs with
  | zero => simp [readLines]
  | succ n ih =>
    rw [readLines_succ]
    cases h : lines cs with
    | nil =>
      have hcs : cs = [] := by rw [← flatten_lines cs, h, List.flatten_nil]
      subst hcs
      rw [encode_nil, takeLine_ended, ← encode_nil, ih, h]
      simp [Reading.trimEnd, List.replicate_succ]
    | cons line rest =>
      obtain ⟨hrest, hshape⟩ := lines_first h
      rw [takeLine_lines h, ih, hrest, trimEnd_line (hshape.imp_right fun hlast => hlast.2.1)]
      simp

/-- However often a text is read, the readings are its lines in order, and then the end of the input
again and again. Each reading takes one line away, with its terminator, and gives what is left of it
without the terminator and the carriage returns right before. The lines behind it are still there to
be read. -/
theorem lines_read_in_order (text : String) (n : Nat) :
    (lines text.toList).flatten = text.toList ∧
    (readLines n (ofBytes text.toUTF8.data.toList)).1 =
      ((lines text.toList).map fun line => .line (String.ofList (stripped line))).take n ++
        List.replicate (n - (lines text.toList).length) .ended ∧
    leftAfter n text.toUTF8.data.toList = encode ((lines text.toList).drop n).flatten ∧
    (∀ m, (readLines m (readLines n (ofBytes text.toUTF8.data.toList)).2).1 =
      (readLines m (ofBytes (leftAfter n text.toUTF8.data.toList))).1) ∧
    ∀ line, stripped line = unterminated line ↔ (unterminated line).getLast? ≠ some '\r' := by
  refine ⟨flatten_lines _, ?_, ?_, fun m => ?_, fun line => stripped_eq_iff⟩
  · rw [← encode_toList, readLines_encode]
  · rw [← encode_toList, leftAfter_encode]
  · rw [readLines_count, ← readLines_leftAfter]
    show (readLines m { ofBytes _ with count := 0 + n }).1 = _
    rw [Nat.zero_add]

/-- It is not the case that only the terminators are missing: of the line `a`, carriage return,
carriage return, newline the first carriage return is missing as well. -/
theorem carriage_returns_lost :
    ¬ ∀ (text : String) (n : Nat), (readLines n (ofBytes text.toUTF8.data.toList)).1 =
      ((lines text.toList).map fun line => .line (String.ofList (unterminated line))).take n ++
        List.replicate (n - (lines text.toList).length) .ended := by
  intro h
  have hread := h "a\r\r\n" 1
  rw [← encode_toList, readLines_encode] at hread
  revert hread
  decide +kernel

end Script.Input
