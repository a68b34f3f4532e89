import Script.Text.Cut
import Script.Token.Scan

/-! # Scanning with two characters of lookahead

A scanner draws the characters of a text from a stream, one after the other, and holds back up to two
of them that it has looked at but not read. It knows the word that it reads by two byte offsets, and
cuts it out of the text with them. -/

namespace Script

/-- A scanner at work: its text, the characters held back, the stream of those not drawn yet, the byte
offsets where the word being read starts and where reading has got to, and the positions there. -/
structure Scanner where
  text : String
  first : Option Char := none
  second : Option Char := none
  stream : List Char
  start : Nat := 0
  current : Nat := 0
  wordStart : Position := .start
  position : Position := .start
deriving Repr

/-- The second character of a mark of two characters, by the first one, and the kind of that mark. -/
def Word.second? : Char → Option (Char × Kind)
  | '=' => some ('=', .equal)
  | '!' => some ('=', .bangEqual)
  | '>' => some ('=', .greaterEqual)
  | '<' => some ('=', .lessEqual)
  | '&' => some ('&', .andAnd)
  | '|' => some ('|', .orOr)
  | _ => none

namespace Scanner

/-- A scanner that has read nothing of its text. -/
def ofText (s : String) : Scanner := { text := s, stream := s.toList }

/-- What is still to be read: the characters held back, and the stream. -/
def ahead (l : Scanner) : List Char := l.first.toList ++ l.second.toList ++ l.stream

/-- Reads one character. -/
def consume (l : Scanner) : Option Char × Scanner :=
  let drawn : Option (Char × Scanner) :=
    match l.first, l.stream with
    | some c, _ => some (c, { l with first := l.second, second := none })
    | none, c :: stream => some (c, { l with stream })
    | none, [] => none
  match drawn with
  | none => (none, l)
  | some (c, l) =>
    (some c, { l with
      current := l.current + c.utf8Size
      position := l.position.advance c })

/-- Looks at the next character. -/
def peek (l : Scanner) : Option Char × Scanner :=
  let l :=
    match l.first with
    | some _ => l
    | none => { l with first := l.stream.head?, stream := l.stream.tail }
  (l.first, l)

/-- Looks at the character behind the next one. -/
def peekSecond (l : Scanner) : Option Char × Scanner :=
  match l.peek with
  | (none, l) => (none, l)
  | (some _, l) =>
    let l :=
      match l.second with
      | some _ => l
      | none => { l with second := l.stream.head?, stream := l.stream.tail }
    (l.second, l)

/-- Reads the next character if it is `c`. -/
def expect (c : Char) (l : Scanner) : Bool × Scanner :=
  let (next, l) := l.peek
  if next == some c then (true, l.consume.2) else (false, l)

theorem length_peek (l : Scanner) : l.peek.2.ahead.length = l.ahead.length := by
  obtain ⟨_, _ | _, second, _ | _, _, _, _, _⟩ := l <;> cases second <;> simp [peek, ahead]

theorem length_consume_le (l : Scanner) : l.consume.2.ahead.length ≤ l.ahead.length := by
  obtain ⟨_, _ | _, second, _ | _, _, _, _, _⟩ := l <;> cases second <;> simp [consume, ahead]

theorem length_consume {l : Scanner} {c : Char} (h : l.consume.1 = some c) :
    l.consume.2.ahead.length < l.ahead.length := by
  obtain ⟨_, _ | _, second, _ | _, _, _, _, _⟩ := l <;> cases second <;>
    simp_all [consume, ahead]

/-- What is looked at is read next. -/
theorem consume_peek (l : Scanner) : l.peek.2.consume.1 = l.peek.1 := by
  obtain ⟨_, _ | _, _, _ | _, _, _, _, _⟩ := l <;> rfl

theorem length_expect_le (c : Char) (l : Scanner) :
    (l.expect c).2.ahead.length ≤ l.ahead.length := by
  unfold expect
  simp only
  split
  · exact Nat.le_trans (length_consume_le _) (Nat.le_of_eq (length_peek l))
  · exact Nat.le_of_eq (length_peek l)

/-- Reads on as long as the next character satisfies `p`. -/
def skipWhile (p : Char → Bool) (l : Scanner) : Scanner :=
  match _look : l.peek with
  | (none, looked) => looked
  | (some c, looked) => if p c then looked.consume.2.skipWhile p else looked
termination_by l.ahead.length
decreasing_by
  have hlength := length_peek l
  have hread := consume_peek l
  rw [_look] at hlength hread
  exact Nat.lt_of_lt_of_eq (length_consume hread) hlength

theorem length_skipWhile_le (p : Char → Bool) (l : Scanner) :
    (l.skipWhile p).ahead.length ≤ l.ahead.length := by
  fun_induction skipWhile p l with
  | case1 l looked h | case3 l c looked h =>
    have hlength := length_peek l
    rw [h] at hlength
    exact Nat.le_of_eq hlength
  | case2 l c looked h _ ih =>
    have hlength := length_peek l
    rw [h] at hlength
    exact Nat.le_trans ih (Nat.le_trans (length_consume_le looked) (Nat.le_of_eq hlength))

/-- Takes the next word to start here. -/
def begin (l : Scanner) : Scanner := { l with start := l.current, wordStart := l.position }

/-- Whether everything has been read. -/
def atEnd (l : Scanner) : Bool := l.text.utf8ByteSize ≤ l.current

/-- The characters of the word that has been read. -/
def source? (l : Scanner) : Option String := Text.cut? l.text l.start l.current

/-- The word that has been read, as a token. -/
def token? (l : Scanner) (kind : Kind) (literal : Option Literal := none) :
    Option (Except ScanError Token) :=
  l.source?.map fun source => .ok ⟨kind, source, literal, l.wordStart⟩

/-- Reads a text literal after its opening quotation mark. -/
def quoted? (l : Scanner) : Option (Except ScanError Token × Scanner) :=
  let l := l.skipWhile (· != '"')
  if l.atEnd then some (.error (.openText l.wordStart), l)
  else do
    let l := l.consume.2
    -- the quotation marks are not part of the value
    let value ← Text.cut? l.text (l.start + 1) (l.current - 1)
    return (← l.token? .text (some (.text value)), l)

/-- Reads the places of a number, if a point and a digit follow. -/
def skipPlaces (l : Scanner) : Scanner :=
  let (point, l) := l.peek
  if point == some '.' then
    let (digit, l) := l.peekSecond
    if digit.any Char.isDigit then l.consume.2.skipWhile Char.isDigit else l
  else l

/-- Reads a number after its first digit. -/
def number? (l : Scanner) : Option (Except ScanError Token × Scanner) := do
  let l := (l.skipWhile Char.isDigit).skipPlaces
  let source ← l.source?
  match Number.read? source.toList with
  | some x => return (← l.token? .number (some (.number x)), l)
  | none => return (.error (.badNumber l.wordStart source), l)

/-- Reads a name or keyword after its first character. -/
def name? (l : Scanner) : Option (Except ScanError Token × Scanner) := do
  let l := l.skipWhile isNamePart
  let source ← l.source?
  return (← l.token? (nameKind source), l)

/-- Reads a word after its first character `c`. -/
def word? (c : Char) (l : Scanner) : Option (Except ScanError Token × Scanner) :=
  match Word.single? c, Word.second? c with
  | some kind, some (d, double) => do
    let (found, l) := l.expect d
    return (← l.token? (if found then double else kind), l)
  | some kind, none => do return (← l.token? kind, l)
  | none, _ =>
    if c == '"' then l.quoted?
    else if c.isDigit then l.number?
    else if isNameStart c then l.name?
    else some (.error (.unexpected l.wordStart c), l)

/-- The first character of a word, if there is one, is taken from what was ahead. -/
theorem length_begin {l l' : Scanner} {c : Char}
    (h : (l.skipWhile Text.isBlank).begin.consume = (some c, l')) :
    l'.ahead.length < l.ahead.length := by
  have hread := length_consume (l := (l.skipWhile Text.isBlank).begin) (c := c) (by rw [h])
  rw [h] at hread
  exact Nat.lt_of_lt_of_le hread (length_skipWhile_le Text.isBlank l)

/-- Reads the next token or error. There is no result if a word cannot be cut out of the text. -/
def next? (l : Scanner) : Option (Except ScanError Token × Scanner) :=
  let l₁ := (l.skipWhile Text.isBlank).begin
  match _read : l₁.consume with
  | (none, l₂) => do return (← l₂.token? .finish, l₂)
  | (some c, l₂) =>
    if c == '/' then
      match _expect : l₂.expect '/' with
      | (true, l₃) => (l₃.skipWhile (· != '\n')).next?
      | (false, l₃) => do return (← l₃.token? .slash, l₃)
    else l₂.word? c
termination_by l.ahead.length
decreasing_by
  have hslash := length_expect_le '/' l₂
  have hline := length_skipWhile_le (· != '\n') l₃
  rw [_expect] at hslash
  exact Nat.lt_of_le_of_lt (Nat.le_trans hline hslash) (length_begin _read)

theorem length_peekSecond (l : Scanner) : l.peekSecond.2.ahead.length = l.ahead.length := by
  obtain ⟨_, _ | _, _ | _, _ | ⟨_, _ | _⟩, _, _, _, _⟩ := l <;>
    simp [peekSecond, peek, ahead]

theorem length_skipPlaces_le (l : Scanner) : l.skipPlaces.ahead.length ≤ l.ahead.length := by
  have hpoint := length_peek l
  have hdigit := length_peekSecond l.peek.2
  unfold skipPlaces
  simp only
  split
  · split
    · have hread := length_consume_le l.peek.2.peekSecond.2
      have hplaces := length_skipWhile_le Char.isDigit l.peek.2.peekSecond.2.consume.2
      omega
    · omega
  · omega

theorem length_quoted?_le {l l' : Scanner} {item : Except ScanError Token}
    (h : l.quoted? = some (item, l')) : l'.ahead.length ≤ l.ahead.length := by
  have hbody := length_skipWhile_le (· != '"') l
  have hclose := length_consume_le (l.skipWhile (· != '"'))
  unfold quoted? at h
  simp only at h
  split at h
  · cases h
    exact hbody
  · obtain ⟨value, -, h⟩ := Option.bind_eq_some_iff.mp h
    obtain ⟨token, -, h⟩ := Option.bind_eq_some_iff.mp h
    cases h
    omega

theorem length_number?_le {l l' : Scanner} {item : Except ScanError Token}
    (h : l.number? = some (item, l')) : l'.ahead.length ≤ l.ahead.length := by
  have hwhole := length_skipWhile_le Char.isDigit l
  have hplaces := length_skipPlaces_le (l.skipWhile Char.isDigit)
  obtain ⟨source, -, h⟩ := Option.bind_eq_some_iff.mp h
  split at h
  · obtain ⟨token, -, h⟩ := Option.bind_eq_some_iff.mp h
    cases h
    omega
  · cases h
    omega

theorem length_name?_le {l l' : Scanner} {item : Except ScanError Token}
    (h : l.name? = some (item, l')) : l'.ahead.length ≤ l.ahead.length := by
  obtain ⟨source, -, h⟩ := Option.bind_eq_some_iff.mp h
  obtain ⟨token, -, h⟩ := Option.bind_eq_some_iff.mp h
  cases h
  exact length_skipWhile_le isNamePart l

theorem length_word?_le {c : Char} {l l' : Scanner} {item : Except ScanError Token}
    (h : l.word? c = some (item, l')) : l'.ahead.length ≤ l.ahead.length := by
  unfold word? at h
  split at h
  · obtain ⟨token, -, h⟩ := Option.bind_eq_some_iff.mp h
    cases h
    exact length_expect_le _ l
  · obtain ⟨token, -, h⟩ := Option.bind_eq_some_iff.mp h
    cases h
    exact Nat.le_refl _
  · split at h
    · exact length_quoted?_le h
    · split at h
      · exact length_number?_le h
      · split at h
        · exact length_name?_le h
        · cases h
          exact Nat.le_refl _

/-- Reading a token or an error that does not end the text takes at least one character. -/
theorem length_next? {l l' : Scanner} {item : Except ScanError Token}
    (h : l.next? = some (item, l')) (hitem : item.toOption.any Token.isFinish = false) :
    l'.ahead.length < l.ahead.length := by
  fun_induction next? l with
  | case1 l l₁ l₂ _ =>
    obtain ⟨token, htoken, h⟩ := Option.bind_eq_some_iff.mp h
    obtain ⟨source, -, rfl⟩ := Option.map_eq_some_iff.mp htoken
    cases h
    cases hitem
  | case2 l l₁ c l₂ hread _ l₃ hexpect ih =>
    have hfirst := length_begin hread
    have hslash := length_expect_le '/' l₂
    have hline := length_skipWhile_le (· != '\n') l₃
    have hrest := ih h
    rw [hexpect] at hslash
    simp only at hslash
    omega
  | case3 l l₁ c l₂ hread _ l₃ hexpect =>
    have hslash := length_expect_le '/' l₂
    obtain ⟨token, -, h⟩ := Option.bind_eq_some_iff.mp h
    cases h
    rw [hexpect] at hslash
    exact Nat.lt_of_le_of_lt hslash (length_begin hread)
  | case4 l l₁ c l₂ hread _ =>
    exact Nat.lt_of_le_of_lt (length_word?_le h) (length_begin hread)

/-- Reads so many tokens and errors one after the other, and goes on behind the end of the text. -/
def calls? : Nat → Scanner → Option (List (Except ScanError Token) × Scanner)
  | 0, l => some ([], l)
  | n + 1, l => do
    let (item, l) ← l.next?
    let (items, l) ← calls? n l
    return (item :: items, l)

/-- Reads on until the text ends, with the tokens and errors read so far in front, latest first. -/
def collectOnto? (tokens : List Token) (errors : List ScanError) (l : Scanner) :
    Option (Scanned × Scanner) :=
  match _read : l.next? with
  | none => none
  | some (.error e, after) => after.collectOnto? tokens (e :: errors)
  | some (.ok t, after) =>
    if _last : t.isFinish then some (⟨(t :: tokens).reverse, errors.reverse⟩, after)
    else after.collectOnto? (t :: tokens) errors
termination_by l.ahead.length
decreasing_by
  · exact length_next? _read rfl
  · exact length_next? _read (by simpa [Except.toOption] using _last)

/-- The tokens and errors of the rest of the text. -/
def collect? (l : Scanner) : Option (Scanned × Scanner) := l.collectOnto? [] []

end Scanner

end Script
