import Script.Number.Read
import Script.Text.Blank
import Script.Token

/-! # From a text to its tokens

Blanks and comments are skipped; what follows is the longest word that can be read. A character that
starts no word, or a text literal that is never closed, is an error, and scanning goes on after it. -/

namespace Script

/-- Why a word could not be read, and where it starts. -/
inductive ScanError where
  | unexpected (start : Position) (c : Char)
  | openText (start : Position)
  | badNumber (start : Position) (source : String)
deriving DecidableEq, Repr

namespace ScanError

def start : ScanError → Position
  | unexpected p _ => p
  | openText p => p
  | badNumber p _ => p

/-- What is wrong, in words. -/
def message : ScanError → String
  | unexpected _ c => s!"Unexpected character '{c}'"
  | openText _ => "Unterminated string"
  | badNumber _ source => s!"Invalid number literal '{source}'"

def report (e : ScanError) : String :=
  e.start.text ++ " Error: " ++ e.message

end ScanError

/-- The text still to be read, and where it starts. -/
structure Cursor where
  rest : List Char
  position : Position
deriving DecidableEq, Repr

namespace Cursor

/-- The start of a text. -/
def ofText (s : String) : Cursor := ⟨s.toList, .start⟩

/-- Skips blanks and comments. A comment runs from two slashes to the end of the line; the flag says
whether the text starts inside one. -/
def skipGapFrom : Bool → List Char → Position → Cursor
  | _, [], p => ⟨[], p⟩
  | true, c :: cs, p => skipGapFrom (c != '\n') cs (p.advance c)
  | false, c :: cs, p =>
    if Text.isBlank c then skipGapFrom false cs (p.advance c)
    else if c == '/' && cs.head? == some '/' then skipGapFrom true cs (p.advance c)
    else ⟨c :: cs, p⟩

/-- Skips blanks and comments. -/
def skipGap (c : Cursor) : Cursor := skipGapFrom false c.rest c.position

end Cursor

/-- What was read at the front of a text: a token's kind, characters and value, or nothing usable,
and in each case what is left. -/
inductive Word where
  | token (kind : Kind) (source : List Char) (literal : Option Literal) (rest : List Char)
  | unexpected (c : Char) (rest : List Char)
  | openText (source : List Char)

namespace Word

/-- The characters read, and those left. -/
def source : Word → List Char
  | token _ cs _ _ => cs
  | unexpected c _ => [c]
  | openText cs => cs

def rest : Word → List Char
  | token _ _ _ r => r
  | unexpected _ r => r
  | openText _ => []

/-- The kind of a mark of one character. -/
def single? : Char → Option Kind
  | '(' => some .leftParen
  | ')' => some .rightParen
  | '\x7b' => some .leftBrace
  | '\x7d' => some .rightBrace
  | ',' => some .comma
  | '.' => some .dot
  | ';' => some .semicolon
  | '-' => some .minus
  | '+' => some .plus
  | '*' => some .star
  | '/' => some .slash
  | '%' => some .percent
  | '^' => some .xor
  | '=' => some .assign
  | '!' => some .bang
  | '>' => some .greater
  | '<' => some .less
  | '&' => some .and
  | '|' => some .or
  | _ => none

/-- The kind of a mark of two characters. -/
def double? : Char → Char → Option Kind
  | '=', '=' => some .equal
  | '!', '=' => some .bangEqual
  | '>', '=' => some .greaterEqual
  | '<', '=' => some .lessEqual
  | '&', '&' => some .andAnd
  | '|', '|' => some .orOr
  | _, _ => none

/-- Reads the mark that starts with `c`, two characters long if possible. -/
def mark? (c : Char) (cs : List Char) : Option Word :=
  match cs with
  | d :: rest =>
    match double? c d with
    | some kind => some (.token kind [c, d] none rest)
    | none => (single? c).map fun kind => .token kind [c] none cs
  | [] => (single? c).map fun kind => .token kind [c] none cs

/-- Reads a text literal after its opening quotation mark, up to the next one. -/
def quoted (cs : List Char) : Word :=
  let body := cs.takeWhile (· != '"')
  match cs.dropWhile (· != '"') with
  | [] => .openText ('"' :: cs)
  | close :: rest =>
    .token .text ('"' :: body ++ [close]) (some (.text (String.ofList body))) rest

/-- The number that digits, with decimal places after a point or not, denote. -/
def numberLiteral (whole places : List Char) : Literal :=
  .number (Number.ofDecimal (Number.digitsValue (whole ++ places)) (-(places.length : Int)))

/-- Reads a number: digits, and places after a point if a digit follows the point. -/
def number (cs : List Char) : Word :=
  let whole := cs.takeWhile Char.isDigit
  let rest := cs.dropWhile Char.isDigit
  match rest with
  | '.' :: after =>
    let places := after.takeWhile Char.isDigit
    if places.isEmpty then .token .number whole (some (numberLiteral whole [])) rest
    else .token .number (whole ++ '.' :: places) (some (numberLiteral whole places))
      (after.dropWhile Char.isDigit)
  | _ => .token .number whole (some (numberLiteral whole [])) rest

/-- Reads a name or keyword. -/
def name (cs : List Char) : Word :=
  let source := cs.takeWhile isNamePart
  .token (nameKind (String.ofList source)) source none (cs.dropWhile isNamePart)

/-- Reads the word at the front of the text `c :: cs`. -/
def read (c : Char) (cs : List Char) : Word :=
  match mark? c cs with
  | some word => word
  | none =>
    if c == '"' then quoted cs
    else if c.isDigit then number (c :: cs)
    else if isNameStart c then name (c :: cs)
    else .unexpected c cs

theorem mark?_split {c : Char} {cs : List Char} {w : Word} (h : mark? c cs = some w) :
    w.source ++ w.rest = c :: cs := by
  unfold mark? at h
  split at h
  · split at h
    · cases h; rfl
    · obtain ⟨_, _, rfl⟩ := Option.map_eq_some_iff.1 h; rfl
  · obtain ⟨_, _, rfl⟩ := Option.map_eq_some_iff.1 h; rfl

theorem quoted_split (cs : List Char) : (quoted cs).source ++ (quoted cs).rest = '"' :: cs := by
  have h := List.takeWhile_append_dropWhile (p := (· != '"')) (l := cs)
  unfold quoted
  split
  · simp [source, rest]
  · rename_i heq
    rw [heq] at h
    simp [source, rest, h]

theorem number_split (cs : List Char) : (number cs).source ++ (number cs).rest = cs := by
  have h := List.takeWhile_append_dropWhile (p := Char.isDigit) (l := cs)
  simp only [number]
  split
  · rename_i after heq
    split
    · exact h
    · rw [heq] at h
      simp [source, rest, h]
  · exact h

theorem name_split (cs : List Char) : (name cs).source ++ (name cs).rest = cs :=
  List.takeWhile_append_dropWhile

/-- Nothing is lost: what was read and what is left make up the text. -/
theorem read_split (c : Char) (cs : List Char) :
    (read c cs).source ++ (read c cs).rest = c :: cs := by
  unfold read
  split
  · rename_i h; exact mark?_split h
  · split
    · rename_i h
      rw [quoted_split, beq_iff_eq.1 h]
    · split
      · exact number_split _
      · split
        · exact name_split _
        · rfl

theorem mark?_source_ne_nil {c : Char} {cs : List Char} {w : Word} (h : mark? c cs = some w) :
    w.source ≠ [] := by
  unfold mark? at h
  split at h
  · split at h
    · cases h; simp [source]
    · obtain ⟨_, _, rfl⟩ := Option.map_eq_some_iff.1 h; simp [source]
  · obtain ⟨_, _, rfl⟩ := Option.map_eq_some_iff.1 h; simp [source]

theorem quoted_source_ne_nil (cs : List Char) : (quoted cs).source ≠ [] := by
  unfold quoted
  split <;> simp [source]

theorem number_source_ne_nil {c : Char} {cs : List Char} (h : c.isDigit = true) :
    (number (c :: cs)).source ≠ [] := by
  simp only [number]
  split
  · split <;> simp [source, h]
  · simp [source, h]

theorem name_source_ne_nil {c : Char} {cs : List Char} (h : isNameStart c = true) :
    (name (c :: cs)).source ≠ [] := by
  simp [name, source, isNamePart, h]

/-- Every word has a character. -/
theorem read_source_ne_nil (c : Char) (cs : List Char) : (read c cs).source ≠ [] := by
  unfold read
  split
  · rename_i h; exact mark?_source_ne_nil h
  · split
    · exact quoted_source_ne_nil cs
    · split
      · rename_i h; exact number_source_ne_nil h
      · split
        · rename_i h; exact name_source_ne_nil h
        · simp [source]

theorem read_rest_length (c : Char) (cs : List Char) :
    (read c cs).rest.length < (c :: cs).length := by
  have h := congrArg List.length (read_split c cs)
  have := List.length_pos_iff.2 (read_source_ne_nil c cs)
  rw [List.length_append] at h
  omega

end Word

namespace Cursor

/-- The next token or error of a text, and the text after it. At the end of the text this is the
token that ends it, again and again. -/
def next (c : Cursor) : Except ScanError Token × Cursor :=
  let ⟨text, p⟩ := c.skipGap
  match text with
  | [] => (.ok (.finish p), ⟨[], p⟩)
  | d :: ds =>
    let word := Word.read d ds
    let result :=
      match word with
      | .token kind source literal _ => .ok ⟨kind, String.ofList source, literal, p⟩
      | .unexpected c _ => .error (.unexpected p c)
      | .openText _ => .error (.openText p)
    (result, ⟨word.rest, p.after word.source⟩)

theorem skipGapFrom_length (inside : Bool) (cs : List Char) (p : Position) :
    (skipGapFrom inside cs p).rest.length ≤ cs.length := by
  fun_induction skipGapFrom inside cs p <;> simp_all <;> omega

/-- Reading a token or an error that does not end the text takes at least one character. -/
theorem next_length {c : Cursor} (h : (c.next.1.toOption.any Token.isFinish) = false) :
    c.next.2.rest.length < c.rest.length := by
  have hgap := skipGapFrom_length false c.rest c.position
  unfold next at h ⊢
  change c.skipGap.rest.length ≤ c.rest.length at hgap
  generalize c.skipGap = g at h hgap ⊢
  obtain ⟨text, p⟩ := g
  cases text with
  | nil => simp [Except.toOption, Token.isFinish, Token.finish] at h
  | cons d ds => exact Nat.lt_of_lt_of_le (Word.read_rest_length d ds) hgap

/-- Reads on until the text ends, with the tokens and errors read so far in front, latest first. -/
def scanOnto (found : List (Except ScanError Token)) (c : Cursor) : List (Except ScanError Token) :=
  match _read : c.next with
  | (.error e, after) => scanOnto (.error e :: found) after
  | (.ok t, after) =>
    if _last : t.isFinish then (.ok t :: found).reverse
    else scanOnto (.ok t :: found) after
termination_by c.rest.length
decreasing_by
  · have := next_length (c := c) (by rw [_read]; rfl)
    rwa [_read] at this
  · have := next_length (c := c) (by rw [_read]; simpa [Except.toOption] using _last)
    rwa [_read] at this

/-- The tokens and errors of a text in order. The last of them is the token that ends the text. -/
def scan (c : Cursor) : List (Except ScanError Token) := c.scanOnto []

end Cursor

/-- What a text consists of: its tokens, and the errors found between them. -/
structure Scanned where
  tokens : List Token
  errors : List ScanError

/-- Scans a whole text. -/
def Scanned.ofText (s : String) : Scanned :=
  let items := (Cursor.ofText s).scan
  { tokens := items.filterMap fun
      | .ok t => some t
      | .error _ => none
    errors := items.filterMap fun
      | .ok _ => none
      | .error e => some e }

end Script
