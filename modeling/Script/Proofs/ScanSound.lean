import Mathlib.Algebra.Group.Int.Defs
import Mathlib.Algebra.Group.Nat.Defs
import Mathlib.Data.List.Induction
import Mathlib.Data.List.TakeWhile
import Script.Token.Scan

/-!
# What a text consists of

A text is a row of pieces: tokens, and between them blanks, comments, characters that start no
token, and at most one text literal that is never closed, which is then the last piece. Scanning
finds these pieces, and where it says that one of them starts is where one gets by counting the
lines and characters before it.
-/

namespace Script

/-! ## Positions by counting -/

namespace Position

theorem wrap_add (a b : Int) : wrap (wrap a + b) = wrap (a + b) := by
  simp only [wrap, Int32.toInt_ofInt, Int.bmod_add_bmod]

theorem wrap_eq_iff {n : Int} (h : 0 ≤ n) : wrap n = n ↔ n < 2 ^ 31 := by
  have hwrap : wrap n = n.bmod (2 ^ 32) := Int32.toInt_ofInt
  rw [hwrap]
  constructor
  · intro heq
    have hlt : n.bmod (2 ^ 32) < _ := Int.bmod_lt (by decide)
    rw [heq] at hlt
    omega
  · intro hlt
    exact Int.bmod_eq_of_le (by omega) (by omega)

theorem wrap_natCast (n : Nat) : wrap n = n ↔ n < 2 ^ 31 := by
  rw [wrap_eq_iff (Int.natCast_nonneg n)]
  omega

/-- Where the text behind `before` starts: one line further for each newline, and one column further
for each character since the last of them. -/
def counted (before : List Char) : Position :=
  ⟨wrap (1 + before.count '\n' : Nat),
    wrap (1 + (before.reverse.takeWhile (· != '\n')).length : Nat)⟩

theorem after_append (p : Position) (us vs : List Char) :
    p.after (us ++ vs) = (p.after us).after vs := by
  simp [after]

theorem after_cons (p : Position) (c : Char) (cs : List Char) :
    p.after (c :: cs) = (p.advance c).after cs := rfl

theorem after_start (before : List Char) : Position.start.after before = counted before := by
  induction before using List.reverseRecOn with
  | nil => rfl
  | append_singleton before c ih =>
    rw [after_append, ih]
    show advance _ c = _
    by_cases hc : c = '\n'
    · subst hc
      simp only [advance, counted, wrap_add]
      simp [Int.add_assoc]
      rfl
    · simp [advance, counted, wrap_add, hc, Int.add_assoc]

end Position

/-! ## How tokens are spelled -/

/-- The marks, and the kinds of token that they are. -/
def marks : List (String × Kind) :=
  [("(", .leftParen), (")", .rightParen), ("\x7b", .leftBrace), ("\x7d", .rightBrace),
   (",", .comma), (".", .dot), (";", .semicolon), ("-", .minus), ("+", .plus), ("*", .star),
   ("/", .slash), ("%", .percent), ("!", .bang), ("!=", .bangEqual), ("=", .assign),
   ("==", .equal), (">", .greater), (">=", .greaterEqual), ("<", .less), ("<=", .lessEqual),
   ("&", .and), ("&&", .andAnd), ("|", .or), ("||", .orOr), ("^", .xor)]

/-- The characters of a token, by its kind, and the value it stands for. -/
inductive Spelled : Kind → List Char → Option Literal → Prop
  | mark {s : String} {k : Kind} (h : (s, k) ∈ marks) : Spelled k s.toList none
  | name {c : Char} {cs : List Char} (hc : isNameStart c = true)
      (hcs : ∀ d ∈ cs, isNamePart d = true) :
      Spelled (nameKind (String.ofList (c :: cs))) (c :: cs) none
  | whole {ds : List Char} (hne : ds ≠ []) (hds : ∀ d ∈ ds, d.isDigit = true) :
      Spelled .number ds (some (Word.numberLiteral ds []))
  | decimal {ds es : List Char} (hne : ds ≠ []) (hds : ∀ d ∈ ds, d.isDigit = true)
      (hne' : es ≠ []) (hes : ∀ d ∈ es, d.isDigit = true) :
      Spelled .number (ds ++ '.' :: es) (some (Word.numberLiteral ds es))
  | text {body : List Char} (h : '"' ∉ body) :
      Spelled .text ('"' :: body ++ ['"']) (some (.text (String.ofList body)))

/-- A character that is no blank and that no token starts with. -/
def Stray (c : Char) : Prop :=
  Text.isBlank c = false ∧ ∀ k cs value, ¬ Spelled k (c :: cs) value

theorem nameKind_ne_finish (s : String) : nameKind s ≠ .finish := by
  unfold nameKind
  cases h : keywords.lookup s with
  | none => simp
  | some k =>
    obtain ⟨us, vs, hk, _⟩ := List.lookup_eq_some_iff.mp h
    have hall : ∀ p ∈ keywords, p.2 ≠ .finish := by decide
    exact hall (s, k) (by rw [hk]; simp)

theorem Spelled.ne_finish {k : Kind} {cs : List Char} {value : Option Literal}
    (h : Spelled k cs value) : k ≠ .finish := by
  cases h with
  | mark h =>
    have hall : ∀ p ∈ marks, p.2 ≠ .finish := by decide
    exact hall _ h
  | name _ _ => exact nameKind_ne_finish _
  | whole _ _ | decimal _ _ _ _ | text _ => simp

namespace Word

theorem spelled_mark {cs : List Char} {k : Kind} (h : (String.ofList cs, k) ∈ marks) :
    Spelled k cs none := by
  have := Spelled.mark h
  rwa [String.toList_ofList] at this

theorem single?_spelled {c : Char} {k : Kind} (h : single? c = some k) : Spelled k [c] none := by
  unfold single? at h
  split at h <;> cases h <;> exact spelled_mark (by decide)

theorem double?_spelled {c d : Char} {k : Kind} (h : double? c d = some k) :
    Spelled k [c, d] none := by
  unfold double? at h
  split at h <;> cases h <;> exact spelled_mark (by decide)

theorem single?_of_mem {s : String} {k : Kind} {c : Char} {cs : List Char} (h : (s, k) ∈ marks)
    (hs : s.toList = c :: cs) : (single? c).isSome = true := by
  have hall : ∀ p ∈ marks, (p.1.toList.head?.bind single?).isSome = true := by decide
  have := hall _ h
  simpa [hs] using this

theorem mark?_spelled {c : Char} {cs : List Char} {w : Word} (h : mark? c cs = some w) :
    ∃ k us rest, w = .token k us none rest ∧ Spelled k us none := by
  unfold mark? at h
  split at h
  · split at h
    · rename_i k hd
      cases h
      exact ⟨k, _, _, rfl, double?_spelled hd⟩
    · obtain ⟨k, hk, rfl⟩ := Option.map_eq_some_iff.1 h
      exact ⟨k, _, _, rfl, single?_spelled hk⟩
  · obtain ⟨k, hk, rfl⟩ := Option.map_eq_some_iff.1 h
    exact ⟨k, _, _, rfl, single?_spelled hk⟩

theorem mark?_none {c : Char} {cs : List Char} (h : mark? c cs = none) : single? c = none := by
  unfold mark? at h
  split at h
  · split at h
    · cases h
    · simpa using h
  · simpa using h

theorem stray_of_read {c : Char} (hb : Text.isBlank c = false) (hs : single? c = none)
    (hq : c ≠ '"') (hd : c.isDigit = false) (hn : isNameStart c = false) : Stray c := by
  refine ⟨hb, fun k cs value h => ?_⟩
  generalize hu : c :: cs = us at h
  cases h with
  | mark h =>
    have := single?_of_mem h hu.symm
    simp [hs] at this
  | name hc _ =>
    cases hu
    simp [hn] at hc
  | whole _ hds =>
    subst hu
    simp [hd] at hds
  | @decimal ds es hne hds _ _ =>
    cases ds with
    | nil => exact hne rfl
    | cons d ds =>
      cases hu
      simp [hd] at hds
  | text _ =>
    cases hu
    exact hq rfl

/-- What is read at the front of a text is a token, spelled as its kind says, or one of the two
things that are no token. -/
def Classified (c : Char) (cs : List Char) : Word → Prop
  | .token k us value _ => Spelled k us value
  | .unexpected d _ => d = c ∧ Stray c
  | .openText us => us = c :: cs ∧ c = '"' ∧ '"' ∉ cs

theorem quoted_classified (cs : List Char) : Classified '"' cs (quoted cs) := by
  unfold quoted
  cases h : cs.dropWhile (· != '"') with
  | nil =>
    refine ⟨rfl, rfl, fun hm => ?_⟩
    have := List.dropWhile_eq_nil_iff.mp h _ hm
    simp at this
  | cons d rest =>
    have hd := List.head?_dropWhile_not (· != '"') cs
    rw [h] at hd
    obtain rfl : d = '"' := by simpa using hd
    refine Spelled.text fun hm => ?_
    have := List.mem_takeWhile_imp hm
    simp at this

theorem number_classified {c : Char} {cs : List Char} (hc : c.isDigit = true) :
    Classified c cs (number (c :: cs)) := by
  have hne : (c :: cs).takeWhile Char.isDigit ≠ [] := by simp [hc]
  have hds : ∀ d ∈ (c :: cs).takeWhile Char.isDigit, d.isDigit = true :=
    fun d hd => List.mem_takeWhile_imp hd
  unfold number
  simp only
  split
  · rename_i after _
    by_cases he : (after.takeWhile Char.isDigit).isEmpty = true
    · rw [if_pos he]
      exact .whole hne hds
    · rw [if_neg he]
      refine .decimal hne hds ?_ fun d hd => List.mem_takeWhile_imp hd
      simpa using he
  · exact .whole hne hds

theorem name_classified {c : Char} {cs : List Char} (hc : isNameStart c = true) :
    Classified c cs (name (c :: cs)) := by
  have hpart : isNamePart c = true := by simp [isNamePart, hc]
  have htake : (c :: cs).takeWhile isNamePart = c :: cs.takeWhile isNamePart := by
    simp [hpart]
  unfold name
  simp only [htake]
  exact .name hc fun d hd => List.mem_takeWhile_imp hd

theorem read_classified {c : Char} (hb : Text.isBlank c = false) (cs : List Char) :
    Classified c cs (read c cs) := by
  unfold read
  cases hm : mark? c cs with
  | some w =>
    obtain ⟨k, us, rest, rfl, h⟩ := mark?_spelled hm
    exact h
  | none =>
    simp only
    by_cases hq : c = '"'
    · subst hq
      exact quoted_classified cs
    · by_cases hd : c.isDigit = true
      · simp only [hq, hd, beq_iff_eq, if_true, if_false]
        exact number_classified hd
      · by_cases hn : isNameStart c = true
        · simp only [hq, hd, hn, beq_iff_eq, if_true, if_false]
          exact name_classified hn
        · simp only [hq, hd, hn, beq_iff_eq, if_false]
          exact ⟨rfl, stray_of_read hb (mark?_none hm) hq (by simpa using hd) (by simpa using hn)⟩

end Word

/-! ## Pieces -/

/-- A piece of a text. Those that are reported come with the position they are reported at. -/
inductive Piece where
  | blank (c : Char)
  | comment (body : List Char)
  | stray (start : Position) (c : Char)
  | openText (start : Position) (body : List Char)
  | word (t : Token)

namespace Piece

def chars : Piece → List Char
  | blank c => [c]
  | comment body => '/' :: '/' :: body
  | stray _ c => [c]
  | openText _ body => '"' :: body
  | word t => t.source.toList

/-- What is reported of a piece. -/
def item? : Piece → Option (Except ScanError Token)
  | blank _ | comment _ => none
  | stray p c => some (.error (.unexpected p c))
  | openText p _ => some (.error (.openText p))
  | word t => some (.ok t)

/-- A piece as it should be, with the text `before` it and the text `after` it. -/
def Fits (before after : List Char) : Piece → Prop
  | blank c => Text.isBlank c = true
  | comment body => '\n' ∉ body ∧ (after = [] ∨ after.head? = some '\n')
  | stray p c => Stray c ∧ p = .counted before
  | openText p body => '"' ∉ body ∧ after = [] ∧ p = .counted before
  | word t => Spelled t.kind t.source.toList t.literal ∧ t.start = .counted before

/-- The text that pieces make up. -/
def text (ps : List Piece) : List Char := ps.flatMap chars

/-- Pieces that are all as they should be, one after the other, behind the text `before`. -/
def Laid (before : List Char) : List Piece → Prop
  | [] => True
  | p :: ps => p.Fits before (text ps) ∧ Laid (before ++ p.chars) ps

end Piece

/-- The text `cs` behind the text `before` is laid out in pieces, and what is reported of it is what
is reported of them, and in the end the end. -/
def Reported (before cs : List Char) (items : List (Except ScanError Token)) : Prop :=
  ∃ ps, Piece.text ps = cs ∧ Piece.Laid before ps ∧
    items = ps.filterMap Piece.item? ++ [.ok (.finish (.counted (before ++ cs)))]

theorem reported_nil (before : List Char) :
    Reported before [] [.ok (.finish (.counted before))] :=
  ⟨[], rfl, trivial, by simp⟩

theorem Reported.cons {before cs : List Char} {items : List (Except ScanError Token)} (p : Piece)
    (hp : p.Fits before cs) (h : Reported (before ++ p.chars) cs items) :
    Reported before (p.chars ++ cs) (p.item?.toList ++ items) := by
  obtain ⟨ps, rfl, hlaid, rfl⟩ := h
  refine ⟨p :: ps, rfl, ⟨hp, hlaid⟩, ?_⟩
  cases hi : p.item? <;> simp [hi]

theorem Position.counted_after (before cs : List Char) :
    (Position.counted before).after cs = .counted (before ++ cs) := by
  rw [← Position.after_start, ← Position.after_start, Position.after_append]

/-- What is reported of a word that starts at `p`. -/
def Word.item (p : Position) : Word → Except ScanError Token
  | .token kind source literal _ => .ok ⟨kind, String.ofList source, literal, p⟩
  | .unexpected c _ => .error (.unexpected p c)
  | .openText _ => .error (.openText p)

namespace Cursor

/-! ## Gaps -/

theorem skipGapFrom_blank {c : Char} (hb : Text.isBlank c = true) (cs : List Char)
    (p : Position) : skipGapFrom false (c :: cs) p = skipGapFrom false cs (p.after [c]) := by
  simp only [skipGapFrom, hb, if_true]
  rfl

/-- A comment ends where its line does. -/
theorem skipGapFrom_true (cs : List Char) (p : Position) :
    skipGapFrom true cs p = skipGapFrom false (cs.dropWhile (· != '\n'))
      (p.after (cs.takeWhile (· != '\n'))) := by
  induction cs generalizing p with
  | nil => rfl
  | cons c cs ih =>
    by_cases hc : c = '\n'
    · subst hc
      rfl
    · have hc' : (c != '\n') = true := by simpa using hc
      simp only [skipGapFrom, hc', List.dropWhile_cons_of_pos, List.takeWhile_cons_of_pos,
        Position.after_cons, ih]

theorem skipGapFrom_comment (cs : List Char) (p : Position) :
    skipGapFrom false ('/' :: '/' :: cs) p = skipGapFrom false (cs.dropWhile (· != '\n'))
      (p.after ('/' :: '/' :: cs.takeWhile (· != '\n'))) := by
  have h : skipGapFrom false ('/' :: '/' :: cs) p =
      skipGapFrom true cs ((p.advance '/').advance '/') := rfl
  rw [h, skipGapFrom_true]
  rfl

theorem skipGapFrom_word {c : Char} (hb : Text.isBlank c = false) {cs : List Char}
    (hc : ¬ (c = '/' ∧ cs.head? = some '/')) (p : Position) :
    skipGapFrom false (c :: cs) p = ⟨c :: cs, p⟩ := by
  have hc' : (c == '/' && cs.head? == some '/') = false := by simpa using hc
  simp only [skipGapFrom, hb, hc']
  rfl

/-! ## Scanning piece by piece -/

theorem scanOnto_append (found : List (Except ScanError Token)) (c : Cursor) :
    c.scanOnto found = found.reverse ++ c.scan := by
  unfold scan
  induction h : c.rest.length using Nat.strong_induction_on generalizing c found with
  | _ n ih =>
    subst h
    rw [scanOnto, scanOnto.eq_def []]
    split
    · rename_i e after hn
      have hlen := next_length (c := c) (by rw [hn]; rfl)
      rw [hn] at hlen
      rw [ih _ hlen (.error e :: found) after rfl, ih _ hlen [.error e] after rfl]
      simp
    · rename_i t after hn
      by_cases ht : t.isFinish = true
      · simp [ht]
      · have hlen := next_length (c := c) (by rw [hn]; simpa [Except.toOption] using ht)
        rw [hn] at hlen
        simp only [ht, Bool.false_eq_true, dite_false]
        rw [ih _ hlen (.ok t :: found) after rfl, ih _ hlen [.ok t] after rfl]
        simp

theorem next_skip {c d : Cursor} (h : c.skipGap = d.skipGap) : c.next = d.next := by
  unfold next
  rw [h]

theorem scan_skip {c d : Cursor} (h : c.skipGap = d.skipGap) : c.scan = d.scan := by
  unfold scan
  rw [scanOnto, scanOnto.eq_def [] d, next_skip h]

theorem scan_blank {c : Char} (hb : Text.isBlank c = true) (cs : List Char) (p : Position) :
    scan ⟨c :: cs, p⟩ = scan ⟨cs, p.after [c]⟩ :=
  scan_skip (skipGapFrom_blank hb cs p)

theorem scan_comment (cs : List Char) (p : Position) :
    scan ⟨'/' :: '/' :: cs, p⟩ =
      scan ⟨cs.dropWhile (· != '\n'), p.after ('/' :: '/' :: cs.takeWhile (· != '\n'))⟩ :=
  scan_skip (skipGapFrom_comment cs p)

theorem scan_nil (p : Position) : scan ⟨[], p⟩ = [.ok (.finish p)] := by
  have hn : next ⟨[], p⟩ = (.ok (.finish p), ⟨[], p⟩) := rfl
  unfold scan
  rw [scanOnto, hn]
  rfl

theorem next_word {d : Char} {ds : List Char} (hb : Text.isBlank d = false)
    (hc : ¬ (d = '/' ∧ ds.head? = some '/')) (p : Position) :
    next ⟨d :: ds, p⟩ = ((Word.read d ds).item p,
      ⟨(Word.read d ds).rest, p.after (Word.read d ds).source⟩) := by
  unfold next skipGap
  rw [skipGapFrom_word hb hc]
  simp only
  generalize Word.read d ds = w
  cases w <;> rfl

theorem scan_word {d : Char} {ds : List Char} {p : Position} (hb : Text.isBlank d = false)
    (hc : ¬ (d = '/' ∧ ds.head? = some '/')) :
    scan ⟨d :: ds, p⟩ = (Word.read d ds).item p ::
      scan ⟨(Word.read d ds).rest, p.after (Word.read d ds).source⟩ := by
  have hclass := Word.read_classified hb ds
  unfold scan
  rw [scanOnto, next_word hb hc]
  generalize Word.read d ds = w at *
  cases w with
  | token k us value rest =>
    have hk : Token.isFinish ⟨k, String.ofList us, value, p⟩ = false := by
      simpa [Token.isFinish] using hclass.ne_finish
    simp only [Word.item, hk]
    rw [scanOnto_append]
    rfl
  | unexpected | openText =>
    simp only [Word.item]
    rw [scanOnto_append]
    rfl

/-- A text is empty, or it starts with a blank, with a comment, or with a word, and behind that
there is a shorter text. -/
theorem piece_induction {motive : List Char → Prop} (nil : motive [])
    (blank : ∀ c cs, Text.isBlank c = true → motive cs → motive (c :: cs))
    (comment : ∀ cs, motive (cs.dropWhile (· != '\n')) → motive ('/' :: '/' :: cs))
    (word : ∀ c cs, Text.isBlank c = false → ¬ (c = '/' ∧ cs.head? = some '/') →
      motive (Word.read c cs).rest → motive (c :: cs)) (cs : List Char) : motive cs := by
  induction h : cs.length using Nat.strong_induction_on generalizing cs with
  | _ n ih =>
    subst h
    match cs with
    | [] => exact nil
    | c :: cs =>
      by_cases hb : Text.isBlank c = true
      · exact blank c cs hb (ih _ (by simp) cs rfl)
      · by_cases hc : c = '/' ∧ cs.head? = some '/'
        · obtain ⟨rfl, hcs⟩ := hc
          cases cs with
          | nil => cases hcs
          | cons d us =>
            cases hcs
            have hlen := List.length_dropWhile_le (· != '\n') us
            exact comment us (ih _ (by simp only [List.length_cons]; omega) _ rfl)
        · exact word c cs (by simpa using hb) hc (ih _ (Word.read_rest_length c cs) _ rfl)

theorem head_dropWhile_newline (cs : List Char) :
    cs.dropWhile (· != '\n') = [] ∨ (cs.dropWhile (· != '\n')).head? = some '\n' := by
  have h := List.head?_dropWhile_not (· != '\n') cs
  cases hd : cs.dropWhile (· != '\n') with
  | nil => exact .inl rfl
  | cons d ds =>
    rw [hd] at h
    simp only [List.head?_cons, bne_eq_false_iff_eq] at h
    exact .inr (by rw [h]; rfl)

theorem comment_fits (before cs : List Char) :
    Piece.Fits before (cs.dropWhile (· != '\n')) (.comment (cs.takeWhile (· != '\n'))) := by
  refine ⟨fun hm => ?_, head_dropWhile_newline cs⟩
  have := List.mem_takeWhile_imp hm
  simp at this

/-- The word at the front of a text is a piece. -/
theorem word_reported {d : Char} (hb : Text.isBlank d = false) {ds before : List Char}
    {items : List (Except ScanError Token)}
    (h : Reported (before ++ (Word.read d ds).source) (Word.read d ds).rest items) :
    Reported before (d :: ds) ((Word.read d ds).item (.counted before) :: items) := by
  have hclass := Word.read_classified hb ds
  rw [← Word.read_split d ds]
  generalize Word.read d ds = w at *
  cases w with
  | token k us value rest =>
    have hchars : Piece.chars (.word ⟨k, String.ofList us, value, .counted before⟩) = us :=
      String.toList_ofList
    have hfits : Piece.Fits before rest (.word ⟨k, String.ofList us, value, .counted before⟩) :=
      ⟨by rw [String.toList_ofList]; exact hclass, rfl⟩
    have hrest := Reported.cons _ hfits (hchars.symm ▸ h)
    rw [hchars] at hrest
    exact hrest
  | unexpected c rest =>
    obtain ⟨rfl, hs⟩ := hclass
    exact Reported.cons (.stray (.counted before) c) ⟨hs, rfl⟩ h
  | openText us =>
    obtain ⟨rfl, rfl, hq⟩ := hclass
    exact Reported.cons (.openText (.counted before) ds) ⟨hq, rfl, rfl⟩ h

theorem scan_reported (cs before : List Char) :
    Reported before cs (scan ⟨cs, .counted before⟩) := by
  induction cs using piece_induction generalizing before with
  | nil =>
    rw [scan_nil]
    exact reported_nil before
  | blank c cs hb ih =>
    rw [scan_blank hb, Position.counted_after]
    exact Reported.cons (.blank c) hb (ih _)
  | comment cs ih =>
    rw [scan_comment, Position.counted_after]
    have hrest := Reported.cons _ (comment_fits before cs) (ih _)
    simpa [Piece.chars, Piece.item?] using hrest
  | word c cs hb hc ih =>
    rw [scan_word hb hc, Position.counted_after]
    exact word_reported hb (ih _)

end Cursor

/-! ## Tokens and errors -/

namespace Piece

def token? : Piece → Option Token
  | word t => some t
  | _ => none

def error? : Piece → Option ScanError
  | stray p c => some (.unexpected p c)
  | openText p _ => some (.openText p)
  | _ => none

theorem Laid.spelled {before : List Char} {ps : List Piece} (h : Laid before ps) {t : Token}
    (ht : t ∈ ps.filterMap token?) : Spelled t.kind t.source.toList t.literal := by
  induction ps generalizing before with
  | nil => simp at ht
  | cons p ps ih =>
    obtain ⟨hp, hps⟩ := h
    cases p with
    | word u =>
      rcases List.mem_cons.mp ht with rfl | ht
      · exact hp.1
      · exact ih hps ht
    | blank | comment | stray | openText => exact ih hps ht

end Piece

namespace Scanned

def errorOf : Except ScanError Token → Option ScanError
  | .ok _ => none
  | .error e => some e

theorem ofText_tokens (s : String) :
    (ofText s).tokens = (Cursor.ofText s).scan.filterMap Except.toOption := by
  simp only [ofText]
  congr 1
  funext i
  cases i <;> rfl

theorem ofText_errors (s : String) :
    (ofText s).errors = (Cursor.ofText s).scan.filterMap errorOf := by
  simp only [ofText]
  congr 1

theorem tokens_eq {s : String} {ps : List Piece} {eof : Token}
    (h : (Cursor.ofText s).scan = ps.filterMap Piece.item? ++ [.ok eof]) :
    (ofText s).tokens = ps.filterMap Piece.token? ++ [eof] := by
  rw [ofText_tokens, h, List.filterMap_append, List.filterMap_filterMap]
  congr 2
  funext p
  cases p <;> rfl

theorem errors_eq {s : String} {ps : List Piece} {eof : Token}
    (h : (Cursor.ofText s).scan = ps.filterMap Piece.item? ++ [.ok eof]) :
    (ofText s).errors = ps.filterMap Piece.error? := by
  rw [ofText_errors, h, List.filterMap_append, List.filterMap_filterMap]
  rw [show [Except.ok eof].filterMap errorOf = [] from rfl, List.append_nil]
  congr 1
  funext p
  cases p <;> rfl

/-- Every token but the last is a word. -/
theorem ofText_spelled (s : String) :
    ∃ ts, (ofText s).tokens = ts ++ [.finish (.counted s.toList)] ∧
      ∀ t ∈ ts, Spelled t.kind t.source.toList t.literal := by
  obtain ⟨ps, -, hlaid, hitems⟩ := Cursor.scan_reported s.toList []
  exact ⟨_, tokens_eq hitems, fun t => hlaid.spelled⟩

end Scanned

/-- A text is a row of pieces of which the tokens, with the end of the text behind them, and the
errors are what scanning finds, each at its place. Lines and columns are what one gets by counting in
32 bits, so they are the numbers themselves up to the largest one that these hold and no further. -/
theorem scanned_piece_by_piece (s : String) :
    (∃ ps : List Piece, Piece.text ps = s.toList ∧ Piece.Laid [] ps ∧
      (Scanned.ofText s).tokens = ps.filterMap Piece.token? ++ [.finish (.counted s.toList)] ∧
      (∀ t ∈ ps.filterMap Piece.token?, t.kind ≠ .finish) ∧
      (Scanned.ofText s).errors = ps.filterMap Piece.error?) ∧
    ∀ before : List Char,
      let line := 1 + before.count '\n'
      let column := 1 + (before.reverse.takeWhile (· != '\n')).length
      Position.counted before = ⟨(Int32.ofNat line).toInt, (Int32.ofNat column).toInt⟩ ∧
      ((Position.counted before).line = line ↔ line < 2 ^ 31) ∧
      ((Position.counted before).column = column ↔ column < 2 ^ 31) := by
  constructor
  · obtain ⟨ps, htext, hlaid, hitems⟩ := Cursor.scan_reported s.toList []
    refine ⟨ps, htext, hlaid, Scanned.tokens_eq hitems, ?_, Scanned.errors_eq hitems⟩
    intro t ht
    exact (hlaid.spelled ht).ne_finish
  · intro before line column
    exact ⟨rfl, Position.wrap_natCast line, Position.wrap_natCast column⟩

theorem Scanned.ofText_newlines (n : Nat) :
    ∃ ts eof, (ofText (String.ofList (List.replicate n '\n'))).tokens = ts ++ [eof] ∧
      eof.start.line = Position.wrap (1 + n : Nat) := by
  obtain ⟨ts, hts, -⟩ := ofText_spelled (String.ofList (List.replicate n '\n'))
  refine ⟨ts, _, hts, ?_⟩
  show Position.wrap (1 + List.count '\n' (String.ofList (List.replicate n '\n')).toList : Nat) = _
  rw [String.toList_ofList, List.count_replicate_self]

/-- The bound cannot be left out: behind 2147483647 newlines, a text ends on a line with a negative
number. -/
theorem Scanned.ofText_line_wrapped :
    ∃ ts eof, (ofText (String.ofList (List.replicate (2 ^ 31 - 1) '\n'))).tokens = ts ++ [eof] ∧
      eof.start.line = -2 ^ 31 := by
  have hline := ofText_newlines (2 ^ 31 - 1)
  have hwrapped : Position.wrap (1 + (2 ^ 31 - 1) : Nat) = -2 ^ 31 := by decide
  rwa [hwrapped] at hline

end Script
