import Script.Proofs.ScanSound

/-!
# Texts below each other

No word but a text literal reaches over the end of a line, so two texts one below the other have
the tokens of the first one and then those of the second one. The second text is read as it would
be on its own, only further down.
-/

namespace Script

/-! ## Further down -/

/-- The same column, `k` lines further down. -/
def Position.below (k : Nat) (p : Position) : Position := ⟨wrap (p.line + k), p.column⟩

def Token.below (k : Nat) (t : Token) : Token := { t with start := t.start.below k }

def ScanError.below (k : Nat) : ScanError → ScanError
  | .unexpected p c => .unexpected (p.below k) c
  | .openText p => .openText (p.below k)
  | .badNumber p source => .badNumber (p.below k) source

/-- What is reported of a text that is `k` lines further down. -/
def reportBelow (k : Nat) : Except ScanError Token → Except ScanError Token
  | .ok t => .ok (t.below k)
  | .error e => .error (e.below k)

theorem Position.advance_below (k : Nat) (p : Position) (c : Char) :
    (p.below k).advance c = (p.advance c).below k := by
  unfold Position.advance Position.below
  by_cases hc : (c == '\n') = true
  · simp only [hc, if_true, wrap_add, Int.add_right_comm]
  · simp only [hc, Bool.false_eq_true, if_false]

theorem Position.after_below (k : Nat) (p : Position) (cs : List Char) :
    (p.below k).after cs = (p.after cs).below k := by
  induction cs generalizing p with
  | nil => rfl
  | cons c cs ih => rw [after_cons, advance_below, ih, ← after_cons]

/-- Behind a text and a newline one is that many lines below the start. -/
theorem Position.after_line (cs : List Char) :
    (Position.start.after cs).after ['\n'] = Position.start.below (cs.count '\n' + 1) := by
  rw [after_start, counted_after]
  simp [counted, below, start]
  rfl

theorem Word.item_below (k : Nat) (p : Position) (w : Word) :
    w.item (p.below k) = reportBelow k (w.item p) := by
  cases w <;> rfl

theorem Cursor.scan_below (k : Nat) (p : Position) (cs : List Char) :
    scan ⟨cs, p.below k⟩ = (scan ⟨cs, p⟩).map (reportBelow k) := by
  induction cs using piece_induction generalizing p with
  | nil =>
    rw [scan_nil, scan_nil]
    rfl
  | blank c cs hb ih => rw [scan_blank hb, scan_blank hb, Position.after_below, ih]
  | comment cs ih => rw [scan_comment, scan_comment, Position.after_below, ih]
  | word c cs hb hc ih =>
    rw [scan_word hb hc, scan_word hb hc, Position.after_below, ih, Word.item_below, List.map_cons]

/-! ## Words end with their line -/

section
variable {p : Char → Bool} {cs more : List Char}

/-- A stretch of a text that ends before the text does, or before the text that follows. -/
def Ends (p : Char → Bool) (cs more : List Char) : Prop :=
  cs.dropWhile p ≠ [] ∨ more.takeWhile p = []

theorem Ends.dropWhile (h : Ends p cs more) :
    (cs ++ more).dropWhile p = cs.dropWhile p ++ more := by
  have hsplit := List.takeWhile_append_dropWhile (p := p) (l := more)
  rw [List.dropWhile_append]
  by_cases he : cs.dropWhile p = []
  · rw [h.resolve_left (absurd he), List.nil_append] at hsplit
    simp [he, hsplit]
  · simp [he]

theorem Ends.takeWhile (h : Ends p cs more) : (cs ++ more).takeWhile p = cs.takeWhile p := by
  have hwhole := List.takeWhile_append_dropWhile (p := p) (l := cs ++ more)
  have hfirst := List.takeWhile_append_dropWhile (p := p) (l := cs)
  rw [h.dropWhile, ← List.append_assoc] at hwhole
  exact List.append_cancel_right ((List.append_cancel_right hwhole).trans hfirst.symm)

end

namespace Word

/-- The same word, with more text behind it. -/
def followedBy (more : List Char) : Word → Word
  | .token k us value rest => .token k us value (rest ++ more)
  | .unexpected c rest => .unexpected c (rest ++ more)
  | .openText us => .openText us

def isOpen : Word → Bool
  | .openText _ => true
  | _ => false

@[simp] theorem source_followedBy (w : Word) (more : List Char) :
    (w.followedBy more).source = w.source := by
  cases w <;> rfl

theorem rest_followedBy {w : Word} (hw : w.isOpen = false) (more : List Char) :
    (w.followedBy more).rest = w.rest ++ more := by
  cases w with
  | openText => cases hw
  | token | unexpected => rfl

@[simp] theorem item_followedBy (p : Position) (w : Word) (more : List Char) :
    (w.followedBy more).item p = w.item p := by
  cases w <;> rfl

theorem double?_newline (c : Char) : double? c '\n' = none := by
  unfold double?
  split <;> simp_all

theorem mark?_line (c : Char) (cs more : List Char) :
    mark? c (cs ++ '\n' :: more) = (mark? c cs).map (followedBy ('\n' :: more)) := by
  cases cs with
  | nil =>
    simp only [List.nil_append, mark?, double?_newline, Option.map_map]
    rfl
  | cons d cs =>
    simp only [List.cons_append, mark?]
    cases double? c d with
    | some k => rfl
    | none =>
      simp only [Option.map_map]
      rfl

theorem quoted_line {cs : List Char} (h : (quoted cs).isOpen = false) (more : List Char) :
    quoted (cs ++ more) = (quoted cs).followedBy more := by
  cases hd : cs.dropWhile (· != '"') with
  | nil =>
    simp only [quoted, hd] at h
    cases h
  | cons close rest =>
    have hends : Ends (· != '"') cs more := .inl (by simp [hd])
    simp only [quoted, hends.takeWhile, hends.dropWhile, hd]
    rfl

theorem number_line (cs more : List Char) :
    number (cs ++ '\n' :: more) = (number cs).followedBy ('\n' :: more) := by
  have hends : ∀ us, Ends Char.isDigit us ('\n' :: more) := fun us => .inr rfl
  simp only [number, (hends _).takeWhile, (hends _).dropWhile]
  cases hd : cs.dropWhile Char.isDigit with
  | nil => rfl
  | cons d after =>
    by_cases hdot : d = '.'
    · subst hdot
      simp only [List.cons_append, (hends _).takeWhile, (hends _).dropWhile]
      by_cases he : (after.takeWhile Char.isDigit).isEmpty = true
      · simp only [he, if_true]
        rfl
      · simp only [he]
        rfl
    · simp only [List.cons_append]
      split <;> split <;> simp_all [followedBy]

theorem name_line (cs more : List Char) :
    name (cs ++ '\n' :: more) = (name cs).followedBy ('\n' :: more) := by
  have hends : Ends isNamePart cs ('\n' :: more) := .inr rfl
  simp only [name, hends.takeWhile, hends.dropWhile]
  rfl

/-- A word that is not an open text literal is the same word when another line follows. -/
theorem read_line {c : Char} {cs : List Char} (h : (read c cs).isOpen = false) (more : List Char) :
    read c (cs ++ '\n' :: more) = (read c cs).followedBy ('\n' :: more) := by
  unfold read at h ⊢
  rw [mark?_line]
  cases hm : mark? c cs with
  | some w => rfl
  | none =>
    simp only [hm, Option.map_none] at h ⊢
    by_cases hq : (c == '"') = true
    · simp only [hq, if_true] at h ⊢
      exact quoted_line h _
    · by_cases hd : c.isDigit = true
      · simp only [hq, hd, if_true]
        exact number_line (c :: cs) more
      · by_cases hn : isNameStart c = true
        · simp only [hq, hd, hn, if_true]
          exact name_line (c :: cs) more
        · simp only [hq, hd, hn]
          rfl

end Word

/-! ## Two texts -/

/-- No text literal is left open. -/
def Closed (items : List (Except ScanError Token)) : Prop := ∀ p, .error (.openText p) ∉ items

theorem Word.isOpen_of_item {p : Position} {w : Word} {items : List (Except ScanError Token)}
    (h : Closed (w.item p :: items)) : w.isOpen = false := by
  cases w with
  | openText us => exact absurd (List.mem_cons_self ..) (h p)
  | token | unexpected => rfl

namespace Cursor

/-- What is found in a text, the end apart, is found in it as well when another line follows. -/
theorem scan_line {cs : List Char} {p : Position} (h : Closed (scan ⟨cs, p⟩)) (more : List Char) :
    ∃ items, scan ⟨cs, p⟩ = items ++ [.ok (.finish (p.after cs))] ∧
      scan ⟨cs ++ '\n' :: more, p⟩ = items ++ scan ⟨'\n' :: more, p.after cs⟩ := by
  induction cs using piece_induction generalizing p with
  | nil => exact ⟨[], scan_nil p, rfl⟩
  | blank c cs hb ih =>
    rw [scan_blank hb] at h
    obtain ⟨items, h1, h2⟩ := ih h
    refine ⟨items, ?_, ?_⟩
    · rw [scan_blank hb, h1]
      rfl
    · rw [List.cons_append, scan_blank hb, h2]
      rfl
  | comment cs ih =>
    have hends : Ends (· != '\n') cs ('\n' :: more) := .inr rfl
    have hpos :
        (p.after ('/' :: '/' :: cs.takeWhile (· != '\n'))).after (cs.dropWhile (· != '\n')) =
          p.after ('/' :: '/' :: cs) := by
      rw [← Position.after_append, List.cons_append, List.cons_append,
        List.takeWhile_append_dropWhile]
    rw [scan_comment] at h
    obtain ⟨items, h1, h2⟩ := ih h
    rw [hpos] at h1 h2
    refine ⟨items, ?_, ?_⟩
    · rw [scan_comment, h1]
    · rw [List.cons_append, List.cons_append, scan_comment, hends.takeWhile, hends.dropWhile, h2]
  | word c cs hb hc ih =>
    have hc' : ¬ (c = '/' ∧ (cs ++ '\n' :: more).head? = some '/') := by
      cases cs with
      | nil => simp
      | cons d us => simpa using hc
    have hpos :
        (p.after (Word.read c cs).source).after (Word.read c cs).rest = p.after (c :: cs) := by
      rw [← Position.after_append, Word.read_split]
    rw [scan_word hb hc] at h
    have hopen := Word.isOpen_of_item h
    obtain ⟨items, h1, h2⟩ := ih fun q hq => h q (List.mem_cons_of_mem _ hq)
    rw [hpos] at h1 h2
    refine ⟨(Word.read c cs).item p :: items, ?_, ?_⟩
    · rw [scan_word hb hc, h1]
      rfl
    · rw [List.cons_append, scan_word hb hc', Word.read_line hopen, Word.item_followedBy,
        Word.source_followedBy, Word.rest_followedBy hopen, h2]
      rfl

end Cursor

namespace Scanned

theorem tokens_below (k : Nat) (items : List (Except ScanError Token)) :
    (items.map (reportBelow k)).filterMap Except.toOption =
      (items.filterMap Except.toOption).map (Token.below k) := by
  rw [List.filterMap_map, List.map_filterMap]
  congr 1
  funext i
  cases i <;> rfl

theorem errors_below (k : Nat) (items : List (Except ScanError Token)) :
    (items.map (reportBelow k)).filterMap errorOf =
      (items.filterMap errorOf).map (ScanError.below k) := by
  rw [List.filterMap_map, List.map_filterMap]
  congr 1
  funext i
  cases i <;> rfl

/-- The positions in a text are counted already: no line further down they are what they were. -/
theorem tokens_below_zero (s : String) :
    (ofText s).tokens.map (Token.below 0) = (ofText s).tokens := by
  have hscan := Cursor.scan_below 0 .start s.toList
  rw [show Position.start.below 0 = .start from by decide] at hscan
  rw [ofText_tokens, ← tokens_below]
  exact (congrArg (List.filterMap Except.toOption) hscan).symm

/-- Two texts one below the other. -/
theorem ofText_lines {s : String} (h : ∀ p, .openText p ∉ (ofText s).errors) (t : String) :
    ∃ ts, (ofText s).tokens = ts ++ [.finish (.counted s.toList)] ∧
      (ofText (s ++ "\n" ++ t)).tokens =
        ts ++ (ofText t).tokens.map (Token.below (s.toList.count '\n' + 1)) ∧
      (ofText (s ++ "\n" ++ t)).errors =
        (ofText s).errors ++ (ofText t).errors.map (ScanError.below (s.toList.count '\n' + 1)) := by
  have hclosed : Closed (Cursor.ofText s).scan := by
    intro p hp
    apply h p
    rw [ofText_errors]
    exact List.mem_filterMap.mpr ⟨_, hp, rfl⟩
  obtain ⟨items, h1, h2⟩ := Cursor.scan_line hclosed t.toList
  have hnewline : Cursor.scan ⟨'\n' :: t.toList, Position.start.after s.toList⟩ =
      (Cursor.ofText t).scan.map (reportBelow (s.toList.count '\n' + 1)) := by
    rw [Cursor.scan_blank (by decide), Position.after_line, Cursor.scan_below]
    rfl
  have hjoined : (Cursor.ofText (s ++ "\n" ++ t)).scan =
      items ++ (Cursor.ofText t).scan.map (reportBelow (s.toList.count '\n' + 1)) := by
    rw [← hnewline, ← h2]
    simp [Cursor.ofText]
  have hs : (Cursor.ofText s).scan = items ++ [.ok (.finish (.counted s.toList))] := by
    rw [← Position.after_start]
    exact h1
  refine ⟨items.filterMap Except.toOption, ?_, ?_, ?_⟩
  · rw [ofText_tokens, hs, List.filterMap_append]
    rfl
  · rw [ofText_tokens, ofText_tokens, hjoined, List.filterMap_append, tokens_below]
  · rw [ofText_errors, ofText_errors, ofText_errors, hjoined, hs, List.filterMap_append,
      List.filterMap_append, errors_below]
    simp [errorOf]

/-- Unless it ends inside of a text literal, a text is scanned without regard to the text below it,
which in turn is scanned as it would be on its own, only further down: the end of the first text
goes, and everything else of both is there in its order. -/
theorem ofText_below {s : String} (h : ∀ p, .openText p ∉ (ofText s).errors) (t : String) :
    (ofText s).tokens.getLast? = some (.finish (.counted s.toList)) ∧
      ofText (s ++ "\n" ++ t) =
        { tokens := (ofText s).tokens.dropLast ++
            (ofText t).tokens.map (Token.below (s.toList.count '\n' + 1))
          errors := (ofText s).errors ++
            (ofText t).errors.map (ScanError.below (s.toList.count '\n' + 1)) } := by
  obtain ⟨ts, hs, htokens, herrors⟩ := ofText_lines h t
  rw [hs, List.dropLast_concat, ← htokens, ← herrors]
  exact ⟨List.getLast?_concat, rfl⟩

/-- A comment may hold a quote, and a closed literal may go over two lines. -/
theorem ofText_below_comment :
    (ofText "x@ \"p\nq\" 1. // \"").errors = [.unexpected ⟨1, 2⟩ '@'] ∧
      ofText ("x@ \"p\nq\" 1. // \"" ++ "\n" ++ "==\"") =
        { tokens := (ofText "x@ \"p\nq\" 1. // \"").tokens.dropLast ++
            (ofText "==\"").tokens.map (Token.below 2)
          errors := [.unexpected ⟨1, 2⟩ '@', .openText ⟨3, 3⟩] } := by
  have hfirst : (ofText "x@ \"p\nq\" 1. // \"").errors = [.unexpected ⟨1, 2⟩ '@'] := by
    decide +kernel
  have hsecond : (ofText "==\"").errors = [.openText ⟨1, 3⟩] := by decide +kernel
  have hlines : "x@ \"p\nq\" 1. // \"".toList.count '\n' + 1 = 2 := by decide
  refine ⟨hfirst, ?_⟩
  rw [(ofText_below (by simp [hfirst]) "==\"").2, hfirst, hsecond, hlines]
  rfl

end Scanned

end Script
