import Script.Proofs.LongestWords
import Script.Token.Lookahead

/-!
# What a scanner with lookahead reads

A scanner stands at a place of its text: some of it lies before the word being read, some of it has
been read of that word, and the rest is ahead. Looking ahead leaves the place as it is, reading moves
it on by one character, and at every place the word can be cut out of the text by its offsets. So the
words that are read are those at the front of what is ahead.
-/

namespace Script

/-! ## Sizes in bytes -/

namespace Text

def size (cs : List Char) : Nat := (String.ofList cs).utf8ByteSize

theorem size_append (cs ds : List Char) : size (cs ++ ds) = size cs + size ds := by
  simp [size]

theorem size_singleton (c : Char) : size [c] = c.utf8Size := by
  rw [size, ← String.singleton_eq_ofList, String.utf8ByteSize_singleton]

theorem size_cons (c : Char) (cs : List Char) : size (c :: cs) = c.utf8Size + size cs := by
  rw [← size_singleton, ← size_append, List.singleton_append]

theorem size_toList (s : String) : size s.toList = s.utf8ByteSize := by
  rw [size, String.ofList_toList]

theorem boundary_size {s : String} {us vs : List Char} (h : s.toList = us ++ vs) :
    Boundary s (size us) := by
  have hs : s = String.ofList us ++ String.ofList vs := by
    rw [← String.ofList_append, ← h, String.ofList_toList]
  rw [hs]
  exact boundary_append _ _

theorem cut?_size {s : String} {us vs ws : List Char} (h : s.toList = us ++ vs ++ ws) :
    cut? s (size us) (size (us ++ vs)) = some (String.ofList vs) := by
  have hs : s = String.ofList us ++ String.ofList vs ++ String.ofList ws := by
    rw [← String.ofList_append, ← String.ofList_append, ← h, String.ofList_toList]
  rw [size_append, hs]
  exact cut?_append _ _ _

end Text

/-! ## Marks by their first character -/

namespace Word

variable {c : Char} {cs : List Char}

theorem double?_eq (c d : Char) :
    double? c d = (second? c).bind fun m => if d = m.1 then some m.2 else none := by
  unfold second?
  split
  all_goals
    simp only [Option.bind_some, Option.bind_none]
    unfold double?
    split <;> simp_all

theorem read_single {kind : Kind} (hkind : single? c = some kind)
    (hcs : ∀ d, cs.head? = some d → double? c d = none) : read c cs = .token kind [c] none cs := by
  cases cs with
  | nil => simp [read, mark?, hkind]
  | cons d ds => simp [read, mark?, hkind, hcs d rfl]

theorem read_double {d : Char} {kind : Kind} (hsecond : second? c = some (d, kind)) :
    read c (d :: cs) = .token kind [c, d] none cs := by
  simp [read, mark?, double?_eq, hsecond]

end Word

namespace Scanner

variable {l : Scanner} {s : String} {before word cs : List Char} {c : Char}

/-! ## Where a scanner stands -/

/-- The scanner has read its text `s` up to a place: `before` lies before the word it is reading, `word`
is what it has read of that word, and `ahead` follows. -/
structure At (l : Scanner) (s : String) (before word ahead : List Char) : Prop where
  text : l.text = s
  split : s.toList = before ++ word ++ ahead
  ahead : l.ahead = ahead
  second : l.first = none → l.second = none
  start : l.start = Text.size before
  current : l.current = Text.size (before ++ word)
  wordStart : l.wordStart = Position.start.after before
  position : l.position = Position.start.after (before ++ word)

theorem ofText_at (s : String) : (ofText s).At s [] [] s.toList where
  text := rfl
  split := rfl
  ahead := rfl
  second _ := rfl
  start := rfl
  current := rfl
  wordStart := rfl
  position := rfl

namespace At

theorem begin (h : l.At s before word cs) : l.begin.At s (before ++ word) [] cs where
  text := h.text
  split := by rw [List.append_nil, h.split]
  ahead := h.ahead
  second := h.second
  start := h.current
  current := by rw [List.append_nil]; exact h.current
  wordStart := h.position
  position := by rw [List.append_nil]; exact h.position

/-! ## Looking and reading -/

/-- To look at characters is only to move them from the stream to where they are held back. -/
theorem hold (h : l.At s before word cs) {first second : Option Char} {stream : List Char}
    (hahead : first.toList ++ second.toList ++ stream = cs) (hsecond : first = none → second = none) :
    At { l with first, second, stream } s before word cs where
  text := h.text
  split := h.split
  ahead := hahead
  second := hsecond
  start := h.start
  current := h.current
  wordStart := h.wordStart
  position := h.position

theorem peek (h : l.At s before word cs) :
    l.peek.1 = cs.head? ∧ l.peek.2.At s before word cs := by
  obtain ⟨text, first, second, stream, start, current, p, q⟩ := l
  cases first with
  | some d =>
    obtain rfl : d :: (second.toList ++ stream) = cs := h.ahead
    exact ⟨rfl, h⟩
  | none =>
    obtain rfl : second = none := h.second rfl
    obtain rfl : stream = cs := h.ahead
    exact ⟨rfl, h.hold (by cases stream <;> rfl) fun _ => rfl⟩

theorem peekSecond (h : l.At s before word cs) :
    l.peekSecond.1 = cs.tail.head? ∧ l.peekSecond.2.At s before word cs := by
  obtain ⟨hnext, hlook⟩ := h.peek
  have hheld : l.peek.2.first = l.peek.1 := rfl
  unfold Scanner.peekSecond
  generalize l.peek = looked at *
  obtain ⟨next, text, first, second, stream, start, current, p, q⟩ := looked
  obtain rfl : first = next := hheld
  obtain rfl : first = cs.head? := hnext
  cases cs with
  | nil => exact ⟨rfl, hlook⟩
  | cons d ds =>
    cases second with
    | some e =>
      obtain rfl : e :: stream = ds := (List.cons.inj hlook.ahead).2
      exact ⟨rfl, hlook⟩
    | none =>
      obtain rfl : stream = ds := (List.cons.inj hlook.ahead).2
      exact ⟨rfl, hlook.hold (by cases stream <;> rfl) (by simp)⟩

/-- One more character of the word has been read. -/
theorem read (h : l.At s before word (c :: cs)) {first second : Option Char} {stream : List Char}
    (hahead : first.toList ++ second.toList ++ stream = cs) (hsecond : first = none → second = none) :
    At { l with
      first, second, stream
      current := l.current + c.utf8Size
      position := l.position.advance c } s before (word ++ [c]) cs where
  text := h.text
  split := by rw [h.split]; simp
  ahead := hahead
  second := hsecond
  start := h.start
  current := by rw [← List.append_assoc, Text.size_append, Text.size_singleton, ← h.current]
  wordStart := h.wordStart
  position := by
    rw [← List.append_assoc, Position.after_append _ (before ++ word), ← h.position]
    rfl

theorem consume (h : l.At s before word (c :: cs)) :
    l.consume.1 = some c ∧ l.consume.2.At s before (word ++ [c]) cs := by
  obtain ⟨text, first, second, stream, start, current, p, q⟩ := l
  cases first with
  | some d =>
    have hahead : d :: (second.toList ++ stream) = c :: cs := h.ahead
    obtain ⟨rfl, rfl⟩ := List.cons.inj hahead
    exact ⟨rfl, h.read (by simp) fun _ => rfl⟩
  | none =>
    obtain rfl : second = none := h.second rfl
    obtain rfl : stream = c :: cs := h.ahead
    exact ⟨rfl, h.read rfl fun _ => rfl⟩

theorem consume_nil (h : l.At s before word []) : l.consume = (none, l) := by
  obtain ⟨text, first, second, stream, start, current, p, q⟩ := l
  cases first with
  | some d => cases (h.ahead : d :: (second.toList ++ stream) = [])
  | none =>
    obtain rfl : second = none := h.second rfl
    obtain rfl : stream = [] := h.ahead
    rfl

theorem expect_cases (h : l.At s before word cs) (c : Char) :
    (∃ ds, cs = c :: ds ∧ (l.expect c).1 = true ∧ (l.expect c).2.At s before (word ++ [c]) ds) ∨
      (cs.head? ≠ some c ∧ (l.expect c).1 = false ∧ (l.expect c).2.At s before word cs) := by
  obtain ⟨hnext, hlook⟩ := h.peek
  by_cases hc : cs.head? = some c
  · obtain ⟨ds, rfl⟩ := List.head?_eq_some_iff.mp hc
    exact .inl ⟨ds, rfl, by simp [expect, hnext, hlook.consume.2]⟩
  · exact .inr ⟨hc, by simp [expect, hnext, hc, hlook]⟩

theorem skipWhile (h : l.At s before word cs) (p : Char → Bool) :
    (l.skipWhile p).At s before (word ++ cs.takeWhile p) (cs.dropWhile p) := by
  induction cs generalizing l word with
  | nil =>
    obtain ⟨hnext, hlook⟩ := h.peek
    rw [Scanner.skipWhile]
    split
    next heq =>
      rw [heq] at hlook
      simpa using hlook
    next heq =>
      rw [heq] at hnext
      cases hnext
  | cons c cs ih =>
    obtain ⟨hnext, hlook⟩ := h.peek
    rw [Scanner.skipWhile]
    split
    next heq =>
      rw [heq] at hnext
      cases hnext
    next d looked heq =>
      rw [heq] at hnext hlook
      obtain rfl : d = c := Option.some.inj hnext
      by_cases hp : p d = true
      · have hrest := ih hlook.consume.2
        simpa [hp] using hrest
      · simpa [hp] using hlook

/-! ## Cutting -/

theorem atEnd (h : l.At s before word cs) : l.atEnd = cs.isEmpty := by
  have hsize : s.utf8ByteSize = Text.size (before ++ word) + Text.size cs := by
    rw [← Text.size_append, ← h.split, Text.size_toList]
  rw [Scanner.atEnd, h.text, hsize, h.current]
  cases cs with
  | nil => simp [Text.size]
  | cons c cs =>
    have hpos := c.utf8Size_pos
    rw [Text.size_cons, List.isEmpty_cons, decide_eq_false_iff_not]
    omega

theorem source? (h : l.At s before word cs) : l.source? = some (String.ofList word) := by
  rw [Scanner.source?, h.text, h.start, h.current]
  exact Text.cut?_size h.split

theorem token? (h : l.At s before word cs) (kind : Kind) (literal : Option Literal) :
    l.token? kind literal =
      some (.ok ⟨kind, String.ofList word, literal, Position.start.after before⟩) := by
  rw [Scanner.token?, h.source?, h.wordStart]
  rfl

/-- A quotation mark takes one byte, so the value of a text literal can be cut out as well. -/
theorem value {body : List Char} (h : l.At s before ('"' :: body ++ ['"']) cs) :
    l.start + 2 ≤ l.current ∧
      Text.cut? l.text (l.start + 1) (l.current - 1) = some (String.ofList body) := by
  have hquote : Text.size ['"'] = 1 := Text.size_singleton '"'
  have hword : before ++ ('"' :: body ++ ['"']) = before ++ ['"'] ++ body ++ ['"'] := by simp
  have hfirst : l.start + 1 = Text.size (before ++ ['"']) := by
    rw [h.start, Text.size_append, hquote]
  have hlast : l.current = Text.size (before ++ ['"'] ++ body) + 1 := by
    rw [h.current, hword, Text.size_append, hquote]
  refine ⟨?_, ?_⟩
  · rw [Text.size_append, ← hfirst] at hlast
    omega
  · rw [h.text, hfirst, hlast, Nat.add_sub_cancel]
    apply Text.cut?_size
    rw [h.split, hword, List.append_assoc _ ['"'] cs]

end At

/-! ## Words -/

/-- What was read is the word `w` behind the text `before`. -/
def Gives (result : Option (Except ScanError Token × Scanner)) (s : String) (before : List Char)
    (w : Word) : Prop :=
  ∃ l, result = some (w.item (Position.start.after before), l) ∧ l.At s before w.source w.rest

namespace At

theorem quoted? (h : l.At s before ['"'] cs) : Gives l.quoted? s before (Word.quoted cs) := by
  have hbody := h.skipWhile (· != '"')
  have hend := hbody.atEnd
  unfold Scanner.quoted? Word.quoted
  cases hrest : cs.dropWhile (· != '"') with
  | nil =>
    have hall := List.takeWhile_append_dropWhile (p := (· != '"')) (l := cs)
    rw [hrest, List.append_nil] at hall
    rw [hrest, hall] at hbody
    rw [hrest] at hend
    refine ⟨_, ?_, hbody⟩
    simp [hend, hbody.wordStart, Word.item]
  | cons d rest =>
    have hquote := List.head?_dropWhile_not (· != '"') cs
    rw [hrest] at hbody hend hquote
    obtain rfl : d = '"' := by simpa using hquote
    have hclose := hbody.consume.2
    refine ⟨_, ?_, hclose⟩
    simp [hend, hclose.value.2, hclose.token?, Word.item]

theorem any_head?_isDigit (cs : List Char) :
    cs.head?.any Char.isDigit = !(cs.takeWhile Char.isDigit).isEmpty := by
  cases cs with
  | nil => rfl
  | cons d ds => by_cases hd : d.isDigit = true <;> simp [hd]

theorem skipPlaces (h : l.At s before word ('.' :: cs)) (hcs : cs.takeWhile Char.isDigit ≠ []) :
    l.skipPlaces.At s before (word ++ '.' :: cs.takeWhile Char.isDigit)
      (cs.dropWhile Char.isDigit) := by
  obtain ⟨hpoint, hlook⟩ := h.peek
  obtain ⟨hdigit, hlook⟩ := hlook.peekSecond
  have hplaces := hlook.consume.2.skipWhile Char.isDigit
  simpa [Scanner.skipPlaces, hpoint, hdigit, any_head?_isDigit, hcs] using hplaces

/-- A point without a digit behind it is left alone, although both have been looked at. -/
theorem skipPlaces_none (h : l.At s before word cs)
    (hcs : ∀ ds, cs = '.' :: ds → ds.takeWhile Char.isDigit = []) :
    l.skipPlaces.At s before word cs := by
  obtain ⟨hpoint, hlook⟩ := h.peek
  by_cases hc : cs.head? = some '.'
  · obtain ⟨ds, rfl⟩ := List.head?_eq_some_iff.mp hc
    obtain ⟨hdigit, hlook⟩ := hlook.peekSecond
    simpa [Scanner.skipPlaces, hpoint, hdigit, any_head?_isDigit, hcs ds rfl] using hlook
  · simpa [Scanner.skipPlaces, hpoint, hc] using hlook

theorem number?_of_read {x : Float} {us : List Char}
    (h : (l.skipWhile Char.isDigit).skipPlaces.At s before us cs) (hx : Number.read? us = some x) :
    Gives l.number? s before (.token .number us (some (.number x)) cs) := by
  refine ⟨_, ?_, h⟩
  simp [Scanner.number?, h.source?, hx, h.token?, Word.item]

theorem number? (h : l.At s before [c] cs) (hc : c.isDigit = true) :
    Gives l.number? s before (Word.number (c :: cs)) := by
  have hwhole := h.skipWhile Char.isDigit
  have hds : ∀ d ∈ c :: cs.takeWhile Char.isDigit, d.isDigit = true := by
    intro d hd
    rcases List.mem_cons.mp hd with rfl | hd
    · exact hc
    · exact List.mem_takeWhile_imp hd
  have hread := Number.read?_whole (List.cons_ne_nil _ _) hds
  simp only [Word.number, List.takeWhile_cons_of_pos hc, List.dropWhile_cons_of_pos hc]
  split
  next ds hrest =>
    rw [hrest] at hwhole
    by_cases hplaces : ds.takeWhile Char.isDigit = []
    · simp only [hplaces, List.isEmpty_nil, if_true]
      rw [hrest]
      refine number?_of_read (hwhole.skipPlaces_none ?_) hread
      rintro _ ⟨rfl⟩
      exact hplaces
    · simp only [List.isEmpty_iff, hplaces, if_false]
      refine number?_of_read (hwhole.skipPlaces hplaces) ?_
      exact Number.read?_decimal (List.cons_ne_nil _ _) hds fun d hd => List.mem_takeWhile_imp hd
  next hrest =>
    refine number?_of_read (hwhole.skipPlaces_none ?_) hread
    intro ds hds
    exact absurd hds (hrest ds)

theorem name? (h : l.At s before [c] cs) (hc : isNameStart c = true) :
    Gives l.name? s before (Word.name (c :: cs)) := by
  have hname := h.skipWhile isNamePart
  have hpart := Word.isNamePart_of_isNameStart hc
  refine ⟨l.skipWhile isNamePart, ?_, ?_⟩
  · simp [Scanner.name?, hname.source?, hname.token?, Word.name, Word.item, hpart]
  · simpa [Word.name, Word.source, Word.rest, hpart] using hname

theorem word? (h : l.At s before [c] cs) : Gives (l.word? c) s before (Word.read c cs) := by
  unfold Scanner.word?
  split
  next kind d double hkind hsecond =>
    rcases h.expect_cases d with ⟨ds, rfl, hfound, hat⟩ | ⟨hd, hfound, hat⟩
    · rw [Word.read_double hsecond]
      refine ⟨_, ?_, hat⟩
      simp [hfound, hat.token?, Word.item]
    · have hread : Word.read c cs = .token kind [c] none cs := by
        apply Word.read_single hkind
        intro e he
        have hne : e ≠ d := by
          rintro rfl
          exact hd he
        simp [Word.double?_eq, hsecond, hne]
      rw [hread]
      refine ⟨_, ?_, hat⟩
      simp [hfound, hat.token?, Word.item]
  next kind hkind hsecond =>
    have hread : Word.read c cs = .token kind [c] none cs := by
      apply Word.read_single hkind
      intro e _
      simp [Word.double?_eq, hsecond]
    rw [hread]
    refine ⟨l, ?_, h⟩
    simp [h.token?, Word.item]
  next hkind =>
    simp only [Word.read, Word.mark?_eq_none hkind cs]
    split
    next hc =>
      obtain rfl := beq_iff_eq.mp hc
      exact h.quoted?
    next =>
      split
      next hc => exact h.number? hc
      next =>
        split
        next hc => exact h.name? hc
        next => exact ⟨l, by rw [h.wordStart]; rfl, h⟩

end At

end Scanner

end Script
