import Script.Proofs.LookaheadReads
import Script.Proofs.ScanOrder

/-!
# Lookahead in step with the text

A scanner that holds back characters and counts bytes stays in step with its text: what it has not
read is the text from its byte offset on, both of its offsets lie between characters, and every word
can be cut out. So it reads what is read without lookahead, token by token and error by error, and
behind the end of the text it finds that end again and again.
-/

namespace Script

/-! ## One item after the other -/

namespace Cursor

theorem next_blank {c : Char} (hb : Text.isBlank c = true) (cs : List Char) (p : Position) :
    next ⟨c :: cs, p⟩ = next ⟨cs, p.after [c]⟩ :=
  next_skip (skipGapFrom_blank hb cs p)

theorem next_comment (cs : List Char) (p : Position) :
    next ⟨'/' :: '/' :: cs, p⟩ =
      next ⟨cs.dropWhile (· != '\n'), p.after ('/' :: '/' :: cs.takeWhile (· != '\n'))⟩ :=
  next_skip (skipGapFrom_comment cs p)

theorem next_blanks (cs : List Char) (p : Position) : next ⟨cs, p⟩ =
    next ⟨cs.dropWhile Text.isBlank, p.after (cs.takeWhile Text.isBlank)⟩ := by
  induction cs generalizing p with
  | nil => rfl
  | cons c cs ih =>
    by_cases hc : Text.isBlank c = true
    · rw [next_blank hc, ih, List.dropWhile_cons_of_pos hc, List.takeWhile_cons_of_pos hc,
        ← Position.after_append, List.singleton_append]
    · rw [List.dropWhile_cons_of_neg hc, List.takeWhile_cons_of_neg hc]
      rfl

/-- The next item is the end of the text, and then it is the last one, or there are more. -/
theorem next_cases (c : Cursor) :
    (∃ q, c.next = (.ok (.finish q), ⟨[], q⟩) ∧ c.scan = [.ok (.finish q)]) ∨
    ((∀ t, c.next.1 = .ok t → t.isFinish = false) ∧ c.scan = c.next.1 :: c.next.2.scan) := by
  obtain ⟨cs, p⟩ := c
  induction cs using piece_induction generalizing p with
  | nil => exact .inl ⟨p, rfl, scan_nil p⟩
  | blank c cs hb ih =>
    rw [next_blank hb, scan_blank hb]
    exact ih _
  | comment cs ih =>
    rw [next_comment, scan_comment]
    exact ih _
  | word c cs hb hc ih =>
    have hclass := Word.read_classified hb cs
    rw [next_word hb hc, scan_word hb hc]
    refine .inr ⟨?_, rfl⟩
    intro t ht
    generalize Word.read c cs = w at *
    cases w with
    | token kind us literal rest =>
      cases ht
      simpa [Token.isFinish] using hclass.ne_finish
    | unexpected | openText => cases ht

theorem scan_ne_nil (c : Cursor) : c.scan ≠ [] := by
  rcases c.next_cases with ⟨q, -, hscan⟩ | ⟨-, hscan⟩
  · exact hscan ▸ List.cons_ne_nil _ _
  · exact hscan ▸ List.cons_ne_nil _ _

/-- A call takes the first item away, or it finds the end of the text and leaves it where it is. -/
theorem scan_next {c : Cursor} {items : List (Except ScanError Token)} {last : Token}
    (h : c.scan = items ++ [.ok last]) :
    c.next.1 = items.headD (.ok last) ∧ c.next.2.scan = items.tail ++ [.ok last] := by
  rcases c.next_cases with ⟨q, hnext, hscan⟩ | ⟨-, hscan⟩
  · cases items with
    | nil =>
      obtain rfl : Token.finish q = last := by simpa using hscan.symm.trans h
      rw [hnext, scan_nil]
      exact ⟨rfl, rfl⟩
    | cons item items => simpa using hscan.symm.trans h
  · cases items with
    | nil =>
      have hrest := (List.cons.inj (hscan.symm.trans h)).2
      exact absurd hrest (scan_ne_nil _)
    | cons item items => exact List.cons.inj (hscan.symm.trans h)

/-- The end of the text is found last, and only then. -/
theorem scan_ends (s : String) : ∃ items p, (ofText s).scan = items ++ [.ok (.finish p)] ∧
    ∀ t, .ok t ∈ items → t.kind ≠ .finish := by
  obtain ⟨ps, -, hlaid, hscan⟩ := scan_reported s.toList []
  refine ⟨_, _, hscan, ?_⟩
  intro t ht
  obtain ⟨p, hp, hitem⟩ := List.mem_filterMap.mp ht
  cases p with
  | word u =>
    cases hitem
    exact (hlaid.spelled (List.mem_filterMap.mpr ⟨_, hp, rfl⟩)).ne_finish
  | blank | comment | stray | openText => cases hitem

end Cursor

/-- The items are the tokens and the errors that were found, each of them once, in the order in which
they stand in the text `s`. That is the order of their positions if the text is short enough for them
to be exact. -/
structure Scanned.InOrder (x : Scanned) (s : String) (items : List (Except ScanError Token)) :
    Prop where
  placed : ∃ places, Placed s.toList places items
  ordered : Short s → items.Pairwise fun i j => (startOf i).Before (startOf j)
  tokens : items.filterMap Except.toOption = x.tokens
  errors : items.filterMap errorOf = x.errors

namespace Scanner

variable {l l' : Scanner} {s : String} {before word cs : List Char} {c : Cursor}

/-! ## One call -/

/-- The token has been cut out of the text at the two offsets, and so has the value of a text literal,
between its quotation marks. -/
structure CutAs (l : Scanner) (t : Token) : Prop where
  source : Text.cut? l.text l.start l.current = some t.source
  enclosed : t.kind = .text → l.start + 2 ≤ l.current
  value : t.kind = .text →
    t.literal = (Text.cut? l.text (l.start + 1) (l.current - 1)).map .text

theorem At.cutAs {t : Token} (h : l.At s before word cs) (hsource : t.source = String.ofList word)
    (hspelled : t.kind = .text → Spelled t.kind word t.literal) : l.CutAs t := by
  have hbody (hk : t.kind = .text) : ∃ body, word = '"' :: body ++ ['"'] ∧
      t.literal = some (.text (String.ofList body)) := by
    have hword := hspelled hk
    obtain ⟨body, rfl⟩ := (hk ▸ hword).text_body
    exact ⟨body, rfl, hword.of_quote.2⟩
  refine ⟨?_, ?_, ?_⟩
  · rw [hsource]
    exact h.source?
  · intro hk
    obtain ⟨body, rfl, -⟩ := hbody hk
    exact h.value.1
  · intro hk
    obtain ⟨body, rfl, hliteral⟩ := hbody hk
    rw [h.value.2, hliteral]
    rfl

/-- The scanner has the text `s` and stands where the cursor does. -/
def Tracks (l : Scanner) (s : String) (c : Cursor) : Prop :=
  ∃ before word, l.At s before word c.rest ∧ c.position = l.position

/-- What a call has returned is what comes next from where the cursor stands. -/
def Returns (result : Option (Except ScanError Token × Scanner)) (s : String) (c : Cursor) : Prop :=
  ∃ l, result = some (c.next.1, l) ∧ l.Tracks s c.next.2 ∧ ∀ t, c.next.1 = .ok t → l.CutAs t

theorem Gives.returns {result : Option (Except ScanError Token × Scanner)} {d : Char}
    {ds : List Char} (h : Gives result s before (Word.read d ds)) (hb : Text.isBlank d = false)
    (hd : ¬ (d = '/' ∧ ds.head? = some '/')) :
    Returns result s ⟨d :: ds, Position.start.after before⟩ := by
  obtain ⟨l, hresult, hat⟩ := h
  unfold Returns
  rw [Cursor.next_word hb hd]
  refine ⟨l, hresult, ⟨before, _, hat, ?_⟩, ?_⟩
  · rw [hat.position, Position.after_append]
  · intro t ht
    have hclass := Word.read_classified hb ds
    generalize Word.read d ds = w at *
    cases w with
    | token kind us literal rest =>
      cases ht
      exact hat.cutAs rfl fun _ => hclass
    | unexpected | openText => cases ht

/-- Behind the blanks the next word starts, if there is one. -/
theorem Tracks.begin (h : l.Tracks s c) : ∃ before cs,
    (l.skipWhile Text.isBlank).begin.At s before [] cs ∧
      c.next = Cursor.next ⟨cs, Position.start.after before⟩ ∧
      ∀ d ∈ cs.head?, Text.isBlank d = false := by
  obtain ⟨before, word, hat, hposition⟩ := h
  refine ⟨_, _, (hat.skipWhile Text.isBlank).begin, ?_, ?_⟩
  · have hblanks := Cursor.next_blanks c.rest c.position
    rw [hposition, hat.position, ← Position.after_append, List.append_assoc] at hblanks
    rw [← hblanks, ← hat.position, ← hposition]
  · intro d hd
    have hnot := List.head?_dropWhile_not Text.isBlank c.rest
    rw [hd] at hnot
    simpa using hnot

/-- There is a first character, and it has been read. -/
theorem Tracks.first {d : Char} (h : l.Tracks s c)
    (hread : (l.skipWhile Text.isBlank).begin.consume = (some d, l')) : ∃ before ds,
    l'.At s before [d] ds ∧ c.next = Cursor.next ⟨d :: ds, Position.start.after before⟩ ∧
      Text.isBlank d = false := by
  obtain ⟨before, cs, hat, hnext, hblank⟩ := h.begin
  cases cs with
  | nil =>
    rw [hat.consume_nil] at hread
    cases hread
  | cons e ds =>
    obtain ⟨hfirst, hat⟩ := hat.consume
    rw [hread] at hfirst hat
    obtain rfl : d = e := Option.some.inj hfirst
    exact ⟨before, ds, hat, hnext, hblank d rfl⟩

theorem next?_returns (l : Scanner) : ∀ c, l.Tracks s c → Returns l.next? s c := by
  -- the calls that a call makes of itself, one behind each comment, are the induction
  fun_induction Scanner.next? l with
  | case1 l l₁ l₂ hread =>
    intro c h
    obtain ⟨before, cs, hat, hnext, -⟩ := h.begin
    cases cs with
    | cons d ds =>
      have hsome := hat.consume.1
      rw [hread] at hsome
      cases hsome
    | nil =>
      obtain rfl : l₁ = l₂ := (Prod.mk.inj (hat.consume_nil.symm.trans hread)).2
      have hend : Cursor.next ⟨[], Position.start.after before⟩ =
          (.ok (.finish (Position.start.after before)), ⟨[], Position.start.after before⟩) := rfl
      unfold Returns
      rw [hnext, hend, hat.token?]
      refine ⟨l₁, rfl, ⟨before, [], hat, ?_⟩, ?_⟩
      · rw [hat.position, List.append_nil]
      · rintro t ⟨rfl⟩
        apply hat.cutAs rfl
        intro hk
        cases hk
  | case2 l l₁ d l₂ hread hd l₃ hexpect ih =>
    intro c h
    obtain ⟨before, ds, hat, hnext, -⟩ := h.first hread
    obtain rfl := beq_iff_eq.mp hd
    rcases hat.expect_cases '/' with ⟨us, rfl, -, hat⟩ | ⟨-, hnone, -⟩
    · rw [hexpect] at hat
      have hcomment := hat.skipWhile (· != '\n')
      unfold Returns
      rw [hnext, Cursor.next_comment]
      apply ih
      refine ⟨before, _, hcomment, ?_⟩
      rw [hcomment.position, Position.after_append]
      rfl
    · rw [hexpect] at hnone
      cases hnone
  | case3 l l₁ d l₂ hread hd l₃ hexpect =>
    intro c h
    obtain ⟨before, ds, hat, hnext, hblank⟩ := h.first hread
    obtain rfl := beq_iff_eq.mp hd
    rcases hat.expect_cases '/' with ⟨us, -, hsome, -⟩ | ⟨hslash, -, hat⟩
    · rw [hexpect] at hsome
      cases hsome
    · rw [hexpect] at hat
      unfold Returns
      rw [hnext]
      exact hat.word?.returns hblank fun hboth => hslash hboth.2
  | case4 l l₁ d l₂ hread hd =>
    intro c h
    obtain ⟨before, ds, hat, hnext, hblank⟩ := h.first hread
    unfold Returns
    rw [hnext]
    apply hat.word?.returns hblank
    rintro ⟨rfl, -⟩
    exact hd rfl

theorem Tracks.step {item : Except ScanError Token} (h : l.Tracks s c)
    (hread : l.next? = some (item, l')) : c.next.1 = item ∧ l'.Tracks s c.next.2 := by
  obtain ⟨l₁, hnext, htracks, -⟩ := next?_returns l c h
  obtain ⟨rfl, rfl⟩ : c.next.1 = item ∧ l₁ = l' := by simpa [hnext] using hread
  exact ⟨rfl, htracks⟩

/-! ## Call after call -/

theorem ofText_tracks (s : String) : (ofText s).Tracks s (.ofText s) := ⟨[], [], ofText_at s, rfl⟩

theorem Tracks.calls? {items : List (Except ScanError Token)} {last : Token}
    (h : l.Tracks s c) (hscan : c.scan = items ++ [.ok last]) (n : Nat) : ∃ read l' c',
    l.calls? n = some (read, l') ∧ l'.Tracks s c' ∧
      (read = (List.range n).map fun i => items.getD i (.ok last)) ∧
      ∀ t, read.getLast? = some (.ok t) → l'.CutAs t := by
  induction n generalizing l c items with
  | zero =>
    refine ⟨[], l, c, rfl, h, rfl, ?_⟩
    intro t ht
    cases ht
  | succ n ih =>
    obtain ⟨l₁, hnext, htracks, hcut⟩ := next?_returns l c h
    obtain ⟨hfirst, hrest⟩ := Cursor.scan_next hscan
    obtain ⟨read, l', c', hcalls, hl', hread, hlast⟩ := ih htracks hrest
    refine ⟨c.next.1 :: read, l', c', ?_, hl', ?_, ?_⟩
    · simp [Scanner.calls?, hnext, hcalls]
    · rw [List.range_succ_eq_map, List.map_cons, List.map_map, hread, hfirst]
      cases items <;> rfl
    · intro t ht
      cases read with
      | nil =>
        obtain rfl : n = 0 := by simpa using (congrArg List.length hread).symm
        cases hcalls
        exact hcut t (Option.some.inj ht)
      | cons item read => exact hlast t ht

theorem collectOnto?_tracks (tokens : List Token) (errors : List ScanError) (l : Scanner) :
    ∀ c, l.Tracks s c → ∃ l' c', l.collectOnto? tokens errors =
      some (⟨tokens.reverse ++ c.scan.filterMap Except.toOption,
        errors.reverse ++ c.scan.filterMap Scanned.errorOf⟩, l') ∧ l'.Tracks s c' := by
  fun_induction Scanner.collectOnto? tokens errors l with
  | case1 tokens errors l hread =>
    intro c h
    obtain ⟨l₁, hnext, -⟩ := next?_returns l c h
    rw [hnext] at hread
    cases hread
  | case2 tokens errors l e after hread ih =>
    intro c h
    obtain ⟨hitem, htracks⟩ := h.step hread
    rcases c.next_cases with ⟨q, hq, -⟩ | ⟨-, hscan⟩
    · rw [hq] at hitem
      cases hitem
    · obtain ⟨l', c', hcollect, hl'⟩ := ih _ htracks
      refine ⟨l', c', ?_, hl'⟩
      rw [hcollect, hscan, hitem]
      simp [List.filterMap_cons, Except.toOption, Scanned.errorOf]
  | case3 tokens errors l t after hread ht =>
    intro c h
    obtain ⟨hitem, htracks⟩ := h.step hread
    rcases c.next_cases with ⟨q, hq, hscan⟩ | ⟨hmore, -⟩
    · rw [hq] at hitem
      cases hitem
      refine ⟨after, _, ?_, htracks⟩
      rw [hscan]
      simp [Except.toOption, Scanned.errorOf]
    · rw [hmore t hitem] at ht
      cases ht
  | case4 tokens errors l t after hread ht ih =>
    intro c h
    obtain ⟨hitem, htracks⟩ := h.step hread
    rcases c.next_cases with ⟨q, hq, -⟩ | ⟨-, hscan⟩
    · rw [hq] at hitem
      cases hitem
      exact absurd rfl ht
    · obtain ⟨l', c', hcollect, hl'⟩ := ih _ htracks
      refine ⟨l', c', ?_, hl'⟩
      rw [hcollect, hscan, hitem]
      simp [List.filterMap_cons, Except.toOption, Scanned.errorOf]

/-- The scanner is in step with its text `s`: of the two places for characters held back the second is
empty if the first is, what has not been read is the text from the current offset on, and the offsets
lie in order, within the text and between characters. -/
structure InStep (l : Scanner) (s : String) : Prop where
  text : l.text = s
  second : l.first = none → l.second = none
  ahead : Text.cut? s l.current s.utf8ByteSize =
    some (String.ofList (l.first.toList ++ l.second.toList ++ l.stream))
  ordered : l.start ≤ l.current
  within : l.current ≤ s.utf8ByteSize
  startBetween : Text.Boundary s l.start
  currentBetween : Text.Boundary s l.current

theorem Tracks.inStep (h : l.Tracks s c) : l.InStep s := by
  obtain ⟨before, word, hat, -⟩ := h
  have hahead : l.first.toList ++ l.second.toList ++ l.stream = c.rest := hat.ahead
  have hsplit : s.toList = before ++ word ++ c.rest ++ [] := by
    rw [List.append_nil]
    exact hat.split
  have hsize : s.utf8ByteSize = Text.size (before ++ word ++ c.rest) := by
    rw [← hat.split, Text.size_toList]
  refine ⟨hat.text, hat.second, ?_, ?_, ?_, ?_, ?_⟩
  · rw [hahead, hat.current, hsize]
    exact Text.cut?_size hsplit
  · rw [hat.start, hat.current, Text.size_append]
    exact Nat.le_add_right _ _
  · rw [hat.current, hsize, Text.size_append _ c.rest]
    exact Nat.le_add_right _ _
  · rw [hat.start]
    apply Text.boundary_size
    rw [hat.split, List.append_assoc]
  · rw [hat.current]
    exact Text.boundary_size hat.split

/-- However often a scanner is called, also behind errors and behind the end of its text, it returns
and is in step with the text afterwards. What it returns is one by one what scanning the whole text
finds, in order, and then the end of the text again and again. -/
theorem lookahead_in_step (s : String) :
    ∃ (items : List (Except ScanError Token)) (last : Token),
    (Scanned.ofText s).InOrder s (items ++ [.ok last]) ∧ last.kind = .finish ∧
    (∀ t, .ok t ∈ items → t.kind ≠ .finish) ∧
    (∃ l, (ofText s).collect? = some (Scanned.ofText s, l) ∧ l.InStep s) ∧
    ∀ n, ∃ read l, (ofText s).calls? n = some (read, l) ∧ l.InStep s ∧
      (read = (List.range n).map fun i => items.getD i (.ok last)) ∧
      ∀ t, read.getLast? = some (.ok t) → l.CutAs t := by
  obtain ⟨items, p, hscan, hitems⟩ := Cursor.scan_ends s
  refine ⟨items, .finish p, ⟨?_, ?_, ?_, ?_⟩, rfl, hitems, ?_, ?_⟩
  · obtain ⟨places, hplaced, -⟩ := Cursor.scan_placed s.toList []
    exact ⟨places, hscan ▸ hplaced⟩
  · intro hshort
    rw [← hscan]
    exact Scanned.scan_ordered hshort
  · rw [← hscan, Scanned.ofText_tokens]
  · rw [← hscan, Scanned.ofText_errors]
  · obtain ⟨l, c, hcollect, hl⟩ := collectOnto?_tracks [] [] _ _ (ofText_tracks s)
    refine ⟨l, ?_, hl.inStep⟩
    rw [collect?, hcollect, ← Scanned.ofText_tokens, ← Scanned.ofText_errors]
    rfl
  · intro n
    obtain ⟨read, l, c, hcalls, hl, hread, hcut⟩ := (ofText_tracks s).calls? hscan n
    exact ⟨read, l, hcalls, hl.inStep, hread, hcut⟩

-- behind the number both places are taken, and the letter in the text literal counts as two bytes
example : ((ofText "a \"é\" 1.x").calls? 3).map (fun x => (x.2.start, x.2.current, x.2.first,
    x.2.second)) = some (7, 8, some '.', some 'x') := by
  decide +kernel

end Scanner

end Script
