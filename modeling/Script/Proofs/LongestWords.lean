import Script.Proofs.OutlinedExpressions

/-!
# Words are as long as they can be

At the place where a token was found, no longer stretch of the text is a word of any class. Which
kind of token it is, and which value it stands for, depends on its characters alone: a name is a
keyword just if it is in the table, and digits always denote a number.
-/

namespace Script

/-- The characters of a word, whichever class it belongs to. -/
def Lexeme (cs : List Char) : Prop := ∃ k value, Spelled k cs value

/-- A word at the front of a text, where there is no longer one. -/
structure Longest (us text : List Char) : Prop where
  lexeme : Lexeme us
  front : us <+: text
  longest : ∀ vs, vs <+: text → Lexeme vs → vs.length ≤ us.length

theorem length_le_takeWhile {p : Char → Bool} {vs cs : List Char} (hv : vs <+: cs)
    (hp : ∀ c ∈ vs, p c = true) : vs.length ≤ (cs.takeWhile p).length := by
  obtain ⟨rest, rfl⟩ := hv
  rw [List.takeWhile_append_of_pos hp]
  simp

namespace Word

/-! ## Which class is tried -/

theorem single?_of_double? {c d : Char} {k : Kind} (h : double? c d = some k) :
    (single? c).isSome = true := by
  unfold double? at h
  split at h <;> first | rfl | cases h

theorem mark?_eq_none {c : Char} (h : single? c = none) (cs : List Char) : mark? c cs = none := by
  unfold mark?
  split
  · split
    · rename_i k hd
      have hs := single?_of_double? hd
      simp [h] at hs
    · simp [h]
  · simp [h]

/-- A mark is one character or two. -/
theorem mark_shape {s : String} {k : Kind} (h : (s, k) ∈ marks) :
    (∃ c, s.toList = [c] ∧ single? c = some k) ∨
      ∃ c d, s.toList = [c, d] ∧ double? c d = some k := by
  have hall : ∀ p ∈ marks,
      p.1.toList.length = 1 ∧ p.1.toList.head?.bind single? = some p.2 ∨
        p.1.toList.length = 2 ∧
          (p.1.toList.head?.bind fun c => p.1.toList.getLast?.bind (double? c)) = some p.2 := by
    decide
  rcases hall _ h with ⟨hlen, hk⟩ | ⟨hlen, hk⟩
  · obtain ⟨c, hc⟩ := List.length_eq_one_iff.mp hlen
    exact .inl ⟨c, hc, by simpa [hc] using hk⟩
  · obtain ⟨c, d, hcd⟩ := List.length_eq_two.mp hlen
    exact .inr ⟨c, d, hcd, by simpa [hcd] using hk⟩

theorem single?_of_isNamePart {c : Char} (h : isNamePart c = true) : single? c = none := by
  unfold single?
  split <;> first | rfl | (revert h; decide)

theorem ne_quote_of_isNamePart {c : Char} (h : isNamePart c = true) : c ≠ '"' := by
  rintro rfl
  revert h
  decide

theorem isNamePart_of_isDigit {c : Char} (h : c.isDigit = true) : isNamePart c = true := by
  simp [isNamePart, h]

theorem isNamePart_of_isNameStart {c : Char} (h : isNameStart c = true) : isNamePart c = true := by
  simp [isNamePart, h]

theorem read_name {c : Char} (h : isNameStart c = true) (cs : List Char) :
    read c cs = name (c :: cs) := by
  have hpart := isNamePart_of_isNameStart h
  have hdigit : c.isDigit = false := by
    by_cases hd : c.isDigit = true
    · simp [isNameStart_of_isDigit hd] at h
    · simpa using hd
  simp [read, mark?_eq_none (single?_of_isNamePart hpart), ne_quote_of_isNamePart hpart, hdigit, h]

theorem read_number {c : Char} (h : c.isDigit = true) (cs : List Char) :
    read c cs = number (c :: cs) := by
  have hpart := isNamePart_of_isDigit h
  simp [read, mark?_eq_none (single?_of_isNamePart hpart), ne_quote_of_isNamePart hpart, h]

theorem read_quoted (cs : List Char) : read '"' cs = quoted cs := by
  have hmark : mark? '"' cs = none := mark?_eq_none rfl cs
  simp [read, hmark]

/-! ## No longer word -/

theorem name_longest {vs cs : List Char} (hv : vs <+: cs) (h : ∀ c ∈ vs, isNamePart c = true) :
    vs.length ≤ (name cs).source.length := by
  simp only [name, source]
  exact length_le_takeWhile hv h

theorem number_longest_whole {ds cs : List Char} (hv : ds <+: cs)
    (hds : ∀ d ∈ ds, d.isDigit = true) : ds.length ≤ (number cs).source.length := by
  have hle := length_le_takeWhile hv hds
  simp only [number]
  split
  · split
    · exact hle
    · simp only [source, List.length_append]
      omega
  · exact hle

theorem number_longest_decimal {ds es cs : List Char} (hv : ds ++ '.' :: es <+: cs)
    (hds : ∀ d ∈ ds, d.isDigit = true) (hne : es ≠ []) (hes : ∀ d ∈ es, d.isDigit = true) :
    (ds ++ '.' :: es).length ≤ (number cs).source.length := by
  obtain ⟨rest, rfl⟩ := hv
  have hpoint : Char.isDigit '.' = false := rfl
  have hplaces : (es ++ rest).takeWhile Char.isDigit ≠ [] := by
    rw [List.takeWhile_append_of_pos hes]
    simp [hne]
  have hle := length_le_takeWhile (List.prefix_append es rest) hes
  simp only [number, List.append_assoc, List.cons_append, List.takeWhile_append_of_pos hds,
    List.dropWhile_append_of_pos hds, List.takeWhile_cons, List.dropWhile_cons, hpoint]
  simp only [Bool.false_eq_true, if_false, List.append_nil, List.isEmpty_iff, hplaces]
  simp only [source, List.length_append, List.length_cons]
  omega

theorem quoted_longest {body cs : List Char} (hv : body ++ ['"'] <+: cs) (h : '"' ∉ body) :
    ('"' :: body ++ ['"']).length ≤ (quoted cs).source.length := by
  obtain ⟨rest, rfl⟩ := hv
  have hbody : ∀ c ∈ body, (c != '"') = true := by
    intro c hc
    rw [bne_iff_ne]
    rintro rfl
    exact h hc
  simp [quoted, List.takeWhile_append_of_pos hbody, List.dropWhile_append_of_pos hbody, source]

theorem mark_longest {s : String} {k : Kind} {c : Char} {cs : List Char} (h : (s, k) ∈ marks)
    (hv : s.toList <+: c :: cs) : s.toList.length ≤ (read c cs).source.length := by
  rcases mark_shape h with ⟨d, hs, _⟩ | ⟨d, e, hs, hk⟩
  · rw [hs]
    exact List.length_pos_iff.mpr (read_source_ne_nil c cs)
  · rw [hs] at hv ⊢
    obtain ⟨rest, hrest⟩ := hv
    cases hrest
    simp [read, mark?, hk, source]

theorem read_longest {c : Char} {cs vs : List Char} (hv : vs <+: c :: cs) (h : Lexeme vs) :
    vs.length ≤ (read c cs).source.length := by
  obtain ⟨k, value, h⟩ := h
  cases h with
  | mark h => exact mark_longest h hv
  | name hc hcs =>
    obtain ⟨rest, hrest⟩ := hv
    cases hrest
    rw [read_name hc]
    refine name_longest (List.prefix_append _ _) ?_
    exact List.forall_mem_cons.mpr ⟨isNamePart_of_isNameStart hc, hcs⟩
  | @whole ds hne hds =>
    obtain ⟨d, ds, rfl⟩ := List.exists_cons_of_ne_nil hne
    obtain ⟨rest, hrest⟩ := hv
    cases hrest
    rw [read_number (hds c (by simp))]
    exact number_longest_whole (List.prefix_append _ _) hds
  | @decimal ds es hne hds hne' hes =>
    obtain ⟨d, ds, rfl⟩ := List.exists_cons_of_ne_nil hne
    have hv' := hv
    obtain ⟨rest, hrest⟩ := hv
    cases hrest
    rw [read_number (hds c (by simp))]
    exact number_longest_decimal hv' hds hne' hes
  | @text body h =>
    obtain ⟨rest, hrest⟩ := hv
    cases hrest
    rw [read_quoted]
    exact quoted_longest ⟨rest, by simp⟩ h

/-! ## Words are read from their own characters -/

theorem double?_space (c : Char) : double? c ' ' = none := by
  unfold double?
  split <;> simp_all

theorem takeWhile_space {p : Char → Bool} (hp : p ' ' = false) {more : List Char}
    (hmore : ∀ d ∈ more.head?, d = ' ') : more.takeWhile p = [] ∧ more.dropWhile p = more := by
  cases more with
  | nil => simp
  | cons d more =>
    obtain rfl : d = ' ' := hmore d rfl
    simp [hp]

section
variable {more : List Char} (hmore : ∀ d ∈ more.head?, d = ' ')
include hmore

theorem read_mark {s : String} {k : Kind} {c : Char} {cs : List Char} (h : (s, k) ∈ marks)
    (hs : s.toList = c :: cs) : read c (cs ++ more) = .token k (c :: cs) none more := by
  rcases mark_shape h with ⟨d, hd, hk⟩ | ⟨d, e, hd, hk⟩
  · cases hs.symm.trans hd
    cases more with
    | nil => simp [read, mark?, hk]
    | cons d more =>
      obtain rfl : d = ' ' := hmore d rfl
      simp [read, mark?, double?_space, hk]
  · cases hs.symm.trans hd
    simp [read, mark?, hk]

theorem name_whole {cs : List Char} (h : ∀ c ∈ cs, isNamePart c = true) :
    name (cs ++ more) = .token (nameKind (String.ofList cs)) cs none more := by
  obtain ⟨htake, hdrop⟩ := takeWhile_space (p := isNamePart) rfl hmore
  simp [name, List.takeWhile_append_of_pos h, List.dropWhile_append_of_pos h, htake, hdrop]

theorem number_whole {ds : List Char} (hds : ∀ d ∈ ds, d.isDigit = true) :
    number (ds ++ more) = .token .number ds (some (numberLiteral ds [])) more := by
  obtain ⟨htake, hdrop⟩ := takeWhile_space (p := Char.isDigit) rfl hmore
  simp only [number, List.takeWhile_append_of_pos hds, List.dropWhile_append_of_pos hds, htake,
    hdrop, List.append_nil]
  split
  · cases hmore '.' rfl
  · rfl

theorem number_decimal {ds es : List Char} (hds : ∀ d ∈ ds, d.isDigit = true) (hne : es ≠ [])
    (hes : ∀ d ∈ es, d.isDigit = true) : number (ds ++ '.' :: es ++ more) =
      .token .number (ds ++ '.' :: es) (some (numberLiteral ds es)) more := by
  have hpoint : Char.isDigit '.' = false := rfl
  obtain ⟨htake, hdrop⟩ := takeWhile_space (p := Char.isDigit) rfl hmore
  simp only [number, List.append_assoc, List.cons_append, List.takeWhile_append_of_pos hds,
    List.dropWhile_append_of_pos hds, List.takeWhile_cons, List.dropWhile_cons, hpoint,
    Bool.false_eq_true, if_false, List.takeWhile_append_of_pos hes,
    List.dropWhile_append_of_pos hes, htake, hdrop]
  simp [hne]

theorem read_spelled {k : Kind} {c : Char} {cs : List Char} {value : Option Literal}
    (h : Spelled k (c :: cs) value) : read c (cs ++ more) = .token k (c :: cs) value more := by
  generalize hu : c :: cs = us at h
  cases h with
  | mark h =>
    rw [← hu]
    exact read_mark hmore h hu.symm
  | name hc hcs =>
    cases hu
    rw [read_name hc]
    exact name_whole hmore (List.forall_mem_cons.mpr ⟨isNamePart_of_isNameStart hc, hcs⟩)
  | whole _ hds =>
    subst hu
    rw [read_number (hds c (by simp))]
    exact number_whole hmore hds
  | @decimal ds es hne hds hne' hes =>
    obtain ⟨d, ds, rfl⟩ := List.exists_cons_of_ne_nil hne
    cases hu
    rw [read_number (hds c (by simp))]
    exact number_decimal hmore hds hne' hes
  | @text body h =>
    cases hu
    have hbody : ∀ c ∈ body, (c != '"') = true := by
      intro c hc
      rw [bne_iff_ne]
      rintro rfl
      exact h hc
    rw [read_quoted]
    simp [quoted, List.takeWhile_append_of_pos hbody, List.dropWhile_append_of_pos hbody]

end

end Word

namespace Number

theorem unsigned?_digit {d : Char} (h : d.isDigit = true) (cs : List Char) :
    unsigned? (d :: cs) = numeral? (d :: cs) := by
  have hupper : ¬ d.isUpper := by
    simp only [Char.isDigit, Char.isUpper] at *
    grind
  have hlower : d.toLower.isDigit = true := by rwa [Char.toLower_eq_of_not_isUpper hupper]
  have hne : ∀ e es, e.isDigit = false → String.ofList ((d :: cs).map Char.toLower) ≠
      String.ofList (e :: es) := by
    intro e es he heq
    rw [String.ofList_inj] at heq
    cases heq
    simp [he] at hlower
  have hinf : String.ofList ((d :: cs).map Char.toLower) ≠ "inf" := hne 'i' ['n', 'f'] rfl
  have hinfinity : String.ofList ((d :: cs).map Char.toLower) ≠ "infinity" :=
    hne 'i' ['n', 'f', 'i', 'n', 'i', 't', 'y'] rfl
  have hnan : String.ofList ((d :: cs).map Char.toLower) ≠ "nan" := hne 'n' ['a', 'n'] rfl
  simp only [unsigned?, beq_iff_eq, hinf, hinfinity, hnan, Bool.or_eq_true, or_self, if_false]

theorem read?_digit {d : Char} (h : d.isDigit = true) (cs : List Char) :
    read? (d :: cs) = numeral? (d :: cs) := by
  unfold read?
  split
  · rename_i heq
    cases heq
    cases h
  · rename_i heq
    cases heq
    cases h
  · exact unsigned?_digit h cs

theorem read?_whole {ds : List Char} (hne : ds ≠ []) (hds : ∀ d ∈ ds, d.isDigit = true) :
    read? ds = some (ofDecimal (digitsValue (ds ++ [])) (-(([] : List Char).length : Int))) := by
  obtain ⟨d, ds, rfl⟩ := List.exists_cons_of_ne_nil hne
  rw [read?_digit (hds d (by simp))]
  simp only [numeral?, List.takeWhile_eq_self_iff.mpr hds, List.dropWhile_eq_nil_iff.mpr hds]
  simp [exponent?]

theorem read?_decimal {ds es : List Char} (hne : ds ≠ []) (hds : ∀ d ∈ ds, d.isDigit = true)
    (hes : ∀ d ∈ es, d.isDigit = true) :
    read? (ds ++ '.' :: es) = some (ofDecimal (digitsValue (ds ++ es)) (-(es.length : Int))) := by
  have hpoint : Char.isDigit '.' = false := rfl
  obtain ⟨d, ds, rfl⟩ := List.exists_cons_of_ne_nil hne
  have hnumeral : read? (d :: ds ++ '.' :: es) = numeral? (d :: ds ++ '.' :: es) :=
    read?_digit (hds d (by simp)) _
  rw [hnumeral]
  simp only [numeral?, List.takeWhile_append_of_pos hds, List.dropWhile_append_of_pos hds,
    List.takeWhile_cons, List.dropWhile_cons, hpoint, Bool.false_eq_true, if_false,
    List.takeWhile_eq_self_iff.mpr hes, List.dropWhile_eq_nil_iff.mpr hes]
  simp [exponent?]

end Number

namespace Spelled

variable {k k' : Kind} {cs : List Char} {value value' : Option Literal}

theorem ne_nil (h : Spelled k cs value) : cs ≠ [] := by
  cases h with
  | mark h =>
    have hall : ∀ p ∈ marks, p.1.toList ≠ [] := by decide
    exact hall _ h
  | whole hne _ => exact hne
  | name | decimal | text => simp

/-- No word belongs to two classes. -/
theorem unique (h : Spelled k cs value) (h' : Spelled k' cs value') : k = k' ∧ value = value' := by
  obtain ⟨c, cs, rfl⟩ := List.exists_cons_of_ne_nil h.ne_nil
  have hread : Word.read c (cs ++ []) = .token k (c :: cs) value [] :=
    Word.read_spelled (by simp) h
  rw [Word.read_spelled (by simp) h'] at hread
  cases hread
  exact ⟨rfl, rfl⟩

theorem kind_word {s : String} (hk : nameKind s = k) : k ≠ .number ∧ k ≠ .text := by
  rcases nameKind_cases s with hname | hword
  · rw [← hk, hname]
    decide
  · have hall : ∀ p ∈ keywords, p.2 ≠ .number ∧ p.2 ≠ .text := by decide
    exact hk ▸ hall _ hword

theorem text_body (h : Spelled .text cs value) : ∃ body, cs = '"' :: body ++ ['"'] := by
  generalize hk : Kind.text = k at h
  cases h with
  | mark h =>
    have hall : ∀ p ∈ marks, p.2 ≠ .text := by decide
    exact absurd hk.symm (hall _ h)
  | name => exact absurd hk.symm (kind_word rfl).2
  | whole | decimal => cases hk
  | text => exact ⟨_, rfl⟩

/-- What starts with a quotation mark is a text. -/
theorem of_quote {body : List Char} (h : Spelled k ('"' :: body ++ ['"']) value) :
    k = .text ∧ value = some (.text (String.ofList body)) := by
  generalize hu : '"' :: body ++ ['"'] = us at h
  cases h with
  | mark h =>
    have hall : ∀ p ∈ marks, p.1.toList.head? ≠ some '"' := by decide
    have := hall _ h
    simp [← hu] at this
  | name hc =>
    cases hu
    cases hc
  | whole _ hds =>
    cases hds '"' (by simp [← hu])
  | @decimal ds _ hne hds =>
    obtain ⟨d, ds, rfl⟩ := List.exists_cons_of_ne_nil hne
    obtain rfl : '"' = d := (List.cons.inj hu).1
    cases hds '"' (by simp)
  | @text body' _ =>
    have hbody : body = body' := by simpa using hu
    rw [hbody]
    exact ⟨rfl, rfl⟩

end Spelled

/-! ## What the characters determine -/

/-- The characters of a name or keyword. -/
def Identifier (cs : List Char) : Prop :=
  ∃ c ds, cs = c :: ds ∧ isNameStart c = true ∧ ∀ d ∈ ds, isNamePart d = true

/-- Digits, or digits with a point between them. -/
def Numeral (cs : List Char) : Prop :=
  ∃ ds, ds ≠ [] ∧ (∀ d ∈ ds, d.isDigit = true) ∧
    (cs = ds ∨ ∃ es, es ≠ [] ∧ (∀ d ∈ es, d.isDigit = true) ∧ cs = ds ++ '.' :: es)

/-- The kind of a token and its value, as they follow from its characters. -/
structure Token.Determined (t : Token) : Prop where
  mark : ∀ s k, (s, k) ∈ marks → (t.kind = k ↔ t.source = s)
  keyword : ∀ s k, (s, k) ∈ keywords → (t.kind = k ↔ t.source = s)
  name : t.kind = .name ↔ Identifier t.source.toList ∧ ∀ p ∈ keywords, p.1 ≠ t.source
  text : t.kind = .text ↔ ∃ body, t.source.toList = '"' :: body ++ ['"']
  textValue : ∀ body, t.source.toList = '"' :: body ++ ['"'] →
    t.literal = some (.text (String.ofList body))
  number : t.kind = .number ↔ Numeral t.source.toList
  numberValue : t.kind = .number → ∃ x, Number.read? t.source.toList = some x ∧
    t.literal = some (.number x)
  plain : t.kind ≠ .text → t.kind ≠ .number → t.literal = none

theorem Numeral.read {cs : List Char} (h : Numeral cs) : ∃ x, Number.read? cs = some x ∧
    Spelled .number cs (some (.number x)) := by
  obtain ⟨ds, hne, hds, rfl | ⟨es, hne', hes, rfl⟩⟩ := h
  · exact ⟨_, Number.read?_whole hne hds, .whole hne hds⟩
  · exact ⟨_, Number.read?_decimal hne hds hes, .decimal hne hds hne' hes⟩

theorem keyword_spelled {s : String} {k : Kind} (h : (s, k) ∈ keywords) :
    Spelled k s.toList none := by
  have hall : ∀ p ∈ keywords, nameKind p.1 = p.2 ∧ p.1.toList.head?.any isNameStart = true ∧
      p.1.toList.all isNamePart = true := by decide
  obtain ⟨hk, hstart, hparts⟩ := hall _ h
  simp only at hk hstart hparts
  cases hs : s.toList with
  | nil => simp [hs] at hstart
  | cons c cs =>
    simp only [hs, List.head?_cons, Option.any_some, List.all_cons, Bool.and_eq_true,
      List.all_eq_true] at hstart hparts
    have := Spelled.name hstart hparts.2
    rwa [← hs, String.ofList_toList, hk, hs] at this

theorem Identifier.spelled {s : String} (h : Identifier s.toList) :
    Spelled (nameKind s) s.toList none := by
  obtain ⟨c, ds, hs, hc, hds⟩ := h
  have := Spelled.name hc hds
  rwa [← hs, String.ofList_toList] at this

section
variable {t : Token} (h : Spelled t.kind t.source.toList t.literal)
include h

theorem Spelled.name_iff : t.kind = .name ↔
    Identifier t.source.toList ∧ ∀ p ∈ keywords, p.1 ≠ t.source := by
  constructor
  · intro hk
    rw [hk] at h
    obtain ⟨c, ds, hs, hc, hds, hname⟩ := h.name_source
    refine ⟨⟨c, ds, hs, hc, hds⟩, ?_⟩
    intro p hp heq
    have hall : ∀ p ∈ keywords, nameKind p.1 ≠ .name := by decide
    exact hall p hp (heq ▸ hname)
  · rintro ⟨hid, hnot⟩
    rw [(h.unique hid.spelled).1]
    rcases nameKind_cases t.source with hname | hword
    · exact hname
    · exact absurd rfl (hnot _ hword)

theorem Spelled.number_iff : t.kind = .number ↔ Numeral t.source.toList := by
  constructor
  · intro hk
    rw [hk] at h
    generalize hn : Kind.number = k at h
    generalize t.source.toList = cs at h
    generalize t.literal = value at h
    cases h with
    | mark h =>
      have hall : ∀ p ∈ marks, p.2 ≠ .number := by decide
      exact absurd hn.symm (hall _ h)
    | name => exact absurd hn.symm (kind_word rfl).1
    | whole hne hds => exact ⟨_, hne, hds, .inl rfl⟩
    | decimal hne hds hne' hes => exact ⟨_, hne, hds, .inr ⟨_, hne', hes, rfl⟩⟩
    | text => cases hn
  · intro hn
    obtain ⟨x, -, hx⟩ := hn.read
    exact (h.unique hx).1

theorem Spelled.determined : t.Determined where
  mark s k hs := by
    constructor
    · rintro rfl
      exact h.source_eq (List.mem_append_left _ hs)
    · rintro rfl
      exact (h.unique (.mark hs)).1
  keyword s k hs := by
    constructor
    · rintro rfl
      exact h.source_eq (List.mem_append_right _ hs)
    · rintro rfl
      exact (h.unique (keyword_spelled hs)).1
  name := h.name_iff
  text := by
    constructor
    · intro hk
      exact (hk ▸ h).text_body
    · rintro ⟨body, hbody⟩
      rw [hbody] at h
      exact h.of_quote.1
  textValue body hbody := by
    rw [hbody] at h
    exact h.of_quote.2
  number := h.number_iff
  numberValue hk := by
    obtain ⟨x, hread, hx⟩ := (h.number_iff.mp hk).read
    exact ⟨x, hread, (h.unique hx).2⟩
  plain htext hnumber := (h.kind_eq hnumber htext).1

end

/-! ## In a whole text -/

/-- A token where it was found, with the text `before` it and the text `rest` behind it. -/
structure Token.Found (t : Token) (before rest : List Char) : Prop where
  start : t.start = .counted before
  uncommented : ¬ ['/', '/'] <+: t.source.toList ++ rest
  longest : Longest t.source.toList (t.source.toList ++ rest)
  spelled : Spelled t.kind t.source.toList t.literal

namespace Cursor

theorem read_found {c : Char} {cs : List Char} (hb : Text.isBlank c = false)
    (hc : ¬ (c = '/' ∧ cs.head? = some '/')) {before : List Char} {t : Token}
    (h : (Word.read c cs).item (.counted before) = .ok t) :
    t.source.toList ++ (Word.read c cs).rest = c :: cs ∧
      t.Found before (Word.read c cs).rest := by
  have hsplit := Word.read_split c cs
  have hclass := Word.read_classified hb cs
  have hlongest : ∀ vs, vs <+: c :: cs → Lexeme vs → vs.length ≤ (Word.read c cs).source.length :=
    fun vs => Word.read_longest
  generalize Word.read c cs = w at *
  cases w with
  | token k us value rest =>
    cases h
    simp only [Word.rest, Word.source] at *
    rw [String.toList_ofList]
    refine ⟨hsplit, rfl, ?_, ?_, ?_⟩
    · rw [String.toList_ofList, hsplit]
      rintro ⟨more, hmore⟩
      cases hmore
      exact hc ⟨rfl, rfl⟩
    · rw [String.toList_ofList, hsplit]
      exact ⟨⟨k, value, hclass⟩, ⟨rest, hsplit⟩, hlongest⟩
    · rw [String.toList_ofList]
      exact hclass
  | unexpected | openText => cases h

theorem scan_found (cs before : List Char) {t : Token}
    (ht : .ok t ∈ scan ⟨cs, .counted before⟩) (hk : t.kind ≠ .finish) :
    ∃ mid rest, cs = mid ++ (t.source.toList ++ rest) ∧ t.Found (before ++ mid) rest := by
  induction cs using piece_induction generalizing before with
  | nil =>
    rw [scan_nil, List.mem_singleton] at ht
    cases ht
    exact absurd rfl hk
  | blank c cs hb ih =>
    rw [scan_blank hb, Position.counted_after] at ht
    obtain ⟨mid, rest, rfl, h⟩ := ih _ ht
    exact ⟨c :: mid, rest, rfl, by simpa using h⟩
  | comment cs ih =>
    rw [scan_comment, Position.counted_after] at ht
    obtain ⟨mid, rest, hcs, h⟩ := ih _ ht
    refine ⟨'/' :: '/' :: cs.takeWhile (· != '\n') ++ mid, rest, ?_, by simpa using h⟩
    simp [← hcs]
  | word c cs hb hc ih =>
    rw [scan_word hb hc, Position.counted_after, List.mem_cons] at ht
    rcases ht with ht | ht
    · obtain ⟨hcs, h⟩ := read_found hb hc ht.symm
      exact ⟨[], _, hcs.symm, by simpa using h⟩
    · obtain ⟨mid, rest, hcs, h⟩ := ih _ ht
      refine ⟨(Word.read c cs).source ++ mid, rest, ?_, by simpa using h⟩
      rw [List.append_assoc, ← hcs, Word.read_split]

theorem scan_number_read (cs : List Char) (p q : Position) (source : String) :
    .error (.badNumber q source) ∉ scan ⟨cs, p⟩ := by
  induction cs using piece_induction generalizing p with
  | nil => simp [scan_nil]
  | blank c cs hb ih =>
    rw [scan_blank hb]
    exact ih _
  | comment cs ih =>
    rw [scan_comment]
    exact ih _
  | word c cs hb hc ih =>
    rw [scan_word hb hc, List.mem_cons, not_or]
    refine ⟨?_, ih _⟩
    cases Word.read c cs <;> simp [Word.item]

end Cursor

/-- Every token stands where no comment starts, it is the longest word there, and its characters
say which kind it is and which value it has. Every numeral is a number, so none is ever refused. -/
theorem tokens_longest (s : String) :
    (∀ t ∈ (Scanned.ofText s).tokens, t.kind ≠ .finish → ∃ before rest,
      s.toList = before ++ (t.source.toList ++ rest) ∧ t.start = .counted before ∧
        ¬ ['/', '/'] <+: t.source.toList ++ rest ∧
        Longest t.source.toList (t.source.toList ++ rest) ∧ t.Determined) ∧
      (∀ cs, Numeral cs → (Number.read? cs).isSome = true) ∧
      ∀ p source, .badNumber p source ∉ (Scanned.ofText s).errors := by
  refine ⟨?_, ?_, ?_⟩
  · intro t ht hk
    rw [Scanned.ofText_tokens, List.mem_filterMap] at ht
    obtain ⟨item, hitem, ht⟩ := ht
    cases item with
    | error => cases ht
    | ok u =>
      cases ht
      obtain ⟨before, rest, hs, hfound⟩ := Cursor.scan_found s.toList [] hitem hk
      exact ⟨before, rest, hs, hfound.start, hfound.uncommented, hfound.longest,
        hfound.spelled.determined⟩
  · intro cs hcs
    obtain ⟨x, hx, -⟩ := hcs.read
    simp [hx]
  · intro p source hmem
    rw [Scanned.ofText_errors, List.mem_filterMap] at hmem
    obtain ⟨item, hitem, he⟩ := hmem
    cases item with
    | ok => cases he
    | error e =>
      cases he
      exact Cursor.scan_number_read _ _ _ _ hitem

example : (Scanned.ofText "7.letter&&&_let 7.5/\"//\"//").tokens.map Token.source =
    ["7", ".", "letter", "&&", "&", "_let", "7.5", "/", "\"//\"", ""] := by decide +kernel

end Script
