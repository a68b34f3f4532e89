import Script.Proofs.LongestWords
import Script.Proofs.OutlinedPrograms

/-!
# Words with a space between them

The words of a text, written one behind the other with a single space between them, are read again
as the same words. Nothing else is found in between, whatever the first text had there: comments,
characters that start no word, or a text that is never closed.
-/

namespace Script

/-- The tokens of a text without the one that ends it. -/
def Scanned.words (x : Scanned) : List Token := x.tokens.filter fun t => !t.isFinish

/-- The words of a text, one behind the other. -/
def Scanned.respelled (x : Scanned) : String := " ".intercalate (x.words.map Token.source)

/-! ## One word -/

theorem isBlank_of_isNamePart {c : Char} (h : isNamePart c = true) : Text.isBlank c = false := by
  by_cases hc : c = '_'
  · subst hc
    rfl
  · have hnat : 48 ≤ c.toNat ∧ c.toNat ≤ 122 := by
      simp only [isNamePart, isNameStart, Char.isAlpha, Char.isUpper, Char.isLower,
        Char.isDigit] at h
      grind [Char.toNat, UInt32.le_iff_toNat_le]
    simp [Text.isBlank]
    omega

namespace Spelled

variable {k : Kind} {c : Char} {cs : List Char} {value : Option Literal}

theorem not_blank (h : Spelled k (c :: cs) value) : Text.isBlank c = false := by
  generalize hu : c :: cs = us at h
  cases h with
  | mark h =>
    have hall : ∀ p ∈ marks, p.1.toList.head?.any Text.isBlank = false := by decide
    simpa [← hu] using hall _ h
  | name hc =>
    cases hu
    exact isBlank_of_isNamePart (Word.isNamePart_of_isNameStart hc)
  | whole _ hds =>
    subst hu
    exact isBlank_of_isNamePart (Word.isNamePart_of_isDigit (hds c (by simp)))
  | @decimal ds es hne hds =>
    obtain ⟨d, ds, rfl⟩ := List.exists_cons_of_ne_nil hne
    cases hu
    exact isBlank_of_isNamePart (Word.isNamePart_of_isDigit (hds c (by simp)))
  | text =>
    cases hu
    rfl

/-- A slash at the front of a word is the whole word. -/
theorem slash_alone (h : Spelled k ('/' :: cs) value) : cs = [] := by
  generalize hu : '/' :: cs = us at h
  cases h with
  | mark h =>
    have hall : ∀ p ∈ marks, p.1.toList.head? = some '/' → p.1.toList.tail = [] := by decide
    simpa [← hu] using hall _ h
  | name hc =>
    cases hu
    cases hc
  | whole _ hds =>
    subst hu
    cases hds '/' (by simp)
  | @decimal ds es hne hds =>
    obtain ⟨d, ds, rfl⟩ := List.exists_cons_of_ne_nil hne
    cases hu
    cases hds '/' (by simp)
  | text => cases hu

end Spelled

theorem Cursor.scan_spelled {t : Token} (h : Spelled t.kind t.source.toList t.literal)
    {more : List Char} (hmore : ∀ d ∈ more.head?, d = ' ') (p : Position) :
    scan ⟨t.source.toList ++ more, p⟩ =
      .ok { t with start := p } :: scan ⟨more, p.after t.source.toList⟩ := by
  obtain ⟨c, cs, hs⟩ := List.exists_cons_of_ne_nil h.ne_nil
  have hc : ¬ (c = '/' ∧ (cs ++ more).head? = some '/') := by
    rintro ⟨rfl, hhead⟩
    rw [hs] at h
    rw [h.slash_alone, List.nil_append] at hhead
    cases hmore '/' hhead
  have hsource : String.ofList (c :: cs) = t.source := by rw [← hs, String.ofList_toList]
  rw [hs] at h ⊢
  rw [List.cons_append, scan_word h.not_blank hc, Word.read_spelled hmore h]
  simp only [Word.item, Word.rest, Word.source, hsource]

/-! ## A row of words -/

theorem Cursor.scan_row {ts : List Token} (h : ∀ t ∈ ts, Spelled t.kind t.source.toList t.literal)
    (p : Position) : ∃ (us : List Token) (q : Position), us.map Token.bare = ts.map Token.bare ∧
      scan ⟨ts.flatMap fun t => ' ' :: t.source.toList, p⟩ = us.map .ok ++ [.ok (.finish q)] := by
  induction ts generalizing p with
  | nil => exact ⟨[], p, rfl, scan_nil p⟩
  | cons t ts ih =>
    have hblank : Text.isBlank ' ' = true := rfl
    have hmore : ∀ d ∈ (ts.flatMap fun t => ' ' :: t.source.toList).head?, d = ' ' := by
      cases ts <;> simp
    obtain ⟨us, q, hus, hscan⟩ := ih (fun u hu => h u (List.mem_cons_of_mem _ hu))
      ((p.after [' ']).after t.source.toList)
    refine ⟨{ t with start := p.after [' '] } :: us, q, ?_, ?_⟩
    · simp [hus, Token.bare]
    · rw [List.flatMap_cons, List.cons_append, scan_blank hblank, scan_spelled (h t (by simp)) hmore,
        hscan]
      rfl

theorem Cursor.scan_spaced {ts : List Token}
    (h : ∀ t ∈ ts, Spelled t.kind t.source.toList t.literal) (p : Position) :
    ∃ (us : List Token) (q : Position), us.map Token.bare = ts.map Token.bare ∧
      scan ⟨(" ".intercalate (ts.map Token.source)).toList, p⟩ =
        us.map .ok ++ [.ok (.finish q)] := by
  cases ts with
  | nil => exact ⟨[], p, rfl, scan_nil p⟩
  | cons t ts =>
    have hmore : ∀ d ∈ (ts.flatMap fun t => ' ' :: t.source.toList).head?, d = ' ' := by
      cases ts <;> simp
    obtain ⟨us, q, hus, hscan⟩ := scan_row (fun u hu => h u (List.mem_cons_of_mem _ hu))
      (p.after t.source.toList)
    refine ⟨{ t with start := p } :: us, q, ?_, ?_⟩
    · simp [hus, Token.bare]
    · rw [List.map_cons, toList_intercalate_cons, List.flatMap_map]
      exact (scan_spelled (h t (by simp)) hmore p).trans (congrArg _ hscan)

/-! ## A whole text -/

namespace Scanned

theorem words_spelled {s : String} {t : Token} (h : t ∈ (ofText s).words) :
    Spelled t.kind t.source.toList t.literal := by
  obtain ⟨ts, htokens, hts⟩ := ofText_spelled s
  obtain ⟨hmem, hfinish⟩ := List.mem_filter.mp h
  rw [htokens, List.mem_append, List.mem_singleton] at hmem
  rcases hmem with hmem | rfl
  · exact hts t hmem
  · cases hfinish

theorem words_eq {s : String} {ts : List Token} {q : Position}
    (h : (ofText s).tokens = ts ++ [.finish q]) : (ofText s).words = ts := by
  obtain ⟨us, htokens, hus⟩ := ofText_spelled s
  obtain ⟨rfl, -⟩ := List.append_inj' (htokens.symm.trans h) rfl
  rw [words, h, List.filter_append, List.filter_eq_self.mpr, List.append_right_eq_self]
  · rfl
  · intro t ht
    have := (hus t ht).ne_finish
    simpa [Token.isFinish] using this

/-- The words of a text, with a space between each two of them, are scanned without an error to the
same words again, and writing them down once more changes nothing. -/
theorem respelled_same (s : String) :
    (ofText (ofText s).respelled).errors = [] ∧
      (∃ ts, (ofText (ofText s).respelled).tokens =
          ts ++ [.finish (.counted (ofText s).respelled.toList)] ∧
        ts.map Token.bare = (ofText s).words.map Token.bare) ∧
      (ofText (ofText s).respelled).respelled = (ofText s).respelled := by
  obtain ⟨us, q, hus, hscan⟩ := Cursor.scan_spaced (fun t ht => words_spelled (s := s) ht) .start
  have hscan' : (Cursor.ofText (ofText s).respelled).scan = us.map .ok ++ [.ok (.finish q)] := hscan
  have htokens : (ofText (ofText s).respelled).tokens = us ++ [.finish q] := by
    rw [ofText_tokens, hscan', List.filterMap_append, List.filterMap_map]
    congr 1
    exact List.filterMap_some
  obtain ⟨ts, htokens', -⟩ := ofText_spelled (ofText s).respelled
  obtain ⟨rfl, -⟩ := List.append_inj' (htokens'.symm.trans htokens) rfl
  refine ⟨?_, ⟨ts, htokens', hus⟩, ?_⟩
  · rw [ofText_errors, hscan', List.filterMap_append, List.filterMap_map]
    simp [Function.comp_def, errorOf]
  · have hsources := congrArg (List.map Token.source) hus
    simp only [List.map_map] at hsources
    rw [respelled, words_eq htokens, respelled]
    exact congrArg _ hsources

end Scanned

end Script
