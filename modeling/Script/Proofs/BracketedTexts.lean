import Mathlib.Data.List.TakeWhile

/-!
# Bracketed texts

A bracketed text is a word, a text between quotation marks, or in parentheses a word with bracketed
texts behind it. Which blanks stand between them makes no difference. The reading of such a text is
unique: a word ends where it has to end, and so does everything else.
-/

namespace Script

/-- What is written in brackets. -/
inductive Bracketed where
  | word (s : String)
  | quoted (s : String)
  | node (head : String) (parts : List Bracketed)

namespace Bracketed

/-- Characters between words. -/
def isGap (c : Char) : Bool := c == ' ' || c == '\t' || c == '\n'

/-- Characters of words. -/
def isPlain (c : Char) : Bool := !isGap c && c != '(' && c != ')' && c != '"'

mutual

inductive Written : Bracketed → List Char → Prop
  | word {s : String} (hne : s.toList ≠ []) (hs : s.toList.all isPlain = true) :
      Written (.word s) s.toList
  | quoted {s : String} (hs : '"' ∉ s.toList) : Written (.quoted s) ('"' :: s.toList ++ ['"'])
  | node {head : String} {parts : List Bracketed} {cs : List Char}
      (hs : head.toList.all isPlain = true) (h : WrittenAll parts cs) :
      Written (.node head parts) ('(' :: head.toList ++ cs ++ [')'])

/-- Bracketed texts with a gap in front of each. -/
inductive WrittenAll : List Bracketed → List Char → Prop
  | nil : WrittenAll [] []
  | cons {x : Bracketed} {xs : List Bracketed} {gap cs ds : List Char} (hne : gap ≠ [])
      (hgap : gap.all isGap = true) (h : Written x cs) (hs : WrittenAll xs ds) :
      WrittenAll (x :: xs) (gap ++ cs ++ ds)

end

theorem WrittenAll.append {xs ys : List Bracketed} {cs ds : List Char} : WrittenAll xs cs →
    WrittenAll ys ds → WrittenAll (xs ++ ys) (cs ++ ds)
  | .nil, hys => hys
  | .cons hne hgap h hs, hys => by
    rw [List.append_assoc]
    exact .cons hne hgap h (hs.append hys)

/-! ## Where texts start and end -/

section
variable {p : Char → Bool} {us vs : List Char} {r r' : List Char}

/-- No character for `p` stands first. -/
def Bars (p : Char → Bool) (r : List Char) : Prop := ∀ c ∈ r.head?, p c = false

theorem Bars.takeWhile (hr : Bars p r) (hus : us.all p = true) :
    (us ++ r).takeWhile p = us := by
  rw [List.takeWhile_append_of_pos (List.all_eq_true.mp hus)]
  cases r with
  | nil => simp
  | cons c r => simp [hr c rfl]

/-- A row of characters ends at the first one that is not for `p`. -/
theorem split_unique (hus : us.all p = true) (hvs : vs.all p = true) (hr : Bars p r)
    (hr' : Bars p r') (h : us ++ r = vs ++ r') : us = vs ∧ r = r' := by
  have hrow : us = vs := by rw [← hr.takeWhile hus, h, hr'.takeWhile hvs]
  subst hrow
  exact ⟨rfl, List.append_cancel_left h⟩

end

theorem plain_head {s : String} (hne : s.toList ≠ []) (hs : s.toList.all isPlain = true) :
    ∃ c rest, s.toList = c :: rest ∧ isPlain c = true := by
  obtain ⟨c, rest, hcs⟩ := List.exists_cons_of_ne_nil hne
  exact ⟨c, rest, hcs, List.all_eq_true.mp hs c (by simp [hcs])⟩

theorem Written.head {x : Bracketed} {cs : List Char} (h : Written x cs) :
    ∃ c rest, cs = c :: rest ∧ isGap c = false ∧ c ≠ ')' := by
  cases h with
  | word hne hs =>
    obtain ⟨c, rest, hcs, hc⟩ := plain_head hne hs
    simp only [isPlain, Bool.and_eq_true, bne_iff_ne, Bool.not_eq_true'] at hc
    exact ⟨c, rest, hcs, hc.1.1.1, hc.1.2⟩
  | quoted | node => exact ⟨_, _, rfl, rfl, by decide⟩

/-- Behind all parts of a node its parenthesis is closed, and behind all texts there is nothing. -/
def Closes (r : List Char) : Prop := ∀ c ∈ r.head?, c = ')'

theorem Closes.no_gap {r gap cs : List Char} (h : Closes r) (hne : gap ≠ [])
    (hgap : gap.all isGap = true) : r ≠ gap ++ cs := by
  rintro rfl
  obtain ⟨c, rest, rfl⟩ := List.exists_cons_of_ne_nil hne
  have hc := List.all_eq_true.mp hgap c (.head rest)
  rw [h c rfl] at hc
  cases hc

theorem WrittenAll.bars {xs : List Bracketed} {cs r : List Char} (h : WrittenAll xs cs)
    (hr : Closes r) : Bars isPlain (cs ++ r) := by
  intro c hc
  cases h with
  | nil =>
    rw [hr c hc]
    rfl
  | @cons x xs gap cs ds hne hgap =>
    obtain ⟨d, rest, rfl⟩ := List.exists_cons_of_ne_nil hne
    cases hc
    simp [isPlain, List.all_eq_true.mp hgap c (.head rest)]

/-! ## One reading -/

theorem Written.word_unique {s : String} {y : Bracketed} {u r r' : List Char} (hne : s.toList ≠ [])
    (hs : s.toList.all isPlain = true) (hy : Written y u) (hr : Bars isPlain r)
    (hr' : Bars isPlain r') (h : s.toList ++ r = u ++ r') : .word s = y ∧ r = r' := by
  cases hy with
  | word _ hs' =>
    obtain ⟨hword, hrest⟩ := split_unique hs hs' hr hr' h
    rw [String.toList_inj.mp hword]
    exact ⟨rfl, hrest⟩
  | quoted | node =>
    obtain ⟨c, rest, hcs, hc⟩ := plain_head hne hs
    rw [hcs] at h
    cases List.head_eq_of_cons_eq h
    cases hc

theorem Written.quoted_unique {s : String} {y : Bracketed} {u r r' : List Char}
    (hs : '"' ∉ s.toList) (hy : Written y u) (h : '"' :: s.toList ++ ['"'] ++ r = u ++ r') :
    .quoted s = y ∧ r = r' := by
  cases hy with
  | word hne hs' =>
    obtain ⟨c, rest, hcs, hc⟩ := plain_head hne hs'
    rw [hcs] at h
    cases List.head_eq_of_cons_eq h
    cases hc
  | @quoted s' hs' =>
    have hbody : ∀ {s : String}, '"' ∉ s.toList → s.toList.all (· != '"') = true := by
      intro s hs
      rw [List.all_eq_true]
      intro c hc
      rw [bne_iff_ne]
      rintro rfl
      exact hs hc
    have hmark : ∀ r : List Char, Bars (· != '"') ('"' :: r) := fun r c hc => by
      cases hc
      rfl
    simp only [List.cons_append, List.append_assoc, List.cons.injEq, true_and] at h
    obtain ⟨hword, hrest⟩ := split_unique (hbody hs) (hbody hs') (hmark _) (hmark _) h
    rw [String.toList_inj.mp hword]
    exact ⟨rfl, (List.cons.inj hrest).2⟩
  | node => cases List.head_eq_of_cons_eq h

mutual

/-- A bracketed text is read in one way, up to where it ends. -/
theorem Written.unique {x y : Bracketed} {t u r r' : List Char} : Written x t → Written y u →
    Bars isPlain r → Bars isPlain r' → t ++ r = u ++ r' → x = y ∧ r = r'
  | .word hne hs, hy, hr, hr', h => hy.word_unique hne hs hr hr' h
  | .quoted hs, hy, _, _, h => hy.quoted_unique hs h
  | .node hs hparts, hy, hr, hr', h => by
    cases hy with
    | word hne' hs' =>
      obtain ⟨hx, hrest⟩ := Written.word_unique hne' hs' (.node hs hparts) hr' hr h.symm
      exact ⟨hx.symm, hrest.symm⟩
    | quoted hs' =>
      obtain ⟨hx, hrest⟩ := Written.quoted_unique hs' (.node hs hparts) h.symm
      exact ⟨hx.symm, hrest.symm⟩
    | node hs' hparts' =>
      have hclose : ∀ r : List Char, Closes (')' :: r) := fun r c hc => by
        cases hc
        rfl
      simp only [List.cons_append, List.append_assoc, List.cons.injEq, true_and] at h
      obtain ⟨hhead, hrest⟩ := split_unique hs hs' (hparts.bars (hclose _))
        (hparts'.bars (hclose _)) h
      obtain ⟨rfl, hrest⟩ := hparts.unique hparts' (hclose _) (hclose _) hrest
      rw [String.toList_inj.mp hhead]
      exact ⟨rfl, (List.cons.inj hrest).2⟩

theorem WrittenAll.unique {xs ys : List Bracketed} {t u r r' : List Char} : WrittenAll xs t →
    WrittenAll ys u → Closes r → Closes r' → t ++ r = u ++ r' → xs = ys ∧ r = r'
  | .nil, hys, hr, hr', h => by
    cases hys with
    | nil => exact ⟨rfl, h⟩
    | cons hne hgap =>
      simp only [List.nil_append, List.append_assoc] at h
      exact absurd h (hr.no_gap hne hgap)
  | .cons hne hgap hx hxs, hys, hr, hr', h => by
    cases hys with
    | nil =>
      simp only [List.nil_append, List.append_assoc] at h
      exact absurd h.symm (hr'.no_gap hne hgap)
    | cons hne' hgap' hy hys =>
      have hstart : ∀ {z : Bracketed} {cs ds : List Char},
          Written z cs → Bars isGap (cs ++ ds) := by
        intro z cs ds hz c hc
        obtain ⟨d, rest, rfl, hd, _⟩ := hz.head
        cases hc
        exact hd
      simp only [List.append_assoc] at h
      obtain ⟨-, hrest⟩ := split_unique hgap hgap' (hstart hx) (hstart hy) h
      obtain ⟨rfl, hrest⟩ := hx.unique hy (hxs.bars hr) (hys.bars hr') hrest
      obtain ⟨rfl, hrest⟩ := hxs.unique hys hr hr' hrest
      exact ⟨rfl, hrest⟩

end

end Bracketed

end Script
