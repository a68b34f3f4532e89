import Mathlib.Data.List.TakeWhile
import Script.Proofs.ParseMoves

/-!
# Tapes as places among the tokens

A tape shows the tokens that are left, and the one read last. Put back among all the tokens it is a
place in them, at most that of the first token that ends the text: a reader at that place sees the
tokens that the tape has next and last.
-/

namespace Script

/-- The place of the first token that ends the text. -/
def firstEnd (ts : List Token) : Nat := (closed ts).findIdx Token.isFinish

/-- The tokens before the first end are those on the tape. -/
theorem closed_split (ts : List Token) : ∃ more,
    closed ts = (Tape.ofTokens ts).rest ++ (Tape.ofTokens ts).stop :: more ∧
    (∀ x ∈ (Tape.ofTokens ts).rest, x.isFinish = false) ∧
    (Tape.ofTokens ts).stop.isFinish = true ∧
    (Tape.ofTokens ts).last = (Tape.ofTokens ts).rest.headD (Tape.ofTokens ts).stop := by
  cases hfind : ts.find? Token.isFinish with
  | none =>
    have hwords : ∀ x ∈ ts, x.isFinish = false := by simpa using List.find?_eq_none.mp hfind
    have hall : ts.takeWhile (!·.isFinish) = ts :=
      List.takeWhile_eq_self_iff.mpr fun x hx => by simp [hwords x hx]
    have hlast : ts.getLast?.any Token.isFinish = false := by
      cases hlast : ts.getLast? with
      | none => rfl
      | some x => exact hwords x (List.mem_of_getLast? hlast)
    simp only [Tape.ofTokens, closed, hfind, hlast, hall, Option.getD_none]
    exact ⟨[], rfl, hwords, rfl, trivial⟩
  | some eof =>
    obtain ⟨heof, before, after, rfl, hbefore⟩ := List.find?_eq_some_iff_append.mp hfind
    replace hbefore : ∀ x ∈ before, x.isFinish = false := by simpa using hbefore
    rw [Tape.ofTokens_append hbefore heof]
    have hbehind : ∃ more, closed (before ++ eof :: after) = before ++ eof :: more := by
      unfold closed
      split
      · exact ⟨after, rfl⟩
      · exact ⟨after ++ _, by rw [List.append_assoc, List.cons_append]⟩
    obtain ⟨more, hmore⟩ := hbehind
    exact ⟨more, hmore, hbefore, heof, rfl⟩

theorem firstEnd_eq (ts : List Token) : firstEnd ts = (Tape.ofTokens ts).rest.length := by
  obtain ⟨more, hclosed, hwords, hstop, -⟩ := closed_split ts
  unfold firstEnd
  rw [hclosed, List.findIdx_append, List.findIdx_cons, hstop]
  have hnone : (Tape.ofTokens ts).rest.findIdx Token.isFinish = (Tape.ofTokens ts).rest.length :=
    List.findIdx_eq_length.mpr hwords
  simp [hnone]

namespace Tape

theorem ended_ofTokens (ts : List Token) : Parse.Ended (ofTokens ts) := by
  obtain ⟨-, -, -, hstop, -⟩ := closed_split ts
  simpa [Token.isFinish, Parse.Ended] using hstop

theorem ofTokens_closed (ts more : List Token) :
    ofTokens ((closed ts).take (firstEnd ts + 1) ++ more) = ofTokens ts := by
  obtain ⟨behind, hclosed, hwords, hstop, hlast⟩ := closed_split ts
  have htake : (closed ts).take (firstEnd ts + 1) =
      (ofTokens ts).rest ++ [(ofTokens ts).stop] := by
    rw [firstEnd_eq, hclosed, List.take_length_add_append, List.take_succ_cons, List.take_zero]
  rw [htake, List.append_assoc, List.singleton_append, ofTokens_append hwords hstop, ← hlast]
  rfl

/-- The tape is what is left of the tokens when some of them have been read. -/
structure Among (ts : List Token) (t : Tape) : Prop where
  read : ∃ us, (ofTokens ts).rest = us ++ t.rest ∧ t.last = us.getLast?.getD (ofTokens ts).last
  stop : t.stop = (ofTokens ts).stop

/-- The place of a tape among the tokens. -/
def place (ts : List Token) (t : Tape) : Nat := firstEnd ts - t.rest.length

variable {ts : List Token} {t u : Tape}

theorem place_le (hu : t.Leads u) : t.place ts ≤ u.place ts := by
  have hle := hu.length_le
  unfold place
  omega

theorem among_ofTokens (ts : List Token) : (ofTokens ts).Among ts := ⟨⟨[], rfl, rfl⟩, rfl⟩

theorem place_ofTokens (ts : List Token) : (ofTokens ts).place ts = 0 := by
  rw [place, firstEnd_eq, Nat.sub_self]

namespace Among

theorem leads (h : t.Among ts) (hu : t.Leads u) : u.Among ts := by
  obtain ⟨us, hus, hlast⟩ := h.read
  obtain ⟨vs, hvs, hlast'⟩ := hu.read
  refine ⟨⟨us ++ vs, by rw [hus, hvs, List.append_assoc], ?_⟩, hu.stop.trans h.stop⟩
  rw [hlast', hlast, List.getLast?_append, Option.getD_or]

theorem ended (h : t.Among ts) : Parse.Ended t := by
  rw [Parse.Ended, h.stop]
  exact ended_ofTokens ts

theorem length_le (h : t.Among ts) : t.rest.length ≤ firstEnd ts := by
  obtain ⟨us, hus, -⟩ := h.read
  rw [firstEnd_eq, hus, List.length_append]
  exact Nat.le_add_left _ _

theorem place_add (h : t.Among ts) : t.place ts + t.rest.length = firstEnd ts :=
  Nat.sub_add_cancel h.length_le

theorem place_lt (h : t.Among ts) (hu : u.rest.length < t.rest.length) :
    t.place ts < u.place ts := by
  have hplace := h.place_add
  unfold place at hplace ⊢
  omega

theorem words (h : t.Among ts) : ∀ x ∈ t.rest, x.isFinish = false := by
  obtain ⟨us, hus, -⟩ := h.read
  obtain ⟨-, -, hwords, -⟩ := closed_split ts
  exact fun x hx => hwords x (hus ▸ List.mem_append_right us hx)

/-- Exactly the token behind all others ends the text. -/
theorem isFinish_peek (h : t.Among ts) : t.peek.isFinish = t.atEnd := by
  have hwords := h.words
  unfold peek atEnd
  cases hrest : t.rest with
  | nil =>
    have hstop := h.ended
    simpa [Token.isFinish, Parse.Ended] using hstop
  | cons x xs => exact hwords x (hrest ▸ List.mem_cons_self)

theorem split (h : t.Among ts) : ∃ us more, closed ts = us ++ (t.rest ++ t.stop :: more) ∧
    us.length = t.place ts ∧ t.last = us.getLast?.getD (t.rest.headD t.stop) := by
  obtain ⟨us, hus, hlast⟩ := h.read
  obtain ⟨more, hclosed, -, -, hfirst⟩ := closed_split ts
  refine ⟨us, more, ?_, ?_, ?_⟩
  · rw [hclosed, hus, h.stop, List.append_assoc]
  · have hlength := h.place_add
    rw [firstEnd_eq, hus, List.length_append] at hlength
    omega
  · rw [hlast, hfirst, hus, h.stop]
    cases us with
    | nil => rfl
    | cons x us =>
      rw [List.getLast?_cons]
      rfl

theorem get_peek (h : t.Among ts) : (closed ts)[t.place ts]? = some t.peek := by
  obtain ⟨us, more, hclosed, hplace, -⟩ := h.split
  rw [hclosed, ← hplace, List.getElem?_append_right (Nat.le_refl _), Nat.sub_self, peek]
  cases t.rest <;> rfl

theorem get_last (h : t.Among ts) : (closed ts)[t.place ts - 1]? = some t.last := by
  obtain ⟨us, more, hclosed, hplace, hlast⟩ := h.split
  rw [hclosed, ← hplace, hlast]
  rcases List.eq_nil_or_concat us with rfl | ⟨vs, x, rfl⟩
  · cases t.rest <;> rfl
  · simp

end Among

/-- A tape for each place up to the first end. -/
theorem exists_among {i : Nat} (hi : i ≤ firstEnd ts) (loops : Nat) (objections : List Objection) :
    ∃ t : Tape, t.Among ts ∧ t.place ts = i ∧ t.loops = loops ∧ t.objections = objections := by
  rw [firstEnd_eq] at hi
  refine ⟨⟨((ofTokens ts).rest.take i).getLast?.getD (ofTokens ts).last, (ofTokens ts).rest.drop i,
    (ofTokens ts).stop, loops, objections⟩, ⟨⟨_, (List.take_append_drop i _).symm, rfl⟩, rfl⟩, ?_,
    rfl, rfl⟩
  rw [place, firstEnd_eq, List.length_drop]
  omega

/-- The reader at the place of a tape, if no bare expression may follow. -/
def reader (ts : List Token) (found : Bool) (t : Tape) : Reader :=
  { tokens := (closed ts).toArray, index := t.place ts, loops := t.loops, found,
    objections := t.objections }

theorem reader_ofTokens (ts : List Token) : (ofTokens ts).reader ts false = .ofTokens ts := by
  rw [reader, place_ofTokens]
  rfl

end Tape

namespace Reader

/-- A reader of the tokens that is not behind the first end. -/
structure Inside (ts : List Token) (r : Reader) : Prop where
  tokens : r.tokens = (closed ts).toArray
  index : r.index ≤ firstEnd ts

/-- Where a parser may leave a reader: not before the place it was at, inside of as many loops, and
without leave for a bare expression. If it had none, it has not come upon one. -/
structure Leads (ts : List Token) (r r' : Reader) : Prop where
  inside : r'.Inside ts
  index : r.index ≤ r'.index
  loops : r'.loops = r.loops
  allowed : r'.allowed = false
  found : r.allowed = false → r'.found = r.found

theorem inside_ofTokens (ts : List Token) : (ofTokens ts).Inside ts := ⟨rfl, Nat.zero_le _⟩

/-- Every reader inside of the tokens is at the place of a tape. -/
theorem Inside.tape {ts : List Token} {r : Reader} (h : r.Inside ts) : ∃ t : Tape, t.Among ts ∧
    t.place ts = r.index ∧ r = { t.reader ts r.found with allowed := r.allowed } := by
  obtain ⟨t, ht, hplace, hloops, hobjections⟩ := Tape.exists_among h.index r.loops r.objections
  refine ⟨t, ht, hplace, ?_⟩
  obtain ⟨tokens, index, loops, allowed, found, objections⟩ := r
  simp only [Tape.reader, hplace, hloops, hobjections]
  exact congrArg (fun tokens => Reader.mk tokens index loops allowed found objections) h.tokens

end Reader

theorem Tape.inside_reader (ts : List Token) (found : Bool) (t : Tape) :
    (t.reader ts found).Inside ts := ⟨rfl, Nat.sub_le _ _⟩

theorem Tape.leads_reader {ts : List Token} {t u : Tape} (hu : t.Leads u) (allowed : Bool)
    {found found' : Bool} (hfound : allowed = false → found' = found) :
    Reader.Leads ts { t.reader ts found with allowed } (u.reader ts found') :=
  ⟨u.inside_reader ts found', Tape.place_le hu, hu.loops, rfl, hfound⟩

end Script
