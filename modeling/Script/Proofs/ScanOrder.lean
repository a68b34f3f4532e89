import Script.Proofs.ScanSound

/-!
# The order of words in a text

Each word or error that scanning finds stands behind the one before it. Where it is reported is what
one gets by counting up to that place, so as long as the counts are exact the positions go up as well,
and no two words or errors are reported at one of them.
-/

namespace Script

/-- Few enough characters for every position, the one behind the last of them included, to be
exact. -/
def Short (s : String) : Prop := s.length + 1 < 2 ^ 31

instance (s : String) : Decidable (Short s) := inferInstanceAs (Decidable (_ < _))

namespace Position

/-- One position comes before another one. -/
def Before (p q : Position) : Prop := p.line < q.line ∨ p.line = q.line ∧ p.column < q.column

theorem Before.trans {p q r : Position} (h : p.Before q) (h' : q.Before r) : p.Before r := by
  unfold Before at *
  omega

theorem Before.trans_le {p q r : Position} (h : p.Before q) (h' : q = r ∨ q.Before r) :
    p.Before r := by
  rcases h' with rfl | h'
  · exact h
  · exact h.trans h'

theorem Before.irrefl (p : Position) : ¬ p.Before p := by
  unfold Before
  omega

theorem le_iff {p q : Position} : p.le q = true ↔ p = q ∨ p.Before q := by
  obtain ⟨l, c⟩ := p
  obtain ⟨l', c'⟩ := q
  simp only [le, Before, Bool.or_eq_true, Bool.and_eq_true, decide_eq_true_eq, beq_iff_eq,
    mk.injEq]
  omega

theorem counted_exact {before : List Char} (h : before.length + 1 < 2 ^ 31) :
    counted before = ⟨(1 + before.count '\n' : Nat),
      (1 + (before.reverse.takeWhile (· != '\n')).length : Nat)⟩ := by
  have hlines : before.count '\n' ≤ before.length := List.count_le_length
  have hcolumns := (List.takeWhile_sublist (· != '\n') (l := before.reverse)).length_le
  rw [List.length_reverse] at hcolumns
  rw [counted, (wrap_natCast _).mpr (by omega), (wrap_natCast _).mpr (by omega)]

/-- More text leads to a later position: to a later line, or to a later column of the same one. -/
theorem before_counted {us vs : List Char} (hvs : vs ≠ [])
    (h : (us ++ vs).length + 1 < 2 ^ 31) : (counted us).Before (counted (us ++ vs)) := by
  have hpos := List.length_pos_iff.mpr hvs
  have hlength : (us ++ vs).length = us.length + vs.length := List.length_append
  rw [counted_exact (by omega), counted_exact h]
  unfold Before
  by_cases hline : '\n' ∈ vs
  · have hcount := List.count_pos_iff.mpr hline
    rw [List.count_append]
    dsimp only
    omega
  · have hwhole : ∀ c ∈ vs.reverse, (c != '\n') = true := by
      intro c hc
      have hne : c ≠ '\n' := fun heq => hline (heq ▸ List.mem_reverse.mp hc)
      simpa using hne
    rw [List.count_append, List.count_eq_zero.mpr hline, List.reverse_append,
      List.takeWhile_append_of_pos hwhole, List.length_append, List.length_reverse]
    dsimp only
    omega

theorem before_counted_take {cs : List Char} (h : cs.length + 1 < 2 ^ 31) {i j : Nat} (hij : i < j)
    (hj : j ≤ cs.length) : (counted (cs.take i)).Before (counted (cs.take j)) := by
  have hsplit := List.take_append_drop i (cs.take j)
  rw [List.take_take, Nat.min_eq_left (Nat.le_of_lt hij)] at hsplit
  have hlength : (cs.take j).length = j := List.length_take_of_le hj
  rw [← hsplit]
  refine before_counted ?_ ?_
  · refine List.ne_nil_of_length_pos ?_
    rw [List.length_drop, hlength]
    omega
  · rw [hsplit, hlength]
    omega

end Position

/-- Where a word or an error starts. -/
def startOf : Except ScanError Token → Position
  | .ok t => t.start
  | .error e => e.start

theorem Word.startOf_item (w : Word) (p : Position) : startOf (w.item p) = p := by
  cases w <;> rfl

theorem Word.source_ne_nil (c : Char) (cs : List Char) : (Word.read c cs).source ≠ [] := by
  intro hnil
  have hsplit := Word.read_split c cs
  have hlen := Word.read_rest_length c cs
  rw [hnil, List.nil_append] at hsplit
  rw [hsplit] at hlen
  exact absurd hlen (Nat.lt_irrefl _)

/-- Words and errors that stand in a text one behind the other, each behind so many characters. -/
structure Placed (cs : List Char) (places : List Nat) (items : List (Except ScanError Token)) :
    Prop where
  ascending : places.Pairwise (· < ·)
  inside : ∀ i ∈ places, i ≤ cs.length
  starts : items.map startOf = places.map fun i => .counted (cs.take i)

namespace Cursor

/-- What is found in the rest of a text stands behind what is before it. -/
theorem scan_placed (cs before : List Char) : ∃ places,
    Placed (before ++ cs) places (scan ⟨cs, .counted before⟩) ∧ ∀ i ∈ places, before.length ≤ i := by
  induction cs using piece_induction generalizing before with
  | nil =>
    rw [scan_nil]
    refine ⟨[before.length], ⟨List.pairwise_singleton _ _, by simp, ?_⟩, by simp⟩
    simp [startOf, Token.finish]
  | blank c cs hb ih =>
    obtain ⟨places, hplaced, hbehind⟩ := ih (before ++ [c])
    rw [List.append_assoc, List.singleton_append] at hplaced
    rw [scan_blank hb, Position.counted_after]
    refine ⟨places, hplaced, fun i hi => Nat.le_trans ?_ (hbehind i hi)⟩
    simp
  | comment cs ih =>
    obtain ⟨places, hplaced, hbehind⟩ := ih (before ++ '/' :: '/' :: cs.takeWhile (· != '\n'))
    rw [List.append_assoc, List.cons_append, List.cons_append, List.takeWhile_append_dropWhile]
      at hplaced
    rw [scan_comment, Position.counted_after]
    refine ⟨places, hplaced, fun i hi => Nat.le_trans ?_ (hbehind i hi)⟩
    simp
  | word c cs hb hc ih =>
    obtain ⟨places, hplaced, hbehind⟩ := ih (before ++ (Word.read c cs).source)
    rw [List.append_assoc, Word.read_split] at hplaced
    have hpos := List.length_pos_iff.mpr (Word.source_ne_nil c cs)
    have hlater : ∀ i ∈ places, before.length < i := by
      intro i hi
      have hle := hbehind i hi
      rw [List.length_append] at hle
      omega
    rw [scan_word hb hc, Position.counted_after]
    refine ⟨before.length :: places, ⟨hplaced.ascending.cons hlater, ?_, ?_⟩, ?_⟩
    · intro i hi
      rcases List.mem_cons.mp hi with rfl | hi
      · simp
      · exact hplaced.inside i hi
    · rw [List.map_cons, List.map_cons, Word.startOf_item, hplaced.starts, List.take_left]
    · intro i hi
      rcases List.mem_cons.mp hi with rfl | hi
      · exact Nat.le_refl _
      · exact Nat.le_of_lt (hlater i hi)

end Cursor

theorem Placed.ordered {cs : List Char} {places : List Nat} {items : List (Except ScanError Token)}
    (h : Placed cs places items) (hshort : cs.length + 1 < 2 ^ 31) :
    items.Pairwise fun i j => (startOf i).Before (startOf j) := by
  rw [← List.pairwise_map (f := startOf) (R := Position.Before), h.starts, List.pairwise_map]
  refine h.ascending.imp_of_mem fun _ hj hij => ?_
  exact Position.before_counted_take hshort hij (h.inside _ hj)

namespace Scanned

theorem scan_ordered {s : String} (h : Short s) :
    (Cursor.ofText s).scan.Pairwise fun i j => (startOf i).Before (startOf j) := by
  obtain ⟨places, hplaced, -⟩ := Cursor.scan_placed s.toList []
  refine hplaced.ordered ?_
  rw [List.nil_append, String.length_toList]
  exact h

/-- The tokens of a text stand one behind the other. -/
theorem tokens_ordered {s : String} (h : Short s) :
    (ofText s).tokens.Pairwise fun t u => t.start.Before u.start := by
  rw [ofText_tokens]
  refine (scan_ordered h).filterMap _ fun i j h t ht u hu => ?_
  cases i with
  | error e => cases ht
  | ok i =>
    cases j with
    | error e => cases hu
    | ok j =>
      cases ht
      cases hu
      exact h

end Scanned

end Script
