import Script.Proofs.ParseSound

/-!
# The parser makes progress and stays inside its tokens

A reader goes from place to place among all the tokens, at the latest up to the first one that ends
the text, where it stops. It is never stuck: there is a token wherever it looks for one, and no call is
deeper than a multiple of the number of tokens. What stands behind the first end is never looked at.
-/

namespace Script

theorem firstEnd_le_nestingOf (ts : List Token) : 3 * firstEnd ts + 5 ≤ nestingOf ts := by
  have hlength := Read.length_le_nestingOf ts
  rwa [Tape.nesting, ← firstEnd_eq] at hlength

namespace Reader.Inside

variable {ts : List Token} {r : Reader} (h : r.Inside ts)
include h

theorem peek : ∃ token, Read.peek r = some (some token, r) := by
  obtain ⟨t, ht, -, hreader⟩ := h.tape
  rw [hreader]
  exact ⟨t.peek, by simp [Read.peek, Tape.reader, ht.get_peek]⟩

theorem previous : ∃ token, Read.previous r = some (some token, r) := by
  obtain ⟨t, ht, -, hreader⟩ := h.tape
  rw [hreader]
  exact ⟨t.last, by simp [Read.previous, Tape.reader, ht.get_last]⟩

section
variable {d : Nat} (hd : nestingOf ts ≤ d) (hr : r.allowed = false)
include hd hr

theorem expression : ∃ e r', Read.expression d r = some (e, r') ∧ r.Leads ts r' := by
  have hbound := firstEnd_le_nestingOf ts
  exact h.follow hr (Parse.expression_moves d) (Read.expression_follows (by omega) (by omega))

theorem statement : ∃ s r', Read.statement d false r = some (s, r') ∧ r.Leads ts r' := by
  have hbound := firstEnd_le_nestingOf ts
  exact h.follow hr (Parse.statement_moves d) (Read.statement_follows (by omega) (by omega))

theorem block : ∃ ss r', Read.block d r = some (ss, r') ∧ r.Leads ts r' := by
  have hbound := firstEnd_le_nestingOf ts
  exact h.follow hr (Parse.block_moves d) (Read.block_follows (by omega) (by omega))

theorem recover : ∃ done r', Read.recover d r = some (done, r') ∧ r.Leads ts r' := by
  have hbound := firstEnd_le_nestingOf ts
  refine h.follow (p := fun t => (some (), t.recover)) hr (fun t => .recover t) ?_
  exact fun ts found t ht hL => Read.recover_reader ht found (by unfold Read.Under at hL; omega)

end

end Reader.Inside

/-- Whatever the tokens are, the parsers stop, go on and stay inside. To read a declaration leads to a
place further down unless the text ends, whether it can be read or not. The parsers of its parts, and
what is done where they give up, also stay up to the first end. There all reading ends, and the tokens
behind it make no difference. -/
theorem parser_progress (ts : List Token) :
    (∀ d (r : Reader), nestingOf ts ≤ d → r.Inside ts →
      (∃ token, Read.peek r = some (some token, r)) ∧
      (∃ token, Read.previous r = some (some token, r)) ∧
      (∃ s r', Read.declaration d r = some (some s, r') ∧ r.Leads ts r' ∧
        (r.index < firstEnd ts → r.index < r'.index)) ∧
      (r.allowed = false →
        (∃ e r', Read.expression d r = some (e, r') ∧ r.Leads ts r') ∧
        (∃ s r', Read.statement d false r = some (s, r') ∧ r.Leads ts r') ∧
        (∃ ss r', Read.block d r = some (ss, r') ∧ r.Leads ts r') ∧
        ∃ done r', Read.recover d r = some (done, r') ∧ r.Leads ts r')) ∧
    (∀ d, nestingOf ts ≤ d →
      (∃ r, Read.program d (.ofTokens ts) = some (some (parseProgram ts).tree, r) ∧
        r.index = firstEnd ts ∧ r.objections.reverse = (parseProgram ts).objections) ∧
      ∃ r, Read.line d (.ofTokens ts) = some (some (parseLine ts).tree, r) ∧
        r.index = firstEnd ts ∧ r.objections.reverse = (parseLine ts).objections) ∧
    ∀ more, parseProgram ((closed ts).take (firstEnd ts + 1) ++ more) = parseProgram ts ∧
      parseLine ((closed ts).take (firstEnd ts + 1) ++ more) = parseLine ts := by
  refine ⟨fun d r hd h => ⟨h.peek, h.previous, ?_, fun hr =>
    ⟨h.expression hd hr, h.statement hd hr, h.block hd hr, h.recover hd hr⟩⟩,
    fun d hd => ⟨?_, ?_⟩, fun more => ?_⟩
  · obtain ⟨s, r', hread, hleads, hlt, -⟩ := h.declaration hd
    exact ⟨s, r', hread, hleads, hlt⟩
  · rw [parseProgram_eq]
    refine ⟨_, Read.program_reader ts hd, ?_, rfl⟩
    refine Tape.place_end (Parse.declarations_rest _ _ [] (Tape.ended_ofTokens ts) ?_)
    simp only [Tape.nesting]
    omega
  · rw [parseLine_eq]
    exact Read.line_reader ts hd
  · simp only [parseProgram_eq, parseLine_eq, Tape.ofTokens_closed, and_self]

/-- `( 1 ;`, in which the number has no value, then an end, and a name and a brace behind it. -/
def midEnd : List Token :=
  [.plain .leftParen "(", .plain .number "1", .plain .semicolon ";", .finish ⟨1, 6⟩,
   .plain .name "x", .plain .leftBrace "\x7b"]

theorem parser_progress_midEnd :
    firstEnd midEnd = 3 ∧ (closed midEnd).length = 7 ∧ nestingOf midEnd = 23 ∧
    (∃ s r, Read.declaration 23 (.ofTokens midEnd) = some (some s, r) ∧ 0 < r.index) ∧
    ∃ r, Read.program 23 (.ofTokens midEnd) = some (some (parseProgram midEnd).tree, r) ∧
      r.index = 3 := by
  have hend : firstEnd midEnd = 3 := by decide
  obtain ⟨hparsers, hwhole, -⟩ := parser_progress midEnd
  refine ⟨hend, by decide, rfl, ?_, ?_⟩
  · obtain ⟨-, -, ⟨s, r, hread, -, hlt⟩, -⟩ :=
      hparsers 23 _ (Nat.le_refl _) (Reader.inside_ofTokens midEnd)
    exact ⟨s, r, hread, hlt (by rw [hend]; decide)⟩
  · obtain ⟨⟨r, hread, hindex, -⟩, -⟩ := hwhole 23 (Nat.le_refl _)
    exact ⟨r, hread, hend ▸ hindex⟩

end Script
