import Script.Proofs.Conversations
import Script.Proofs.ParseSound
import Script.Proofs.ScanSound

/-!
# Texts that nothing is wrong with

If nothing is found wrong with the text of a program, the tokens of the text derive the statements
that are run. If nothing is found wrong with a line, its tokens derive statements or an expression.
-/

namespace Script

/-! ## Programs -/

/-- Nothing is wrong with the text of a program. -/
def Clean (source : String) : Prop := (Examined.ofText parseProgram source).found = []

instance (source : String) : Decidable (Clean source) := inferInstanceAs (Decidable (_ = []))

theorem Scanned.ofText_tape (s : String) : ∃ ts,
    (ofText s).tokens = ts ++ [.finish (.counted s.toList)] ∧
      Tape.ofTokens (ofText s).tokens =
        { last := ts.headD (.finish (.counted s.toList)), rest := ts,
          stop := .finish (.counted s.toList) } := by
  obtain ⟨ts, hts, hwords⟩ := ofText_spelled s
  refine ⟨ts, hts, ?_⟩
  rw [hts]
  refine Tape.ofTokens_append (fun t ht => ?_) rfl
  simpa [Token.isFinish] using (hwords t ht).ne_finish

theorem Examined.found_nil {α : Type} {parse : List Token → Parsed α} {source : String} :
    (Examined.ofText parse source).found = [] ↔
      (Scanned.ofText source).errors = [] ∧
        (parse (Scanned.ofText source).tokens).objections = [] := by
  simp only [Examined.ofText, List.append_eq_nil_iff, List.map_eq_nil_iff]

theorem Clean.program {source : String} (h : Clean source) : (Scanned.ofText source).errors = [] ∧
    ∃ ts, (Scanned.ofText source).tokens = ts ++ [.finish (.counted source.toList)] ∧
      Program ts (Examined.ofText parseProgram source).tree := by
  obtain ⟨herrors, hobjections⟩ := Examined.found_nil.mp h
  obtain ⟨ts, hts, htape⟩ := Scanned.ofText_tape source
  refine ⟨herrors, ts, hts, ?_⟩
  simp only [Examined.ofText]
  rw [parseProgram_eq, htape] at hobjections ⊢
  refine Tape.finish_body rfl ?_ hobjections
  simp only [Tape.nesting]
  omega

/-! ## Lines -/

/-- The tokens of a line are what was read. -/
def Line.Derived (ts : List Token) : Line → Prop
  | .statements body => Program ts body
  | .expression e => Phrase 0 ts e

namespace Parse

variable {α : Type}

theorem sound_atEnd {f : Bool → Parse α} {R : Post α}
    (hf : ∀ b, Sound (f b) fun n us rest a => b = (us ++ rest).isEmpty → R n us rest a) :
    Sound (atEnd >>= f) R := by
  intro t r t' hrun hclean
  refine (hf t.atEnd t r t' hrun hclean).imp fun us a _ hrest h => h ?_
  rw [← hrest]
  rfl

theorem expressionItem_sound (n : Nat) : Sound (expressionItem n) fun _ us rest item =>
    item.2 = true ∧ rest = [] ∧ Phrase 0 us item.1 ∨
      item.2 = false ∧
        ∃ ts semi, us = ts ++ [semi] ∧ semi.kind = .semicolon ∧ Phrase 0 ts item.1 := by
  refine (expression_sound n).bind fun e => sound_atEnd fun whole => ?_
  cases whole with
  | true =>
    refine sound_pure ?_
    intro _ rest hrest us h
    rw [List.nil_append] at hrest
    rw [List.append_nil]
    exact .inl ⟨rfl, by simpa using hrest.symm, h⟩
  | false =>
    refine sound_expect fun semi hsemi => sound_pure ?_
    intro _ rest _ us h
    exact .inr ⟨rfl, us, semi, rfl, hsemi, h⟩

end Parse

/-- The ways in which a line is read: as a program from the start, as an expression that is all
there is, or as a program after an expression that was read or given up on. -/
theorem parseLine_cases (ts : List Token) : ∃ t, t = Tape.ofTokens ts ∧
    (parseLine ts = t.finishLine t.nesting [] ∨
      ∃ r t', Parse.expressionItem t.nesting t = (r, t') ∧
        (r = none ∧ parseLine ts = t'.recover.finishLine t.nesting [] ∨
          ∃ e, r = some (e, true) ∧ parseLine ts = ⟨.expression e, t'.objections.reverse⟩ ∨
            r = some (e, false) ∧ parseLine ts = t'.finishLine t.nesting [.expr e])) := by
  refine ⟨_, rfl, ?_⟩
  rw [parseLine_eq, Tape.line]
  split
  · exact .inl rfl
  · obtain ⟨r, t'⟩ := Parse.expressionItem (Tape.ofTokens ts).nesting (Tape.ofTokens ts)
    refine .inr ⟨r, t', rfl, ?_⟩
    rcases r with _ | ⟨e, _ | _⟩
    · exact .inl ⟨rfl, rfl⟩
    · exact .inr ⟨e, .inr ⟨rfl, rfl⟩⟩
    · exact .inr ⟨e, .inl ⟨rfl, rfl⟩⟩

theorem Tape.finishLine_clean {n : Nat} {t : Tape} {body : List Stmt}
    (h : (t.finishLine n body).objections = []) : t.objections = [] := Tape.finish_clean h

theorem Tape.finishLine_program {n : Nat} {t : Tape} {body : List Stmt} {us : List Token}
    (hstop : t.stop.kind = .finish) (hloops : t.loops = 0) (hn : t.rest.length ≤ n)
    (hbody : ∀ {vs more}, Program vs more → Program (us ++ vs) (body.reverse ++ more))
    (h : (t.finishLine n body).objections = []) :
    (t.finishLine n body).tree.Derived (us ++ t.rest) := by
  obtain ⟨more, htree, hmore⟩ := Tape.finish_after hstop hn h
  rw [hloops] at hmore
  show Program _ (t.finish n body).tree
  rw [htree]
  exact hbody hmore

theorem parseLine_derived {ts : List Token} {eof : Token} (hts : ∀ t ∈ ts, t.isFinish = false)
    (heof : eof.isFinish = true) (h : (parseLine (ts ++ [eof])).objections = []) :
    (parseLine (ts ++ [eof])).tree.Derived ts := by
  obtain ⟨t, ht, hline⟩ := parseLine_cases (ts ++ [eof])
  rw [Tape.ofTokens_append hts heof] at ht
  have hrest : t.rest = ts := by rw [ht]
  have hloops : t.loops = 0 := by rw [ht]
  have hstop : t.stop.kind = .finish := by simpa [ht, Token.isFinish] using heof
  have hn : t.rest.length ≤ t.nesting := by
    simp only [Tape.nesting]
    omega
  have hsound := Parse.expressionItem_sound t.nesting t
  rcases hline with hline | ⟨r, t', hitem, hline⟩
  · rw [hline] at h ⊢
    rw [← hrest, ← List.nil_append t.rest]
    exact Tape.finishLine_program hstop hloops hn (fun hmore => hmore) h
  · rcases hline with ⟨rfl, hline⟩ | ⟨e, ⟨rfl, hline⟩ | ⟨rfl, hline⟩⟩ <;> rw [hline] at h ⊢
    · have hclean := Tape.finishLine_clean h
      rw [Tape.objections_recover] at hclean
      obtain ⟨_, _, _, _, hr, _⟩ := (hsound _ _ hitem hclean).2 hstop
      cases hr
    · have hclean : t'.objections = [] := by simpa using h
      obtain ⟨_, _, item, us, ⟨⟩, hus, ⟨_, hnil, hphrase⟩ | ⟨⟨⟩, _⟩⟩ :=
        (hsound _ _ hitem hclean).2 hstop
      rw [hrest, hnil, List.append_nil] at hus
      rw [hus]
      exact hphrase
    · have hclean := Tape.finishLine_clean h
      obtain ⟨hs, hl, item, us, ⟨⟩, hus, ⟨⟨⟩, _⟩ | ⟨_, vs, semi, rfl, hsemi, hphrase⟩⟩ :=
        (hsound _ _ hitem hclean).2 hstop
      rw [← hrest, hus]
      refine Tape.finishLine_program (hs ▸ hstop) (hl.trans hloops) ?_ ?_ h
      · rw [hus, List.length_append] at hn
        omega
      · intro ws more hmore
        exact .cons (.sentence (.expression hphrase hsemi)) hmore

/-- The statements or the expression of a line that nothing is wrong with. -/
theorem Request.derived {r : Request} (h : r.examined.found = []) :
    ∃ ts, r.examined.tree.Derived ts := by
  cases r with
  | program source =>
    obtain ⟨_, ts, _, hprogram⟩ := Clean.program h
    exact ⟨ts, hprogram⟩
  | line source =>
    obtain ⟨ts, hts, hwords⟩ := Scanned.ofText_spelled source
    have hobjections := (Examined.found_nil.mp h).2
    refine ⟨ts, ?_⟩
    show Line.Derived ts (parseLine (Scanned.ofText source).tokens).tree
    rw [hts] at hobjections ⊢
    refine parseLine_derived (fun t ht => ?_) rfl hobjections
    simpa [Token.isFinish] using (hwords t ht).ne_finish

end Script
