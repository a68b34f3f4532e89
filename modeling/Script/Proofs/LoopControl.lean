import Script.Proofs.ExaminedSound
import Script.Proofs.ParseMoves
import Script.Proofs.ScanOrder

/-!
# Loop control is judged exactly

A `break` or `continue` is judged when its keyword is read, by a count of the loops around it, long
before the loop around it is known to be well formed. What is read is kept in step with the tape
here: each of these statements that has been read so far stands before the tokens that are left, and
there is an objection to it just if no loop is around it in the tree. Giving up on a declaration
drops its statements, which takes nothing away from the others.
-/

namespace Script

/-- A statement in a tree that leaves or repeats a loop: its keyword, and whether it is in the body
of a loop. -/
structure LoopControl where
  keyword : Token
  inLoop : Bool

mutual

/-- The statements in `s` that leave or repeat a loop, where `inLoop` says whether `s` itself is in
the body of a loop. The loops around a function are not around what is in it. -/
def Stmt.loopControls (inLoop : Bool) : Stmt → List LoopControl
  | .breakLoop keyword => [⟨keyword, inLoop⟩]
  | .continueLoop keyword => [⟨keyword, inLoop⟩]
  | .block body => Stmt.loopControlsAll inLoop body
  | .func _ _ body => Stmt.loopControlsAll false body
  | .forLoop _ _ body => body.loopControls true
  | .whileLoop _ body => body.loopControls true
  | .ifThen _ body => body.loopControls inLoop
  | .ifElse _ body otherwise => body.loopControls inLoop ++ otherwise.loopControls inLoop
  | .expr _ | .ret _ _ | .declare _ _ => []

def Stmt.loopControlsAll (inLoop : Bool) : List Stmt → List LoopControl
  | [] => []
  | s :: ss => s.loopControls inLoop ++ Stmt.loopControlsAll inLoop ss

end

theorem Stmt.mem_loopControlsAll {inLoop : Bool} {ss : List Stmt} {c : LoopControl} :
    c ∈ Stmt.loopControlsAll inLoop ss ↔ ∃ s ∈ ss, c ∈ s.loopControls inLoop := by
  induction ss with
  | nil => simp [loopControlsAll]
  | cons s ss ih => simp [loopControlsAll, ih]

/-- Whether the complaint is that a statement needs a loop around it. -/
def Complaint.isOutsideLoop : Complaint → Bool
  | .outsideLoop _ => true
  | _ => false

/-- The tape is at a place with a loop around it just if `inLoop`, and each of the statements
`controls` without a loop around it was said to need one. If the tokens are `apart`, so that no two of
them are at one position, those that are left are not where a statement of `controls` is, nor where
that was said of a token; and it was said at the place of a statement only if it needs a loop. -/
structure Tape.Judged (apart : Prop) (inLoop : Bool) (controls : List LoopControl) (t : Tape) :
    Prop where
  stop : Parse.Ended t
  loops : (t.loops != 0) = inLoop
  tokens : apart → t.rest.Pairwise fun x y => x.start ≠ y.start
  read : apart → ∀ c ∈ controls, ∀ x ∈ t.rest, c.keyword.start ≠ x.start
  objected : apart → ∀ o ∈ t.objections, o.complaint.isOutsideLoop = true →
    ∀ x ∈ t.rest, o.token.start ≠ x.start
  needed : ∀ c ∈ controls, c.inLoop = false →
    ⟨c.keyword, .outsideLoop c.keyword.source⟩ ∈ t.objections
  only : apart → ∀ c ∈ controls, ∀ o ∈ t.objections, o.complaint.isOutsideLoop = true →
    o.token.start = c.keyword.start → c.inLoop = false

namespace Tape.Judged

variable {apart : Prop} {inLoop : Bool} {controls controls' : List LoopControl} {t u : Tape}

theorem mono (h : t.Judged apart inLoop controls) (hsub : controls' ⊆ controls) :
    t.Judged apart inLoop controls' where
  stop := h.stop
  loops := h.loops
  tokens := h.tokens
  read ha c hc := h.read ha c (hsub hc)
  objected := h.objected
  needed c hc := h.needed c (hsub hc)
  only ha c hc := h.only ha c (hsub hc)

theorem of_suffix (h : t.Judged apart inLoop controls) (hleads : t.Leads u)
    (hobjections : u.objections = t.objections) : u.Judged apart inLoop controls where
  stop := (congrArg Token.kind hleads.stop).trans h.stop
  loops := by rw [hleads.loops]; exact h.loops
  tokens ha := (h.tokens ha).sublist hleads.rest.sublist
  read ha c hc x hx := h.read ha c hc x (hleads.rest.subset hx)
  objected ha o ho hout x hx := h.objected ha o (hobjections ▸ ho) hout x (hleads.rest.subset hx)
  needed := by rw [hobjections]; exact h.needed
  only := by rw [hobjections]; exact h.only

theorem skip (h : t.Judged apart inLoop controls) : t.skip.Judged apart inLoop controls :=
  h.of_suffix (.skip t) (by unfold Tape.skip; split <;> rfl)

theorem recover (h : t.Judged apart inLoop controls) : t.recover.Judged apart inLoop controls :=
  h.of_suffix (.recover t) t.objections_recover

theorem object (h : t.Judged apart inLoop controls) (token : Token) {complaint : Complaint}
    (hc : complaint.isOutsideLoop = false) :
    (t.object token complaint).Judged apart inLoop controls where
  stop := h.stop
  loops := h.loops
  tokens := h.tokens
  read := h.read
  objected ha o ho hout := by
    rcases List.mem_cons.mp ho with rfl | ho
    · rw [hc] at hout
      cases hout
    · exact h.objected ha o ho hout
  needed c hcs hin := List.mem_cons_of_mem _ (h.needed c hcs hin)
  only ha c hcs o ho hout := by
    rcases List.mem_cons.mp ho with rfl | ho
    · rw [hc] at hout
      cases hout
    · exact h.only ha c hcs o ho hout

/-- The number of loops around may change as long as it is right. -/
theorem setLoops (h : t.Judged apart inLoop controls) (n : Nat) :
    Tape.Judged apart (n != 0) controls { t with loops := n } :=
  ⟨h.stop, rfl, h.tokens, h.read, h.objected, h.needed, h.only⟩

/-- The statement is judged when its keyword is read. What was said before is not at the place of
the keyword, which was still to be read; what is said now is not at the place of another. -/
theorem control {token : Token} {rest : List Token} (h : t.Judged apart inLoop controls)
    (hrest : t.rest = token :: rest) :
    (Parse.objectIf (t.loops = 0) token (.outsideLoop token.source) t.skip).2.Judged apart inLoop
      (⟨token, inLoop⟩ :: controls) := by
  have hskip := h.skip
  have hthis : t.skip.rest = rest := by rw [Tape.skip, hrest]
  have hafter : apart → ∀ x ∈ t.skip.rest, token.start ≠ x.start := by
    intro ha
    rw [hthis]
    exact (List.pairwise_cons.mp (hrest ▸ h.tokens ha)).1
  have htoken : token ∈ t.rest := hrest ▸ List.mem_cons_self
  have hobjections : t.skip.objections = t.objections := by rw [Tape.skip, hrest]
  have hread : apart → ∀ c ∈ (⟨token, inLoop⟩ :: controls : List LoopControl), ∀ x ∈ t.skip.rest,
      c.keyword.start ≠ x.start := by
    intro ha c hc
    rcases List.mem_cons.mp hc with rfl | hc
    · exact hafter ha
    · exact hskip.read ha c hc
  have hloops := h.loops
  unfold Parse.objectIf
  split
  case isTrue hzero =>
    rw [hzero] at hloops
    subst hloops
    refine ⟨hskip.stop, hskip.loops, hskip.tokens, hread, ?_, ?_, ?_⟩
    · intro ha o ho hout
      rcases List.mem_cons.mp ho with rfl | ho
      · exact hafter ha
      · exact hskip.objected ha o ho hout
    · intro c hc hin
      rcases List.mem_cons.mp hc with rfl | hc
      · exact List.mem_cons_self
      · exact List.mem_cons_of_mem _ (hskip.needed c hc hin)
    · intro ha c hc o ho hout heq
      rcases List.mem_cons.mp hc with rfl | hc
      · rfl
      · rcases List.mem_cons.mp ho with rfl | ho
        · exact absurd heq.symm (h.read ha c hc token htoken)
        · exact hskip.only ha c hc o ho hout heq
  case isFalse hpos =>
    have hin : inLoop = true := hloops ▸ bne_iff_ne.mpr hpos
    refine ⟨hskip.stop, hskip.loops, hskip.tokens, hread, hskip.objected, ?_, ?_⟩
    · intro c hc hout
      rcases List.mem_cons.mp hc with rfl | hc
      · exact absurd (hin.symm.trans hout) (by decide)
      · exact hskip.needed c hc hout
    · intro ha c hc o ho hout heq
      rcases List.mem_cons.mp hc with rfl | hc
      · exact absurd heq (h.objected ha o (hobjections ▸ ho) hout token htoken)
      · exact hskip.only ha c hc o ho hout heq

end Tape.Judged

namespace Parse

variable {α β : Type}

/-! ## Parsers that judge no statement -/

/-- Reading a token keeps `P`, and so does any objection but to a statement without a loop. -/
structure Indifferent (P : Tape → Prop) : Prop where
  skip : ∀ {t}, P t → P t.skip
  object : ∀ {t} token {complaint}, complaint.isOutsideLoop = false → P t →
    P (t.object token complaint)

variable {apart : Prop}

theorem indifferent_judged (inLoop : Bool) (controls : List LoopControl) :
    Indifferent (Tape.Judged apart inLoop controls) :=
  ⟨fun h => h.skip, fun token _ hc h => h.object token hc⟩

/-- A parser after which `P` holds, whatever comes of it, if `P` held before. -/
def Keeps (P : Tape → Prop) (p : Parse α) : Prop := ∀ t, P t → P (p t).2

section
variable {P : Tape → Prop}

theorem keeps_pure (a : α) : Keeps P (pure a) := fun _ h => h

theorem Keeps.bind {p : Parse α} {f : α → Parse β} (hp : Keeps P p) (hf : ∀ a, Keeps P (f a)) :
    Keeps P (p >>= f) := by
  intro t ht
  have h := hp t ht
  rcases hpt : p t with ⟨_ | a, u⟩ <;> rw [hpt] at h
  · rw [bind_none hpt]
    exact h
  · rw [bind_some hpt]
    exact hf a u h

theorem Keeps.map {p : Parse α} (hp : Keeps P p) (g : α → β) : Keeps P (g <$> p) := by
  rw [← bind_pure_comp]
  exact hp.bind fun a => keeps_pure (g a)

theorem Keeps.ite {c : Prop} [Decidable c] {p q : Parse α} (hp : Keeps P p) (hq : Keeps P q) :
    Keeps P (if c then p else q) := by
  split
  · exact hp
  · exact hq

theorem keeps_peek : Keeps P peek := fun _ h => h

theorem keeps_last : Keeps P last := fun _ h => h

theorem keeps_sees (k : Kind) : Keeps P (sees k) := fun _ h => h

theorem Keeps.optionally {p : Parse α} (hp : Keeps P p) (k : Kind) : Keeps P (optionally k p) :=
  (keeps_sees k).bind fun _ => (keeps_pure none).ite (hp.map some)

variable (hP : Indifferent P)
include hP

theorem keeps_skip : Keeps P skip := fun _ h => hP.skip h

theorem keeps_object (token : Token) {c : Complaint} (hc : c.isOutsideLoop = false) :
    Keeps P (object token c) := fun _ h => hP.object token hc h

theorem keeps_refuse (token : Token) {c : Complaint} (hc : c.isOutsideLoop = false) :
    Keeps P (refuse token c : Parse α) := fun _ h => hP.object token hc h

theorem keeps_refuseNext {c : Complaint} (hc : c.isOutsideLoop = false) :
    Keeps P (refuseNext c : Parse α) := fun _ h => hP.object _ hc h

theorem keeps_objectIf (b : Prop) [Decidable b] (token : Token) {c : Complaint}
    (hc : c.isOutsideLoop = false) : Keeps P (objectIf b token c) :=
  (keeps_object hP token hc).ite (keeps_pure ())

theorem keeps_acceptAny (ks : List Kind) : Keeps P (acceptAny ks) := by
  intro t h
  unfold acceptAny
  split
  · exact h
  · split
    · exact hP.skip h
    · exact h

theorem keeps_accept (k : Kind) : Keeps P (accept k) := by
  intro t h
  unfold accept
  split
  · exact h
  · split
    · exact hP.skip h
    · exact h

theorem keeps_expect (k : Kind) {c : Complaint} (hc : c.isOutsideLoop = false) :
    Keeps P (expect k c) := by
  intro t h
  unfold expect
  split
  · exact hP.object _ hc h
  · split
    · exact hP.skip h
    · exact hP.object _ hc h

theorem chain_keeps {ops : List Kind} {operand : Parse Expr} (ho : Keeps P operand) :
    ∀ (n : Nat) (left : Expr), Keeps P (chain ops operand n left)
  | 0, left => keeps_pure left
  | n + 1, left => by
    refine (keeps_acceptAny hP ops).bind fun op => ?_
    cases op with
    | none => exact keeps_pure left
    | some op => exact ho.bind fun right => chain_keeps ho n _

theorem operation_keeps (bound : Nat) {operand : Parse Expr} (ho : Keeps P operand) :
    ∀ levels : List (List Kind), Keeps P (operation bound operand levels)
  | [] => ho
  | _ :: tighter => by
    have htight := operation_keeps bound ho tighter
    exact htight.bind fun left => chain_keeps hP htight bound left

theorem moreArguments_keeps {argument : Parse Expr} (ha : Keeps P argument) :
    ∀ (n : Nat) (args : List Expr), Keeps P (moreArguments argument n args)
  | 0, args => keeps_pure _
  | n + 1, args => by
    rw [moreArguments_succ]
    refine (keeps_accept hP _).bind fun _ => Keeps.ite ?_ (keeps_pure _)
    refine keeps_peek.bind fun next => (keeps_objectIf hP _ next rfl).bind fun _ => ?_
    exact ha.bind fun e => moreArguments_keeps ha n _

theorem arguments_keeps (bound : Nat) {argument : Parse Expr} (ha : Keeps P argument) :
    Keeps P (arguments bound argument) := by
  rw [arguments_eq]
  have hargs : Keeps P (do moreArguments argument bound [← argument]) :=
    ha.bind fun e => moreArguments_keeps hP ha bound [e]
  exact (hargs.optionally _).bind fun args => keeps_pure _

theorem calls_keeps {argument : Parse Expr} (ha : Keeps P argument) :
    ∀ (n : Nat) (callee : Expr), Keeps P (calls argument n callee)
  | 0, callee => keeps_pure callee
  | n + 1, callee => by
    refine (keeps_accept hP _).bind fun _ => Keeps.ite ?_ (keeps_pure callee)
    refine (arguments_keeps hP n ha).bind fun args => (keeps_expect hP _ rfl).bind fun paren => ?_
    exact calls_keeps ha n _

theorem primary_keeps {inner : Parse Expr} (hi : Keeps P inner) : Keeps P (primary inner) := by
  refine keeps_peek.bind fun token => ?_
  have hskip : ∀ e : Expr, Keeps P (do skip; pure e) := fun e =>
    (keeps_skip hP).bind fun _ => keeps_pure e
  split
  case h_4 | h_5 =>
    refine (keeps_skip hP).bind fun _ => ?_
    split
    · exact keeps_pure _
    · exact keeps_refuse hP _ rfl
  · exact hskip _
  · exact hskip _
  · exact hskip _
  · exact hskip _
  · refine (keeps_skip hP).bind fun _ => hi.bind fun e => (keeps_expect hP _ rfl).bind fun _ => ?_
    exact keeps_pure _
  case h_8 | h_9 | h_10 => exact (keeps_skip hP).bind fun _ => keeps_refuse hP token rfl
  · exact keeps_refuse hP token rfl

theorem assignment_keeps (target value : Expr) : Keeps P (assignment target value) := by
  unfold assignment
  split
  · exact keeps_pure _
  · exact keeps_last.bind fun token => (keeps_object hP token rfl).bind fun _ => keeps_pure target

mutual

theorem operand_keeps : ∀ n, Keeps P (operand n)
  | 0 => by
    unfold operand
    exact keeps_refuseNext hP rfl
  | n + 1 => by
    unfold operand
    have he := expression_keeps n
    refine (keeps_acceptAny hP signs).bind fun op => ?_
    cases op with
    | some op => exact (operand_keeps n).bind fun e => keeps_pure _
    | none => exact (primary_keeps hP he).bind fun e => calls_keeps hP he n e

theorem expression_keeps : ∀ n, Keeps P (expression n)
  | 0 => by
    unfold expression
    exact keeps_refuseNext hP rfl
  | n + 1 => by
    unfold expression
    refine (operation_keeps hP n (operand_keeps n) precedence).bind fun target => ?_
    refine (keeps_accept hP _).bind fun _ => Keeps.ite ?_ (keeps_pure target)
    exact (expression_keeps n).bind fun value => assignment_keeps hP target value

end

theorem parameters_keeps : ∀ (n : Nat) (params : List Token), Keeps P (parameters n params)
  | 0, _ => by
    unfold parameters
    exact keeps_refuseNext hP rfl
  | n + 1, params => by
    rw [parameters_succ]
    refine keeps_peek.bind fun next => (keeps_objectIf hP _ next rfl).bind fun _ => ?_
    refine (keeps_expect hP _ rfl).bind fun param => ?_
    refine (keeps_objectIf hP _ param rfl).bind fun _ => ?_
    exact (keeps_accept hP _).bind fun _ => (parameters_keeps n _).ite (keeps_pure _)

theorem initialiser_keeps {expr : Parse Expr} (he : Keeps P expr) : Keeps P (initialiser expr) :=
  (keeps_accept hP _).bind fun _ => (he.map some).ite (keeps_pure none)

end

/-! ## Parsers that judge statements -/

/-- Before the parser the statements `before` have been read; after it those in `after a`, where `a`
is what came of it. If it gave up they may have been dropped, but no other has been. -/
def Judges (apart : Prop) (S : Tape → Prop) (inLoop : Bool) (before : List LoopControl) (p : Parse α)
    (after : α → List LoopControl) : Prop :=
  ∀ controls t, S t → t.Judged apart inLoop (before ++ controls) →
    match p t with
    | (some a, u) => u.Judged apart inLoop (after a ++ controls)
    | (none, u) => u.Judged apart inLoop controls

/-- A parser of a statement that judges those in it. -/
def JudgesStmt (apart : Prop) (stmt : Parse Stmt) : Prop := ∀ S inLoop before,
  Judges apart S inLoop before stmt fun s => s.loopControls inLoop ++ before

/-- A parser of several statements that judges those in them. -/
def JudgesBody (apart : Prop) (body : Parse (List Stmt)) : Prop := ∀ S inLoop before,
  Judges apart S inLoop before body fun ss => Stmt.loopControlsAll inLoop ss ++ before

section
variable {S : Tape → Prop} {inLoop : Bool} {before : List LoopControl}

theorem judges_pure {a : α} {after : α → List LoopControl} (h : after a ⊆ before) :
    Judges apart S inLoop before (pure a) after :=
  fun _ _ _ ht => ht.mono (List.append_subset.mpr
    ⟨fun _ hc => List.mem_append_left _ (h hc), List.subset_append_right _ _⟩)

theorem Judges.bind {p : Parse α} {f : α → Parse β} {mid : α → List LoopControl}
    {after : β → List LoopControl} (hp : Judges apart S inLoop before p mid)
    (hf : ∀ a, Judges apart (fun _ => True) inLoop (mid a) (f a) after) :
    Judges apart S inLoop before (p >>= f) after := by
  intro controls t hS ht
  have h := hp controls t hS ht
  rcases hpt : p t with ⟨_ | a, u⟩ <;> rw [hpt] at h
  · rw [bind_none hpt]
    exact h
  · rw [bind_some hpt]
    exact hf a controls u trivial h

/-- A parser that judges no statement leaves those that were judged. -/
theorem Judges.ofKeeps {p : Parse α}
    (hp : ∀ {P : Tape → Prop}, Indifferent P → Keeps P p) :
    Judges apart S inLoop before p fun _ => before := by
  intro controls t _ ht
  have h := hp (indifferent_judged inLoop (before ++ controls)) t ht
  rcases hpt : p t with ⟨_ | a, u⟩ <;> rw [hpt] at h
  · exact h.mono (List.subset_append_right _ _)
  · exact h

theorem judges_expect (k : Kind) {c : Complaint} (hc : c.isOutsideLoop = false) :
    Judges apart S inLoop before (expect k c) fun _ => before :=
  .ofKeeps fun hP => keeps_expect hP k hc

theorem judges_refuseNext {c : Complaint} (hc : c.isOutsideLoop = false)
    {after : α → List LoopControl} : Judges apart S inLoop before (refuseNext c) after :=
  fun _ _ _ ht => (ht.mono (List.subset_append_right _ _)).object _ hc

/-- What the parser reads is in a loop just if some are around it after the change. -/
theorem Judges.withLoops {p : Parse α} {inside : Bool} {after : α → List LoopControl}
    {change : Nat → Nat} (hp : Judges apart (fun _ => True) inside before p after)
    (hchange : ∀ n, (change n != 0) = inside) :
    Judges apart S inLoop before (withLoops change p) after := by
  intro controls t _ ht
  have hin := ht.setLoops (change t.loops)
  rw [hchange] at hin
  have h := hp controls _ trivial hin
  unfold Parse.withLoops
  rcases hpt : p { t with loops := change t.loops } with ⟨_ | a, u⟩ <;> rw [hpt] at h <;>
    exact ht.loops ▸ h.setLoops t.loops

theorem judges_peek {f : Token → Parse α} {after : α → List LoopControl}
    (hf : ∀ token, Judges apart (fun t => t.peek = token) inLoop before (f token) after) :
    Judges apart S inLoop before (peek >>= f) after :=
  fun controls t _ ht => hf t.peek controls t rfl ht

theorem judges_skip {p : Parse α} {after : α → List LoopControl}
    (hp : Judges apart (fun _ => True) inLoop before p after) :
    Judges apart S inLoop before (skip >>= fun _ => p) after :=
  fun controls t _ ht => hp controls t.skip trivial ht.skip

theorem judges_expression (n : Nat) :
    Judges apart S inLoop before (expression n) fun _ => before :=
  .ofKeeps fun hP => expression_keeps hP n

end

theorem loopControls_none {s : Stmt} {inLoop : Bool} {before : List LoopControl}
    (h : s.loopControls inLoop = []) : s.loopControls inLoop ++ before ⊆ before := by
  rw [h, List.nil_append]
  exact List.Subset.refl _

section
variable (n : Nat)

theorem variableDeclaration_judges : JudgesStmt apart (variableDeclaration (expression n)) := by
  intro S inLoop before
  rw [variableDeclaration_eq]
  refine (judges_expect _ rfl).bind fun name => ?_
  refine (Judges.ofKeeps fun hP => initialiser_keeps hP (expression_keeps hP n)).bind fun v => ?_
  exact (judges_expect _ rfl).bind fun _ => judges_pure (loopControls_none rfl)

theorem expressionStatement_judges : JudgesStmt apart (expressionStatement (expression n)) := by
  intro S inLoop before
  refine (judges_expression n).bind fun e => ?_
  exact (judges_expect _ rfl).bind fun _ => judges_pure (loopControls_none rfl)

theorem returnStatement_judges (keyword : Token) :
    JudgesStmt apart (returnStatement (expression n) keyword) := by
  intro S inLoop before
  rw [returnStatement_eq]
  refine (Judges.ofKeeps fun hP => (expression_keeps hP n).optionally _).bind fun value => ?_
  exact (judges_expect _ rfl).bind fun _ => judges_pure (loopControls_none rfl)

/-- The first clause of a loop is not in its body, and has none of the statements in it. -/
theorem firstClause_judges {S : Tape → Prop} {inLoop : Bool} {before : List LoopControl} :
    Judges apart S inLoop before (firstClause (expression n)) fun first =>
      Stmt.loopControlsAll inLoop first.toList ++ before := by
  have haccept : ∀ {S : Tape → Prop} (k : Kind),
      Judges apart S inLoop before (accept k) fun _ => before := fun k =>
    .ofKeeps fun hP => keeps_accept hP k
  have hsome : ∀ {p : Parse Stmt}, JudgesStmt apart p →
      Judges apart (fun _ => True) inLoop before (some <$> p) fun first =>
        Stmt.loopControlsAll inLoop first.toList ++ before := by
    intro p hp
    rw [← bind_pure_comp]
    refine (hp _ inLoop before).bind fun s => judges_pure ?_
    rw [Option.toList, Stmt.loopControlsAll, Stmt.loopControlsAll, List.append_nil]
    exact List.Subset.refl _
  refine (haccept _).bind fun none? => ?_
  split
  · exact judges_pure (List.Subset.refl _)
  · refine (haccept _).bind fun declares => ?_
    split
    · exact hsome (variableDeclaration_judges n)
    · exact hsome (expressionStatement_judges n)

end

theorem functionDeclaration_judges (bound : Nat) {block : Parse (List Stmt)}
    (hb : JudgesBody apart block) : JudgesStmt apart (functionDeclaration bound block) := by
  intro S inLoop before
  rw [functionDeclaration_eq]
  refine (judges_expect _ rfl).bind fun name => (judges_expect _ rfl).bind fun _ => ?_
  refine (Judges.ofKeeps fun hP => (parameters_keeps hP bound []).optionally _).bind fun ps => ?_
  refine (judges_expect _ rfl).bind fun _ => (judges_expect _ rfl).bind fun _ => ?_
  refine ((hb _ false before).withLoops fun _ => rfl).bind fun body => ?_
  exact judges_pure (List.Subset.refl _)

/-- The keyword has been seen, so it is the next token. -/
theorem loopControl_judges {token : Token} (hk : token.kind ≠ .finish) (inLoop : Bool)
    (before : List LoopControl) :
    Judges apart (fun t => t.peek = token) inLoop before (skip >>= fun _ => loopControl token) fun s =>
      s.loopControls inLoop ++ before := by
  intro controls t hpeek ht
  obtain ⟨rest, hrest⟩ : ∃ rest, t.rest = token :: rest := by
    subst hpeek
    unfold Tape.peek at hk ⊢
    cases hrest : t.rest with
    | nil =>
      rw [hrest] at hk
      exact absurd ht.stop hk
    | cons x xs => exact ⟨xs, rfl⟩
  have hloops : t.skip.loops = t.loops := (Tape.Leads.skip t).loops
  have hread : ∀ {S : Tape → Prop}, Judges apart S inLoop (⟨token, inLoop⟩ :: before)
      (do
        let _ ← expect .semicolon (.expectedSemicolonAfterWord token.source)
        pure (if token.kind == .breakWord then Stmt.breakLoop token else .continueLoop token))
      fun s => s.loopControls inLoop ++ before := by
    refine (judges_expect _ rfl).bind fun _ => judges_pure ?_
    split <;> exact List.Subset.refl _
  have hobject : objectIf (t.loops = 0) token (.outsideLoop token.source) t.skip =
      (some (), (objectIf (t.loops = 0) token (.outsideLoop token.source) t.skip).2) := by
    unfold objectIf
    split <;> rfl
  rw [← hloops] at hobject
  have hskip : skip t = (some (), t.skip) := rfl
  have hcount : loops t.skip = (some t.skip.loops, t.skip) := rfl
  rw [bind_some hskip, loopControl_eq, bind_some hcount, bind_some hobject, hloops]
  exact hread (S := fun _ => True) controls _ trivial (ht.control hrest)

section
variable (n : Nat) {stmt : Parse Stmt} (hs : JudgesStmt apart stmt)
include hs

theorem forStatement_judges : JudgesStmt apart (forStatement (expression n) stmt) := by
  intro S inLoop before
  have hoptional : ∀ {S : Tape → Prop} {inLoop : Bool} {before : List LoopControl} (k : Kind),
      Judges apart S inLoop before (optionally k (expression n)) fun _ => before := fun k =>
    .ofKeeps fun hP => (expression_keeps hP n).optionally k
  rw [forStatement_eq]
  refine (judges_expect _ rfl).bind fun _ => (firstClause_judges n).bind fun first => ?_
  refine (hoptional _).bind fun c => (judges_expect _ rfl).bind fun _ => ?_
  refine (hoptional _).bind fun i => (judges_expect _ rfl).bind fun _ => ?_
  refine ((hs _ true _).withLoops fun _ => rfl).bind fun body => ?_
  refine judges_pure fun c hc => ?_
  simp only [Stmt.loopControls, List.mem_append, Stmt.mem_loopControlsAll] at hc ⊢
  grind [Stmt.loopControls]

theorem whileStatement_judges : JudgesStmt apart (whileStatement (expression n) stmt) := by
  intro S inLoop before
  refine (judges_expect _ rfl).bind fun _ => (judges_expression n).bind fun c => ?_
  refine (judges_expect _ rfl).bind fun _ => ?_
  refine ((hs _ true before).withLoops fun _ => rfl).bind fun body => ?_
  exact judges_pure (List.Subset.refl _)

theorem ifStatement_judges : JudgesStmt apart (ifStatement (expression n) stmt) := by
  intro S inLoop before
  refine (judges_expect _ rfl).bind fun _ => (judges_expression n).bind fun c => ?_
  refine (judges_expect _ rfl).bind fun _ => (hs _ inLoop before).bind fun body => ?_
  refine (Judges.ofKeeps fun hP => keeps_accept hP _).bind fun again => ?_
  split
  · refine (hs _ inLoop _).bind fun otherwise => judges_pure fun c hc => ?_
    simp only [Stmt.loopControls, List.mem_append] at hc ⊢
    rcases hc with (hc | hc) | hc
    · exact .inr (.inl hc)
    · exact .inl hc
    · exact .inr (.inr hc)
  · exact judges_pure (List.Subset.refl _)

end

/-- What comes of an attempt is judged; where nothing does, all that was judged still is. -/
theorem attempt_judged {declaration : Parse Stmt} (hd : JudgesStmt apart declaration) {inLoop : Bool}
    {controls : List LoopControl} {t : Tape} (ht : t.Judged apart inLoop controls) :
    (attempt declaration t).2.Judged apart inLoop
      (Stmt.loopControlsAll inLoop (attempt declaration t).1.toList ++ controls) := by
  have h := hd (fun _ => True) inLoop [] controls t trivial ht
  unfold attempt
  rcases hdt : declaration t with ⟨_ | s, u⟩ <;> rw [hdt] at h
  · exact h.recover
  · show u.Judged apart inLoop (s.loopControls inLoop ++ [] ++ controls)
    exact h

theorem declarations_judged {declaration : Parse Stmt} (hd : JudgesStmt apart declaration)
    (closing : Option Kind) {inLoop : Bool} {controls : List LoopControl} :
    ∀ (n : Nat) (body : List Stmt) (t : Tape),
      t.Judged apart inLoop (Stmt.loopControlsAll inLoop body ++ controls) →
      (declarations declaration closing n body t).2.Judged apart inLoop
        (Stmt.loopControlsAll inLoop (declarations declaration closing n body t).1 ++
          controls) := by
  have hreverse : ∀ (body : List Stmt) (t : Tape),
      t.Judged apart inLoop (Stmt.loopControlsAll inLoop body ++ controls) →
      t.Judged apart inLoop (Stmt.loopControlsAll inLoop body.reverse ++ controls) := by
    intro body t ht
    refine ht.mono fun c hc => ?_
    simpa only [List.mem_append, Stmt.mem_loopControlsAll, List.mem_reverse] using hc
  intro n
  induction n with
  | zero => exact hreverse
  | succ n ih =>
    intro body t ht
    rw [declarations_succ]
    split
    · exact hreverse body t ht
    · refine ih _ _ ((attempt_judged hd ht).mono fun c hc => ?_)
      simp only [List.mem_append, Stmt.mem_loopControlsAll] at hc ⊢
      grind

mutual

theorem declaration_judges : ∀ n, JudgesStmt apart (declaration n)
  | 0 => by
    intro S inLoop before
    unfold declaration
    exact judges_refuseNext rfl
  | n + 1 => by
    intro S inLoop before
    unfold declaration
    refine judges_peek fun token => ?_
    split
    · exact judges_skip (functionDeclaration_judges n (block_judges n) _ inLoop before)
    · exact judges_skip (variableDeclaration_judges n _ inLoop before)
    · exact statement_judges n _ inLoop before

theorem statement_judges : ∀ n, JudgesStmt apart (statement n)
  | 0 => by
    intro S inLoop before
    unfold statement
    exact judges_refuseNext rfl
  | n + 1 => by
    intro S inLoop before
    unfold statement
    have hs := statement_judges n
    refine judges_peek fun token => ?_
    split
    · exact judges_skip (returnStatement_judges n token _ inLoop before)
    · exact judges_skip (forStatement_judges n hs _ inLoop before)
    · exact judges_skip (whileStatement_judges n hs _ inLoop before)
    case h_4 hk | h_5 hk => exact loopControl_judges (by rw [hk]; decide) inLoop before
    · exact judges_skip (ifStatement_judges n hs _ inLoop before)
    · refine judges_skip ?_
      rw [← bind_pure_comp]
      exact (block_judges n _ inLoop before).bind fun body => judges_pure (List.Subset.refl _)
    · exact expressionStatement_judges n _ inLoop before

theorem block_judges : ∀ n, JudgesBody apart (block n)
  | 0 => by
    intro S inLoop before
    unfold block
    exact judges_refuseNext rfl
  | n + 1 => by
    intro S inLoop before
    rw [block_succ]
    have hbody : Judges apart S inLoop before (declared (declaration n) (some .rightBrace) n [])
        fun ss => Stmt.loopControlsAll inLoop ss ++ before := by
      intro controls t _ ht
      show Tape.Judged _ _ _ _
      rw [List.append_assoc]
      exact declarations_judged (declaration_judges n) _ n [] t ht
    exact hbody.bind fun body => (judges_expect _ rfl).bind fun _ =>
      judges_pure (List.Subset.refl _)

end

end Parse

end Script
