import Script.Proofs.ExaminedSound

/-!
# Literals have values

Every number and every text that is scanned comes with its value, so no parser ever objects to a
literal without one. This holds whatever else is wrong with a text: it is kept by every step of
reading and of recovery.
-/

namespace Script

/-- A token that has a value if it is a literal. -/
def Token.Valued (t : Token) : Prop := t.kind = .number ∨ t.kind = .text → t.literal.isSome = true

theorem nameKind_plain (s : String) : nameKind s ≠ .number ∧ nameKind s ≠ .text := by
  unfold nameKind
  cases h : keywords.lookup s with
  | none => simp
  | some k =>
    obtain ⟨us, vs, hk, _⟩ := List.lookup_eq_some_iff.mp h
    have hall : ∀ p ∈ keywords, p.2 ≠ .number ∧ p.2 ≠ .text := by decide
    exact hall (s, k) (by rw [hk]; simp)

theorem Spelled.valued {t : Token} (h : Spelled t.kind t.source.toList t.literal) : t.Valued := by
  intro hk
  generalize t.kind = k at *
  generalize t.source.toList = cs at *
  generalize t.literal = value at *
  cases h with
  | mark h =>
    have hall : ∀ p ∈ marks, p.2 ≠ .number ∧ p.2 ≠ .text := by decide
    obtain ⟨hnumber, htext⟩ := hall _ h
    rcases hk with hk | hk
    · exact absurd hk hnumber
    · exact absurd hk htext
  | name _ _ =>
    rcases hk with hk | hk
    · exact absurd hk (nameKind_plain _).1
    · exact absurd hk (nameKind_plain _).2
  | whole _ _ | decimal _ _ _ _ | text _ => rfl

/-- Every literal on the tape has a value, and no objection so far says otherwise. -/
structure Tape.Valued (t : Tape) : Prop where
  rest : ∀ x ∈ t.rest, x.Valued
  stop : t.stop.Valued
  objections : ∀ o ∈ t.objections, o.complaint ≠ .literalWithoutValue

namespace Tape.Valued

variable {t : Tape}

theorem peek (h : t.Valued) : t.peek.Valued := by
  unfold Tape.peek
  cases hr : t.rest with
  | nil => exact h.stop
  | cons x xs => exact h.rest x (by simp [hr])

theorem skip (h : t.Valued) : t.skip.Valued := by
  unfold Tape.skip
  cases hr : t.rest with
  | nil => exact h
  | cons x xs => exact ⟨fun y hy => h.rest y (by simp [hr, hy]), h.stop, h.objections⟩

theorem object (h : t.Valued) (token : Token) {c : Complaint} (hc : c ≠ .literalWithoutValue) :
    (t.object token c).Valued :=
  ⟨h.rest, h.stop, List.forall_mem_cons.mpr ⟨hc, h.objections⟩⟩

theorem mem_landmark {x : Token} : ∀ {last : Token} {rest : List Token},
    x ∈ (Tape.landmark last rest).2 → x ∈ rest
  | _, [], h => h
  | last, token :: rest, h => by
    unfold Tape.landmark at h
    split at h
    · exact h
    · exact List.mem_cons_of_mem _ (mem_landmark h)

theorem recover (h : t.Valued) : t.recover.Valued := by
  unfold Tape.recover
  cases hr : t.rest with
  | nil => exact h
  | cons x xs =>
    exact ⟨fun y hy => h.rest y (by simp [hr, mem_landmark hy]), h.stop, h.objections⟩

end Tape.Valued

namespace Parse

variable {α β : Type}

/-- A parser that never objects to a literal without a value, as long as there is none. -/
def Tame (p : Parse α) : Prop := ∀ t, t.Valued → (p t).2.Valued

/-! ## Rules -/

theorem tame_pure (a : α) : Tame (pure a) := fun _ h => h

theorem Tame.bind {p : Parse α} {f : α → Parse β} (hp : Tame p) (hf : ∀ a, Tame (f a)) :
    Tame (p >>= f) := by
  intro t ht
  have h := hp t ht
  rcases hpt : p t with ⟨_ | a, t'⟩ <;> rw [hpt] at h
  · rw [bind_none hpt]
    exact h
  · rw [bind_some hpt]
    exact hf a t' h

theorem Tame.map {p : Parse α} (hp : Tame p) (g : α → β) : Tame (g <$> p) := by
  rw [← bind_pure_comp]
  exact hp.bind fun a => tame_pure (g a)

theorem Tame.ite {c : Prop} [Decidable c] {p q : Parse α} (hp : Tame p) (hq : Tame q) :
    Tame (if c then p else q) := by
  split
  · exact hp
  · exact hq

theorem tame_peek {f : Token → Parse α} (hf : ∀ token, token.Valued → Tame (f token)) :
    Tame (peek >>= f) := fun t ht => hf t.peek ht.peek t ht

theorem tame_last : Tame last := fun _ h => h

theorem tame_atEnd : Tame atEnd := fun _ h => h

theorem tame_loops : Tame loops := fun _ h => h

theorem tame_skip : Tame skip := fun _ h => h.skip

theorem tame_sees (k : Kind) : Tame (sees k) := fun _ h => h

theorem tame_acceptAny (ks : List Kind) : Tame (acceptAny ks) := by
  intro t ht
  cases hr : t.rest with
  | nil =>
    rw [acceptAny_nil hr]
    exact ht
  | cons x xs =>
    rw [acceptAny_cons hr]
    split
    · exact ht.skip
    · exact ht

theorem tame_accept (k : Kind) : Tame (accept k) := by
  intro t ht
  by_cases hk : Lacks k t.rest
  · rw [accept_lacks hk]
    exact ht
  · obtain ⟨x, xs, hr, hx⟩ := not_lacks hk
    rw [accept_cons hr hx]
    exact ht.skip

theorem Tame.withLoops {p : Parse α} (hp : Tame p) (change : Nat → Nat) :
    Tame (withLoops change p) := by
  intro t ht
  obtain ⟨hrest, hstop, hobjections⟩ :=
    hp { t with loops := change t.loops } ⟨ht.rest, ht.stop, ht.objections⟩
  exact ⟨hrest, hstop, hobjections⟩

section
variable {c : Complaint} (hc : c ≠ .literalWithoutValue)
include hc

theorem tame_object (token : Token) : Tame (object token c) := fun _ h => h.object token hc

theorem tame_refuse (token : Token) : Tame (refuse token c : Parse α) :=
  fun _ h => h.object token hc

theorem tame_refuseNext : Tame (refuseNext c : Parse α) := fun _ h => h.object _ hc

theorem tame_expect (k : Kind) : Tame (expect k c) := by
  intro t ht
  cases hr : t.rest with
  | nil =>
    rw [expect_nil hr]
    exact ht.object _ hc
  | cons x xs =>
    rw [expect_cons hr]
    split
    · exact ht.skip
    · exact ht.object _ hc

theorem tame_objectIf (p : Prop) [Decidable p] (token : Token) : Tame (objectIf p token c) :=
  (tame_object hc token).ite (tame_pure ())

end

theorem Tame.optionally {p : Parse α} (hp : Tame p) (k : Kind) : Tame (optionally k p) :=
  (tame_sees k).bind fun _ => (tame_pure none).ite (hp.map some)

/-! ## Expressions -/

theorem chain_tame {ops : List Kind} {operand : Parse Expr} (ho : Tame operand) :
    ∀ (n : Nat) (left : Expr), Tame (chain ops operand n left)
  | 0, left => tame_pure left
  | n + 1, left => by
    refine (tame_acceptAny ops).bind fun op => ?_
    cases op with
    | none => exact tame_pure left
    | some op => exact ho.bind fun right => chain_tame ho n _

theorem operation_tame (bound : Nat) {operand : Parse Expr} (ho : Tame operand) :
    ∀ levels : List (List Kind), Tame (operation bound operand levels)
  | [] => ho
  | _ :: tighter => by
    have htight := operation_tame bound ho tighter
    exact htight.bind fun left => chain_tame htight bound left

section
variable {argument : Parse Expr} (ha : Tame argument)
include ha

theorem moreArguments_tame : ∀ (n : Nat) (args : List Expr), Tame (moreArguments argument n args)
  | 0, args => tame_pure _
  | n + 1, args => by
    rw [moreArguments_succ]
    refine (tame_accept _).bind fun more => Tame.ite ?_ (tame_pure _)
    refine tame_peek fun next _ => (tame_objectIf (by simp) _ next).bind fun _ => ?_
    exact ha.bind fun e => moreArguments_tame n _

theorem arguments_tame (bound : Nat) : Tame (arguments bound argument) := by
  rw [arguments_eq]
  have hargs : Tame (do moreArguments argument bound [← argument]) :=
    ha.bind fun e => moreArguments_tame ha bound [e]
  exact (hargs.optionally _).bind fun args => tame_pure _

theorem calls_tame : ∀ (n : Nat) (callee : Expr), Tame (calls argument n callee)
  | 0, callee => tame_pure callee
  | n + 1, callee => by
    refine (tame_accept _).bind fun call => Tame.ite ?_ (tame_pure callee)
    refine (arguments_tame ha n).bind fun args => (tame_expect (by simp) _).bind fun paren => ?_
    exact calls_tame n _

end

theorem literal_tame {token : Token} (h : token.Valued)
    (hk : token.kind = .number ∨ token.kind = .text) :
    Tame (match token.literal with
      | some value => pure (Expr.constant value.toConstant)
      | none => refuse token .literalWithoutValue) := by
  obtain ⟨value, hv⟩ := Option.isSome_iff_exists.mp (h hk)
  rw [hv]
  exact tame_pure _

theorem primary_tame {inner : Parse Expr} (hi : Tame inner) : Tame (primary inner) := by
  refine tame_peek fun token htoken => ?_
  have hskip : ∀ e : Expr, Tame (do skip; pure e) := fun e => tame_skip.bind fun _ => tame_pure e
  split
  · exact hskip _
  · exact hskip _
  · exact hskip _
  · rename_i hk
    exact tame_skip.bind fun _ => literal_tame htoken (.inl hk)
  · rename_i hk
    exact tame_skip.bind fun _ => literal_tame htoken (.inr hk)
  · exact hskip _
  · refine tame_skip.bind fun _ => hi.bind fun e => (tame_expect (by simp) _).bind fun _ => ?_
    exact tame_pure _
  case h_8 | h_9 | h_10 => exact tame_skip.bind fun _ => tame_refuse (by simp) token
  · exact tame_refuse (by simp) token

theorem assignment_tame (target value : Expr) : Tame (assignment target value) := by
  unfold assignment
  split
  · exact tame_pure _
  · exact tame_last.bind fun token => (tame_object (by simp) token).bind fun _ => tame_pure target

mutual

theorem operand_tame : ∀ n, Tame (operand n)
  | 0 => by
    unfold operand
    exact tame_refuseNext (by simp)
  | n + 1 => by
    unfold operand
    refine (tame_acceptAny signs).bind fun op => ?_
    cases op with
    | some op => exact (operand_tame n).bind fun e => tame_pure _
    | none =>
      exact (primary_tame (expression_tame n)).bind fun e => calls_tame (expression_tame n) n e

theorem expression_tame : ∀ n, Tame (expression n)
  | 0 => by
    unfold expression
    exact tame_refuseNext (by simp)
  | n + 1 => by
    unfold expression
    refine (operation_tame n (operand_tame n) precedence).bind fun target => ?_
    refine (tame_accept _).bind fun assigns => Tame.ite ?_ (tame_pure target)
    exact (expression_tame n).bind fun value => assignment_tame target value

end

/-! ## Statements -/

theorem parameters_tame : ∀ (n : Nat) (params : List Token), Tame (parameters n params)
  | 0, _ => by
    unfold parameters
    exact tame_refuseNext (by simp)
  | n + 1, params => by
    rw [parameters_succ]
    refine tame_peek fun next _ => (tame_objectIf (by simp) _ next).bind fun _ => ?_
    refine (tame_expect (by simp) _).bind fun param => (tame_objectIf (by simp) _ param).bind ?_
    intro _
    exact (tame_accept _).bind fun more => (parameters_tame n _).ite (tame_pure _)

theorem functionDeclaration_tame (bound : Nat) {block : Parse (List Stmt)} (hb : Tame block) :
    Tame (functionDeclaration bound block) := by
  rw [functionDeclaration_eq]
  refine (tame_expect (by simp) _).bind fun name => (tame_expect (by simp) _).bind fun _ => ?_
  refine ((parameters_tame bound []).optionally _).bind fun params => ?_
  refine (tame_expect (by simp) _).bind fun _ => (tame_expect (by simp) _).bind fun _ => ?_
  exact (hb.withLoops _).bind fun body => tame_pure _

theorem loopControl_tame (keyword : Token) : Tame (loopControl keyword) := by
  rw [loopControl_eq]
  refine tame_loops.bind fun n => (tame_objectIf (by simp) _ keyword).bind fun _ => ?_
  exact (tame_expect (by simp) _).bind fun _ => tame_pure _

section
variable {expr : Parse Expr} (he : Tame expr)
include he

theorem variableDeclaration_tame : Tame (variableDeclaration expr) := by
  rw [variableDeclaration_eq]
  have hvalue : Tame (initialiser expr) :=
    (tame_accept _).bind fun _ => (he.map some).ite (tame_pure none)
  refine (tame_expect (by simp) _).bind fun name => hvalue.bind fun value => ?_
  exact (tame_expect (by simp) _).bind fun _ => tame_pure _

theorem expressionStatement_tame : Tame (expressionStatement expr) :=
  he.bind fun e => (tame_expect (by simp) _).bind fun _ => tame_pure _

theorem returnStatement_tame (keyword : Token) : Tame (returnStatement expr keyword) := by
  rw [returnStatement_eq]
  exact (he.optionally _).bind fun value => (tame_expect (by simp) _).bind fun _ => tame_pure _

theorem firstClause_tame : Tame (firstClause expr) := by
  refine (tame_accept _).bind fun _ => (tame_pure none).ite ?_
  refine (tame_accept _).bind fun _ => Tame.ite ?_ ?_
  · exact (variableDeclaration_tame he).map some
  · exact (expressionStatement_tame he).map some

variable {stmt : Parse Stmt} (hs : Tame stmt)
include hs

theorem forStatement_tame : Tame (forStatement expr stmt) := by
  rw [forStatement_eq]
  refine (tame_expect (by simp) _).bind fun _ => (firstClause_tame he).bind fun first => ?_
  refine (he.optionally _).bind fun c => (tame_expect (by simp) _).bind fun _ => ?_
  refine (he.optionally _).bind fun i => (tame_expect (by simp) _).bind fun _ => ?_
  exact (hs.withLoops _).bind fun body => tame_pure _

theorem whileStatement_tame : Tame (whileStatement expr stmt) := by
  refine (tame_expect (by simp) _).bind fun _ => he.bind fun c => ?_
  refine (tame_expect (by simp) _).bind fun _ => (hs.withLoops _).bind fun body => ?_
  exact tame_pure _

theorem ifStatement_tame : Tame (ifStatement expr stmt) := by
  refine (tame_expect (by simp) _).bind fun _ => he.bind fun c => ?_
  refine (tame_expect (by simp) _).bind fun _ => hs.bind fun body => ?_
  refine (tame_accept _).bind fun _ => Tame.ite ?_ (tame_pure _)
  exact hs.bind fun otherwise => tame_pure _

end

theorem declared_tame {declaration : Parse Stmt} (hd : Tame declaration) (closing : Option Kind) :
    ∀ (n : Nat) (body : List Stmt), Tame (declared declaration closing n body)
  | 0, _ => tame_pure _
  | n + 1, body => by
    intro t ht
    unfold declared declarations
    split
    · exact ht
    · have h := hd t ht
      rcases hdt : declaration t with ⟨_ | s, t'⟩ <;> rw [hdt] at h
      · exact declared_tame hd closing n body _ h.recover
      · exact declared_tame hd closing n (s :: body) _ h

mutual

theorem declaration_tame : ∀ n, Tame (declaration n)
  | 0 => by
    unfold declaration
    exact tame_refuseNext (by simp)
  | n + 1 => by
    unfold declaration
    refine tame_peek fun token _ => ?_
    split
    · exact tame_skip.bind fun _ => functionDeclaration_tame n (block_tame n)
    · exact tame_skip.bind fun _ => variableDeclaration_tame (expression_tame n)
    · exact statement_tame n

theorem statement_tame : ∀ n, Tame (statement n)
  | 0 => by
    unfold statement
    exact tame_refuseNext (by simp)
  | n + 1 => by
    unfold statement
    have he := expression_tame n
    have hs := statement_tame n
    refine tame_peek fun token _ => ?_
    split
    · exact tame_skip.bind fun _ => returnStatement_tame he token
    · exact tame_skip.bind fun _ => forStatement_tame he hs
    · exact tame_skip.bind fun _ => whileStatement_tame he hs
    · exact tame_skip.bind fun _ => loopControl_tame token
    · exact tame_skip.bind fun _ => loopControl_tame token
    · exact tame_skip.bind fun _ => ifStatement_tame he hs
    · exact tame_skip.bind fun _ => (block_tame n).map Stmt.block
    · exact expressionStatement_tame he

theorem block_tame : ∀ n, Tame (block n)
  | 0 => by
    unfold block
    exact tame_refuseNext (by simp)
  | n + 1 => by
    rw [block_succ]
    refine (declared_tame (declaration_tame n) _ n []).bind fun body => ?_
    exact (tame_expect (by simp) _).bind fun _ => tame_pure body

end

theorem expressionItem_tame (n : Nat) : Tame (expressionItem n) := by
  refine (expression_tame n).bind fun e => tame_atEnd.bind fun whole => (tame_pure _).ite ?_
  exact (tame_expect (by simp) _).bind fun _ => tame_pure _

end Parse

/-! ## Texts -/

namespace Scanned

theorem ofText_valued (s : String) : (Tape.ofTokens (ofText s).tokens).Valued := by
  obtain ⟨ts, hts, hwords⟩ := ofText_spelled s
  have hfinish : ∀ t ∈ ts, t.isFinish = false := by
    intro t ht
    simpa [Token.isFinish] using (hwords t ht).ne_finish
  rw [hts, Tape.ofTokens_append hfinish rfl]
  refine ⟨fun t ht => (hwords t ht).valued, ?_, by simp⟩
  rintro (⟨⟨⟩⟩ | ⟨⟨⟩⟩)

end Scanned

theorem Tape.Valued.finish {t : Tape} (h : t.Valued) (n : Nat) (body : List Stmt) :
    ∀ o ∈ (t.finish n body).objections, o.complaint ≠ .literalWithoutValue := by
  intro o ho
  have hread := Parse.declared_tame (Parse.declaration_tame n) none n body t h
  exact hread.objections o (List.mem_reverse.mp ho)

theorem parseProgram_valued (s : String) :
    ∀ o ∈ (parseProgram (Scanned.ofText s).tokens).objections,
      o.complaint ≠ .literalWithoutValue := by
  rw [parseProgram_eq]
  exact (Scanned.ofText_valued s).finish _ []

theorem parseLine_valued (s : String) :
    ∀ o ∈ (parseLine (Scanned.ofText s).tokens).objections, o.complaint ≠ .literalWithoutValue := by
  obtain ⟨t, ht, hline⟩ := parseLine_cases (Scanned.ofText s).tokens
  have hvalued : t.Valued := ht ▸ Scanned.ofText_valued s
  rcases hline with hline | ⟨r, t', hitem, hline⟩
  · rw [hline]
    exact hvalued.finish t.nesting []
  · have hread := Parse.expressionItem_tame t.nesting t hvalued
    rw [hitem] at hread
    rcases hline with ⟨_, hline⟩ | ⟨e, ⟨_, hline⟩ | ⟨_, hline⟩⟩ <;> rw [hline]
    · exact hread.recover.finish t.nesting []
    · intro o ho
      exact hread.objections o (List.mem_reverse.mp ho)
    · exact hread.finish t.nesting [.expr e]

end Script
