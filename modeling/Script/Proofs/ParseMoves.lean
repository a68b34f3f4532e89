import Script.Proofs.ParseLemmas

/-!
# Where parsers leave the tape

Whatever a parser comes to, it has taken tokens off the front of the tape and added objections, and
it is inside of as many loops as before. A parser of an expression, a statement or a declaration that
does not give up has taken at least one token.
-/

namespace Script

/-- What reading leads to: some tokens less, the last of which was read last, and some objections
more. -/
structure Tape.Leads (t u : Tape) : Prop where
  read : ∃ us, t.rest = us ++ u.rest ∧ u.last = us.getLast?.getD t.last
  stop : u.stop = t.stop
  loops : u.loops = t.loops
  objections : t.objections <:+ u.objections

namespace Tape.Leads

variable {t u v : Tape}

theorem rest (h : t.Leads u) : u.rest <:+ t.rest := by
  obtain ⟨us, hus, _⟩ := h.read
  exact ⟨us, hus.symm⟩

theorem refl (t : Tape) : t.Leads t := ⟨⟨[], rfl, rfl⟩, rfl, rfl, List.suffix_rfl⟩

theorem trans (h : t.Leads u) (h' : u.Leads v) : t.Leads v where
  read := by
    obtain ⟨us, hus, hlast⟩ := h.read
    obtain ⟨vs, hvs, hlast'⟩ := h'.read
    refine ⟨us ++ vs, by rw [hus, hvs, List.append_assoc], ?_⟩
    rw [hlast', hlast, List.getLast?_append, Option.getD_or]
  stop := h'.stop.trans h.stop
  loops := h'.loops.trans h.loops
  objections := h.objections.trans h'.objections

theorem skip (t : Tape) : t.Leads t.skip := by
  unfold Tape.skip
  split
  · exact .refl t
  · rename_i token rest hrest
    exact ⟨⟨[token], hrest, rfl⟩, rfl, rfl, List.suffix_rfl⟩

theorem object (t : Tape) (token : Token) (c : Complaint) : t.Leads (t.object token c) :=
  ⟨⟨[], rfl, rfl⟩, rfl, rfl, List.suffix_cons _ _⟩

theorem landmark_read : ∀ (last : Token) (rest : List Token),
    ∃ us, rest = us ++ (Tape.landmark last rest).2 ∧
      (Tape.landmark last rest).1 = us.getLast?.getD last
  | _, [] => ⟨[], rfl, rfl⟩
  | last, token :: rest => by
    unfold Tape.landmark
    split
    · exact ⟨[], rfl, rfl⟩
    · obtain ⟨us, hus, hlast⟩ := landmark_read token rest
      refine ⟨token :: us, congrArg (token :: ·) hus, ?_⟩
      rw [hlast, List.getLast?_cons, Option.getD_some]

theorem recover (t : Tape) : t.Leads t.recover := by
  unfold Tape.recover
  split
  · exact .refl t
  · rename_i token rest hrest
    obtain ⟨us, hus, hlast⟩ := landmark_read token rest
    refine ⟨⟨token :: us, ?_, ?_⟩, rfl, rfl, List.suffix_rfl⟩
    · rw [hrest]
      exact congrArg (token :: ·) hus
    · rw [List.getLast?_cons, Option.getD_some]
      exact hlast

theorem length_le (h : t.Leads u) : u.rest.length ≤ t.rest.length := h.rest.length_le

end Tape.Leads

theorem Tape.length_skip {t : Tape} (h : t.rest ≠ []) : t.skip.rest.length < t.rest.length := by
  unfold Tape.skip
  cases hrest : t.rest with
  | nil => exact absurd hrest h
  | cons x xs => exact Nat.lt_succ_self _

/-- Giving up and recovering leaves fewer tokens than there were. -/
theorem Tape.Leads.length_recover {t u : Tape} (h : t.Leads u) (hrest : t.rest ≠ []) :
    u.recover.rest.length < t.rest.length := by
  have hle := h.length_le
  unfold Tape.recover
  cases hu : u.rest with
  | nil =>
    rw [hu]
    exact List.length_pos_iff.mpr hrest
  | cons x xs =>
    obtain ⟨us, hus, _⟩ := Tape.Leads.landmark_read x xs
    have hxs : (Tape.landmark x xs).2 <:+ xs := ⟨us, hus.symm⟩
    replace hxs := hxs.length_le
    rw [hu, List.length_cons] at hle
    exact Nat.lt_of_lt_of_le (Nat.lt_succ_of_le hxs) hle

namespace Parse

variable {α β : Type}

/-- A parser that leads from one tape to another. -/
def Moves (p : Parse α) : Prop := ∀ t : Tape, t.Leads (p t).2

/-! ## Rules -/

theorem moves_pure (a : α) : Moves (pure a) := fun t => .refl t

theorem Moves.bind {p : Parse α} {f : α → Parse β} (hp : Moves p) (hf : ∀ a, Moves (f a)) :
    Moves (p >>= f) := by
  intro t
  have h := hp t
  rcases hpt : p t with ⟨_ | a, u⟩ <;> rw [hpt] at h
  · rw [bind_none hpt]
    exact h
  · rw [bind_some hpt]
    exact h.trans (hf a u)

theorem Moves.map {p : Parse α} (hp : Moves p) (g : α → β) : Moves (g <$> p) := by
  rw [← bind_pure_comp]
  exact hp.bind fun a => moves_pure (g a)

theorem Moves.ite {c : Prop} [Decidable c] {p q : Parse α} (hp : Moves p) (hq : Moves q) :
    Moves (if c then p else q) := by
  split
  · exact hp
  · exact hq

theorem moves_peek : Moves peek := fun t => .refl t

theorem moves_last : Moves last := fun t => .refl t

theorem moves_atEnd : Moves atEnd := fun t => .refl t

theorem moves_loops : Moves loops := fun t => .refl t

theorem moves_sees (k : Kind) : Moves (sees k) := fun t => .refl t

theorem moves_skip : Moves skip := fun t => .skip t

theorem moves_object (token : Token) (c : Complaint) : Moves (object token c) :=
  fun t => .object t token c

theorem moves_refuse (token : Token) (c : Complaint) : Moves (refuse token c : Parse α) :=
  fun t => .object t token c

theorem moves_refuseNext (c : Complaint) : Moves (refuseNext c : Parse α) :=
  fun t => .object t _ c

theorem moves_objectIf (c : Prop) [Decidable c] (token : Token) (complaint : Complaint) :
    Moves (objectIf c token complaint) :=
  (moves_object token complaint).ite (moves_pure ())

theorem moves_acceptAny (ks : List Kind) : Moves (acceptAny ks) := by
  intro t
  cases hrest : t.rest with
  | nil =>
    rw [acceptAny_nil hrest]
    exact .refl t
  | cons x xs =>
    rw [acceptAny_cons hrest]
    split
    · exact .skip t
    · exact .refl t

theorem moves_accept (k : Kind) : Moves (accept k) := by
  intro t
  by_cases hk : Lacks k t.rest
  · rw [accept_lacks hk]
    exact .refl t
  · obtain ⟨x, xs, hrest, hx⟩ := not_lacks hk
    rw [accept_cons hrest hx]
    exact .skip t

theorem moves_expect (k : Kind) (c : Complaint) : Moves (expect k c) := by
  intro t
  cases hrest : t.rest with
  | nil =>
    rw [expect_nil hrest]
    exact .object t _ c
  | cons x xs =>
    rw [expect_cons hrest]
    split
    · exact .skip t
    · exact .object t x c

theorem Moves.withLoops {p : Parse α} (hp : Moves p) (change : Nat → Nat) :
    Moves (withLoops change p) := by
  intro t
  have h := hp { t with loops := change t.loops }
  exact ⟨h.read, h.stop, rfl, h.objections⟩

theorem Moves.optionally {p : Parse α} (hp : Moves p) (k : Kind) : Moves (optionally k p) :=
  (moves_sees k).bind fun _ => (moves_pure none).ite (hp.map some)

/-! ## Expressions -/

theorem chain_moves {ops : List Kind} {operand : Parse Expr} (ho : Moves operand) :
    ∀ (n : Nat) (left : Expr), Moves (chain ops operand n left)
  | 0, left => moves_pure left
  | n + 1, left => by
    refine (moves_acceptAny ops).bind fun op => ?_
    cases op with
    | none => exact moves_pure left
    | some op => exact ho.bind fun right => chain_moves ho n _

theorem operation_moves (bound : Nat) {operand : Parse Expr} (ho : Moves operand) :
    ∀ levels : List (List Kind), Moves (operation bound operand levels)
  | [] => ho
  | _ :: tighter => by
    have htight := operation_moves bound ho tighter
    exact htight.bind fun left => chain_moves htight bound left

section
variable {argument : Parse Expr} (ha : Moves argument)
include ha

theorem moreArguments_moves : ∀ (n : Nat) (args : List Expr), Moves (moreArguments argument n args)
  | 0, args => moves_pure _
  | n + 1, args => by
    rw [moreArguments_succ]
    refine (moves_accept _).bind fun _ => Moves.ite ?_ (moves_pure _)
    refine moves_peek.bind fun next => (moves_objectIf _ next _).bind fun _ => ?_
    exact ha.bind fun e => moreArguments_moves n _

theorem arguments_moves (bound : Nat) : Moves (arguments bound argument) := by
  rw [arguments_eq]
  have hargs : Moves (do moreArguments argument bound [← argument]) :=
    ha.bind fun e => moreArguments_moves ha bound [e]
  exact (hargs.optionally _).bind fun args => moves_pure _

theorem calls_moves : ∀ (n : Nat) (callee : Expr), Moves (calls argument n callee)
  | 0, callee => moves_pure callee
  | n + 1, callee => by
    refine (moves_accept _).bind fun _ => Moves.ite ?_ (moves_pure callee)
    refine (arguments_moves ha n).bind fun args => (moves_expect _ _).bind fun paren => ?_
    exact calls_moves n _

end

theorem literal_moves (token : Token) :
    Moves (match token.literal with
      | some value => pure (Expr.constant value.toConstant)
      | none => refuse token .literalWithoutValue) := by
  split
  · exact moves_pure _
  · exact moves_refuse _ _

theorem primary_moves {inner : Parse Expr} (hi : Moves inner) : Moves (primary inner) := by
  refine moves_peek.bind fun token => ?_
  have hskip : ∀ e : Expr, Moves (do skip; pure e) := fun e => moves_skip.bind fun _ => moves_pure e
  split
  · exact hskip _
  · exact hskip _
  · exact hskip _
  · exact moves_skip.bind fun _ => literal_moves token
  · exact moves_skip.bind fun _ => literal_moves token
  · exact hskip _
  · refine moves_skip.bind fun _ => hi.bind fun e => (moves_expect _ _).bind fun _ => ?_
    exact moves_pure _
  case h_8 | h_9 | h_10 => exact moves_skip.bind fun _ => moves_refuse token _
  · exact moves_refuse token _

theorem assignment_moves (target value : Expr) : Moves (assignment target value) := by
  unfold assignment
  split
  · exact moves_pure _
  · exact moves_last.bind fun token => (moves_object token _).bind fun _ => moves_pure target

mutual

theorem operand_moves : ∀ n, Moves (operand n)
  | 0 => by
    unfold operand
    exact moves_refuseNext _
  | n + 1 => by
    unfold operand
    refine (moves_acceptAny signs).bind fun op => ?_
    cases op with
    | some op => exact (operand_moves n).bind fun e => moves_pure _
    | none =>
      exact (primary_moves (expression_moves n)).bind fun e => calls_moves (expression_moves n) n e

theorem expression_moves : ∀ n, Moves (expression n)
  | 0 => by
    unfold expression
    exact moves_refuseNext _
  | n + 1 => by
    unfold expression
    refine (operation_moves n (operand_moves n) precedence).bind fun target => ?_
    refine (moves_accept _).bind fun _ => Moves.ite ?_ (moves_pure target)
    exact (expression_moves n).bind fun value => assignment_moves target value

end

/-! ## Statements -/

theorem parameters_moves : ∀ (n : Nat) (params : List Token), Moves (parameters n params)
  | 0, _ => by
    unfold parameters
    exact moves_refuseNext _
  | n + 1, params => by
    rw [parameters_succ]
    refine moves_peek.bind fun next => (moves_objectIf _ next _).bind fun _ => ?_
    refine (moves_expect _ _).bind fun param => (moves_objectIf _ param _).bind fun _ => ?_
    exact (moves_accept _).bind fun _ => (parameters_moves n _).ite (moves_pure _)

theorem functionDeclaration_moves (bound : Nat) {block : Parse (List Stmt)} (hb : Moves block) :
    Moves (functionDeclaration bound block) := by
  rw [functionDeclaration_eq]
  refine (moves_expect _ _).bind fun name => (moves_expect _ _).bind fun _ => ?_
  refine ((parameters_moves bound []).optionally _).bind fun params => ?_
  refine (moves_expect _ _).bind fun _ => (moves_expect _ _).bind fun _ => ?_
  exact (hb.withLoops _).bind fun body => moves_pure _

theorem loopControl_moves (keyword : Token) : Moves (loopControl keyword) := by
  rw [loopControl_eq]
  refine moves_loops.bind fun n => (moves_objectIf _ keyword _).bind fun _ => ?_
  exact (moves_expect _ _).bind fun _ => moves_pure _

section
variable {expr : Parse Expr} (he : Moves expr)
include he

theorem variableDeclaration_moves : Moves (variableDeclaration expr) := by
  rw [variableDeclaration_eq]
  have hvalue : Moves (initialiser expr) :=
    (moves_accept _).bind fun _ => (he.map some).ite (moves_pure none)
  refine (moves_expect _ _).bind fun name => hvalue.bind fun value => ?_
  exact (moves_expect _ _).bind fun _ => moves_pure _

theorem expressionStatement_moves : Moves (expressionStatement expr) :=
  he.bind fun _ => (moves_expect _ _).bind fun _ => moves_pure _

theorem returnStatement_moves (keyword : Token) : Moves (returnStatement expr keyword) := by
  rw [returnStatement_eq]
  exact (he.optionally _).bind fun value => (moves_expect _ _).bind fun _ => moves_pure _

theorem firstClause_moves : Moves (firstClause expr) := by
  refine (moves_accept _).bind fun _ => (moves_pure none).ite ?_
  refine (moves_accept _).bind fun _ => Moves.ite ?_ ?_
  · exact (variableDeclaration_moves he).map some
  · exact (expressionStatement_moves he).map some

variable {stmt : Parse Stmt} (hs : Moves stmt)
include hs

theorem forStatement_moves : Moves (forStatement expr stmt) := by
  rw [forStatement_eq]
  refine (moves_expect _ _).bind fun _ => (firstClause_moves he).bind fun first => ?_
  refine (he.optionally _).bind fun c => (moves_expect _ _).bind fun _ => ?_
  refine (he.optionally _).bind fun i => (moves_expect _ _).bind fun _ => ?_
  exact (hs.withLoops _).bind fun body => moves_pure _

theorem whileStatement_moves : Moves (whileStatement expr stmt) := by
  refine (moves_expect _ _).bind fun _ => he.bind fun c => ?_
  refine (moves_expect _ _).bind fun _ => (hs.withLoops _).bind fun body => ?_
  exact moves_pure _

theorem ifStatement_moves : Moves (ifStatement expr stmt) := by
  refine (moves_expect _ _).bind fun _ => he.bind fun c => ?_
  refine (moves_expect _ _).bind fun _ => hs.bind fun body => ?_
  refine (moves_accept _).bind fun _ => Moves.ite ?_ (moves_pure _)
  exact hs.bind fun otherwise => moves_pure _

end

theorem declared_moves {declaration : Parse Stmt} (hd : Moves declaration) (closing : Option Kind) :
    ∀ (n : Nat) (body : List Stmt), Moves (declared declaration closing n body)
  | 0, _ => moves_pure _
  | n + 1, body => by
    intro t
    unfold declared declarations
    split
    · exact .refl t
    · have h := hd t
      rcases hdt : declaration t with ⟨_ | s, u⟩ <;> rw [hdt] at h
      · exact (h.trans (.recover u)).trans (declared_moves hd closing n body _)
      · exact h.trans (declared_moves hd closing n (s :: body) u)

mutual

theorem declaration_moves : ∀ n, Moves (declaration n)
  | 0 => by
    unfold declaration
    exact moves_refuseNext _
  | n + 1 => by
    unfold declaration
    refine moves_peek.bind fun token => ?_
    split
    · exact moves_skip.bind fun _ => functionDeclaration_moves n (block_moves n)
    · exact moves_skip.bind fun _ => variableDeclaration_moves (expression_moves n)
    · exact statement_moves n

theorem statement_moves : ∀ n, Moves (statement n)
  | 0 => by
    unfold statement
    exact moves_refuseNext _
  | n + 1 => by
    unfold statement
    have he := expression_moves n
    have hs := statement_moves n
    refine moves_peek.bind fun token => ?_
    split
    · exact moves_skip.bind fun _ => returnStatement_moves he token
    · exact moves_skip.bind fun _ => forStatement_moves he hs
    · exact moves_skip.bind fun _ => whileStatement_moves he hs
    · exact moves_skip.bind fun _ => loopControl_moves token
    · exact moves_skip.bind fun _ => loopControl_moves token
    · exact moves_skip.bind fun _ => ifStatement_moves he hs
    · exact moves_skip.bind fun _ => (block_moves n).map Stmt.block
    · exact expressionStatement_moves he

theorem block_moves : ∀ n, Moves (block n)
  | 0 => by
    unfold block
    exact moves_refuseNext _
  | n + 1 => by
    rw [block_succ]
    refine (declared_moves (declaration_moves n) _ n []).bind fun body => ?_
    exact (moves_expect _ _).bind fun _ => moves_pure body

end

/-! ## Progress -/

/-- On the tapes in `S`, nothing comes of the parser unless it takes a token. -/
def Takes (S : Tape → Prop) (p : Parse α) : Prop :=
  ∀ t a, S t → (p t).1 = some a → (p t).2.rest.length < t.rest.length

/-- The token behind the others ends the text. -/
def Ended (t : Tape) : Prop := t.stop.kind = .finish

/-- The tapes on which `token` may come next: if it does not end the text, there is a next one. -/
def Faces (token : Token) (t : Tape) : Prop := Ended t ∧ (token.kind ≠ .finish → t.rest ≠ [])

theorem faces_peek {t : Tape} (h : Ended t) : Faces t.peek t := by
  refine ⟨h, fun hk hrest => hk ?_⟩
  rw [Tape.peek, hrest]
  exact h

section
variable {p : Parse α} {f : α → Parse β} {S : Tape → Prop}

theorem Takes.bind (hp : Takes S p) (hf : ∀ a, Moves (f a)) : Takes S (p >>= f) := by
  intro t b hS hb
  have h := hp t
  rcases hpt : p t with ⟨_ | a, u⟩ <;> rw [hpt] at h
  · rw [bind_none hpt] at hb
    cases hb
  · rw [bind_some hpt]
    exact Nat.lt_of_le_of_lt (hf a u).length_le (h a hS rfl)

theorem Moves.bind_takes (hp : Moves p) (hf : ∀ a, Takes Ended (f a)) : Takes Ended (p >>= f) := by
  intro t b hS hb
  have h := hp t
  rcases hpt : p t with ⟨_ | a, u⟩ <;> rw [hpt] at h
  · rw [bind_none hpt] at hb
    cases hb
  · rw [bind_some hpt] at hb ⊢
    have hu : Ended u := (congrArg Token.kind h.stop).trans hS
    exact Nat.lt_of_lt_of_le (hf a u b hu hb) h.length_le

theorem Takes.rest {t u : Tape} {a : α} (hp : Takes S p) (ht : S t) (h : p t = (some a, u)) :
    t.rest ≠ [] := by
  intro hnil
  have hlt := hp t a ht (by rw [h])
  rw [hnil] at hlt
  exact absurd hlt (Nat.not_lt_zero _)

theorem Takes.facing (hp : Takes Ended p) (token : Token) : Takes (Faces token) p :=
  fun t a h => hp t a h.1

theorem takes_refuse (token : Token) (c : Complaint) : Takes S (refuse token c : Parse α) :=
  fun _ _ _ h => nomatch h

theorem takes_refuseNext (c : Complaint) : Takes S (refuseNext c : Parse α) :=
  fun _ _ _ h => nomatch h

theorem takes_peek {f : Token → Parse α} (hf : ∀ token, Takes (Faces token) (f token)) :
    Takes Ended (peek >>= f) :=
  fun t a h => hf t.peek t a (faces_peek h)

theorem takes_skip {token : Token} {k : Kind} (hk : token.kind = k) (hne : k ≠ .finish)
    (hp : Moves p) : Takes (Faces token) (skip >>= fun _ => p) := by
  intro t a h _
  have hrest := h.2 (by rwa [hk])
  exact Nat.lt_of_le_of_lt (hp t.skip).length_le (Tape.length_skip hrest)

theorem takes_expect (k : Kind) (c : Complaint) : Takes S (expect k c) := by
  intro t a _ h
  cases hrest : t.rest with
  | nil =>
    rw [expect_nil hrest] at h
    cases h
  | cons x xs =>
    rw [expect_cons hrest] at h ⊢
    by_cases hx : x.kind = k
    · rw [if_pos hx, ← hrest]
      exact Tape.length_skip (by simp [hrest])
    · rw [if_neg hx] at h
      cases h

end

theorem primary_takes {inner : Parse Expr} (hi : Moves inner) : Takes Ended (primary inner) := by
  refine takes_peek fun token => ?_
  split
  case h_1 hk | h_2 hk | h_3 hk | h_6 hk => exact takes_skip hk (by decide) (moves_pure _)
  case h_4 hk | h_5 hk => exact takes_skip hk (by decide) (literal_moves token)
  case h_7 hk =>
    refine takes_skip hk (by decide) (hi.bind fun e => (moves_expect _ _).bind fun _ => ?_)
    exact moves_pure _
  case h_8 hk | h_9 hk | h_10 hk => exact takes_skip hk (by decide) (moves_refuse token _)
  · exact takes_refuse token _

theorem operation_takes (bound : Nat) {operand : Parse Expr} (hm : Moves operand)
    (ho : Takes Ended operand) :
    ∀ levels : List (List Kind), Takes Ended (operation bound operand levels)
  | [] => ho
  | _ :: tighter =>
    (operation_takes bound hm ho tighter).bind fun left =>
      chain_moves (operation_moves bound hm tighter) bound left

theorem operand_takes : ∀ n, Takes Ended (operand n)
  | 0 => by
    unfold operand
    exact takes_refuseNext _
  | n + 1 => by
    unfold operand
    refine (moves_acceptAny signs).bind_takes fun op => ?_
    cases op with
    | some op => exact (operand_takes n).bind fun e => moves_pure _
    | none =>
      refine (primary_takes (expression_moves n)).bind fun e => ?_
      exact calls_moves (expression_moves n) n e

theorem expression_takes (n : Nat) : Takes Ended (expression n) := by
  cases n with
  | zero =>
    unfold expression
    exact takes_refuseNext _
  | succ n =>
    unfold expression
    refine (operation_takes n (operand_moves n) (operand_takes n) precedence).bind fun target => ?_
    refine (moves_accept _).bind fun _ => Moves.ite ?_ (moves_pure target)
    exact (expression_moves n).bind fun value => assignment_moves target value

theorem statement_takes (n : Nat) : Takes Ended (statement n) := by
  cases n with
  | zero =>
    unfold statement
    exact takes_refuseNext _
  | succ n =>
    unfold statement
    have he := expression_moves n
    have hs := statement_moves n
    refine takes_peek fun token => ?_
    split
    case h_1 hk => exact takes_skip hk (by decide) (returnStatement_moves he token)
    case h_2 hk => exact takes_skip hk (by decide) (forStatement_moves he hs)
    case h_3 hk => exact takes_skip hk (by decide) (whileStatement_moves he hs)
    case h_4 hk | h_5 hk => exact takes_skip hk (by decide) (loopControl_moves token)
    case h_6 hk => exact takes_skip hk (by decide) (ifStatement_moves he hs)
    case h_7 hk => exact takes_skip hk (by decide) ((block_moves n).map Stmt.block)
    · refine Takes.facing ?_ token
      exact (expression_takes n).bind fun _ => (moves_expect _ _).bind fun _ => moves_pure _

theorem declaration_takes (n : Nat) : Takes Ended (declaration n) := by
  cases n with
  | zero =>
    unfold declaration
    exact takes_refuseNext _
  | succ n =>
    unfold declaration
    refine takes_peek fun token => ?_
    split
    case h_1 hk => exact takes_skip hk (by decide) (functionDeclaration_moves n (block_moves n))
    case h_2 hk => exact takes_skip hk (by decide) (variableDeclaration_moves (expression_moves n))
    · exact (statement_takes n).facing token

/-! ## Lines -/

theorem expressionItem_moves (n : Nat) : Moves (expressionItem n) := by
  refine (expression_moves n).bind fun e => moves_atEnd.bind fun _ => (moves_pure _).ite ?_
  exact (moves_expect _ _).bind fun _ => moves_pure _

theorem expressionItem_takes (n : Nat) : Takes Ended (expressionItem n) := by
  refine (expression_takes n).bind fun e => moves_atEnd.bind fun _ => (moves_pure _).ite ?_
  exact (moves_expect _ _).bind fun _ => moves_pure _

/-- An expression at the start of a line: it is all there is, or it is read, or given up on, as a
statement. -/
theorem expressionItem_cases {n : Nat} {t u : Tape} {r : Option (Expr × Bool)}
    (h : expressionItem n t = (r, u)) :
    (∃ e, r = some (e, true) ∧ expression n t = (some e, u) ∧ u.rest = []) ∨
      (∃ e, r = some (e, false) ∧
        expressionStatement (expression n) t = (some (.expr e), u)) ∨
      r = none ∧ expressionStatement (expression n) t = (none, u) := by
  unfold expressionItem at h
  unfold expressionStatement
  rcases he : expression n t with ⟨_ | e, v⟩
  · rw [bind_none he] at h ⊢
    cases h
    exact .inr (.inr ⟨rfl, rfl⟩)
  · rw [bind_some he] at h ⊢
    cases hend : v.atEnd with
    | true =>
      have hatEnd : atEnd v = (some true, v) := congrArg (fun b => (some b, v)) hend
      rw [bind_some hatEnd] at h
      cases h
      exact .inl ⟨e, rfl, rfl, by simpa [Tape.atEnd] using hend⟩
    | false =>
      have hatEnd : atEnd v = (some false, v) := congrArg (fun b => (some b, v)) hend
      rw [bind_some hatEnd] at h
      rcases hs : expect .semicolon .expectedSemicolonAfterExpression v with ⟨_ | semi, w⟩
      · rw [bind_none hs]
        change (expect _ _ >>= _) v = _ at h
        rw [bind_none hs] at h
        cases h
        exact .inr (.inr ⟨rfl, rfl⟩)
      · rw [bind_some hs]
        change (expect _ _ >>= _) v = _ at h
        rw [bind_some hs] at h
        cases h
        exact .inr (.inl ⟨e, rfl, rfl⟩)

/-! ## Attempts -/

/-- Reads what `p` reads; where that cannot be done, reading is to go on from the next landmark. -/
def attempt (p : Parse α) (t : Tape) : Option α × Tape :=
  match p t with
  | (some a, u) => (some a, u)
  | (none, u) => (none, u.recover)

theorem declarations_succ (declaration : Parse Stmt) (closing : Option Kind) (n : Nat)
    (body : List Stmt) (t : Tape) :
    declarations declaration closing (n + 1) body t =
      if t.atEnd || closing == some t.peek.kind then (body.reverse, t)
      else declarations declaration closing n ((attempt declaration t).1.toList ++ body)
        (attempt declaration t).2 := by
  rw [declarations, attempt]
  rcases declaration t with ⟨_ | s, u⟩ <;> rfl

section
variable {p : Parse α} (hp : Moves p)
include hp

theorem attempt_leads (t : Tape) : t.Leads (attempt p t).2 := by
  have h := hp t
  unfold attempt
  rcases hpt : p t with ⟨_ | a, u⟩ <;> rw [hpt] at h
  · exact h.trans (.recover u)
  · exact h

/-- An attempt takes a token whether it fails or not. -/
theorem attempt_length (htakes : Takes Ended p) {t : Tape} (ht : Ended t) (hrest : t.rest ≠ []) :
    (attempt p t).2.rest.length < t.rest.length := by
  have h := hp t
  have hlt := htakes t
  unfold attempt
  rcases hpt : p t with ⟨_ | a, u⟩ <;> rw [hpt] at h hlt
  · exact h.length_recover hrest
  · exact hlt a ht rfl

end

/-- With nothing to stop before, all tokens are read. -/
theorem declarations_rest (n : Nat) : ∀ (k : Nat) (body : List Stmt) {t : Tape}, Ended t →
    t.rest.length ≤ k → (declarations (declaration n) none k body t).2.rest = []
  | 0, _, _, _, hk => List.length_eq_zero_iff.mp (Nat.le_zero.mp hk)
  | k + 1, body, t, ht, hk => by
    rw [declarations_succ]
    split
    · rename_i hend
      simpa [Tape.atEnd] using hend
    · rename_i hend
      have hrest : t.rest ≠ [] := by
        intro hnil
        simp [Tape.atEnd, hnil] at hend
      have hleads := attempt_leads (declaration_moves n) t
      have hshort := attempt_length (declaration_moves n) (declaration_takes n) ht hrest
      exact declarations_rest n k _ ((congrArg Token.kind hleads.stop).trans ht) (by omega)

end Parse

/-- The tape of a program when it has been read. -/
def Tape.afterProgram (ts : List Token) : Tape :=
  let t := Tape.ofTokens ts
  (Parse.declarations (Parse.declaration t.nesting) none t.nesting [] t).2

end Script
