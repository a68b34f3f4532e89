import Script.Proofs.ExaminedSound
import Script.Proofs.ParseRelocation
import Script.Proofs.ParserProgress
import Script.Proofs.ProgramsComplete

/-!
# Lines as programs

A line that is read as statements is read as a program reads it. A line that is read as an expression
becomes the program of that expression when a semicolon is written behind it, and the other way
round. For the first, the reading of a program is taken one declaration at a time; for the second,
an expression that ends with the tokens ends at a semicolon just as well.
-/

namespace Script

/-! ## A semicolon behind the tokens -/

/-- The tape with a token behind the others, and another end. -/
def Tape.behind (semi stop : Token) (t : Tape) : Tape := { t with rest := t.rest ++ [semi], stop }

theorem Tape.skip_behind {semi stop : Token} {t : Tape} (h : t.rest ≠ []) :
    (t.behind semi stop).skip = t.skip.behind semi stop := by
  cases hrest : t.rest with
  | nil => exact absurd hrest h
  | cons x xs => simp [skip, behind, hrest]

theorem Tape.peek_behind {semi stop : Token} {t : Tape} (h : t.rest ≠ []) :
    (t.behind semi stop).peek = t.peek := by
  cases hrest : t.rest with
  | nil => exact absurd hrest h
  | cons x xs => simp [peek, behind, hrest]

namespace Parse

variable {α β : Type} {semi stop : Token} {S : Tape → Prop}

/-- On the tapes in `S`, what comes of the parser also comes of it when `semi` is behind the
tokens. -/
def Steady (semi stop : Token) (S : Tape → Prop) (p : Parse α) : Prop :=
  ∀ t a u, S t → p t = (some a, u) → p (t.behind semi stop) = (some a, u.behind semi stop)

theorem steady_pure (a : α) : Steady semi stop S (pure a) := by
  intro t b u _ h
  cases h
  rfl

theorem steady_refuse (token : Token) (c : Complaint) :
    Steady semi stop S (refuse token c : Parse α) := fun _ _ _ _ h => nomatch h

theorem steady_refuseNext (c : Complaint) : Steady semi stop S (refuseNext c : Parse α) :=
  fun _ _ _ _ h => nomatch h

theorem steady_last : Steady semi stop S last := by
  intro t b u _ h
  cases h
  rfl

theorem steady_object (token : Token) (c : Complaint) :
    Steady semi stop S (object token c) := by
  intro t b u _ h
  cases h
  rfl

theorem Steady.bind {p : Parse α} {f : α → Parse β} (hp : Steady semi stop Ended p) (hm : Moves p)
    (hf : ∀ a, Steady semi stop Ended (f a)) : Steady semi stop Ended (p >>= f) := by
  intro t b v ht h
  have hleads := hm t
  rcases hpt : p t with ⟨_ | a, u⟩ <;> rw [hpt] at hleads
  · rw [bind_none hpt] at h
    cases h
  · rw [bind_some hpt] at h
    rw [bind_some (hp t a u ht hpt)]
    exact hf a u b v ((congrArg Token.kind hleads.stop).trans ht) h

theorem Steady.ite {c : Prop} [Decidable c] {p q : Parse α} (hp : Steady semi stop S p)
    (hq : Steady semi stop S q) : Steady semi stop S (if c then p else q) := by
  split
  · exact hp
  · exact hq

theorem steady_objectIf (c : Prop) [Decidable c] (token : Token) (complaint : Complaint) :
    Steady semi stop S (objectIf c token complaint) :=
  (steady_object token complaint).ite (steady_pure ())

/-- The parsers of which nothing comes at the end of the tokens may look at the next one. -/
theorem steady_peek {f : Token → Parse α} (ht : Takes Ended (peek >>= f))
    (hf : ∀ token, Steady semi stop (fun t => Ended t ∧ t.rest ≠ []) (f token)) :
    Steady semi stop Ended (peek >>= f) := by
  intro t a u hend h
  have hrest := ht.rest hend h
  show f (t.behind semi stop).peek (t.behind semi stop) = _
  rw [Tape.peek_behind hrest]
  exact hf t.peek t a u ⟨hend, hrest⟩ h

theorem steady_skip {p : Parse α} (hp : Steady semi stop Ended p) :
    Steady semi stop (fun t => Ended t ∧ t.rest ≠ []) (skip >>= fun _ => p) := by
  intro t a u ht h
  have hend : Ended t.skip := (congrArg Token.kind (Tape.Leads.skip t).stop).trans ht.1
  show p (t.behind semi stop).skip = _
  rw [Tape.skip_behind ht.2]
  exact hp t.skip a u hend h

theorem steady_expect (k : Kind) (c : Complaint) : Steady semi stop S (expect k c) := by
  intro t a u _ h
  cases hrest : t.rest with
  | nil =>
    rw [expect_nil hrest] at h
    cases h
  | cons x xs =>
    have hbehind : (t.behind semi stop).rest = x :: (xs ++ [semi]) := by simp [Tape.behind, hrest]
    rw [expect_cons hrest] at h
    rw [expect_cons hbehind, Tape.skip_behind (by simp [hrest])]
    by_cases hx : x.kind = k
    · rw [if_pos hx] at h ⊢
      cases h
      rfl
    · rw [if_neg hx] at h
      cases h

theorem literal_steady (token : Token) : Steady semi stop S (match token.literal with
    | some value => pure (Expr.constant value.toConstant)
    | none => refuse token .literalWithoutValue) := by
  split
  · exact steady_pure _
  · exact steady_refuse _ _

theorem primary_steady {inner : Parse Expr} (hm : Moves inner)
    (hi : Steady semi stop Ended inner) : Steady semi stop Ended (primary inner) := by
  refine steady_peek (primary_takes hm) fun token => ?_
  split
  case h_1 | h_2 | h_3 | h_6 => exact steady_skip (steady_pure _)
  case h_4 | h_5 => exact steady_skip (literal_steady token)
  case h_7 =>
    refine steady_skip (hi.bind hm fun e => ?_)
    exact (steady_expect _ _).bind (moves_expect _ _) fun _ => steady_pure _
  case h_8 | h_9 | h_10 => exact steady_skip (steady_refuse token _)
  · exact steady_refuse token _

theorem assignment_steady (target value : Expr) :
    Steady semi stop Ended (assignment target value) := by
  unfold assignment
  split
  · exact steady_pure _
  · exact steady_last.bind moves_last fun token =>
      (steady_object token _).bind (moves_object token _) fun _ => steady_pure target

section
variable (hsemi : semi.kind = .semicolon)
include hsemi

theorem lacks_behind {k : Kind} (hk : k ≠ .semicolon) {t : Tape} :
    Lacks k (t.behind semi stop).rest ↔ Lacks k t.rest := by
  unfold Tape.behind
  cases t.rest with
  | nil => simp [Lacks, hsemi, hk.symm]
  | cons x xs => simp [Lacks]

theorem steady_acceptAny {ks : List Kind} (hks : .semicolon ∉ ks) :
    Steady semi stop S (acceptAny ks) := by
  intro t a u _ h
  cases hrest : t.rest with
  | nil =>
    rw [acceptAny_nil hrest] at h
    cases h
    have hbehind : (t.behind semi stop).rest = [semi] := by simp [Tape.behind, hrest]
    rw [acceptAny_cons hbehind, hsemi, if_neg hks]
  | cons x xs =>
    have hbehind : (t.behind semi stop).rest = x :: (xs ++ [semi]) := by simp [Tape.behind, hrest]
    rw [acceptAny_cons hrest] at h
    rw [acceptAny_cons hbehind, Tape.skip_behind (by simp [hrest])]
    by_cases hx : x.kind ∈ ks
    · rw [if_pos hx] at h ⊢
      cases h
      rfl
    · rw [if_neg hx] at h ⊢
      cases h
      rfl

theorem steady_sees {k : Kind} (hk : k ≠ .semicolon) : Steady semi stop S (sees k) := by
  intro t a u _ h
  cases h
  unfold sees Tape.behind
  cases t.rest with
  | nil => simp [hsemi, hk.symm]
  | cons x xs => simp

theorem steady_accept {k : Kind} (hk : k ≠ .semicolon) : Steady semi stop S (accept k) := by
  intro t a u _ h
  by_cases hlacks : Lacks k t.rest
  · rw [accept_lacks hlacks] at h
    cases h
    exact accept_lacks ((lacks_behind hsemi hk).mpr hlacks)
  · obtain ⟨x, xs, hrest, hx⟩ := not_lacks hlacks
    rw [accept_cons hrest hx] at h
    cases h
    have hbehind : (t.behind semi stop).rest = x :: (xs ++ [semi]) := by simp [Tape.behind, hrest]
    rw [accept_cons hbehind hx, Tape.skip_behind (by simp [hrest])]

theorem chain_steady {ops : List Kind} (hops : .semicolon ∉ ops) {operand : Parse Expr}
    (hm : Moves operand) (ho : Steady semi stop Ended operand) :
    ∀ (n : Nat) (left : Expr), Steady semi stop Ended (chain ops operand n left)
  | 0, left => steady_pure left
  | n + 1, left => by
    refine (steady_acceptAny hsemi hops).bind (moves_acceptAny ops) fun op => ?_
    cases op with
    | none => exact steady_pure left
    | some op => exact ho.bind hm fun right => chain_steady hops hm ho n _

theorem operation_steady (bound : Nat) {operand : Parse Expr} (hm : Moves operand)
    (ho : Steady semi stop Ended operand) : ∀ {levels : List (List Kind)},
    (∀ ops ∈ levels, .semicolon ∉ ops) → Steady semi stop Ended (operation bound operand levels)
  | [], _ => ho
  | ops :: tighter, hlevels => by
    have htight := operation_steady bound hm ho fun ops h => hlevels ops (List.mem_cons_of_mem _ h)
    have hmoves := operation_moves bound hm tighter
    refine htight.bind hmoves fun left => ?_
    exact chain_steady hsemi (hlevels ops List.mem_cons_self) hmoves htight bound left

section
variable {argument : Parse Expr} (hm : Moves argument) (ht : Takes Ended argument)
  (ha : Steady semi stop Ended argument)
include hm ht ha

theorem moreArguments_steady : ∀ (n : Nat) (args : List Expr),
    Steady semi stop Ended (moreArguments argument n args)
  | 0, args => steady_pure _
  | n + 1, args => by
    rw [moreArguments_succ]
    refine (steady_accept hsemi (by decide)).bind (moves_accept _) fun _ =>
      Steady.ite ?_ (steady_pure _)
    have hnext : ∀ next, Steady semi stop Ended (do
        objectIf (args.length ≥ maxArguments) next .tooManyArguments
        moreArguments argument n ((← argument) :: args)) := fun next =>
      (steady_objectIf _ next _).bind (moves_objectIf _ next _) fun _ =>
        ha.bind hm fun e => moreArguments_steady n (e :: args)
    refine steady_peek (moves_peek.bind_takes fun next => ?_) fun next t a u h => hnext next t a u h.1
    refine (moves_objectIf _ next _).bind_takes fun _ => ?_
    exact ht.bind fun e => moreArguments_moves hm n _

theorem arguments_steady (bound : Nat) : Steady semi stop Ended (arguments bound argument) := by
  refine (steady_sees hsemi (by decide)).bind (moves_sees _) fun _ => (steady_pure _).ite ?_
  exact ha.bind hm fun e => moreArguments_steady hsemi hm ht ha bound [e]

theorem calls_steady : ∀ (n : Nat) (callee : Expr), Steady semi stop Ended (calls argument n callee)
  | 0, callee => steady_pure callee
  | n + 1, callee => by
    refine (steady_accept hsemi (by decide)).bind (moves_accept _) fun _ =>
      Steady.ite ?_ (steady_pure callee)
    refine (arguments_steady hsemi hm ht ha n).bind (arguments_moves hm n) fun args => ?_
    refine (steady_expect _ _).bind (moves_expect _ _) fun paren => ?_
    exact calls_steady n _

end

mutual

theorem operand_steady : ∀ n, Steady semi stop Ended (operand n)
  | 0 => by
    unfold operand
    exact steady_refuseNext _
  | n + 1 => by
    unfold operand
    refine (steady_acceptAny hsemi (by decide)).bind (moves_acceptAny signs) fun op => ?_
    have hm := expression_moves n
    cases op with
    | some op => exact (operand_steady n).bind (operand_moves n) fun e => steady_pure _
    | none =>
      have he := expression_steady n
      refine (primary_steady hm he).bind (primary_moves hm) fun e => ?_
      exact calls_steady hsemi hm (expression_takes n) he n e

theorem expression_steady : ∀ n, Steady semi stop Ended (expression n)
  | 0 => by
    unfold expression
    exact steady_refuseNext _
  | n + 1 => by
    unfold expression
    have hm := operand_moves n
    have hlevels : ∀ ops ∈ precedence, .semicolon ∉ ops := by decide
    have hop := operation_steady hsemi n hm (operand_steady n) hlevels
    refine hop.bind (operation_moves n hm precedence) fun target => ?_
    refine (steady_accept hsemi (by decide)).bind (moves_accept _) fun _ =>
      Steady.ite ?_ (steady_pure target)
    exact (expression_steady n).bind (expression_moves n) fun value => assignment_steady target value

end

end

/-! ## One declaration at a time -/

/-- How deep declarations may be nested, and how often the loop may turn, makes no difference, if it is
deep and often enough. -/
theorem declared_bound (closing : Option Kind) {L n j k m : Nat} {t : Tape} (ht : Within L t)
    (hn : 3 * L + 1 ≤ n) (hj : 3 * L + 1 ≤ j) (hk : L ≤ k) (hm : L ≤ m) (body : List Stmt) :
    declared (declaration j) closing m body t = declared (declaration n) closing k body t := by
  have hid : ∀ ss : List Stmt, ss.map (Stmt.relocate id) = ss := fun ss => by
    rw [← Stmt.relocateAll_eq, Stmt.relocateAll_id]
  have hd : Mirrors id (Within L) _ (declaration n) (declaration j) := declaration_mirrors hn hj
  have h := declared_mirrors closing (declaration_moves n) (declaration_takes n) hd
    (Nat.le_refl L) hk hm body
  rw [hid body] at h
  exact h.bound hid ht

/-- Unless the next token is the first one of another statement, a declaration is an expression. -/
theorem declaration_expression {n : Nat} {t : Tape} (ht : Ended t)
    (hopens : t.peek.kind.opensStatement = false) (hn : 2 * t.rest.length + 4 ≤ n) :
    declaration n t = expressionStatement (expression n) t := by
  obtain ⟨k, rfl⟩ : ∃ k, n = k + 2 := ⟨n - 2, by omega⟩
  have hsame : expression k t = expression (k + 2) t := expression_bound ht (by omega) (by omega)
  have hpeek : peek t = (some t.peek, t) := rfl
  have hstatement : declaration (k + 2) t = statement (k + 1) t := by
    unfold declaration
    rw [bind_some hpeek]
    cases hk : t.peek.kind <;> rw [hk] at hopens <;> first | rfl | cases hopens
  have hexpression : statement (k + 1) t = expressionStatement (expression k) t := by
    unfold statement
    rw [bind_some hpeek]
    cases hk : t.peek.kind <;> rw [hk] at hopens <;> first | rfl | cases hopens
  rw [hstatement, hexpression]
  show Parse.bind _ _ t = Parse.bind _ _ t
  simp only [Parse.bind, hsame]

end Parse

namespace Tape

open Parse

/-- Reading on to the end, one declaration at a time. -/
theorem finish_step {n : Nat} {t : Tape} (ht : Ended t) (hrest : t.rest ≠ [])
    (hn : 3 * t.rest.length + 4 ≤ n) (body : List Stmt) :
    t.finish n body =
      match declaration n t with
      | (some s, u) => u.finish n (s :: body)
      | (none, u) => u.recover.finish n body := by
  obtain ⟨k, rfl⟩ : ∃ k, n = k + 1 := ⟨n - 1, by omega⟩
  have hloop : ∀ {u : Tape} (body : List Stmt), t.Leads u → u.rest.length < t.rest.length →
      declarations (declaration (k + 1)) none k body u =
        declarations (declaration (k + 1)) none (k + 1) body u := by
    intro u body hleads hlt
    have hu : Within (u.rest.length + 1) u :=
      ⟨(congrArg Token.kind hleads.stop).trans ht, Nat.lt_succ_self _⟩
    have h := declared_bound none (n := k + 1) (j := k + 1) (k := k + 1) (m := k) hu (by omega)
      (by omega) (by omega) (by omega) body
    simpa only [declared, Prod.mk.injEq, Option.some.injEq, ← Prod.ext_iff] using h
  have hend : ¬ (t.atEnd || (none : Option Kind) == some t.peek.kind) = true := by
    simpa [atEnd] using hrest
  have hleads := declaration_moves (k + 1) t
  have htakes := declaration_takes (k + 1) t
  conv_lhs => unfold finish declarations
  rw [if_neg hend]
  rcases hd : declaration (k + 1) t with ⟨_ | s, u⟩ <;> rw [hd] at hleads htakes
  · simp only [hloop body (hleads.trans (.recover u)) (hleads.length_recover hrest)]
    rfl
  · simp only [hloop (s :: body) hleads (htakes s ht rfl)]
    rfl

theorem finish_end {n : Nat} {t : Tape} (h : t.rest = []) (body : List Stmt) :
    t.finish n body = ⟨body.reverse, t.objections.reverse⟩ := by
  have hend : declared (declaration n) none n body t = _ := declared_ends (.inl h)
  simp only [declared, Prod.mk.injEq, Option.some.injEq] at hend
  simp only [finish, hend.1, hend.2]

end Tape

/-! ## Lines and programs -/

theorem Body.expression {inLoop : Bool} {us : List Token} {e : Expr}
    (h : Body inLoop us [.expr e]) : ∃ ts semi, us = ts ++ [semi] ∧ Phrase 0 ts e := by
  cases h with
  | cons h hs =>
    cases hs
    rw [List.append_nil]
    cases h with
    | binding h => cases h
    | sentence h =>
      cases h with
      | expression h _ => exact ⟨_, _, rfl, h⟩

/-- The tokens with `semi` in front of the first one that ends the text, or behind them all. -/
def closedBy (semi : Token) (ts : List Token) : List Token :=
  ts.takeWhile (!·.isFinish) ++ semi :: ts.dropWhile (!·.isFinish)

section
variable {semi : Token} (hsemi : semi.kind = .semicolon) (ts : List Token)
include hsemi

theorem Tape.rest_closedBy :
    (Tape.ofTokens (closedBy semi ts)).rest = (Tape.ofTokens ts).rest ++ [semi] := by
  have hmark : semi.isFinish = false := by simp [Token.isFinish, hsemi]
  show List.takeWhile _ (closedBy semi ts) = List.takeWhile _ ts ++ [semi]
  induction ts with
  | nil => simp [closedBy, hmark]
  | cons x xs ih =>
    unfold closedBy at ih ⊢
    cases hx : x.isFinish with
    | true => simp [hx, hmark]
    | false => simpa [hx] using ih

theorem Tape.ofTokens_closedBy (hrest : (Tape.ofTokens ts).rest ≠ []) :
    Tape.ofTokens (closedBy semi ts) =
      (Tape.ofTokens ts).behind semi (Tape.ofTokens (closedBy semi ts)).stop := by
  have hlast : (Tape.ofTokens (closedBy semi ts)).last = (Tape.ofTokens ts).last := by
    cases ts with
    | nil => exact absurd rfl hrest
    | cons x xs =>
      have hx : x.isFinish = false := by
        cases hx : x.isFinish with
        | true => simp [Tape.ofTokens, hx] at hrest
        | false => rfl
      simp [Tape.ofTokens, closedBy, hx]
  have hbehind := Tape.rest_closedBy hsemi ts
  unfold Tape.behind
  rw [← hbehind, ← hlast]
  rfl

/-- An expression that ends with the tokens, read as a program with a semicolon behind it. -/
theorem Tape.finish_behind {t u : Tape} {stop : Token} {e : Expr} {n m : Nat} (ht : Parse.Ended t)
    (hstop : stop.kind = .finish) (hopens : t.peek.kind.opensStatement = false)
    (h : Parse.expression n t = (some e, u)) (hu : u.rest = []) (hn : 2 * t.rest.length + 4 ≤ n)
    (hm : 3 * t.rest.length + 7 ≤ m) :
    (t.behind semi stop).finish m [] = ⟨[.expr e], u.objections.reverse⟩ := by
  have hrest := (Parse.expression_takes _).rest ht h
  have hpeek : (t.behind semi stop).peek = t.peek := peek_behind hrest
  have hlen : (t.behind semi stop).rest.length = t.rest.length + 1 := by simp [behind]
  have hexpr : Parse.expression m (t.behind semi stop) = (some e, u.behind semi stop) := by
    rw [← Parse.expression_steady hsemi n t e u ht h]
    exact Parse.expression_bound hstop (by omega) (by omega)
  have hmark : Parse.expect .semicolon .expectedSemicolonAfterExpression (u.behind semi stop) =
      (some semi, (u.behind semi stop).skip) := by
    have hbehind : (u.behind semi stop).rest = [semi] := by simp [behind, hu]
    rw [Parse.expect_cons hbehind, if_pos hsemi]
  have hread : Parse.declaration m (t.behind semi stop) =
      (some (.expr e), (u.behind semi stop).skip) := by
    rw [Parse.declaration_expression (t := t.behind semi stop) hstop (by rwa [hpeek]) (by omega)]
    unfold Parse.expressionStatement
    rw [Parse.bind_some hexpr, Parse.bind_some hmark]
    rfl
  rw [finish_step (t := t.behind semi stop) hstop (by simp [behind]) (by omega), hread]
  show (u.behind semi stop).skip.finish m [.expr e] = _
  rw [finish_end (by simp [skip, behind, hu])]
  simp [skip, behind, hu]

theorem parseProgram_closedBy {e : Expr} {u : Tape}
    (hopens : (Tape.ofTokens ts).peek.kind.opensStatement = false)
    (h : Parse.expression (Tape.ofTokens ts).nesting (Tape.ofTokens ts) = (some e, u))
    (hu : u.rest = []) :
    parseProgram (closedBy semi ts) = ⟨[.expr e], u.objections.reverse⟩ := by
  have ht := Tape.ended_ofTokens ts
  have htape := Tape.ofTokens_closedBy hsemi ts ((Parse.expression_takes _).rest ht h)
  have hlen := congrArg List.length (Tape.rest_closedBy hsemi ts)
  rw [List.length_append, List.length_singleton] at hlen
  have hn : (Tape.ofTokens (closedBy semi ts)).nesting = 3 * (Tape.ofTokens ts).rest.length + 8 := by
    simp only [Tape.nesting, hlen]
    omega
  rw [parseProgram_eq, hn, htape]
  exact Tape.finish_behind hsemi ht (Tape.ended_ofTokens (closedBy semi ts)) hopens h hu
    (by simp only [Tape.nesting]; omega) (by omega)

/-- A program of one expression, with nothing wrong in it, is an expression and its semicolon. -/
theorem phrase_of_closedBy {e : Expr} (h : parseProgram (closedBy semi ts) = ⟨[.expr e], []⟩) :
    Phrase 0 (Tape.ofTokens ts).rest e := by
  rw [parseProgram_eq] at h
  have hbody := Tape.finish_body (n := (Tape.ofTokens (closedBy semi ts)).nesting)
    (Tape.ended_ofTokens (closedBy semi ts)) (by simp only [Tape.nesting]; omega)
    (congrArg Parsed.objections h)
  rw [h, Tape.rest_closedBy hsemi] at hbody
  obtain ⟨us, semi', hus, hphrase⟩ := hbody.expression
  obtain ⟨rfl, -⟩ := List.append_inj' hus rfl
  exact hphrase

end

theorem Kind.opensStatement_of_opensPhrase {k : Kind} (h : k.opensPhrase = true) :
    k.opensStatement = false := by
  cases k <;> first | rfl | cases h

/-- Tokens that are an expression are read as one. -/
theorem parseLine_phrase {ts : List Token} {e : Expr} (h : Phrase 0 (Tape.ofTokens ts).rest e) :
    parseLine ts = ⟨.expression e, []⟩ := by
  obtain ⟨x, xs, hrest, hx, _⟩ := h.head
  have hfirst : ¬ ((Tape.ofTokens ts).atEnd ||
      (Tape.ofTokens ts).peek.kind.opensStatement) = true := by
    simp [Tape.atEnd, Tape.peek, hrest, Kind.opensStatement_of_opensPhrase hx]
  have hread := (Parse.phrase_good h : Parse.Whole _ _) (Tape.ofTokens ts).nesting []
    (by simp only [Tape.nesting]; omega) ⟨by simp [Parse.Lacks], by simp, by simp [Parse.Lacks]⟩
    (Tape.ofTokens ts) (by simp) (by simp)
  have hatEnd : Parse.atEnd ((Tape.ofTokens ts).after (Tape.ofTokens ts).rest) =
      (some true, (Tape.ofTokens ts).after (Tape.ofTokens ts).rest) := by
    simp [Parse.atEnd, Tape.atEnd, Tape.after]
  have hitem : Parse.expressionItem (Tape.ofTokens ts).nesting (Tape.ofTokens ts) =
      (some (e, true), (Tape.ofTokens ts).after (Tape.ofTokens ts).rest) := by
    unfold Parse.expressionItem
    rw [Parse.bind_some hread, Parse.bind_some hatEnd]
    rfl
  rw [parseLine_eq, Tape.line, if_neg hfirst, hitem]
  rfl

/-- A line is an expression to its end, or it is what the program of its tokens is. -/
theorem parseLine_program (ts : List Token) :
    (∃ e u, (Tape.ofTokens ts).peek.kind.opensStatement = false ∧
      Parse.expression (Tape.ofTokens ts).nesting (Tape.ofTokens ts) = (some e, u) ∧ u.rest = [] ∧
      parseLine ts = ⟨.expression e, u.objections.reverse⟩) ∨
    parseLine ts = ⟨.statements (parseProgram ts).tree, (parseProgram ts).objections⟩ := by
  have ht := Tape.ended_ofTokens ts
  rw [parseLine_eq, parseProgram_eq, Tape.line]
  show _ ∨ _ = (Tape.ofTokens ts).finishLine (Tape.ofTokens ts).nesting []
  by_cases hfirst : ((Tape.ofTokens ts).atEnd ||
      (Tape.ofTokens ts).peek.kind.opensStatement) = true
  · rw [if_pos hfirst]
    exact .inr rfl
  · rw [if_neg hfirst]
    obtain ⟨hrest, hopens⟩ : (Tape.ofTokens ts).rest ≠ [] ∧
        (Tape.ofTokens ts).peek.kind.opensStatement = false := by
      simpa [Tape.atEnd] using hfirst
    have hdeclaration := Parse.declaration_expression (n := (Tape.ofTokens ts).nesting) ht hopens
      (by simp only [Tape.nesting]; omega)
    have hstep := Tape.finish_step (n := (Tape.ofTokens ts).nesting) ht hrest
      (by simp only [Tape.nesting]; omega) []
    rw [hdeclaration] at hstep
    unfold Tape.finishLine
    rw [hstep]
    rcases hitem : Parse.expressionItem (Tape.ofTokens ts).nesting (Tape.ofTokens ts) with ⟨r, u⟩
    obtain ⟨e, rfl, he, hu⟩ | ⟨e, rfl, he⟩ | ⟨rfl, he⟩ := Parse.expressionItem_cases hitem
    · exact .inl ⟨e, u, hopens, he, hu, rfl⟩
    · rw [he]
      exact .inr rfl
    · rw [he]
      exact .inr rfl

/-- A line is read as a program is, but that an expression needs no semicolon behind it. Leave for
such an expression is used up by the first declaration, and nothing inside of that can use it: it is
found only by an expression that is a declaration of its own, where the text ends. -/
theorem line_read_as_program (ts : List Token) {semi : Token} (hsemi : semi.kind = .semicolon) :
    (∀ p os, parseLine ts = ⟨.statements p, os⟩ → parseProgram ts = ⟨p, os⟩) ∧
    (∀ e os, parseLine ts = ⟨.expression e, os⟩ →
      parseProgram (closedBy semi ts) = ⟨[.expr e], os⟩) ∧
    (∀ e, parseProgram (closedBy semi ts) = ⟨[.expr e], []⟩ → parseLine ts = ⟨.expression e, []⟩) ∧
    ∀ d (r : Reader), nestingOf ts ≤ d → r.Inside ts →
      (∃ s r', Read.declaration d r = some (some s, r') ∧ r'.allowed = false ∧
        (r'.found = r.found ∨
          r.allowed = true ∧ r'.index = firstEnd ts ∧ ∃ e, s = some (.expr e))) ∧
      (r.allowed = false →
        (∃ s r', Read.statement d false r = some (s, r') ∧ r'.allowed = false ∧
          r'.found = r.found) ∧
        ∃ ss r', Read.block d r = some (ss, r') ∧ r'.allowed = false ∧ r'.found = r.found) := by
  refine ⟨?_, ?_, fun e h => parseLine_phrase (phrase_of_closedBy hsemi ts h),
    fun d r hd h => ⟨?_, fun hr => ⟨?_, ?_⟩⟩⟩
  · intro p os h
    obtain ⟨e, u, _, _, _, hline⟩ | hline := parseLine_program ts
    · rw [hline] at h
      cases h
    · rw [hline] at h
      cases h
      rfl
  · intro e os h
    obtain ⟨e', u, hopens, he, hu, hline⟩ | hline := parseLine_program ts
    · rw [hline] at h
      cases h
      exact parseProgram_closedBy hsemi ts hopens he hu
    · rw [hline] at h
      cases h
  · obtain ⟨s, r', hread, hleads, -, hfound⟩ := h.declaration hd
    exact ⟨s, r', hread, hleads.allowed, hfound⟩
  · obtain ⟨s, r', hread, hleads⟩ := h.statement hd hr
    exact ⟨s, r', hread, hleads.allowed, hleads.found hr⟩
  · obtain ⟨ss, r', hread, hleads⟩ := h.block hd hr
    exact ⟨ss, r', hread, hleads.allowed, hleads.found hr⟩

/-- A line that assigns to a call: there is something wrong with it, and nothing ends it. -/
def misassigned : List Token :=
  [.plain .name "f", .plain .leftParen "(", .plain .rightParen ")", .plain .assign "=",
    .plain .name "x"]

theorem line_read_as_program_misassigned :
    parseLine misassigned = ⟨.expression (.call (.named "f") (.plain .rightParen ")") []),
        [⟨.plain .name "x", .badTarget⟩]⟩ ∧
      parseProgram (closedBy (.plain .semicolon ";") misassigned) =
        ⟨[.expr (.call (.named "f") (.plain .rightParen ")") [])],
          [⟨.plain .name "x", .badTarget⟩]⟩ := by
  have hline : parseLine misassigned = ⟨.expression (.call (.named "f") (.plain .rightParen ")") []),
      [⟨.plain .name "x", .badTarget⟩]⟩ := by cbv
  exact ⟨hline, (line_read_as_program misassigned rfl).2.1 _ _ hline⟩

end Script
