import Script.Proofs.LinesAsPrograms

/-!
# Tokens behind a program

Behind tokens that are a program, any tokens are read as they are read alone, whether anything is
wrong with them or not. The program before them leaves nothing on the tape but the token that was
read last, and a declaration looks at that token only after it has read one of its own. The one
token that the program could still take is an `else`.
-/

namespace Script

namespace Tape

/-- The tape, with another token read last. -/
def remember (x : Token) (t : Tape) : Tape := { t with last := x }

theorem skip_remember (x : Token) {t : Tape} (h : t.rest ≠ []) : (t.remember x).skip = t.skip := by
  cases hrest : t.rest with
  | nil => exact absurd hrest h
  | cons y ys => simp [skip, remember, hrest]

theorem recover_remember (x : Token) {t : Tape} (h : t.rest ≠ []) :
    (t.remember x).recover = t.recover := by
  cases hrest : t.rest with
  | nil => exact absurd hrest h
  | cons y ys => simp [recover, remember, hrest]

end Tape

namespace Parse

variable {α β : Type} {S : Tape → Prop}

/-- On the tapes in `S`, it makes no difference to the parser which token was read last: it does the
same, or it gives up before it has read a token. -/
def Blind (S : Tape → Prop) (p : Parse α) : Prop :=
  ∀ t x, S t → p (t.remember x) = p t ∨
    ∃ u, p t = (none, u) ∧ p (t.remember x) = (none, u.remember x)

/-! ## Rules -/

/-- After the first parser the tape is the same, so the second one may be any parser. -/
theorem Blind.bind {p : Parse α} (hp : Blind S p) (f : α → Parse β) : Blind S (p >>= f) := by
  intro t x ht
  rcases hp t x ht with hsame | ⟨u, hnone, hnone'⟩
  · left
    show Parse.bind p f (t.remember x) = Parse.bind p f t
    simp only [Parse.bind, hsame]
  · right
    exact ⟨u, bind_none hnone, bind_none hnone'⟩

theorem Blind.facing {p : Parse α} (hp : Blind Ended p) (token : Token) :
    Blind (Faces token) p := fun t x ht => hp t x ht.1

theorem blind_refuse (token : Token) (c : Complaint) : Blind S (refuse token c : Parse α) :=
  fun _ _ _ => .inr ⟨_, rfl, rfl⟩

theorem blind_refuseNext (c : Complaint) : Blind S (refuseNext c : Parse α) :=
  fun _ _ _ => .inr ⟨_, rfl, rfl⟩

theorem blind_peek {f : Token → Parse α} (hf : ∀ token, Blind (Faces token) (f token)) :
    Blind Ended (peek >>= f) := fun t x ht => hf t.peek t x (faces_peek ht)

theorem blind_skip {token : Token} {k : Kind} (hk : token.kind = k) (hne : k ≠ .finish)
    (p : Parse α) : Blind (Faces token) (skip >>= fun _ => p) := by
  intro t x ht
  have hrest := ht.2 (by rwa [hk])
  left
  show p (t.remember x).skip = p t.skip
  rw [Tape.skip_remember x hrest]

theorem blind_acceptAny {ks : List Kind} {f : Option Token → Parse α} (hnone : Blind S (f none)) :
    Blind S (acceptAny ks >>= f) := by
  intro t x ht
  cases hrest : t.rest with
  | nil =>
    rw [bind_some (acceptAny_nil hrest), bind_some (acceptAny_nil (t := t.remember x) hrest)]
    exact hnone t x ht
  | cons y ys =>
    have hy := acceptAny_cons (k := ks) hrest
    have hy' := acceptAny_cons (k := ks) (t := t.remember x) hrest
    by_cases hk : y.kind ∈ ks
    · rw [if_pos hk] at hy hy'
      left
      rw [bind_some hy, bind_some hy', Tape.skip_remember x (by simp [hrest])]
    · rw [if_neg hk] at hy hy'
      rw [bind_some hy, bind_some hy']
      exact hnone t x ht

/-! ## Declarations -/

theorem primary_blind (inner : Parse Expr) : Blind Ended (primary inner) := by
  refine blind_peek fun token => ?_
  split
  case h_11 => exact blind_refuse token _
  all_goals
    rename_i hk
    exact blind_skip hk (by decide) _

theorem operand_blind (n : Nat) : Blind Ended (operand n) := by
  cases n with
  | zero =>
    unfold operand
    exact blind_refuseNext _
  | succ n =>
    unfold operand
    exact blind_acceptAny ((primary_blind (expression n)).bind _)

theorem operation_blind (bound : Nat) {operand : Parse Expr} (ho : Blind Ended operand) :
    ∀ levels : List (List Kind), Blind Ended (operation bound operand levels)
  | [] => ho
  | _ :: tighter => (operation_blind bound ho tighter).bind _

theorem expression_blind (n : Nat) : Blind Ended (expression n) := by
  cases n with
  | zero =>
    unfold expression
    exact blind_refuseNext _
  | succ n =>
    unfold expression
    exact (operation_blind n (operand_blind n) precedence).bind _

theorem statement_blind (n : Nat) : Blind Ended (statement n) := by
  cases n with
  | zero =>
    unfold statement
    exact blind_refuseNext _
  | succ n =>
    unfold statement
    refine blind_peek fun token => ?_
    split
    case h_8 => exact ((expression_blind n).bind _).facing token
    all_goals
      rename_i hk
      exact blind_skip hk (by decide) _

theorem declaration_blind (n : Nat) : Blind Ended (declaration n) := by
  cases n with
  | zero =>
    unfold declaration
    exact blind_refuseNext _
  | succ n =>
    unfold declaration
    refine blind_peek fun token => ?_
    split
    case h_3 => exact (statement_blind n).facing token
    all_goals
      rename_i hk
      exact blind_skip hk (by decide) _

end Parse

/-! ## Programs -/

open Parse

/-- Which token was read last makes no difference to what is read up to the end. -/
theorem Tape.finish_remember {n : Nat} {t : Tape} (ht : Ended t) (hn : 3 * t.rest.length + 4 ≤ n)
    (x : Token) (body : List Stmt) : (t.remember x).finish n body = t.finish n body := by
  by_cases hrest : t.rest = []
  · rw [finish_end hrest, finish_end (t := t.remember x) hrest]
    rfl
  · rw [finish_step ht hrest hn, finish_step (t := t.remember x) ht hrest hn]
    rcases declaration_blind n t x ht with hsame | ⟨u, hnone, hnone'⟩
    · rw [hsame]
    · rw [hnone, hnone']
      show (u.remember x).recover.finish n body = u.recover.finish n body
      by_cases hu : u.rest = []
      · have hend : ∀ v : Tape, v.rest = [] → v.recover = v := fun v hv => by simp [recover, hv]
        rw [hend u hu, hend (u.remember x) hu, finish_end hu, finish_end (t := u.remember x) hu]
        rfl
      · rw [recover_remember x hu]

theorem declarations_before (d : Parse Stmt) (closing : Option Kind) :
    ∀ (n : Nat) (before : List Stmt) (t : Tape), declarations d closing n before t =
      (before.reverse ++ (declarations d closing n [] t).1, (declarations d closing n [] t).2)
  | 0, before, t => by simp [declarations]
  | n + 1, before, t => by
    unfold declarations
    split
    · simp
    · rcases d t with ⟨_ | s, u⟩
      · exact declarations_before d closing n before u.recover
      · simp only [declarations_before d closing n (s :: before) u,
          declarations_before d closing n [s] u, List.reverse_cons, List.append_assoc,
          List.reverse_nil, List.nil_append]

theorem Tape.finish_before (n : Nat) (before : List Stmt) (t : Tape) :
    t.finish n before = ⟨before.reverse ++ (t.finish n []).tree, (t.finish n []).objections⟩ := by
  unfold finish
  rw [declarations_before]

/-- How the bounds are chosen makes no difference, if they are large enough. -/
theorem Tape.finish_bound {n m : Nat} {t : Tape} (ht : Ended t) (hn : 3 * t.rest.length + 4 ≤ n)
    (hm : 3 * t.rest.length + 4 ≤ m) : t.finish m [] = t.finish n [] := by
  have h := declared_bound none (L := t.rest.length + 1) (n := n) (j := m) (k := n) (m := m)
    ⟨ht, Nat.lt_succ_self _⟩ (by omega) (by omega) (by omega) (by omega) []
  simp only [declared, Prod.mk.injEq, Option.some.injEq] at h
  simp only [finish, h.1, h.2]

/-- Behind a program the tape goes on as one of the tokens that follow. -/
theorem Tape.finish_program {n : Nat} {t : Tape} {us rest : List Token} {p : List Stmt}
    (h : Program us p) (ht : Ended t) (hrest : t.rest = us ++ rest) (helse : Lacks .elseWord rest)
    (hn : 3 * t.rest.length + 4 ≤ n) :
    t.finish n [] =
      ⟨p ++ ((t.after us).finish n []).tree, ((t.after us).finish n []).objections⟩ := by
  have hlen := Body.length_le h
  have hlength := congrArg List.length hrest
  rw [List.length_append] at hlength
  have hread := body_gathered h n none (n - p.length) [] rest t (by omega) (by simp) helse hrest
    (by simp)
  rw [Nat.sub_add_cancel (by omega), List.append_nil] at hread
  have hafter : (t.after us).rest.length = rest.length := congrArg List.length (rest_after hrest)
  have hturns := declared_bound none (L := rest.length + 1) (n := n) (j := n) (k := n)
    (m := n - p.length) (t := t.after us) ⟨ht, by omega⟩ (by omega) (by omega) (by omega) (by omega)
    p.reverse
  rw [hturns] at hread
  simp only [declared, Prod.mk.injEq, Option.some.injEq] at hread
  have hfinish : t.finish n [] = (t.after us).finish n p.reverse := by
    simp only [finish, hread.1, hread.2]
  rw [hfinish, finish_before, List.reverse_reverse]

theorem Tape.ofTokens_words {a : List Token} (ha : ∀ t ∈ a, t.isFinish = false) (b : List Token) :
    (ofTokens (a ++ b)).rest = a ++ (ofTokens b).rest ∧
      (b ≠ [] → (ofTokens (a ++ b)).stop = (ofTokens b).stop) := by
  constructor
  · show List.takeWhile _ (a ++ b) = _
    rw [List.takeWhile_append_of_pos (by simpa using ha)]
    rfl
  · intro hb
    have hfind : a.find? Token.isFinish = none := List.find?_eq_none.mpr (by simpa using ha)
    simp only [ofTokens, List.find?_append, hfind, Option.none_or,
      List.getLast?_append_of_ne_nil a hb]

/-- Tokens that are read without an objection as a program make no difference to what is behind
them: it is read, with or without objections, as it is read alone. -/
theorem read_behind_program {a b : List Token} {eof : Token} {p : List Stmt}
    (ha : ∀ t ∈ a, t.isFinish = false) (heof : eof.isFinish = true)
    (hp : parseProgram (a ++ [eof]) = ⟨p, []⟩) (hb : Lacks .elseWord b) :
    parseProgram (a ++ b) = ⟨p ++ (parseProgram b).tree, (parseProgram b).objections⟩ := by
  have hprogram : Program a p := by
    rw [parseProgram_eq, Tape.ofTokens_append ha heof] at hp
    have h := Tape.finish_body (by simpa [Token.isFinish] using heof)
      (by simp only [Tape.nesting]; omega) (congrArg Parsed.objections hp)
    rwa [hp] at h
  obtain ⟨hrest, hstop⟩ := Tape.ofTokens_words ha b
  have helse : Lacks .elseWord (Tape.ofTokens b).rest := by
    show Lacks .elseWord (b.takeWhile _)
    cases b with
    | nil => simp [Lacks]
    | cons y ys =>
      rw [List.takeWhile_cons]
      split
      · exact lacks_cons (hb y rfl)
      · simp [Lacks]
  have hfinish := Tape.finish_program (n := (Tape.ofTokens (a ++ b)).nesting) hprogram
    (Tape.ended_ofTokens (a ++ b)) hrest helse (by simp only [Tape.nesting]; omega)
  have hafter := Tape.rest_after hrest
  -- the tape behind the program is that of `b`, but for the token read last
  suffices hsame : ((Tape.ofTokens (a ++ b)).after a).finish (Tape.ofTokens (a ++ b)).nesting [] =
      (Tape.ofTokens b).finish (Tape.ofTokens b).nesting [] by
    rw [hsame] at hfinish
    rw [parseProgram_eq, parseProgram_eq]
    exact hfinish
  by_cases hnil : b = []
  · subst hnil
    rw [Tape.finish_end hafter, Tape.finish_end rfl]
    rfl
  · have htape : (Tape.ofTokens (a ++ b)).after a =
        (Tape.ofTokens b).remember ((Tape.ofTokens (a ++ b)).after a).last := by
      unfold Tape.remember
      rw [← hafter, ← hstop hnil]
      rfl
    have hended := Tape.ended_ofTokens b
    have hlength := congrArg List.length hrest
    rw [List.length_append] at hlength
    rw [htape, Tape.finish_remember hended (by simp only [Tape.nesting]; omega)]
    exact Tape.finish_bound hended (by simp only [Tape.nesting]; omega)
      (by simp only [Tape.nesting]; omega)

/-- `if (a) b;`, which could still take an `else`. -/
def openBranch : List Token :=
  [.plain .ifWord "if", .plain .leftParen "(", .plain .name "a", .plain .rightParen ")",
   .plain .name "b", .plain .semicolon ";"]

/-- `f() = x; } let`, with something wrong in each part. -/
def wreckage : List Token :=
  [.plain .name "f", .plain .leftParen "(", .plain .rightParen ")", .plain .assign "=",
   .plain .name "x", .plain .semicolon ";", .plain .rightBrace "\x7d", .plain .letWord "let"]

theorem read_behind_program_wreckage :
    parseProgram (openBranch ++ [.finish .start]) =
        ⟨[.ifThen (.named "a") (.expr (.named "b"))], []⟩ ∧
      parseProgram (openBranch ++ wreckage) =
        ⟨[.ifThen (.named "a") (.expr (.named "b")),
            .expr (.call (.named "f") (.plain .rightParen ")") [])],
          [⟨.plain .name "x", .badTarget⟩, ⟨.plain .rightBrace "\x7d", .expectedExpression⟩,
            ⟨.finish .start, .expectedVariableName⟩]⟩ := by
  have hgood : parseProgram (openBranch ++ [.finish .start]) =
      ⟨[.ifThen (.named "a") (.expr (.named "b"))], []⟩ := by cbv
  have hbroken : parseProgram wreckage =
      ⟨[.expr (.call (.named "f") (.plain .rightParen ")") [])],
        [⟨.plain .name "x", .badTarget⟩, ⟨.plain .rightBrace "\x7d", .expectedExpression⟩,
          ⟨.finish .start, .expectedVariableName⟩]⟩ := by cbv
  have hwords : ∀ t ∈ openBranch, t.isFinish = false := by decide
  have helse : Lacks .elseWord wreckage := lacks_cons (by decide)
  refine ⟨hgood, ?_⟩
  rw [read_behind_program hwords rfl hgood helse, hbroken]
  rfl

end Script
