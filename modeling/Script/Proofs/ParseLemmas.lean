import Script.Proofs.Grammar
import Script.Proofs.Tape.Stmt

/-!
# Parsers as sequences

The laws of sequencing, and the parsers of statements as plain sequences: a part that may be left
out, and an objection that is made only under a condition, become parsers of their own.
-/

namespace Script

theorem Tape.ofTokens_append {ts more : List Token} {eof : Token}
    (hts : ∀ t ∈ ts, t.isFinish = false) (heof : eof.isFinish = true) :
    Tape.ofTokens (ts ++ eof :: more) = { last := ts.headD eof, rest := ts, stop := eof } := by
  have hfind : (ts ++ eof :: more).find? Token.isFinish = some eof := by
    rw [List.find?_append, List.find?_eq_none.2 (by simpa using hts)]
    simp [heof]
  have htake : (ts ++ eof :: more).takeWhile (!·.isFinish) = ts := by
    rw [List.takeWhile_append_of_pos (by simpa using hts)]
    simp [heof]
  unfold Tape.ofTokens
  rw [hfind, htake]
  cases ts <;> rfl

namespace Parse

variable {α β γ : Type}

instance : LawfulMonad Parse := LawfulMonad.mk' Parse
  (fun p => by
    funext t
    show Parse.bind p _ t = p t
    unfold Parse.bind
    split <;> simp_all [Parse.pure])
  (fun _ _ => rfl)
  (fun p f g => by
    funext t
    show Parse.bind (Parse.bind p f) g t = Parse.bind p (fun a => Parse.bind (f a) g) t
    unfold Parse.bind
    cases p t with
    | mk r t => cases r <;> rfl)

theorem bind_some {p : Parse α} {f : α → Parse β} {t u : Tape} {a : α}
    (h : p t = (some a, u)) : (p >>= f) t = f a u := by
  show Parse.bind p f t = f a u
  simp only [Parse.bind, h]

theorem bind_none {p : Parse α} {f : α → Parse β} {t u : Tape}
    (h : p t = (none, u)) : (p >>= f) t = (none, u) := by
  show Parse.bind p f t = (none, u)
  simp only [Parse.bind, h]

theorem ite_bind (c : Prop) [Decidable c] (p q : Parse α) (f : α → Parse β) :
    (if c then p else q) >>= f = if c then p >>= f else q >>= f := by
  split <;> rfl

theorem peek_bind (p : Parse α) : (peek >>= fun _ => p) = p := rfl

/-- Tokens that do not start with one of kind `k`. -/
def Lacks (k : Kind) (ts : List Token) : Prop := ∀ x, ts.head? = some x → x.kind ≠ k

theorem lacks_cons {k : Kind} {x : Token} {xs : List Token} (h : x.kind ≠ k) :
    Lacks k (x :: xs) := by
  intro y hy
  cases hy
  exact h

theorem not_lacks {k : Kind} {ts : List Token} (h : ¬ Lacks k ts) :
    ∃ x xs, ts = x :: xs ∧ x.kind = k := by
  unfold Lacks at h
  cases ts with
  | nil => simp at h
  | cons x xs => exact ⟨x, xs, rfl, by simpa using h⟩

theorem expect_nil {k : Kind} {c : Complaint} {t : Tape} (h : t.rest = []) :
    expect k c t = (none, t.object t.stop c) := by
  simp only [expect, h]

theorem expect_cons {k : Kind} {c : Complaint} {t : Tape} {x : Token} {xs : List Token}
    (h : t.rest = x :: xs) : expect k c t =
      if x.kind = k then (some x, t.skip) else (none, t.object x c) := by
  simp [expect, h]

theorem acceptAny_nil {k : List Kind} {t : Tape} (h : t.rest = []) :
    acceptAny k t = (some none, t) := by
  simp only [acceptAny, h]

theorem acceptAny_cons {k : List Kind} {t : Tape} {x : Token} {xs : List Token}
    (h : t.rest = x :: xs) :
    acceptAny k t = if x.kind ∈ k then (some (some x), t.skip) else (some none, t) := by
  simp [acceptAny, h]

theorem accept_cons {k : Kind} {t : Tape} {x : Token} {xs : List Token} (h : t.rest = x :: xs)
    (hx : x.kind = k) : accept k t = (some true, t.skip) := by
  simp [accept, h, hx]

theorem accept_lacks {k : Kind} {t : Tape} (h : Lacks k t.rest) :
    accept k t = (some false, t) := by
  unfold accept
  split
  · rfl
  · rename_i x xs hrest
    have : x.kind ≠ k := h x (by rw [hrest]; rfl)
    rw [if_neg (by simpa using this)]

theorem sees_cons {k : Kind} {t : Tape} {x : Token} {xs : List Token} (h : t.rest = x :: xs)
    (hx : x.kind = k) : sees k t = (some true, t) := by
  simp [sees, h, hx]

theorem sees_lacks {k : Kind} {t : Tape} (h : Lacks k t.rest) : sees k t = (some false, t) := by
  unfold sees
  cases hrest : t.rest with
  | nil => rfl
  | cons x xs =>
    have : x.kind ≠ k := h x (by rw [hrest]; rfl)
    simp [this]

/-- Reads what `p` reads, unless a token of kind `k` follows. -/
def optionally (k : Kind) (p : Parse α) : Parse (Option α) := do
  if ← sees k then pure none else some <$> p

/-- Reads the value of a variable, if one is given. -/
def initialiser (expr : Parse Expr) : Parse (Option Expr) := do
  if ← accept .assign then some <$> expr else pure none

/-- Objects to a token if `c` holds, and goes on. -/
def objectIf (c : Prop) [Decidable c] (token : Token) (complaint : Complaint) : Parse Unit :=
  if c then object token complaint else pure ()

theorem arguments_eq (bound : Nat) (argument : Parse Expr) :
    arguments bound argument = (do
      let args ← optionally .rightParen (do moreArguments argument bound [← argument])
      pure (args.getD [])) := by
  simp [arguments, optionally, apply_ite]

theorem functionDeclaration_eq (bound : Nat) (block : Parse (List Stmt)) :
    functionDeclaration bound block = (do
      let name ← expect .name .expectedFunctionName
      let _ ← expect .leftParen .expectedParenAfterFunctionName
      let params ← optionally .rightParen (parameters bound [])
      let _ ← expect .rightParen .expectedParenAfterParameters
      let _ ← expect .leftBrace .expectedBraceBeforeBody
      let body ← withLoops (fun _ => 0) block
      pure (.func name (params.getD []) body)) := by
  simp [functionDeclaration, optionally, ite_bind]

theorem variableDeclaration_eq (expr : Parse Expr) :
    variableDeclaration expr = (do
      let name ← expect .name .expectedVariableName
      let value ← initialiser expr
      let _ ← expect .semicolon .expectedSemicolonAfterDeclaration
      pure (.declare name value)) := by
  simp [variableDeclaration, initialiser, ite_bind]

theorem returnStatement_eq (expr : Parse Expr) (keyword : Token) :
    returnStatement expr keyword = (do
      let value ← optionally .semicolon expr
      let _ ← expect .semicolon .expectedSemicolonAfterReturn
      pure (.ret keyword value)) := by
  simp [returnStatement, optionally, ite_bind]

theorem loopControl_eq (keyword : Token) :
    loopControl keyword = (do
      let n ← loops
      objectIf (n = 0) keyword (.outsideLoop keyword.source)
      let _ ← expect .semicolon (.expectedSemicolonAfterWord keyword.source)
      pure (if keyword.kind == .breakWord then .breakLoop keyword else .continueLoop keyword)) := by
  simp [loopControl, objectIf, ite_bind]

theorem forStatement_eq (expr : Parse Expr) (stmt : Parse Stmt) :
    forStatement expr stmt = (do
      let _ ← expect .leftParen .expectedParenAfterFor
      let first ← firstClause expr
      let condition ← optionally .semicolon expr
      let _ ← expect .semicolon .expectedSemicolonAfterCondition
      let increment ← optionally .rightParen expr
      let _ ← expect .rightParen .expectedParenAfterClauses
      let body ← withLoops (· + 1) stmt
      pure (.block (first.toList ++
        [.forLoop (condition.getD (.constant (.bool true))) increment body]))) := by
  simp [forStatement, optionally, ite_bind]

theorem parameters_succ (n : Nat) (params : List Token) :
    parameters (n + 1) params = (do
      let next ← peek
      objectIf (params.length ≥ maxArguments) next .tooManyParameters
      let param ← expect .name .expectedParameterName
      objectIf (params.any (·.source == param.source)) param .duplicateParameter
      if ← accept .comma then parameters n (param :: params)
      else pure (param :: params).reverse) := by
  by_cases h : params.length ≥ maxArguments
  · simp [parameters, objectIf, ite_bind, h]
  · simp [parameters, objectIf, ite_bind, h, peek_bind]

theorem moreArguments_succ (argument : Parse Expr) (n : Nat) (args : List Expr) :
    moreArguments argument (n + 1) args = (do
      if ← accept .comma then
        let next ← peek
        objectIf (args.length ≥ maxArguments) next .tooManyArguments
        moreArguments argument n ((← argument) :: args)
      else pure args.reverse) := by
  by_cases h : args.length ≥ maxArguments
  · simp [moreArguments, objectIf, h]
  · simp [moreArguments, objectIf, h, peek_bind]

/-- `declarations` as a parser: it never gives up. -/
def declared (declaration : Parse Stmt) (closing : Option Kind) (n : Nat) (body : List Stmt) :
    Parse (List Stmt) := fun t =>
  (some (declarations declaration closing n body t).1,
    (declarations declaration closing n body t).2)

theorem block_succ (n : Nat) : block (n + 1) = (do
    let body ← declared (declaration n) (some .rightBrace) n []
    let _ ← expect .rightBrace .expectedBraceAfterBlock
    pure body) := by
  unfold block
  rfl

/-! ## The levels of operators -/

/-- Lists of operators by level, from level `n` up to the last one. -/
def Graded : Nat → List (List Kind) → Prop
  | n, [] => n = 10
  | n, ops :: tighter => n < 10 ∧ (∀ k, k ∈ ops ↔ k.level = some n) ∧ Graded (n + 1) tighter

theorem precedence_graded : Graded 1 precedence := by
  simp only [precedence, Graded]
  refine ⟨by decide, ?_, by decide, ?_, by decide, ?_, by decide, ?_, by decide, ?_, by decide, ?_,
    by decide, ?_, by decide, ?_, by decide, ?_, trivial⟩ <;> intro k <;> cases k <;> decide

theorem join_logical {op : Token} (h : op.kind.isLogical = true) (left right : Expr) :
    join left op right = .logical left op right := by
  unfold join
  cases hk : op.kind <;> rw [hk] at h <;> first | rfl | cases h

theorem join_binary {op : Token} (h : op.kind.isLogical = false) (left right : Expr) :
    join left op right = .binary left op right := by
  unfold join
  cases hk : op.kind <;> rw [hk] at h <;> first | rfl | cases h

theorem signs_isSign {k : Kind} : k ∈ signs ↔ k.isSign = true := by
  cases k <;> decide

end Parse

end Script
