import Script.Syntax

/-!
# The grammar of programs

Which tokens are which tree. An expression is read at a level: at level 0 it may be an assignment,
at 1 to 9 it may be joined by the operators that bind at least that tight, at 10 it may have signs
in front, at 11 calls behind, and at 12 it is one of the smallest expressions. A statement is read
inside of a loop or not, and is open if an `else` behind it would belong to it.
-/

namespace Script

/-- How tight an operator between two operands binds, from 1 for the loosest. -/
def Kind.level : Kind → Option Nat
  | .orOr => some 1
  | .andAnd => some 2
  | .or => some 3
  | .xor => some 4
  | .and => some 5
  | .equal | .bangEqual => some 6
  | .less | .lessEqual | .greater | .greaterEqual => some 7
  | .plus | .minus => some 8
  | .star | .slash | .percent => some 9
  | _ => none

/-- The operators that may leave out their right operand. -/
def Kind.isLogical : Kind → Bool
  | .orOr | .andAnd => true
  | _ => false

def Kind.isSign : Kind → Bool
  | .bang | .minus | .plus => true
  | _ => false

theorem Kind.level_bounds {k : Kind} {n : Nat} (h : k.level = some n) : 0 < n ∧ n < 10 := by
  cases k <;> cases h <;> decide

/-! ## Expressions -/

mutual

/-- `Phrase n ts e`: at level `n` the tokens `ts` are the expression `e`. -/
inductive Phrase : Nat → List Token → Expr → Prop
  | tighter {n : Nat} {ts : List Token} {e : Expr} (hn : n < 12) (h : Phrase (n + 1) ts e) :
      Phrase n ts e
  | assign {name mark : Token} {ts : List Token} {value : Expr} (hname : name.kind = .name)
      (hmark : mark.kind = .assign) (h : Phrase 0 ts value) :
      Phrase 0 (name :: mark :: ts) (.assign name value)
  | logical {n : Nat} {op : Token} {us vs : List Token} {left right : Expr}
      (hop : op.kind.level = some n) (hlog : op.kind.isLogical = true)
      (hl : Phrase n us left) (hr : Phrase (n + 1) vs right) :
      Phrase n (us ++ op :: vs) (.logical left op right)
  | binary {n : Nat} {op : Token} {us vs : List Token} {left right : Expr}
      (hop : op.kind.level = some n) (hlog : op.kind.isLogical = false)
      (hl : Phrase n us left) (hr : Phrase (n + 1) vs right) :
      Phrase n (us ++ op :: vs) (.binary left op right)
  | sign {op : Token} {ts : List Token} {e : Expr} (hop : op.kind.isSign = true)
      (h : Phrase 10 ts e) : Phrase 10 (op :: ts) (.unary op e)
  | callNone {us : List Token} {lp rp : Token} {callee : Expr} (h : Phrase 11 us callee)
      (hlp : lp.kind = .leftParen) (hrp : rp.kind = .rightParen) :
      Phrase 11 (us ++ [lp, rp]) (.call callee rp [])
  | call {us vs : List Token} {lp rp : Token} {callee : Expr} {args : List Expr}
      (h : Phrase 11 us callee) (hlp : lp.kind = .leftParen) (hargs : Arguments vs args)
      (hlen : args.length ≤ 255) (hrp : rp.kind = .rightParen) :
      Phrase 11 (us ++ lp :: vs ++ [rp]) (.call callee rp args)
  | falseWord {word : Token} (hk : word.kind = .falseWord) :
      Phrase 12 [word] (.constant (.bool false))
  | trueWord {word : Token} (hk : word.kind = .trueWord) : Phrase 12 [word] (.constant (.bool true))
  | nilWord {word : Token} (hk : word.kind = .nilWord) : Phrase 12 [word] (.constant .nil)
  | literal {word : Token} {value : Literal} (hk : word.kind = .number ∨ word.kind = .text)
      (hv : word.literal = some value) : Phrase 12 [word] (.constant value.toConstant)
  | reference {name : Token} (hk : name.kind = .name) : Phrase 12 [name] (.reference name)
  | group {lp rp : Token} {ts : List Token} {e : Expr} (hlp : lp.kind = .leftParen)
      (h : Phrase 0 ts e) (hrp : rp.kind = .rightParen) : Phrase 12 (lp :: ts ++ [rp]) (.group e)

/-- One or more arguments with commas between them. -/
inductive Arguments : List Token → List Expr → Prop
  | one {ts : List Token} {e : Expr} (h : Phrase 0 ts e) : Arguments ts [e]
  | more {us vs : List Token} {comma : Token} {e : Expr} {es : List Expr} (h : Phrase 0 us e)
      (hc : comma.kind = .comma) (hs : Arguments vs es) : Arguments (us ++ comma :: vs) (e :: es)

end

/-! ## Statements -/

section
variable {α : Type}

/-- Tokens that may be left out. -/
inductive Optional (P : List Token → α → Prop) : List Token → Option α → Prop
  | none : Optional P [] none
  | some {ts : List Token} {a : α} (h : P ts a) : Optional P ts (some a)

end

/-- One or more parameters with commas between them. -/
inductive Parameters : List Token → List Token → Prop
  | one {p : Token} (hp : p.kind = .name) : Parameters [p] [p]
  | more {p comma : Token} {ts ps : List Token} (hp : p.kind = .name) (hc : comma.kind = .comma)
      (h : Parameters ts ps) : Parameters (p :: comma :: ts) (p :: ps)

inductive VariableDeclaration : List Token → Stmt → Prop
  | plain {word name semi : Token} (hword : word.kind = .letWord) (hname : name.kind = .name)
      (hsemi : semi.kind = .semicolon) :
      VariableDeclaration [word, name, semi] (.declare name none)
  | valued {word name mark semi : Token} {ts : List Token} {e : Expr}
      (hword : word.kind = .letWord) (hname : name.kind = .name) (hmark : mark.kind = .assign)
      (h : Phrase 0 ts e) (hsemi : semi.kind = .semicolon) :
      VariableDeclaration (word :: name :: mark :: ts ++ [semi]) (.declare name (some e))

/-- The first clause of a loop, up to its semicolon. -/
inductive FirstClause : List Token → Option Stmt → Prop
  | none {semi : Token} (hsemi : semi.kind = .semicolon) : FirstClause [semi] none
  | binding {ts : List Token} {s : Stmt} (h : VariableDeclaration ts s) :
      FirstClause ts (some s)
  | expression {ts : List Token} {semi : Token} {e : Expr} (h : Phrase 0 ts e)
      (hsemi : semi.kind = .semicolon) : FirstClause (ts ++ [semi]) (some (.expr e))

mutual

/-- `Sentence inLoop dangling ts s`: the tokens `ts` are the statement `s`, inside of a loop if
`inLoop`. It is dangling if it ends in a conditional statement that has no `else`. -/
inductive Sentence : Bool → Bool → List Token → Stmt → Prop
  | expression {inLoop : Bool} {ts : List Token} {semi : Token} {e : Expr} (h : Phrase 0 ts e)
      (hsemi : semi.kind = .semicolon) : Sentence inLoop false (ts ++ [semi]) (.expr e)
  | ret {inLoop : Bool} {word semi : Token} {ts : List Token} {value : Option Expr}
      (hword : word.kind = .returnWord) (h : Optional (Phrase 0) ts value)
      (hsemi : semi.kind = .semicolon) :
      Sentence inLoop false (word :: ts ++ [semi]) (.ret word value)
  | breakLoop {word semi : Token} (hword : word.kind = .breakWord)
      (hsemi : semi.kind = .semicolon) : Sentence true false [word, semi] (.breakLoop word)
  | continueLoop {word semi : Token} (hword : word.kind = .continueWord)
      (hsemi : semi.kind = .semicolon) : Sentence true false [word, semi] (.continueLoop word)
  | block {inLoop : Bool} {lb rb : Token} {ts : List Token} {body : List Stmt}
      (hlb : lb.kind = .leftBrace) (h : Body inLoop ts body) (hrb : rb.kind = .rightBrace) :
      Sentence inLoop false (lb :: ts ++ [rb]) (.block body)
  | whileLoop {inLoop dangling : Bool} {word lp rp : Token} {us vs : List Token} {c : Expr}
      {body : Stmt} (hword : word.kind = .whileWord) (hlp : lp.kind = .leftParen)
      (hc : Phrase 0 us c) (hrp : rp.kind = .rightParen) (h : Sentence true dangling vs body) :
      Sentence inLoop dangling (word :: lp :: us ++ rp :: vs) (.whileLoop c body)
  | forLoop {inLoop dangling : Bool} {word lp semi rp : Token} {us vs ws xs : List Token}
      {first : Option Stmt} {c i : Option Expr} {body : Stmt} (hword : word.kind = .forWord)
      (hlp : lp.kind = .leftParen) (hfirst : FirstClause us first) (hc : Optional (Phrase 0) vs c)
      (hsemi : semi.kind = .semicolon) (hi : Optional (Phrase 0) ws i)
      (hrp : rp.kind = .rightParen) (h : Sentence true dangling xs body) :
      Sentence inLoop dangling (word :: lp :: us ++ vs ++ semi :: ws ++ rp :: xs)
        (.block (first.toList ++ [.forLoop (c.getD (.constant (.bool true))) i body]))
  | ifThen {inLoop dangling : Bool} {word lp rp : Token} {us vs : List Token} {c : Expr}
      {body : Stmt} (hword : word.kind = .ifWord) (hlp : lp.kind = .leftParen)
      (hc : Phrase 0 us c) (hrp : rp.kind = .rightParen) (h : Sentence inLoop dangling vs body) :
      Sentence inLoop true (word :: lp :: us ++ rp :: vs) (.ifThen c body)
  | ifElse {inLoop dangling : Bool} {word lp rp mid : Token} {us vs ws : List Token} {c : Expr}
      {body otherwise : Stmt} (hword : word.kind = .ifWord) (hlp : lp.kind = .leftParen)
      (hc : Phrase 0 us c) (hrp : rp.kind = .rightParen) (h : Sentence inLoop false vs body)
      (hmid : mid.kind = .elseWord) (h' : Sentence inLoop dangling ws otherwise) :
      Sentence inLoop dangling (word :: lp :: us ++ rp :: vs ++ mid :: ws)
        (.ifElse c body otherwise)

/-- A statement, or the declaration of a variable or a function. -/
inductive Declaration : Bool → List Token → Stmt → Prop
  | binding {inLoop : Bool} {ts : List Token} {s : Stmt} (h : VariableDeclaration ts s) :
      Declaration inLoop ts s
  | function {inLoop : Bool} {word name lp rp lb rb : Token} {us vs : List Token}
      {params : Option (List Token)} {body : List Stmt} (hword : word.kind = .funcWord)
      (hname : name.kind = .name) (hlp : lp.kind = .leftParen)
      (hparams : Optional Parameters us params) (hlen : (params.getD []).length ≤ 255)
      (hdistinct : ((params.getD []).map Token.source).Nodup) (hrp : rp.kind = .rightParen)
      (hlb : lb.kind = .leftBrace) (h : Body false vs body) (hrb : rb.kind = .rightBrace) :
      Declaration inLoop (word :: name :: lp :: us ++ rp :: lb :: vs ++ [rb])
        (.func name (params.getD []) body)
  | sentence {inLoop dangling : Bool} {ts : List Token} {s : Stmt}
      (h : Sentence inLoop dangling ts s) : Declaration inLoop ts s

/-- Declarations one after another. -/
inductive Body : Bool → List Token → List Stmt → Prop
  | nil {inLoop : Bool} : Body inLoop [] []
  | cons {inLoop : Bool} {us vs : List Token} {s : Stmt} {body : List Stmt}
      (h : Declaration inLoop us s) (hs : Body inLoop vs body) :
      Body inLoop (us ++ vs) (s :: body)

end

/-- A program: declarations outside of any loop. -/
def Program (ts : List Token) (p : List Stmt) : Prop := Body false ts p

theorem Phrase.loosen {ts : List Token} {e : Expr} : ∀ {n : Nat} (d : Nat), n + d ≤ 12 →
    Phrase (n + d) ts e → Phrase n ts e
  | _, 0, _, h => h
  | _, d + 1, hd, h => Phrase.loosen d (by omega) (.tighter (by omega) h)

/-! ## How trees start -/

/-- The tokens that an expression may start with. -/
def Kind.opensPhrase : Kind → Bool
  | .bang | .minus | .plus | .falseWord | .trueWord | .nilWord | .number | .text | .name
  | .leftParen => true
  | _ => false

theorem Kind.opensPhrase_of_isSign {k : Kind} (h : k.isSign = true) : k.opensPhrase = true := by
  cases k <;> simp_all [Kind.isSign, Kind.opensPhrase]

theorem Phrase.head {n : Nat} {ts : List Token} {e : Expr} : Phrase n ts e →
    ∃ x xs, ts = x :: xs ∧ x.kind.opensPhrase = true ∧ (11 ≤ n → x.kind.isSign = false)
  | .tighter _ h => by
    obtain ⟨x, xs, rfl, hx, hs⟩ := h.head
    exact ⟨x, xs, rfl, hx, fun hn => hs (by omega)⟩
  | .assign hname _ _ => ⟨_, _, rfl, by rw [hname]; rfl, by omega⟩
  | .logical _ _ hl _ | .binary _ _ hl _ => by
    obtain ⟨x, xs, rfl, hx, hs⟩ := hl.head
    exact ⟨x, _, rfl, hx, hs⟩
  | .sign hop _ => ⟨_, _, rfl, Kind.opensPhrase_of_isSign hop, by omega⟩
  | .callNone h _ _ | .call h _ _ _ _ => by
    obtain ⟨x, xs, rfl, hx, hs⟩ := h.head
    exact ⟨x, _, rfl, hx, hs⟩
  | .falseWord hk | .trueWord hk | .nilWord hk | .reference hk | .group hk _ _ =>
    ⟨_, _, rfl, by rw [hk]; rfl, fun _ => by rw [hk]; rfl⟩
  | .literal hk _ => by
    rcases hk with hk | hk <;> exact ⟨_, _, rfl, by rw [hk]; rfl, fun _ => by rw [hk]; rfl⟩

theorem Arguments.head {ts : List Token} {es : List Expr} (h : Arguments ts es) :
    ∃ x xs, ts = x :: xs ∧ x.kind.opensPhrase = true := by
  cases h with
  | one h | more h =>
    obtain ⟨x, xs, rfl, hx, _⟩ := h.head
    exact ⟨x, _, rfl, hx⟩

/-- The tokens that a statement may start with. -/
def Kind.opensSentence : Kind → Bool
  | .returnWord | .breakWord | .continueWord | .leftBrace | .whileWord | .forWord | .ifWord => true
  | k => k.opensPhrase

/-- The tokens that a declaration may start with. -/
def Kind.opensDeclaration : Kind → Bool
  | .funcWord | .letWord => true
  | k => k.opensSentence

theorem Kind.opensSentence_of_opensPhrase {k : Kind} (h : k.opensPhrase = true) :
    k.opensSentence = true := by
  cases k <;> first | rfl | exact h

theorem Kind.opensDeclaration_of_opensSentence {k : Kind} (h : k.opensSentence = true) :
    k.opensDeclaration = true := by
  cases k <;> first | rfl | exact h

theorem Sentence.head {inLoop dangling : Bool} {ts : List Token} {s : Stmt}
    (h : Sentence inLoop dangling ts s) :
    ∃ x xs, ts = x :: xs ∧ x.kind.opensSentence = true := by
  cases h with
  | expression h =>
    obtain ⟨x, xs, rfl, hx, _⟩ := h.head
    exact ⟨x, _, rfl, Kind.opensSentence_of_opensPhrase hx⟩
  | ret hword | breakLoop hword | continueLoop hword | block hword | whileLoop hword
  | forLoop hword | ifThen hword | ifElse hword => exact ⟨_, _, rfl, by rw [hword]; rfl⟩

theorem Declaration.head {inLoop : Bool} {ts : List Token} {s : Stmt}
    (h : Declaration inLoop ts s) : ∃ x xs, ts = x :: xs ∧ x.kind.opensDeclaration = true := by
  cases h with
  | binding h => cases h with
    | plain hword | valued hword => exact ⟨_, _, rfl, by rw [hword]; rfl⟩
  | function hword => exact ⟨_, _, rfl, by rw [hword]; rfl⟩
  | sentence h =>
    obtain ⟨x, xs, rfl, hx⟩ := h.head
    exact ⟨x, xs, rfl, Kind.opensDeclaration_of_opensSentence hx⟩

theorem Body.length_le {inLoop : Bool} {ts : List Token} {body : List Stmt} :
    Body inLoop ts body → body.length ≤ ts.length
  | .nil => Nat.le_refl 0
  | .cons h hs => by
    obtain ⟨x, xs, rfl, _⟩ := h.head
    have := hs.length_le
    simp only [List.length_cons, List.cons_append, List.length_append]
    omega

theorem Phrase.reference_tokens {n : Nat} {ts : List Token} {e : Expr} : Phrase n ts e →
    ∀ name, e = .reference name → ts = [name] ∧ name.kind = .name
  | .tighter _ h => h.reference_tokens
  | .reference hk => by rintro name ⟨⟩; exact ⟨rfl, hk⟩
  | .assign _ _ _ | .logical _ _ _ _ | .binary _ _ _ _ | .sign _ _ | .callNone _ _ _
  | .call _ _ _ _ _ | .falseWord _ | .trueWord _ | .nilWord _ | .literal _ _ | .group _ _ _ =>
    by rintro name ⟨⟩

theorem Arguments.ne_nil {ts : List Token} {es : List Expr} (h : Arguments ts es) : es ≠ [] := by
  cases h <;> exact List.cons_ne_nil _ _

theorem Arguments.snoc {us vs : List Token} {comma : Token} {es : List Expr} {e : Expr} :
    Arguments us es → comma.kind = .comma → Phrase 0 vs e →
      Arguments (us ++ comma :: vs) (es ++ [e])
  | .one h, hc, he => .more h hc (.one he)
  | .more h hc' hs, hc, he => by
    rw [List.append_assoc, List.cons_append]
    exact .more h hc' (hs.snoc hc he)

/-! ## No tree has the end of the text in it -/

/-- Tokens none of which ends the text. -/
def Words (ts : List Token) : Prop := ∀ t ∈ ts, t.kind ≠ .finish

@[simp] theorem words_nil : Words [] := by
  simp [Words]

@[simp] theorem words_cons {x : Token} {xs : List Token} :
    Words (x :: xs) ↔ x.kind ≠ .finish ∧ Words xs := by
  simp [Words]

@[simp] theorem words_append {us vs : List Token} :
    Words (us ++ vs) ↔ Words us ∧ Words vs := by
  simp [Words, or_imp, forall_and]

theorem Kind.ne_finish_of_level {k : Kind} {n : Nat} (h : k.level = some n) : k ≠ .finish := by
  rintro rfl
  cases h

theorem Kind.ne_finish_of_isSign {k : Kind} (h : k.isSign = true) : k ≠ .finish := by
  rintro rfl
  cases h

mutual

theorem Phrase.words {n : Nat} {ts : List Token} {e : Expr} : Phrase n ts e → Words ts
  | .tighter _ h => h.words
  | .assign hname hmark h => by simp [hname, hmark, h.words]
  | .logical hop _ hl hr | .binary hop _ hl hr => by
    simp [hl.words, hr.words, Kind.ne_finish_of_level hop]
  | .sign hop h => by simp [h.words, Kind.ne_finish_of_isSign hop]
  | .callNone h hlp hrp => by simp [h.words, hlp, hrp]
  | .call h hlp hargs _ hrp => by simp [h.words, hlp, hargs.words, hrp]
  | .falseWord hk | .trueWord hk | .nilWord hk | .reference hk => by simp [hk]
  | .literal hk _ => by rcases hk with hk | hk <;> simp [hk]
  | .group hlp h hrp => by simp [hlp, h.words, hrp]

theorem Arguments.words {ts : List Token} {es : List Expr} : Arguments ts es → Words ts
  | .one h => h.words
  | .more h hc hs => by simp [h.words, hc, hs.words]

end

theorem Parameters.words {ts ps : List Token} : Parameters ts ps → Words ts
  | .one hp => by simp [hp]
  | .more hp hc h => by simp [hp, hc, h.words]

theorem Optional.words {α : Type} {P : List Token → α → Prop} {ts : List Token} {a : Option α}
    (h : Optional P ts a) (hP : ∀ us b, P us b → Words us) : Words ts := by
  cases h with
  | none => exact words_nil
  | some h => exact hP _ _ h

theorem VariableDeclaration.words {ts : List Token} {s : Stmt} (h : VariableDeclaration ts s) :
    Words ts := by
  cases h with
  | plain hword hname hsemi => simp [hword, hname, hsemi]
  | valued hword hname hmark h hsemi => simp [hword, hname, hmark, h.words, hsemi]

theorem FirstClause.words {ts : List Token} {s : Option Stmt} (h : FirstClause ts s) :
    Words ts := by
  cases h with
  | none hsemi => simp [hsemi]
  | binding h => exact h.words
  | expression h hsemi => simp [h.words, hsemi]

mutual

theorem Sentence.words {inLoop dangling : Bool} {ts : List Token} {s : Stmt} :
    Sentence inLoop dangling ts s → Words ts
  | .expression h hsemi => by simp [h.words, hsemi]
  | .ret hword h hsemi => by simp [hword, h.words fun _ _ => Phrase.words, hsemi]
  | .breakLoop hword hsemi | .continueLoop hword hsemi => by simp [hword, hsemi]
  | .block hlb h hrb => by simp [hlb, h.words, hrb]
  | .whileLoop hword hlp hc hrp h => by simp [hword, hlp, hc.words, hrp, h.words]
  | .forLoop hword hlp hfirst hc hsemi hi hrp h => by
    simp [hword, hlp, hfirst.words, hc.words fun _ _ => Phrase.words, hsemi,
      hi.words fun _ _ => Phrase.words, hrp, h.words]
  | .ifThen hword hlp hc hrp h => by simp [hword, hlp, hc.words, hrp, h.words]
  | .ifElse hword hlp hc hrp h hmid h' => by
    simp [hword, hlp, hc.words, hrp, h.words, hmid, h'.words]

theorem Declaration.words {inLoop : Bool} {ts : List Token} {s : Stmt} :
    Declaration inLoop ts s → Words ts
  | .binding h => h.words
  | .function hword hname hlp hparams _ _ hrp hlb h hrb => by
    simp [hword, hname, hlp, hparams.words fun _ _ => Parameters.words, hrp, hlb, h.words, hrb]
  | .sentence h => h.words

theorem Body.words {inLoop : Bool} {ts : List Token} {body : List Stmt} :
    Body inLoop ts body → Words ts
  | .nil => words_nil
  | .cons h hs => by simp [h.words, hs.words]

end

end Script
