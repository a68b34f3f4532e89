import Script.Proofs.ParseComplete

/-!
# Completeness of the parser: statements and programs

A statement is read as what the grammar says it is, unless it could still take an `else` and one
follows. Of a list of declarations it is shown how far the loop that reads them has come behind
them. The parser is a function, so no tokens are two programs.
-/

namespace Script

namespace Parse

variable {inLoop dangling : Bool}

/-! ## Clauses and declarations -/

theorem lacks_phrase {n : Nat} {k : Kind} {ts rest : List Token} {e : Expr} (h : Phrase n ts e)
    (hk : k.opensPhrase = false) : Lacks k (ts ++ rest) := by
  obtain ⟨x, xs, rfl, hx, _⟩ := h.head
  refine lacks_cons fun h => ?_
  rw [h, hk] at hx
  cases hx

theorem clause_reads {f : Nat} {k : Kind} {ts xs : List Token} {x : Token} {c : Option Expr}
    (h : Optional (Phrase 0) ts c) (hf : 2 * ts.length + 2 ≤ f) (hx : x.kind = k)
    (hk : endsPhrase k = true) : Reads inLoop (optionally k (expression f)) ts (x :: xs) c := by
  cases h with
  | none => exact reads_optionally_none hx
  | some h =>
    refine reads_optionally_some (lacks_phrase h ?_) (expression_reads h hf (by rw [hx, hk]))
    cases k <;> first | rfl | cases hk

theorem initialiser_none {expr : Parse Expr} {rest : List Token} (h : Lacks .assign rest) :
    Reads inLoop (initialiser expr) [] rest none :=
  reads_accept_not h (reads_pure none)

theorem initialiser_some {expr : Parse Expr} {mark : Token} {ts rest : List Token} {e : Expr}
    (hmark : mark.kind = .assign) (h : Reads inLoop expr ts rest e) :
    Reads inLoop (initialiser expr) (mark :: ts) rest (some e) :=
  reads_accept hmark (h.map some)

theorem variableDeclaration_reads {f : Nat} {ts rest : List Token} {s : Stmt}
    (h : VariableDeclaration ts s) (hf : 2 * ts.length + 2 ≤ f) :
    ∃ word us, ts = word :: us ∧ word.kind = .letWord ∧
      Reads inLoop (variableDeclaration (expression f)) us rest s := by
  rw [variableDeclaration_eq]
  cases h with
  | plain hword hname hsemi =>
    refine ⟨_, _, rfl, hword, reads_expect hname ?_⟩
    refine (initialiser_none (lacks_cons ?_)).bind_nil (reads_expect hsemi (reads_pure _))
    rw [hsemi]
    decide
  | valued hword hname hmark h hsemi =>
    simp only [List.length_append, List.length_cons, List.length_nil] at hf
    refine ⟨_, _, rfl, hword, reads_expect hname ?_⟩
    refine (initialiser_some hmark ?_).bind (reads_expect hsemi (reads_pure _))
    exact expression_reads h (by omega) (by rw [hsemi]; rfl)

theorem expressionStatement_reads {f : Nat} {ts rest : List Token} {semi : Token} {e : Expr}
    (h : Phrase 0 ts e) (hsemi : semi.kind = .semicolon) (hf : 2 * ts.length + 2 ≤ f) :
    Reads inLoop (expressionStatement (expression f)) (ts ++ [semi]) rest (.expr e) :=
  (expression_reads h hf (by rw [hsemi]; rfl)).bind (reads_expect hsemi (reads_pure _))

theorem firstClause_reads {f : Nat} {ts rest : List Token} {first : Option Stmt}
    (h : FirstClause ts first) (hf : 2 * ts.length + 2 ≤ f) :
    Reads inLoop (firstClause (expression f)) ts rest first := by
  unfold firstClause
  cases h with
  | none hsemi => exact reads_accept hsemi (reads_pure none)
  | binding h =>
    obtain ⟨word, us, rfl, hword, hread⟩ := variableDeclaration_reads h hf
    refine reads_accept_not (lacks_cons (by rw [hword]; decide)) ?_
    exact reads_accept hword (hread.map some)
  | expression h hsemi =>
    simp only [List.length_append, List.length_cons, List.length_nil] at hf
    refine reads_accept_not ?_ (reads_accept_not ?_ ?_)
    · rw [List.append_assoc]
      exact lacks_phrase h rfl
    · rw [List.append_assoc]
      exact lacks_phrase h rfl
    · exact (expressionStatement_reads h hsemi (by omega)).map some

theorem not_repeated {p : Token} {before ps : List Token}
    (h : ((before.reverse ++ p :: ps).map Token.source).Nodup) :
    ¬ before.any (·.source == p.source) = true := by
  intro hany
  obtain ⟨q, hq, hsource⟩ := List.any_eq_true.1 hany
  rw [List.map_append, List.nodup_append] at h
  refine h.2.2 q.source ?_ p.source ?_ (beq_iff_eq.1 hsource)
  · exact List.mem_map_of_mem (List.mem_reverse.2 hq)
  · exact List.mem_map_of_mem List.mem_cons_self

theorem parameters_reads {b : Nat} {ts ps rest before : List Token} (h : Parameters ts ps)
    (hb : ts.length ≤ b) (hrest : Lacks .comma rest) (hlen : before.length + ps.length ≤ 255)
    (hnew : ((before.reverse ++ ps).map Token.source).Nodup) :
    Reads inLoop (parameters b before) ts rest (before.reverse ++ ps) := by
  induction h generalizing b before with
  | @one p hp =>
    obtain ⟨b, rfl⟩ : ∃ c, b = c + 1 := ⟨b - 1, by simp only [List.length_cons] at hb; omega⟩
    rw [parameters_succ, ← List.reverse_cons]
    refine reads_peek_any fun _ => reads_objectIf ?_ (reads_expect hp (reads_objectIf ?_ ?_))
    · simp only [List.length_cons, List.length_nil, maxArguments] at hlen ⊢
      omega
    · exact not_repeated hnew
    · exact reads_accept_not hrest (reads_pure _)
  | @more p comma ts ps hp hc h ih =>
    obtain ⟨b, rfl⟩ : ∃ c, b = c + 1 := ⟨b - 1, by simp only [List.length_cons] at hb; omega⟩
    simp only [List.length_cons] at hb hlen
    have happ : before.reverse ++ p :: ps = (p :: before).reverse ++ ps := by
      rw [List.reverse_cons, List.append_assoc]
      rfl
    rw [parameters_succ, happ]
    refine reads_peek_any fun _ => reads_objectIf ?_ (reads_expect hp (reads_objectIf ?_ ?_))
    · simp only [maxArguments]
      omega
    · exact not_repeated hnew
    · rw [happ] at hnew
      exact reads_accept hc (ih (by omega) (by simp only [List.length_cons]; omega) hnew)

/-! ## Statements -/

/-- The tokens are read as the statement `s`, unless it could take the `else` that follows. -/
def Stated (inLoop dangling : Bool) (ts : List Token) (s : Stmt) : Prop :=
  ∀ f rest, 3 * ts.length + 2 ≤ f → (dangling = true → Lacks .elseWord rest) →
    Reads inLoop (statement (f + 1)) ts rest s

theorem Stated.reads {ts rest : List Token} {s : Stmt} {f : Nat} (h : Stated inLoop dangling ts s)
    (hf : 3 * ts.length + 3 ≤ f) (hrest : dangling = true → Lacks .elseWord rest) :
    Reads inLoop (statement f) ts rest s := by
  cases f with
  | zero => omega
  | succ f => exact h f rest (by omega) hrest

/-- The tokens are read as the declaration `s`. -/
def Announced (inLoop : Bool) (ts : List Token) (s : Stmt) : Prop :=
  ∀ f rest, 3 * ts.length + 3 ≤ f → Lacks .elseWord rest →
    Reads inLoop (declaration (f + 1)) ts rest s

theorem Announced.reads {ts rest : List Token} {s : Stmt} {f : Nat} (h : Announced inLoop ts s)
    (hf : 3 * ts.length + 4 ≤ f) (hrest : Lacks .elseWord rest) :
    Reads inLoop (declaration f) ts rest s := by
  cases f with
  | zero => omega
  | succ f => exact h f rest (by omega) hrest

/-- After reading the tokens, the loop of declarations goes on with `body`, if no declaration is
taken for the end. -/
def Gathered (inLoop : Bool) (ts : List Token) (body : List Stmt) : Prop :=
  ∀ f c b before rest t, 3 * ts.length + 4 ≤ f → (∀ k, c = some k → k.opensDeclaration = false) →
    Lacks .elseWord rest → t.rest = ts ++ rest → (inLoop = true → t.loops ≠ 0) →
    declared (declaration f) c (b + body.length) before t =
      declared (declaration f) c b (body.reverse ++ before) (t.after ts)

theorem declared_ends {d : Parse Stmt} {c : Option Kind} {b : Nat} {before : List Stmt} {t : Tape}
    (h : t.rest = [] ∨ c = some t.peek.kind) :
    declared d c b before t = (some before.reverse, t) := by
  unfold declared
  cases b with
  | zero => rfl
  | succ b =>
    have hend : (t.atEnd || c == some t.peek.kind) = true := by
      simpa [Tape.atEnd] using h
    simp only [declarations, if_pos hend]

theorem declared_turn {d : Parse Stmt} {c : Option Kind} {b : Nat} {before : List Stmt} {s : Stmt}
    {t u : Tape} {x : Token} {xs : List Token} (ht : t.rest = x :: xs) (hc : c ≠ some x.kind)
    (hd : d t = (some s, u)) :
    declared d c (b + 1) before t = declared d c b (s :: before) u := by
  have hgo : (t.atEnd || c == some t.peek.kind) = false := by
    simpa [Tape.atEnd, Tape.peek, ht] using hc
  unfold declared
  simp [declarations, hgo, hd]

theorem gathered_nil : Gathered inLoop [] [] := by
  intro f c b before rest t _ _ _ _ _
  rfl

theorem Announced.gathered {us vs : List Token} {s : Stmt} {body : List Stmt}
    (h : Announced inLoop us s) (hs : Gathered inLoop vs body) (hus : Declaration inLoop us s)
    (hvs : Body inLoop vs body) : Gathered inLoop (us ++ vs) (s :: body) := by
  intro f c b before rest t hf hc hrest ht hl
  simp only [List.length_append] at hf
  rw [List.append_assoc] at ht
  have helse : Lacks .elseWord (vs ++ rest) := by
    cases hvs with
    | nil => exact hrest
    | cons h' _ =>
      obtain ⟨x, xs, rfl, hx⟩ := h'.head
      refine lacks_cons fun hk => ?_
      rw [hk] at hx
      cases hx
  have hread := h.reads (f := f) (by omega) helse t ht hl
  obtain ⟨x, xs, rfl, hx⟩ := hus.head
  have hopen : c ≠ some x.kind := by
    intro hk
    rw [hc _ hk] at hx
    cases hx
  rw [List.length_cons, ← Nat.add_assoc, declared_turn ht hopen hread,
    hs f c b (s :: before) rest _ (by omega) hc hrest (Tape.rest_after ht) hl, Tape.after_after,
    List.reverse_cons, List.append_assoc]
  rfl

theorem Gathered.block {ts rest : List Token} {rb : Token} {body : List Stmt} {f : Nat}
    (h : Gathered inLoop ts body) (hts : Body inLoop ts body) (hrb : rb.kind = .rightBrace)
    (hf : 3 * ts.length + 5 ≤ f) : Reads inLoop (block f) (ts ++ [rb]) rest body := by
  obtain ⟨f, rfl⟩ : ∃ c, f = c + 1 := ⟨f - 1, by omega⟩
  rw [block_succ]
  refine Reads.bind ?_ (reads_expect hrb (reads_pure body))
  intro t ht hl
  have hlen := hts.length_le
  have hread := h f (some .rightBrace) (f - body.length) [] _ t (by omega)
    (fun k hk => by cases hk; rfl) (lacks_cons (by rw [hrb]; decide)) ht hl
  rw [Nat.sub_add_cancel (by omega)] at hread
  rw [hread, declared_ends, List.append_nil, List.reverse_reverse]
  right
  have hrest := Tape.rest_after ht
  simp [Tape.peek, hrest, hrb]

section
variable {word semi lp rp : Token} {us vs : List Token} {c : Expr} {body : Stmt}

theorem stated_expression (h : Phrase 0 us c) (hsemi : semi.kind = .semicolon) :
    Stated inLoop false (us ++ [semi]) (.expr c) := by
  intro f rest hf _
  simp only [List.length_append, List.length_cons, List.length_nil] at hf
  have hread : Reads inLoop _ (us ++ [semi]) rest _ :=
    expressionStatement_reads (f := f) h hsemi (by omega)
  obtain ⟨x, xs, rfl, hx, _⟩ := h.head
  unfold statement
  refine reads_peek rfl ?_
  split
  case h_8 => exact hread
  all_goals
    rename_i hk
    rw [hk] at hx
    cases hx

theorem stated_ret {value : Option Expr} (hword : word.kind = .returnWord)
    (h : Optional (Phrase 0) us value) (hsemi : semi.kind = .semicolon) :
    Stated inLoop false (word :: us ++ [semi]) (.ret word value) := by
  intro f rest hf _
  simp only [List.length_append, List.length_cons, List.length_nil] at hf
  unfold statement
  refine reads_peek rfl ?_
  simp only [hword, returnStatement_eq]
  refine reads_skip ((clause_reads h (by omega) hsemi rfl).bind ?_)
  exact reads_expect hsemi (reads_pure _)

theorem stated_loopControl (hword : word.kind = .breakWord ∨ word.kind = .continueWord)
    (hsemi : semi.kind = .semicolon) : Stated true false [word, semi]
      (if word.kind == .breakWord then .breakLoop word else .continueLoop word) := by
  intro f rest hf _
  simp only [List.length_cons] at hf
  have hread : Reads true (loopControl word) [semi] rest
      (if word.kind == .breakWord then .breakLoop word else .continueLoop word) := by
    rw [loopControl_eq]
    exact reads_loops fun n hn => reads_objectIf hn (reads_expect hsemi (reads_pure _))
  unfold statement
  refine reads_peek rfl ?_
  rcases hword with hword | hword
  · simp only [hword] at hread ⊢
    exact reads_skip hread
  · simp only [hword] at hread ⊢
    exact reads_skip hread

theorem stated_block {lb rb : Token} {stmts : List Stmt} (hlb : lb.kind = .leftBrace)
    (h : Gathered inLoop us stmts) (hus : Body inLoop us stmts) (hrb : rb.kind = .rightBrace) :
    Stated inLoop false (lb :: us ++ [rb]) (.block stmts) := by
  intro f rest hf _
  simp only [List.length_append, List.length_cons, List.length_nil] at hf
  unfold statement
  refine reads_peek rfl ?_
  simp only [hlb]
  exact reads_skip ((h.block hus hrb (by omega)).map Stmt.block)

theorem stated_whileLoop (hword : word.kind = .whileWord) (hlp : lp.kind = .leftParen)
    (hc : Phrase 0 us c) (hrp : rp.kind = .rightParen) (h : Stated true dangling vs body) :
    Stated inLoop dangling (word :: lp :: us ++ rp :: vs) (.whileLoop c body) := by
  intro f rest hf hrest
  simp only [List.length_append, List.length_cons] at hf
  have hbody := h.reads (f := f) (by omega) hrest
  unfold statement
  refine reads_peek rfl ?_
  simp only [hword]
  refine reads_skip (reads_expect hlp ?_)
  refine (expression_reads hc (by omega) (by rw [hrp]; rfl)).bind (reads_expect hrp ?_)
  exact (hbody.withLoops fun _ n => Nat.succ_ne_zero n).last

theorem stated_forLoop {ws xs : List Token} {first : Option Stmt} {c i : Option Expr}
    (hword : word.kind = .forWord) (hlp : lp.kind = .leftParen) (hfirst : FirstClause us first)
    (hc : Optional (Phrase 0) vs c) (hsemi : semi.kind = .semicolon)
    (hi : Optional (Phrase 0) ws i) (hrp : rp.kind = .rightParen)
    (h : Stated true dangling xs body) :
    Stated inLoop dangling (word :: lp :: us ++ vs ++ semi :: ws ++ rp :: xs)
      (.block (first.toList ++ [.forLoop (c.getD (.constant (.bool true))) i body])) := by
  intro f rest hf hrest
  simp only [List.length_append, List.length_cons] at hf
  have hbody := h.reads (f := f) (by omega) hrest
  unfold statement
  simp only [List.append_assoc, List.cons_append]
  refine reads_peek rfl ?_
  simp only [hword, forStatement_eq]
  refine reads_skip (reads_expect hlp ?_)
  refine (firstClause_reads hfirst (by omega)).bind ?_
  refine (clause_reads hc (by omega) hsemi rfl).bind (reads_expect hsemi ?_)
  refine (clause_reads hi (by omega) hrp rfl).bind (reads_expect hrp ?_)
  exact (hbody.withLoops fun _ n => Nat.succ_ne_zero n).last

theorem stated_ifThen (hword : word.kind = .ifWord) (hlp : lp.kind = .leftParen)
    (hc : Phrase 0 us c) (hrp : rp.kind = .rightParen) (h : Stated inLoop dangling vs body) :
    Stated inLoop true (word :: lp :: us ++ rp :: vs) (.ifThen c body) := by
  intro f rest hf hrest
  simp only [List.length_append, List.length_cons] at hf
  have hbody := h.reads (f := f) (by omega) fun _ => hrest rfl
  unfold statement
  refine reads_peek rfl ?_
  simp only [hword]
  refine reads_skip (reads_expect hlp ?_)
  refine (expression_reads hc (by omega) (by rw [hrp]; rfl)).bind (reads_expect hrp ?_)
  rw [← List.append_nil vs]
  exact hbody.bind (reads_accept_not (hrest rfl) (reads_pure _))

theorem stated_ifElse {mid : Token} {ws : List Token} {otherwise : Stmt}
    (hword : word.kind = .ifWord) (hlp : lp.kind = .leftParen) (hc : Phrase 0 us c)
    (hrp : rp.kind = .rightParen) (h : Stated inLoop false vs body)
    (hmid : mid.kind = .elseWord) (h' : Stated inLoop dangling ws otherwise) :
    Stated inLoop dangling (word :: lp :: us ++ rp :: vs ++ mid :: ws)
      (.ifElse c body otherwise) := by
  intro f rest hf hrest
  simp only [List.length_append, List.length_cons] at hf
  have hbody : Reads inLoop (statement f) vs (mid :: ws ++ rest) body :=
    h.reads (by omega) (by simp)
  have hotherwise := h'.reads (f := f) (by omega) hrest
  unfold statement
  simp only [List.append_assoc, List.cons_append]
  refine reads_peek rfl ?_
  simp only [hword]
  refine reads_skip (reads_expect hlp ?_)
  refine (expression_reads hc (by omega) (by rw [hrp]; rfl)).bind (reads_expect hrp ?_)
  exact hbody.bind (reads_accept hmid hotherwise.last)

end

/-! ## Declarations -/

theorem Stated.announced {ts : List Token} {s : Stmt} (h : Stated inLoop dangling ts s)
    (hs : Sentence inLoop dangling ts s) : Announced inLoop ts s := by
  intro f rest hf hrest
  have hread := h.reads (f := f) (by omega) fun _ => hrest
  obtain ⟨x, xs, rfl, hx⟩ := hs.head
  unfold declaration
  refine reads_peek rfl ?_
  split
  case h_3 => exact hread
  all_goals
    rename_i hk
    rw [hk] at hx
    cases hx

theorem announced_binding {ts : List Token} {s : Stmt} (h : VariableDeclaration ts s) :
    Announced inLoop ts s := by
  intro f rest hf _
  obtain ⟨word, us, rfl, hword, hread⟩ := variableDeclaration_reads (f := f) h (by omega)
  unfold declaration
  refine reads_peek rfl ?_
  simp only [hword]
  exact reads_skip hread

theorem announced_function {word name lp rp lb rb : Token} {us vs : List Token}
    {params : Option (List Token)} {body : List Stmt} (hword : word.kind = .funcWord)
    (hname : name.kind = .name) (hlp : lp.kind = .leftParen)
    (hparams : Optional Parameters us params) (hlen : (params.getD []).length ≤ 255)
    (hdistinct : ((params.getD []).map Token.source).Nodup) (hrp : rp.kind = .rightParen)
    (hlb : lb.kind = .leftBrace) (h : Gathered false vs body) (hvs : Body false vs body)
    (hrb : rb.kind = .rightBrace) :
    Announced inLoop (word :: name :: lp :: us ++ rp :: lb :: vs ++ [rb])
      (.func name (params.getD []) body) := by
  intro f rest hf _
  simp only [List.length_append, List.length_cons, List.length_nil] at hf
  have hbody : Reads false (block f) (vs ++ [rb]) rest body := h.block hvs hrb (by omega)
  have hread : ∀ xs,
      Reads inLoop (optionally .rightParen (parameters f [])) us (rp :: xs) params := by
    intro xs
    cases hparams with
    | none => exact reads_optionally_none hrp
    | some h =>
      have hcomma : Lacks .comma (rp :: xs) := lacks_cons (by rw [hrp]; decide)
      refine reads_optionally_some ?_
        (parameters_reads h (by omega) hcomma (by simpa using hlen) hdistinct)
      cases h with
      | one hp | more hp => exact lacks_cons (by rw [hp]; decide)
  unfold declaration
  simp only [List.append_assoc, List.cons_append]
  refine reads_peek rfl ?_
  simp only [hword, functionDeclaration_eq]
  refine reads_skip (reads_expect hname (reads_expect hlp ((hread _).bind ?_)))
  refine reads_expect hrp (reads_expect hlb ?_)
  exact (hbody.withLoops fun h => by cases h).last

mutual

theorem sentence_stated {inLoop dangling : Bool} {ts : List Token} {s : Stmt} :
    Sentence inLoop dangling ts s → Stated inLoop dangling ts s
  | .expression h hsemi => stated_expression h hsemi
  | .ret hword h hsemi => stated_ret hword h hsemi
  | .breakLoop hword hsemi => by
    have := stated_loopControl (.inl hword) hsemi
    simpa [hword] using this
  | .continueLoop hword hsemi => by
    have := stated_loopControl (.inr hword) hsemi
    simpa [hword] using this
  | .block hlb h hrb => stated_block hlb (body_gathered h) h hrb
  | .whileLoop hword hlp hc hrp h => stated_whileLoop hword hlp hc hrp (sentence_stated h)
  | .forLoop hword hlp hfirst hc hsemi hi hrp h =>
    stated_forLoop hword hlp hfirst hc hsemi hi hrp (sentence_stated h)
  | .ifThen hword hlp hc hrp h => stated_ifThen hword hlp hc hrp (sentence_stated h)
  | .ifElse hword hlp hc hrp h hmid h' =>
    stated_ifElse hword hlp hc hrp (sentence_stated h) hmid (sentence_stated h')

theorem declaration_announced {inLoop : Bool} {ts : List Token} {s : Stmt} :
    Declaration inLoop ts s → Announced inLoop ts s
  | .binding h => announced_binding h
  | .function hword hname hlp hparams hlen hdistinct hrp hlb h hrb =>
    announced_function hword hname hlp hparams hlen hdistinct hrp hlb (body_gathered h) h hrb
  | .sentence h => (sentence_stated h).announced h

theorem body_gathered {inLoop : Bool} {ts : List Token} {body : List Stmt} :
    Body inLoop ts body → Gathered inLoop ts body
  | .nil => gathered_nil
  | .cons h hs => (declaration_announced h).gathered (body_gathered hs) h hs

end

end Parse

/-! ## Programs -/

theorem Tape.finish_of_body {n : Nat} {t : Tape} {p : List Stmt} (h : Body false t.rest p)
    (hn : 3 * t.rest.length + 4 ≤ n) : t.finish n [] = ⟨p, t.objections.reverse⟩ := by
  have hlen := h.length_le
  have hread := Parse.body_gathered h n none (n - p.length) [] [] t hn (by simp)
    (by simp [Parse.Lacks]) (by simp) (by simp)
  have hend : (t.after t.rest).rest = [] := Tape.rest_after (by simp)
  rw [Nat.sub_add_cancel (by omega), Parse.declared_ends (.inl hend), List.append_nil,
    List.reverse_reverse] at hread
  simp only [Parse.declared, Prod.mk.injEq, Option.some.injEq] at hread
  unfold Tape.finish
  rw [show Parse.declarations (Parse.declaration n) none n [] t = (p, t.after t.rest) from
    Prod.ext hread.1 hread.2]
  rfl

theorem Program.parsed {ts : List Token} {p : List Stmt} {eof : Token} (h : Program ts p)
    (heof : eof.isFinish = true) : parseProgram (ts ++ [eof]) = ⟨p, []⟩ := by
  have hwords : ∀ t ∈ ts, t.isFinish = false := by
    intro t ht
    simpa [Token.isFinish] using h.words t ht
  rw [parseProgram_eq, Tape.ofTokens_append hwords heof]
  exact Tape.finish_of_body h (by simp only [Tape.nesting]; omega)

theorem program_parsed_uniquely {ts : List Token} {p : List Stmt} {eof : Token}
    (h : Program ts p) (heof : eof.isFinish = true) :
    parseProgram (ts ++ [eof]) = ⟨p, []⟩ ∧ ∀ q, Program ts q → q = p := by
  refine ⟨h.parsed heof, fun q hq => ?_⟩
  have hsame := (hq.parsed heof).symm.trans (h.parsed heof)
  exact congrArg Parsed.tree hsame

theorem phrase_named (s : String) : Phrase 11 [.plain .name s] (.named s) :=
  .tighter (by decide) (.reference rfl)

theorem danglingElseValue_phrase : Phrase 8 [.plain .minus "-", .plain .name "d", .plain .minus "-",
    .plain .name "e", .plain .star "*", .plain .name "f"] danglingElseValue := by
  have hleft : Phrase 8 [.plain .minus "-", .plain .name "d"]
      (.unary (.plain .minus "-") (.named "d")) :=
    .loosen 2 (by decide) (.sign rfl (.tighter (by decide) (phrase_named "d")))
  have hright : Phrase 9 [.plain .name "e", .plain .star "*", .plain .name "f"]
      (.binary (.named "e") (.plain .star "*") (.named "f")) :=
    .binary (by rfl) (by rfl) (.loosen 2 (by decide) (phrase_named "e"))
      (.tighter (by decide) (phrase_named "f"))
  exact .binary (by rfl) (by rfl) hleft hright

theorem danglingElse_program : Program danglingElse danglingElseTree := by
  have hname : ∀ s, Phrase 0 [.plain .name s] (.named s) :=
    fun s => .loosen 11 (by decide) (phrase_named s)
  have hcall : Phrase 0 [.plain .name "g", .plain .leftParen "(", .plain .name "h",
      .plain .rightParen ")"] (.call (.named "g") (.plain .rightParen ")") [.named "h"]) :=
    .loosen 11 (by decide) (.call (phrase_named "g") rfl (.one (hname "h")) (by decide) rfl)
  have hvalue := danglingElseValue_phrase.loosen (n := 0) 8 (by decide)
  have hif : Declaration false danglingElse _ :=
    .sentence (.ifThen (by rfl) (by rfl) (hname "a") (by rfl)
      (.ifElse (by rfl) (by rfl) (hname "b") (by rfl)
        (.expression (.assign (by rfl) (by rfl) hvalue) (by rfl)) (by rfl)
        (.expression hcall (by rfl))))
  exact .cons hif .nil

theorem program_parsed_uniquely_danglingElse :
    parseProgram (danglingElse ++ [.finish .start]) = ⟨danglingElseTree, []⟩ ∧
      ∀ q, Program danglingElse q → q = danglingElseTree :=
  program_parsed_uniquely danglingElse_program rfl

end Script
