import Script.Proofs.ExaminedSound
import Script.Proofs.ProgramsComplete
import Script.Proofs.Relocation
import Script.Proofs.ScanLines

/-!
# Programs in pieces

A program that is handed over in two pieces, one after the other, does what it does when the second
piece stands below the first one. The tokens of the second piece are further down then, and that is
all that a reply can tell: an error in one of them is reported that many lines further down, now and
in everything that is run later.
-/

namespace Script

variable {g : Position → Position}

/-! ## Trees in another place -/

theorem Expr.length_relocateAll (es : List Expr) : (Expr.relocateAll g es).length = es.length := by
  induction es with
  | nil => rfl
  | cons e es ih => simp [relocateAll, ih]

mutual

theorem Phrase.relocate {n : Nat} {ts : List Token} {e : Expr} :
    Phrase n ts e → Phrase n (ts.map (Token.relocate g)) (e.relocate g)
  | .tighter hn h => .tighter hn h.relocate
  | .assign hname hmark h => .assign hname hmark h.relocate
  | .logical hop hlog hl hr => by
    rw [List.map_append, List.map_cons]
    exact .logical hop hlog hl.relocate hr.relocate
  | .binary hop hlog hl hr => by
    rw [List.map_append, List.map_cons]
    exact .binary hop hlog hl.relocate hr.relocate
  | .sign hop h => .sign hop h.relocate
  | .callNone h hlp hrp => by
    rw [List.map_append]
    exact .callNone h.relocate hlp hrp
  | .call h hlp hargs hlen hrp => by
    rw [List.map_append, List.map_append, List.map_cons]
    exact .call h.relocate hlp hargs.relocate (by rwa [Expr.length_relocateAll]) hrp
  | .falseWord hk => .falseWord hk
  | .trueWord hk => .trueWord hk
  | .nilWord hk => .nilWord hk
  | .literal hk hv => .literal hk hv
  | .reference hk => .reference hk
  | .group hlp h hrp => by
    rw [List.map_append, List.map_cons]
    exact .group hlp h.relocate hrp

theorem Arguments.relocate {ts : List Token} {es : List Expr} :
    Arguments ts es → Arguments (ts.map (Token.relocate g)) (Expr.relocateAll g es)
  | .one h => .one h.relocate
  | .more h hc hs => by
    rw [List.map_append, List.map_cons]
    exact .more h.relocate hc hs.relocate

end

theorem Optional.relocate {α : Type} {P : List Token → α → Prop} {f : α → α}
    (hP : ∀ {ts a}, P ts a → P (ts.map (Token.relocate g)) (f a)) {ts : List Token} {a : Option α}
    (h : Optional P ts a) : Optional P (ts.map (Token.relocate g)) (a.map f) := by
  cases h with
  | none => exact .none
  | some h => exact .some (hP h)

theorem Parameters.relocate {ts ps : List Token} (h : Parameters ts ps) :
    Parameters (ts.map (Token.relocate g)) (ps.map (Token.relocate g)) := by
  induction h with
  | one hp => exact .one hp
  | more hp hc h ih => exact .more hp hc ih

theorem VariableDeclaration.relocate {ts : List Token} {s : Stmt} (h : VariableDeclaration ts s) :
    VariableDeclaration (ts.map (Token.relocate g)) (s.relocate g) := by
  cases h with
  | plain hword hname hsemi => exact .plain hword hname hsemi
  | valued hword hname hmark h hsemi =>
    rw [List.map_append]
    exact .valued hword hname hmark h.relocate hsemi

theorem FirstClause.relocate {ts : List Token} {s : Option Stmt} (h : FirstClause ts s) :
    FirstClause (ts.map (Token.relocate g)) (s.map (Stmt.relocate g)) := by
  cases h with
  | none hsemi => exact .none hsemi
  | binding h => exact .binding h.relocate
  | expression h hsemi =>
    rw [List.map_append]
    exact .expression h.relocate hsemi

/-- A loop with clauses is a block around a loop. -/
theorem Stmt.relocate_forBlock (first : Option Stmt) (c i : Option Expr) (body : Stmt) :
    (Stmt.block (first.toList ++ [.forLoop (c.getD (.constant (.bool true))) i body])).relocate g =
      .block ((first.map (Stmt.relocate g)).toList ++
        [.forLoop ((c.map (Expr.relocate g)).getD (.constant (.bool true)))
          (i.map (Expr.relocate g)) (body.relocate g)]) := by
  cases first <;> cases c <;> rfl

mutual

theorem Sentence.relocate {inLoop dangling : Bool} {ts : List Token} {s : Stmt} :
    Sentence inLoop dangling ts s →
      Sentence inLoop dangling (ts.map (Token.relocate g)) (s.relocate g)
  | .expression h hsemi => by
    rw [List.map_append]
    exact .expression h.relocate hsemi
  | .ret hword h hsemi => by
    rw [List.map_append, List.map_cons]
    exact .ret hword (h.relocate Phrase.relocate) hsemi
  | .breakLoop hword hsemi => .breakLoop hword hsemi
  | .continueLoop hword hsemi => .continueLoop hword hsemi
  | .block hlb h hrb => by
    rw [List.map_append, List.map_cons]
    exact .block hlb h.relocate hrb
  | .whileLoop hword hlp hc hrp h => by
    rw [List.map_append]
    exact .whileLoop hword hlp hc.relocate hrp h.relocate
  | .forLoop hword hlp hfirst hc hsemi hi hrp h => by
    rw [Stmt.relocate_forBlock]
    simp only [List.map_append, List.map_cons]
    exact .forLoop hword hlp hfirst.relocate (hc.relocate Phrase.relocate) hsemi
      (hi.relocate Phrase.relocate) hrp h.relocate
  | .ifThen hword hlp hc hrp h => by
    rw [List.map_append]
    exact .ifThen hword hlp hc.relocate hrp h.relocate
  | .ifElse hword hlp hc hrp h hmid h' => by
    rw [List.map_append, List.map_append]
    exact .ifElse hword hlp hc.relocate hrp h.relocate hmid h'.relocate

theorem Declaration.relocate {inLoop : Bool} {ts : List Token} {s : Stmt} :
    Declaration inLoop ts s → Declaration inLoop (ts.map (Token.relocate g)) (s.relocate g)
  | .binding h => .binding h.relocate
  | @Declaration.function _ _ _ _ _ _ _ _ _ params _ hword hname hlp hparams hlen hdistinct hrp hlb
      h hrb => by
    have hget : (params.map (List.map (Token.relocate g))).getD [] =
        (params.getD []).map (Token.relocate g) := by
      cases params <;> rfl
    simp only [List.map_append, List.map_cons, Stmt.relocate]
    rw [← hget]
    refine .function hword hname hlp (hparams.relocate Parameters.relocate) ?_ ?_ hrp hlb h.relocate
      hrb
    · rwa [hget, List.length_map]
    · rw [hget, List.map_map]
      exact hdistinct
  | .sentence h => .sentence h.relocate

theorem Body.relocate {inLoop : Bool} {ts : List Token} {body : List Stmt} :
    Body inLoop ts body → Body inLoop (ts.map (Token.relocate g)) (Stmt.relocateAll g body)
  | .nil => .nil
  | .cons h hs => by
    rw [List.map_append]
    exact .cons h.relocate hs.relocate

end

theorem Body.append {inLoop : Bool} {us vs : List Token} {p q : List Stmt} :
    Body inLoop us p → Body inLoop vs q → Body inLoop (us ++ vs) (p ++ q)
  | .nil, hq => hq
  | .cons h hs, hq => by
    rw [List.append_assoc]
    exact .cons h (hs.append hq)

/-! ## Two programs below each other -/

/-- How far down a text stands below another one. -/
def linesOf (source : String) : Nat := source.toList.count '\n' + 1

/-- Two programs one below the other are read as the statements of the one and then those of the
other. -/
theorem Clean.lines {p q : String} (hp : Clean p) (hq : Clean q) :
    Examined.ofText parseProgram (p ++ "\n" ++ q) =
      ⟨(Examined.ofText parseProgram p).tree ++
        Stmt.relocateAll (Position.below (linesOf p)) (Examined.ofText parseProgram q).tree,
        []⟩ := by
  obtain ⟨hperrors, ts, hts, hprogram⟩ := hp.program
  obtain ⟨hqerrors, us, hus, hprogram'⟩ := hq.program
  obtain ⟨ts', hts', htokens, herrors⟩ := Scanned.ofText_lines (s := p) (by simp [hperrors]) q
  obtain rfl : ts' = ts := List.append_cancel_right (hts'.symm.trans hts)
  rw [hus, List.map_append, ← List.append_assoc] at htokens
  have hparsed := Program.parsed (hprogram.append (hprogram'.relocate (g := .below (linesOf p))))
    (rfl : (Token.below (linesOf p) (.finish (.counted q.toList))).isFinish = true)
  have hwhole : parseProgram (Scanned.ofText (p ++ "\n" ++ q)).tokens = _ :=
    (congrArg parseProgram htokens).trans hparsed
  unfold Examined.ofText at hwhole ⊢
  simp only [hwhole, herrors, hperrors, hqerrors, List.map_nil, List.append_nil]

theorem Clean.below_zero {q : String} (hq : Clean q) :
    Stmt.relocateAll (Position.below 0) (Examined.ofText parseProgram q).tree =
      (Examined.ofText parseProgram q).tree := by
  obtain ⟨-, us, hus, hprogram⟩ := hq.program
  have hmoved := Program.parsed (hprogram.relocate (g := .below 0))
    (rfl : (Token.below 0 (.finish (.counted q.toList))).isFinish = true)
  have htokens := Scanned.tokens_below_zero q
  rw [hus, List.map_append, List.map_singleton] at htokens
  have hsame := (congrArg (fun ts => (parseProgram ts).tree) htokens).symm.trans
    (congrArg Parsed.tree hmoved)
  rw [← hus] at hsame
  exact hsame.symm

/-! ## Sessions in another place -/

section
variable (g)

def Line.relocate : Line → Line
  | .statements body => .statements (Stmt.relocateAll g body)
  | .expression e => .expression (e.relocate g)

def Examined.relocate (x : Examined Line) : Examined Line := ⟨x.tree.relocate g, x.found⟩

def Failure.relocate : Failure → Failure
  | .runtime e => .runtime (e.relocate g)
  | f => f

def Reply.relocate {α : Type} : Reply α → Reply α
  | .failed f => .failed (f.relocate g)
  | r => r

/-- All that a position can change of an answer is where an error is reported. -/
def Answer.relocate (a : Answer) : Answer := { a with reply := a.reply.relocate g }

def Session.relocate (s : Session) : Session := { s with world := s.world.relocate g }

end

mutual

theorem Expr.outline_relocate : ∀ e : Expr, (e.relocate g).outline = e.outline
  | .assign _ value => by
    simp only [relocate, outline, value.outline_relocate]
    rfl
  | .binary left _ right | .logical left _ right => by
    simp only [relocate, outline, left.outline_relocate, right.outline_relocate]
    rfl
  | .unary _ operand => by
    simp only [relocate, outline, operand.outline_relocate]
    rfl
  | .call callee _ args => by
    simp only [relocate, outline, callee.outline_relocate, Expr.outlines_relocate args]
  | .group inner => by simp only [relocate, outline, inner.outline_relocate]
  | .constant _ | .reference _ => rfl

theorem Expr.outlines_relocate : ∀ es : List Expr,
    Expr.outlines (Expr.relocateAll g es) = Expr.outlines es
  | [] => rfl
  | e :: es => by
    simp only [relocateAll, outlines, e.outline_relocate, Expr.outlines_relocate es]

end

theorem Expr.outlineOption_relocate (e : Option Expr) :
    Expr.outlineOption (e.map (Expr.relocate g)) = Expr.outlineOption e := by
  cases e with
  | none => rfl
  | some e => exact congrArg (" " ++ ·) e.outline_relocate

mutual

theorem Stmt.outline_relocate (unit : String) (level : Nat) : ∀ s : Stmt,
    (s.relocate g).outline unit level = s.outline unit level
  | .block body => by simp only [relocate, outline, Stmt.outlines_relocate unit _ body]
  | .breakLoop _ | .continueLoop _ => rfl
  | .expr e => by simp only [relocate, outline, Expr.outline_relocate]
  | .forLoop condition increment body => by
    simp only [relocate, outline, Expr.outline_relocate, Expr.outlineOption_relocate,
      body.outline_relocate]
  | .func _ params body => by
    have hparams : (params.map (Token.relocate g)).map Token.source = params.map Token.source := by
      rw [List.map_map]
      rfl
    rw [relocate, outline, outline, Stmt.outlines_relocate unit _ body, hparams]
    rfl
  | .ifThen condition body | .whileLoop condition body => by
    simp only [relocate, outline, Expr.outline_relocate, body.outline_relocate]
  | .ifElse condition body otherwise => by
    simp only [relocate, outline, Expr.outline_relocate, body.outline_relocate,
      otherwise.outline_relocate]
  | .ret _ value => by simp only [relocate, outline, Expr.outlineOption_relocate]
  | .declare _ value => by
    simp only [relocate, outline, Expr.outlineOption_relocate]
    rfl

theorem Stmt.outlines_relocate (unit : String) (level : Nat) : ∀ ss : List Stmt,
    Stmt.outlines unit level (Stmt.relocateAll g ss) = Stmt.outlines unit level ss
  | [] => rfl
  | s :: ss => by
    simp only [relocateAll, outlines, s.outline_relocate, Stmt.outlines_relocate unit level ss]

end

theorem Stmt.map_outline_relocate (unit : String) (level : Nat) (ss : List Stmt) :
    (Stmt.relocateAll g ss).map (Stmt.outline unit level) = ss.map (Stmt.outline unit level) := by
  induction ss with
  | nil => rfl
  | cons s ss ih => rw [relocateAll, List.map_cons, List.map_cons, ih, s.outline_relocate]

theorem Ending.toReply_relocate {α β : Type} {f : α → α} {h : α → β} (hf : ∀ a, h (f a) = h a)
    (e : Ending α) : (e.relocate f g).toReply.map h = (e.toReply.map h).relocate g := by
  cases e with
  | done a => exact congrArg Reply.ok (hf a)
  | failed | exited => rfl

theorem World.execute_append {m : Type → Type} [Monad m] [LawfulMonad m] (run : Runner m)
    (p q : List Stmt) (w : World) :
    execute run (p ++ q) w = execute run p w >>= fun
      | (.done .finished, w') => execute run q w'
      | r => pure r := by
  induction p generalizing w with
  | nil => simp [execute]
  | cons s p ih =>
    simp only [List.cons_append, execute, bind_assoc]
    congr 1
    funext r
    obtain ⟨o, w'⟩ := r
    cases o with
    | value v => exact ih w'
    | flow f =>
      cases f with
      | returned v => simp
      | normal | broke | continued => exact ih w'
    | error e => simp
    | exit => simp

namespace Session

variable {s : Session} {n : Nat}

theorem announce_quiet {α : Type} (hs : s.debug = false) (outlines : List String)
    (go : World → Option (Ending α × World)) :
    s.announce outlines go = (go s.world).map fun r => (r.1.toReply, { s with world := r.2 }) := by
  unfold announce
  rw [hs, if_neg Bool.false_ne_true]
  show (go s.world).bind _ = _
  cases go s.world <;> rfl

theorem obey_clean (hs : s.debug = false) (body : List Stmt) :
    s.obey (State.run n) ⟨.statements body, []⟩ =
      (World.execute (State.run n) body s.world).map fun r =>
        (r.1.toReply.map fun _ => none, { s with world := r.2 }) := by
  show (s.runStatements (State.run n) body).map _ = _
  rw [runStatements, announce_quiet hs, Option.map_map]
  rfl

theorem display_relocate (texts : List String) (w : World) :
    display texts (w.relocate g) = ((display texts w).1, (display texts w).2.relocate g) := rfl

/-- What is printed before the run is the same in the other place, and so is the run. -/
theorem announce_relocate {α β : Type} {f : α → α} {h : α → β} (hf : ∀ a, h (f a) = h a)
    (outlines : List String) {go go' : World → Option (Ending α × World)}
    (hgo : ∀ w, go' (w.relocate g) = (go w).map fun r => (r.1.relocate f g, r.2.relocate g)) :
    ((s.relocate g).announce outlines go').map (fun r => (r.1.map h, r.2)) =
      ((s.announce outlines go).map fun r => (r.1.map h, r.2)).map
        fun r => (r.1.relocate g, r.2.relocate g) := by
  have hdisplay := display_relocate (g := g) (if s.debug then outlines else []) s.world
  unfold announce
  rw [show display (if (s.relocate g).debug then outlines else []) (s.relocate g).world = _
    from hdisplay]
  rcases display (if s.debug then outlines else []) s.world with ⟨_ | _, w⟩
  · rfl
  · show Option.map _ ((go' (w.relocate g)).bind _) = Option.map _ (Option.map _ ((go w).bind _))
    rw [hgo w]
    rcases go w with _ | ⟨ending, w'⟩
    · rfl
    · exact congrArg (fun r => some (r, _)) (Ending.toReply_relocate hf ending)

theorem obey_relocate (x : Examined Line) :
    (s.relocate g).obey (State.run n) (x.relocate g) =
      (s.obey (State.run n) x).map fun r => (r.1.relocate g, r.2.relocate g) := by
  obtain ⟨tree, _ | ⟨d, ds⟩⟩ := x
  · cases tree with
    | statements body =>
      have houtlines : (Stmt.relocateAll g body).map (Stmt.outline indentation 0) =
          body.map (Stmt.outline indentation 0) := Stmt.map_outline_relocate indentation 0 body
      show Option.map _ ((s.relocate g).announce _ _) = Option.map _ (Option.map _ (s.announce _ _))
      rw [houtlines]
      exact announce_relocate (fun _ => rfl) _ (World.execute_relocate n body)
    | expression e =>
      show Option.map _ ((s.relocate g).announce [(e.relocate g).outline] _) =
        Option.map _ (Option.map _ (s.announce _ _))
      rw [Expr.outline_relocate]
      refine announce_relocate (fun v => ?_) _ (World.evaluate_relocate n e)
      exact congrArg some (Value.render_onCallables Callable.text_relocate v)
  · rfl

theorem debug_obey {x : Examined Line} {r : Reply (Option String)} {s' : Session}
    (hs : s.debug = false) (h : s.obey (State.run n) x = some (r, s')) : s'.debug = false := by
  obtain ⟨tree, _ | ⟨d, ds⟩⟩ := x
  · cases tree with
    | statements body =>
      rw [obey_clean hs] at h
      obtain ⟨_, _, he⟩ := Option.map_eq_some_iff.mp h
      cases he
      exact hs
    | expression e =>
      change (s.runExpression (State.run n) e).map _ = _ at h
      rw [runExpression, announce_quiet hs, Option.map_map] at h
      obtain ⟨_, _, he⟩ := Option.map_eq_some_iff.mp h
      cases he
      exact hs
  · cases h
    exact hs

/-- A whole conversation in another place. -/
theorem converse_relocate (hs : s.debug = false) (xs : List (Examined Line)) :
    (s.relocate g).converse (obey (State.run n)) (xs.map (Examined.relocate g)) =
      (s.converse (obey (State.run n)) xs).map (List.map (Answer.relocate g)) := by
  induction xs generalizing s with
  | nil => rfl
  | cons x xs ih =>
    simp only [List.map_cons, converse, obey_relocate]
    cases hx : s.obey (State.run n) x with
    | none => rfl
    | some r =>
      obtain ⟨reply, s'⟩ := r
      have hrest := ih (debug_obey hs hx)
      cases reply with
      | exited => rfl
      | ok a =>
        show Option.map _ ((s'.relocate g).converse _ _) = Option.map _ (Option.map _ _)
        rw [hrest, Option.map_map, Option.map_map]
        rfl
      | failed f =>
        show Option.map _ ((s'.relocate g).converse _ _) = Option.map _ (Option.map _ _)
        rw [hrest, Option.map_map, Option.map_map]
        rfl

theorem converse_serve (s : Session) (rs : List Request) :
    s.converse (serve (State.run n)) rs =
      s.converse (obey (State.run n)) (rs.map Request.examined) := by
  induction rs generalizing s with
  | nil => rfl
  | cons r rs ih => simp only [List.map_cons, converse, serve_eq, ih]

end Session

/-! ## Notes of where a token is from -/

namespace Position

/-- A position with a note whether it is one of the second piece: lines count twice, and the odd
ones are those of the second piece. -/
def note (second : Bool) (p : Position) : Position := ⟨2 * p.line + second.toNat, p.column⟩

/-- The position that was noted, if the second piece stands `k` lines further down. -/
def resolve (k : Nat) (p : Position) : Position :=
  if p.line % 2 = 0 then ⟨p.line / 2, p.column⟩ else below k ⟨p.line / 2, p.column⟩

theorem resolve_note_first (k : Nat) : resolve k ∘ note false = id := by
  funext p
  simp [resolve, note]

theorem resolve_note_second (k : Nat) : resolve k ∘ note true = below k := by
  funext p
  have hdiv : (2 * p.line + (1 : Int)) / 2 = p.line := by omega
  simp [resolve, note, hdiv]

end Position

namespace Examined

theorem relocate_relocate {h : Position → Position} (x : Examined Line) :
    (x.relocate g).relocate h = x.relocate (h ∘ g) := by
  obtain ⟨body | e, found⟩ := x
  · simp only [relocate, Line.relocate, Stmt.relocateAll_relocateAll]
  · simp only [relocate, Line.relocate, Expr.relocate_relocate]

theorem relocate_id (x : Examined Line) : x.relocate id = x := by
  obtain ⟨body | e, found⟩ := x
  · simp only [relocate, Line.relocate, Stmt.relocateAll_id]
  · simp only [relocate, Line.relocate, Expr.relocate_id]

end Examined

namespace Session

/-- The answers to a program `q` and then to the requests `rs`, with a note in every position
whether it is one of a token of `q`. -/
def noted (n : Nat) (s : Session) (q : String) (rs : List Request) : Option (List Answer) :=
  (s.relocate (.note false)).converse (obey (State.run n))
    ((Request.program q).examined.relocate (.note true) ::
      rs.map fun r => r.examined.relocate (.note false))

variable {s : Session} {n : Nat}

/-- What is seen if the tokens of `q` are `k` lines further down. -/
theorem noted_resolve (hs : s.debug = false) (k : Nat) (q : String) (rs : List Request) :
    (s.noted n q rs).map (List.map (Answer.relocate (.resolve k))) =
      s.converse (obey (State.run n))
        ((Request.program q).examined.relocate (.below k) :: rs.map Request.examined) := by
  have hsession : (s.relocate (.note false)).relocate (.resolve k) = s := by
    simp only [relocate, World.relocate_relocate, Position.resolve_note_first, World.relocate_id]
  have hrest : (rs.map fun r => r.examined.relocate (.note false)).map
      (Examined.relocate (.resolve k)) = rs.map Request.examined := by
    rw [List.map_map]
    refine List.map_congr_left fun r _ => ?_
    rw [Function.comp_apply, Examined.relocate_relocate, Position.resolve_note_first,
      Examined.relocate_id]
  have hquiet : (s.relocate (.note false)).debug = false := hs
  rw [noted, ← converse_relocate hquiet, hsession, List.map_cons, hrest,
    Examined.relocate_relocate, Position.resolve_note_second]

theorem runSource_clean (hs : s.debug = false) {p : String} (hp : Clean p) :
    s.runSource (State.run n) p =
      (World.execute (State.run n) (Examined.ofText parseProgram p).tree s.world).map fun r =>
        (r.1.toReply, { s with world := r.2 }) := by
  unfold Clean at hp
  rw [runSource, runExamined, hp, List.isEmpty_nil, if_pos rfl, runStatements, announce_quiet hs]

/-- A program and what stands below it: once the first piece has been executed to its end, what is
left is the second piece. -/
theorem runSource_lines (hs : s.debug = false) {p q : String} (hp : Clean p) (hq : Clean q) :
    s.runSource (State.run n) (p ++ "\n" ++ q) =
      match s.runSource (State.run n) p with
      | some (.ok .finished, s') => s'.runStatements (State.run n)
          (Stmt.relocateAll (.below (linesOf p)) (Examined.ofText parseProgram q).tree)
      | ended => ended := by
  have hjoined : Clean (p ++ "\n" ++ q) := congrArg Examined.found (hp.lines hq)
  rw [runSource_clean hs hjoined, runSource_clean hs hp, hp.lines hq, World.execute_append]
  rcases World.execute (State.run n) (Examined.ofText parseProgram p).tree s.world with
    _ | ⟨⟨_ | _⟩ | _ | _, w'⟩
  · rfl
  · exact (announce_quiet (s := { s with world := w' }) hs _ _).symm
  · rfl
  · rfl
  · rfl

theorem debug_runSource (hs : s.debug = false) {p : String} (hp : Clean p) {s' : Session}
    {r : Reply Completion} (h : s.runSource (State.run n) p = some (r, s')) : s'.debug = false := by
  rw [runSource_clean hs hp] at h
  obtain ⟨_, _, he⟩ := Option.map_eq_some_iff.mp h
  cases he
  exact hs

/-- The joined program, as it is asked for: the second piece asked for in the session that the first
one left. -/
theorem obey_lines (hs : s.debug = false) {p q : String} (hp : Clean p) (hq : Clean q)
    {s' : Session} (h : s.runSource (State.run n) p = some (.ok .finished, s')) :
    s.obey (State.run n) (Request.program (p ++ "\n" ++ q)).examined =
      s'.obey (State.run n) ((Request.program q).examined.relocate (.below (linesOf p))) := by
  have hexamined : (Request.program q).examined.relocate (.below (linesOf p)) = ⟨.statements
      (Stmt.relocateAll (.below (linesOf p)) (Examined.ofText parseProgram q).tree), []⟩ := by
    rw [← (show (Examined.ofText parseProgram q).found = [] from hq)]
    rfl
  rw [← serve_eq, hexamined, serve, runSource_lines hs hp hq, h]
  rfl

theorem converse_cons {s' : Session} {x y : Examined Line}
    (h : s.obey (State.run n) x = s'.obey (State.run n) y) (xs : List (Examined Line)) :
    s.converse (obey (State.run n)) (x :: xs) = s'.converse (obey (State.run n)) (y :: xs) := by
  simp only [converse, h]

/-- A program is run in two pieces as it is run at once. If the first piece ends the program, that
is how the whole ends; otherwise the answer to the whole, and to all that is asked for later, is the
answer to the second piece, but for the lines of its tokens. -/
theorem runs_in_pieces {s : Session} (hs : s.debug = false) {p q : String} (hp : Clean p)
    (hq : Clean q) :
    Clean (p ++ "\n" ++ q) ∧ ∀ n,
      match s.runSource (State.run n) p with
      | none => s.runSource (State.run n) (p ++ "\n" ++ q) = none
      | some (.ok .finished, s') => ∀ rs,
        s'.converse (serve (State.run n)) (.program q :: rs) =
          (s'.noted n q rs).map (List.map (Answer.relocate (.resolve 0))) ∧
        s.converse (serve (State.run n)) (.program (p ++ "\n" ++ q) :: rs) =
          (s'.noted n q rs).map (List.map (Answer.relocate (.resolve (linesOf p))))
      | some ended => s.runSource (State.run n) (p ++ "\n" ++ q) = some ended := by
  refine ⟨congrArg Examined.found (hp.lines hq), fun n => ?_⟩
  have hlines := runSource_lines (n := n) hs hp hq
  split
  · rename_i h
    rw [hlines, h]
  · rename_i s' h
    intro rs
    have hs' := debug_runSource hs hp h
    have hunmoved : (Request.program q).examined.relocate (.below 0) =
        (Request.program q).examined :=
      congrArg (fun body => (⟨.statements body, _⟩ : Examined Line)) hq.below_zero
    rw [noted_resolve hs', noted_resolve hs', converse_serve, converse_serve]
    refine ⟨?_, converse_cons (obey_lines hs hp hq h) _⟩
    rw [hunmoved, List.map_cons]
  · rename_i ended hne h
    rw [hlines, h]
    split
    · rename_i s' he
      cases he
      exact absurd rfl (hne s')
    · rfl

theorem runs_in_pieces_uninitialized :
    ∃ s', ({} : Session).runSource (State.run 9) "let a;" = some (.ok .finished, s') ∧ ∀ rs,
      s'.converse (serve (State.run 9)) (.program "a;" :: rs) =
        (s'.noted 9 "a;" rs).map (List.map (Answer.relocate (.resolve 0))) ∧
      ({} : Session).converse (serve (State.run 9)) (.program ("let a;" ++ "\n" ++ "a;") :: rs) =
        (s'.noted 9 "a;" rs).map (List.map (Answer.relocate (.resolve (linesOf "let a;")))) := by
  have hrun : (match ({} : Session).runSource (State.run 9) "let a;" with
      | some (.ok .finished, _) => true
      | _ => false) = true := by decide +kernel
  have hpieces := (runs_in_pieces (s := {}) rfl (by decide +kernel : Clean "let a;")
    (by decide +kernel : Clean "a;")).2 9
  split at hrun
  · rename_i s' h
    rw [h] at hpieces
    exact ⟨s', h, hpieces⟩
  · cases hrun

end Session

end Script
