import Script.Proofs.Layout
import Script.Proofs.SinkSteps

/-!
# Debugging only adds to the output

What a sink has taken already makes no difference to a run, if it makes none to the sink. So a session
that debugs, over a sink that takes everything, gives the replies of one that does not, and before the
output of each program or line there are its outlines. It makes no difference either that one printer
is kept for all of them: it goes back to the level that it began with.
-/

namespace Script

/-! ## Output that is there already -/

namespace Sink

/-- The sink takes every text, and whether it can be flushed does not depend on what it has taken. -/
structure Steady (s : Sink) : Prop where
  write : ∀ written past text, s.device written past (.write text) = .done
  flush : ∀ written past, s.device written past .flush = s.device .empty [] .flush

/-- The same sink, if all that has been asked of `earlier` was asked of it before. -/
def behind (s earlier : Sink) : Sink :=
  { s with written := earlier.written ++ s.written, past := s.past ++ earlier.past }

variable {s s' earlier : Sink}

theorem Steady.grows (hs : s.Steady) (h : s.Grows s') : s'.Steady := by
  refine ⟨?_, ?_⟩ <;> rw [h.device]
  · exact hs.write
  · exact hs.flush

theorem operate_behind (hs : s.Steady) (op : Operation) :
    (s.behind earlier).operate op = ((s.operate op).1, (s.operate op).2.behind earlier) := by
  have hsame : (s.behind earlier).device (s.behind earlier).written (s.behind earlier).past op =
      s.device s.written s.past op := by
    cases op with
    | write text => exact (hs.write _ _ text).trans (hs.write _ _ text).symm
    | flush => exact (hs.flush _ _).trans (hs.flush _ _).symm
  unfold operate
  rw [hsame]
  split <;> simp only [behind, ByteArray.append_assoc, List.cons_append]

theorem carryOut_behind (hs : s.Steady) (ops : List Operation) :
    (s.behind earlier).carryOut ops = ((s.carryOut ops).1, (s.carryOut ops).2.behind earlier) := by
  induction ops generalizing s with
  | nil => rfl
  | cons op ops ih =>
    have hgrows := Grows.refl.operate (s := s) op
    rw [carryOut, carryOut, operate_behind hs]
    rcases hop : s.operate op with ⟨_ | _, s'⟩
    · rfl
    · rw [hop] at hgrows
      exact ih (hs.grows hgrows)

end Sink

/-- The same world, in which something was written before all that was written. -/
def World.behind (earlier : Sink) (w : World) : World := w.into (w.sink.behind earlier)

def State.behind (earlier : Sink) (s : State) : State := s.into (s.world.sink.behind earlier)

variable {earlier : Sink}

namespace State

theorem answered_behind {k : List Frame} {w : World} (paren : Token) (effect : World.Effect)
    (sink : Sink) (r : Except String Unit × Sink) :
    answered k (w.into sink) paren effect (r.1, r.2.behind earlier) =
      (answered k w paren effect r).behind earlier := by
  obtain ⟨_ | _, sink⟩ := r
  · rfl
  · cases effect <;> rfl

theorem step_behind {s : State} (hs : s.world.sink.Steady) :
    (s.behind earlier).step = s.step.behind earlier := by
  cases h : s.errand? with
  | none =>
    have hstep : (s.behind earlier).step = s.step.into (s.world.sink.behind earlier) := step_into h
    rw [hstep, State.behind, step_sink h]
  | some p =>
    have hbehind : (s.behind earlier).errand? = some p := errand_into.trans h
    rw [step_errand h, step_errand hbehind]
    show answered s.frames.tail _ p.1 p.2.2 ((s.world.sink.behind earlier).carryOut p.2.1) = _
    rw [Sink.carryOut_behind hs]
    exact answered_behind p.1 p.2.2 _ _

theorem outcome_into (s : State) (sink : Sink) : (s.into sink).outcome? = s.outcome? := by
  obtain ⟨c, k, w⟩ := s
  cases c with
  | eval | exec | exit => rfl
  | value | flow | raise => cases k <;> rfl

theorem run_behind (n : Nat) {s : State} (hs : s.world.sink.Steady) :
    run n (s.behind earlier) = (run n s).map fun r => (r.1, r.2.behind earlier) := by
  induction n generalizing s with
  | zero => rfl
  | succ n ih =>
    have houtcome : (s.behind earlier).outcome? = s.outcome? := outcome_into s _
    unfold run
    rw [houtcome, step_behind hs]
    cases s.outcome? with
    | some o => rfl
    | none => exact ih (hs.grows (step_grows s))

end State

namespace World

variable {w : World} {n : Nat}

theorem execute_behind (hw : w.sink.Steady) (body : List Stmt) :
    (w.behind earlier).execute (State.run n) body =
      (w.execute (State.run n) body).map fun r => (r.1, r.2.behind earlier) := by
  induction body generalizing w with
  | nil => rfl
  | cons s rest ih =>
    rw [execute_cons, execute_cons]
    show (State.run n (State.behind earlier ⟨.exec s, [], w⟩)).bind _ =
      ((State.run n ⟨.exec s, [], w⟩).bind _).map _
    rw [State.run_behind n hw]
    rcases hr : State.run n ⟨.exec s, [], w⟩ with _ | ⟨o, w₁⟩
    · rfl
    · have hw₁ : w₁.sink.Steady := hw.grows (State.run_grows hr)
      show goOn (State.run n) rest (o, w₁.behind earlier) = (goOn (State.run n) rest (o, w₁)).map _
      rcases goOn_cases o rest with ⟨ended, hend⟩ | hgo
      · rw [hend, hend]
        rfl
      · rw [hgo, hgo]
        exact ih hw₁

theorem evaluate_behind (hw : w.sink.Steady) (e : Expr) :
    (w.behind earlier).evaluate (State.run n) e =
      (w.evaluate (State.run n) e).map fun r => (r.1, r.2.behind earlier) := by
  rw [evaluate_eq, evaluate_eq]
  show (State.run n (State.behind earlier ⟨.eval e, [], w⟩)).map _ =
    ((State.run n ⟨.eval e, [], w⟩).map _).map _
  rw [State.run_behind n hw, Option.map_map, Option.map_map]
  rfl

/-- The same world, in which nothing was asked of the sink yet. -/
def emptied (w : World) : World := w.into { device := w.sink.device }

theorem emptied_behind (w : World) : w.emptied.behind w.sink = w := by
  simp [emptied, behind, Sink.behind, into]

theorem behind_behind (w : World) (out piece : Sink) :
    (w.behind piece).behind out = w.behind (piece.behind out) := by
  simp [behind, Sink.behind, into, ByteArray.append_assoc]

end World

theorem Line.go_behind (tree : Line) {w : World} (hw : w.sink.Steady) (n : Nat) :
    tree.go (State.run n) (w.behind earlier) =
      (tree.go (State.run n) w).map fun r => (r.1, r.2.behind earlier) := by
  cases tree with
  | statements body =>
    show ((w.behind earlier).execute (State.run n) body).map _ =
      ((w.execute (State.run n) body).map _).map _
    rw [World.execute_behind hw, Option.map_map, Option.map_map]
    rfl
  | expression e =>
    show ((w.behind earlier).evaluate (State.run n) e).map _ =
      ((w.evaluate (State.run n) e).map _).map _
    rw [World.evaluate_behind hw, Option.map_map, Option.map_map]
    rfl

/-! ## Outlines -/

def linesOfTexts (texts : List String) : ByteArray := (String.join (texts.map (· ++ "\n"))).toUTF8

/-- A sink that has been asked for texts, each on a line of its own, and for nothing else. -/
def Sink.holding (texts : List String) : Sink :=
  { written := linesOfTexts texts, past := (texts.flatMap Sink.lineOf).reverse }

theorem Sink.carryOut_lines {s : Sink}
    (hs : ∀ written past text, s.device written past (.write text) = .done) (texts : List String) :
    s.carryOut (texts.flatMap lineOf) =
      (.ok (), { s with
        written := s.written ++ linesOfTexts texts
        past := (texts.flatMap lineOf).reverse ++ s.past }) := by
  induction texts generalizing s with
  | nil => simp [carryOut, linesOfTexts]
  | cons text rest ih =>
    have hlines : linesOfTexts (text :: rest) =
        text.toUTF8 ++ ("\n".toUTF8 ++ linesOfTexts rest) := by
      simp [linesOfTexts, ByteArray.append_assoc]
    rw [List.flatMap_cons]
    show carryOut (.write text :: .write "\n" :: rest.flatMap lineOf) s = _
    simp only [carryOut, operate, hs]
    rw [ih, hlines]
    · simp [lineOf, Operation.bytes, ByteArray.append_assoc]
    · exact hs

/-! ## A printer that is kept -/

/-- A printer of outlines: the step by which it indents, and how many steps to the right it is. -/
structure Printer where
  unit : String
  level : Nat := 0

namespace Printer

def deeper (print : StateM Printer String) : StateM Printer String := do
  modify fun p => { p with level := p.level + 1 }
  let text ← print
  modify fun p => { p with level := p.level - 1 }
  pure text

def onLine (print : StateM Printer String) : StateM Printer String := do
  let p ← get
  let text ← print
  pure (newLine p.unit p.level ++ text)

/-- What is printed is what `f` says of the step and the level; the printer is left as it was. -/
def Prints (print : StateM Printer String) (f : String → Nat → String) : Prop :=
  ∀ p : Printer, print.run p = (f p.unit p.level, p)

variable {print print' : StateM Printer String} {f f' : String → Nat → String}

theorem Prints.of_eq (h : Prints print f) (he : ∀ unit level, f unit level = f' unit level) :
    Prints print f' := by
  intro p
  rw [h p, he]

theorem prints_pure (text : String) : Prints (pure text) fun _ _ => text := fun _ => rfl

theorem Prints.map (h : Prints print f) (g : String → String) :
    Prints (g <$> print) fun unit level => g (f unit level) := by
  intro p
  rw [StateT.run_map, h p]
  rfl

theorem Prints.append (h : Prints print f) (h' : Prints print' f') :
    Prints (do let first ← print; let second ← print'; pure (first ++ second))
      fun unit level => f unit level ++ f' unit level := by
  intro p
  rw [StateT.run_bind, h p]
  show (print' >>= fun second => pure (f p.unit p.level ++ second)).run p = _
  rw [StateT.run_bind, h' p]
  rfl

theorem Prints.deeper (h : Prints print f) :
    Prints (Printer.deeper print) fun unit level => f unit (level + 1) := by
  intro p
  simp only [Printer.deeper, StateT.run_bind, StateT.run_modify, pure_bind, h _]
  rfl

theorem Prints.onLine (h : Prints print f) :
    Prints (Printer.onLine print) fun unit level => newLine unit level ++ f unit level := by
  intro p
  simp only [Printer.onLine, StateT.run_bind, StateT.run_get, pure_bind, h p]
  rfl

end Printer

open Printer in
mutual

def Stmt.print : Stmt → StateM Printer String
  | .block body => (fun inner => "(block" ++ inner ++ ")") <$> deeper (Stmt.printAll body)
  | .forLoop condition increment body =>
    (fun inner => "(for " ++ condition.outline ++ Expr.outlineOption increment ++ inner ++ ")") <$>
      deeper (onLine body.print)
  | .func name params body =>
    (fun inner => "(func " ++ name.source ++ " (" ++
      String.intercalate " " (params.map Token.source) ++ ")" ++ inner ++ ")") <$>
      deeper (Stmt.printAll body)
  | .ifThen condition body =>
    (fun inner => "(if " ++ condition.outline ++ inner ++ ")") <$> deeper (onLine body.print)
  | .ifElse condition body otherwise =>
    (fun inner => "(if-else " ++ condition.outline ++ inner ++ ")") <$> deeper (do
      let first ← onLine body.print
      let second ← onLine otherwise.print
      pure (first ++ second))
  | .whileLoop condition body =>
    (fun inner => "(while " ++ condition.outline ++ inner ++ ")") <$> deeper (onLine body.print)
  | .breakLoop _ => pure "(break)"
  | .continueLoop _ => pure "(continue)"
  | .expr e => pure ("(; " ++ e.outline ++ ")")
  | .ret _ value => pure ("(return" ++ Expr.outlineOption value ++ ")")
  | .declare name value => pure ("(let " ++ name.source ++ Expr.outlineOption value ++ ")")

def Stmt.printAll : List Stmt → StateM Printer String
  | [] => pure ""
  | s :: ss => do
    let first ← onLine s.print
    let rest ← Stmt.printAll ss
    pure (first ++ rest)

end

open Printer in
mutual

theorem Stmt.print_prints : ∀ s : Stmt, Prints s.print fun unit level => s.outline unit level
  | .block body => by
    unfold Stmt.print Stmt.outline
    exact (Stmt.printAll_prints body).deeper.map _
  | .forLoop condition increment body => by
    unfold Stmt.print Stmt.outline
    exact (body.print_prints.onLine.deeper.map _).of_eq fun _ _ => by simp [String.append_assoc]
  | .func name params body => by
    unfold Stmt.print Stmt.outline
    exact (Stmt.printAll_prints body).deeper.map _
  | .ifThen condition body => by
    unfold Stmt.print Stmt.outline
    exact (body.print_prints.onLine.deeper.map _).of_eq fun _ _ => by simp [String.append_assoc]
  | .ifElse condition body otherwise => by
    unfold Stmt.print Stmt.outline
    refine ((body.print_prints.onLine.append otherwise.print_prints.onLine).deeper.map _).of_eq ?_
    simp [String.append_assoc]
  | .whileLoop condition body => by
    unfold Stmt.print Stmt.outline
    exact (body.print_prints.onLine.deeper.map _).of_eq fun _ _ => by simp [String.append_assoc]
  | .breakLoop _ | .continueLoop _ | .expr _ | .ret _ _ | .declare _ _ => by
    unfold Stmt.print Stmt.outline
    exact prints_pure _

theorem Stmt.printAll_prints : ∀ ss : List Stmt,
    Prints (Stmt.printAll ss) fun unit level => Stmt.outlines unit level ss
  | [] => by
    unfold Stmt.printAll Stmt.outlines
    exact prints_pure _
  | s :: ss => by
    unfold Stmt.printAll Stmt.outlines
    exact s.print_prints.onLine.append (Stmt.printAll_prints ss)

end

theorem Printer.mapM_run {α β : Type} {print : α → StateM Printer β} {f : α → β} {p : Printer}
    (h : ∀ a, (print a).run p = (f a, p)) (as : List α) :
    (as.mapM print).run p = (as.map f, p) := by
  induction as with
  | nil => rfl
  | cons a as ih =>
    rw [List.mapM_cons, StateT.run_bind, h a]
    show (as.mapM print >>= fun bs => pure (f a :: bs)).run p = _
    rw [StateT.run_bind, ih]
    rfl

/-! ## Requests -/

/-- What is printed of a text when a session debugs: nothing, if anything is wrong with it. -/
def Examined.outlines (x : Examined Line) : List String :=
  if x.found.isEmpty then x.tree.outlines else []

/-- The outlines of a text, by a printer that may have been in use. -/
def Examined.print (x : Examined Line) : StateM Printer (List String) :=
  if x.found.isEmpty then
    match x.tree with
    | .statements body => body.mapM Stmt.print
    | .expression e => pure [e.outline]
  else pure []

theorem Examined.print_run (x : Examined Line) :
    x.print.run { unit := Session.indentation } =
      (x.outlines, { unit := Session.indentation }) := by
  obtain ⟨tree, _ | ⟨d, ds⟩⟩ := x
  · cases tree with
    | statements body => exact Printer.mapM_run (fun s => s.print_prints _) body
    | expression e => rfl
  · rfl

/-- Runs what was found in a text, if nothing is wrong with it, without printing outlines. -/
def Examined.go (n : Nat) (x : Examined Line) (w : World) :
    Option (Reply (Option String) × World) :=
  if x.found.isEmpty then x.tree.go (State.run n) w
  else some (.failed (.rejected (Diagnostic.sort x.found)), w)

namespace Session

variable {n : Nat} {w : World}

theorem obey_plain (x : Examined Line) :
    obey (State.run n) ⟨w, false⟩ x = (x.go n w).map fun r => (r.1, ⟨r.2, false⟩) := by
  obtain ⟨tree, _ | ⟨d, ds⟩⟩ := x
  · rw [obey_tree]
    rfl
  · rfl

theorem go_behind (hw : w.sink.Steady) (x : Examined Line) :
    x.go n (w.behind earlier) = (x.go n w).map fun r => (r.1, r.2.behind earlier) := by
  obtain ⟨tree, _ | ⟨d, ds⟩⟩ := x
  · exact tree.go_behind hw n
  · rfl

theorem obey_debug (hw : w.emptied.sink.Steady) (x : Examined Line) :
    obey (State.run n) ⟨w.emptied.behind earlier, true⟩ x =
      (x.go n w.emptied).map fun r =>
        (r.1, ⟨r.2.behind ((Sink.holding x.outlines).behind earlier), true⟩) := by
  obtain ⟨tree, _ | ⟨d, ds⟩⟩ := x
  · have hdisplay : display tree.outlines (w.emptied.behind earlier) =
        (.ok (), w.emptied.behind ((Sink.holding tree.outlines).behind earlier)) := by
      rw [display, Sink.carryOut_lines (s := (w.emptied.behind earlier).sink) hw.write]
      simp [World.behind, World.emptied, World.into, Sink.behind, Sink.holding]
    rw [obey_tree, if_pos rfl, hdisplay]
    show (tree.go (State.run n) _).map _ = (tree.go (State.run n) w.emptied).map _
    rw [Line.go_behind _ hw, Option.map_map]
    rfl
  · simp [obey, Examined.go, Examined.outlines, Sink.holding, Sink.behind, linesOfTexts,
      World.behind]

theorem go_steady {x : Examined Line} {reply : Reply (Option String)} {w' : World}
    (h : x.go n w = some (reply, w')) (hw : w.sink.Steady) : w'.sink.Steady := by
  have hobey : obey (State.run n) ⟨w, false⟩ x = some (reply, ⟨w', false⟩) := by
    rw [obey_plain, h]
    rfl
  exact hw.grows (obey_grows hobey)

end Session

/-! ## Conversations -/

/-- The answers to a request of a session that does not debug and of one that does. What they have
written is `out` and `out'`, followed by the same; but the second has outlines in front of it. -/
structure Answer.Annotated (r : Request) (out out' : ByteArray) (a a' : Answer) : Prop where
  reply : a'.reply = a.reply
  input : a'.input = a.input
  written : ∃ piece, a.sink.written = out ++ piece ∧
    a'.sink.written = out' ++ linesOfTexts r.examined.outlines ++ piece
  rejected : r.examined.found ≠ [] → a'.sink.written = out'

inductive AnnotatedAnswers :
    List Request → ByteArray → ByteArray → List Answer → List Answer → Prop
  | nil {out out' : ByteArray} : AnnotatedAnswers [] out out' [] []
  | exited {r : Request} {rs : List Request} {out out' : ByteArray} {a a' : Answer}
      (h : a.Annotated r out out' a') (hreply : a.reply = .exited) :
      AnnotatedAnswers (r :: rs) out out' [a] [a']
  | cons {r : Request} {rs : List Request} {out out' : ByteArray} {a a' : Answer}
      {as as' : List Answer} (h : a.Annotated r out out' a') (hreply : a.reply ≠ .exited)
      (rest : AnnotatedAnswers rs a.sink.written a'.sink.written as as') :
      AnnotatedAnswers (r :: rs) out out' (a :: as) (a' :: as')

theorem Answer.Annotated.cons_map {r : Request} {rs : List Request} {out out' : ByteArray}
    {a a' : Answer} (h : a.Annotated r out out' a') (hreply : a.reply ≠ .exited)
    {as as' : Option (List Answer)}
    (rest : Option.Rel (AnnotatedAnswers rs a.sink.written a'.sink.written) as as') :
    Option.Rel (AnnotatedAnswers (r :: rs) out out') (as.map (a :: ·)) (as'.map (a' :: ·)) := by
  cases rest with
  | none => exact .none
  | some rest => exact .some (.cons h hreply rest)

namespace Session

variable {n : Nat}

theorem annotated_go {r : Request} {reply : Reply (Option String)} {w w' : World}
    (h : r.examined.go n w.emptied = some (reply, w')) (out out' : Sink) :
    Answer.Annotated r out.written out'.written ⟨reply, (w'.behind out).sink, w'.input⟩
      ⟨reply, (w'.behind ((Sink.holding r.examined.outlines).behind out')).sink, w'.input⟩ := by
  refine ⟨rfl, rfl, ⟨w'.sink.written, rfl, rfl⟩, fun hfound => ?_⟩
  have hreject : r.examined.found.isEmpty = false := by simpa using hfound
  simp only [Examined.go, hreject, Bool.false_eq_true, if_false] at h
  cases h
  simp [World.behind, World.emptied, Sink.behind, Sink.holding, Examined.outlines, hreject,
    linesOfTexts]

theorem converse_annotated (rs : List Request) {w : World} (hw : w.emptied.sink.Steady)
    (out out' : Sink) :
    Option.Rel (AnnotatedAnswers rs out.written out'.written)
      (converse (serve (State.run n)) ⟨w.emptied.behind out, false⟩ rs)
      (converse (serve (State.run n)) ⟨w.emptied.behind out', true⟩ rs) := by
  induction rs generalizing w out out' with
  | nil => exact .some .nil
  | cons r rs ih =>
    have hplain : obey (State.run n) ⟨w.emptied.behind out, false⟩ r.examined = _ := obey_plain _
    have hdebug : obey (State.run n) ⟨w.emptied.behind out', true⟩ r.examined = _ :=
      obey_debug hw _
    rw [go_behind hw, Option.map_map] at hplain
    rcases hgo : r.examined.go n w.emptied with _ | ⟨reply, w₁⟩ <;> rw [hgo] at hplain hdebug
    · simp only [converse, serve_eq, hplain, hdebug]
      exact .none
    · -- What is written from here on comes after the output of this request.
      have hw₁ : w₁.sink.Steady := go_steady hgo hw
      have hrest := ih (w := w₁) ⟨hw₁.write, hw₁.flush⟩ (w₁.sink.behind out)
        (w₁.sink.behind ((Sink.holding r.examined.outlines).behind out'))
      rw [← World.behind_behind, ← World.behind_behind, World.emptied_behind] at hrest
      have hanswer := annotated_go hgo out out'
      by_cases hreply : reply = .exited
      · subst hreply
        rw [converse_exited hplain, converse_exited hdebug]
        exact .some (.exited hanswer rfl)
      · rw [converse_answered hplain hreply, converse_answered hdebug hreply]
        exact hanswer.cons_map hreply hrest

/-- Over a sink that takes everything, debugging changes no reply, and adds to the output only the
outlines of each request, in front of the rest of its output. A printer that is kept for all
requests prints the outlines of each of them as a new one does. -/
theorem debug_transparent (w : World) (hw : w.sink.Steady) (rs : List Request) (n : Nat) :
    ((rs.map Request.examined).mapM Examined.print).run { unit := indentation } =
      ((rs.map Request.examined).map Examined.outlines, { unit := indentation }) ∧
    Option.Rel (AnnotatedAnswers rs w.sink.written w.sink.written)
      (converse (serve (State.run n)) ⟨w, false⟩ rs)
      (converse (serve (State.run n)) ⟨w, true⟩ rs) := by
  have hrel := converse_annotated (n := n) rs (w := w) ⟨hw.write, hw.flush⟩ w.sink w.sink
  rw [World.emptied_behind] at hrel
  exact ⟨Printer.mapM_run Examined.print_run _, hrel⟩

theorem debug_transparent_failing :
    let rs : List Request := [.program "if (true) println(1);", .line "1 +", .line "-nil"]
    (converse (serve (State.run 20)) ⟨{}, true⟩ rs).isSome = true ∧
      Option.Rel (AnnotatedAnswers rs .empty .empty)
        (converse (serve (State.run 20)) ⟨{}, false⟩ rs)
        (converse (serve (State.run 20)) ⟨{}, true⟩ rs) :=
  ⟨by decide +kernel, (debug_transparent {} ⟨fun _ _ _ => rfl, fun _ _ => rfl⟩ _ 20).2⟩

end Session

end Script
