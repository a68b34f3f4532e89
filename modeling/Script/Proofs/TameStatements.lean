import Script.Proofs.Imitation
import Script.Proofs.ProperTrees

/-!
# Statements that keep to themselves

A statement that the grammar allows as the body of a loop is no declaration: it binds names in scopes
of its own only. Whether it repeats the loop around it is seen from its tree as well. While such a
statement runs, every frame of it keeps to this: a name is bound only where a scope was opened since,
and a loop is repeated only where one was started since.
-/

namespace Script

/-! ## Trees -/

mutual

/-- Whether a statement in `s` repeats the loop that `s` is in the body of. -/
def Stmt.continues : Stmt → Bool
  | .continueLoop _ => true
  | .block body => Stmt.anyContinues body
  | .ifThen _ body => body.continues
  | .ifElse _ body otherwise => body.continues || otherwise.continues
  | .breakLoop _ | .expr _ | .forLoop _ _ _ | .func _ _ _ | .ret _ _ | .declare _ _
  | .whileLoop _ _ => false

def Stmt.anyContinues : List Stmt → Bool
  | [] => false
  | s :: ss => s.continues || Stmt.anyContinues ss

end

theorem Stmt.anyContinues_eq_false {ss : List Stmt} :
    Stmt.anyContinues ss = false ↔ ∀ s ∈ ss, s.continues = false := by
  induction ss with
  | nil => simp [anyContinues]
  | cons s ss ih => simp [anyContinues, ih]

mutual

/-- The bodies of all loops in a statement, those in functions and in other loops among them. -/
def Stmt.loopBodies : Stmt → List Stmt
  | .block body => Stmt.allLoopBodies body
  | .func _ _ body => Stmt.allLoopBodies body
  | .forLoop _ _ body => body :: body.loopBodies
  | .whileLoop _ body => body :: body.loopBodies
  | .ifThen _ body => body.loopBodies
  | .ifElse _ body otherwise => body.loopBodies ++ otherwise.loopBodies
  | .breakLoop _ | .continueLoop _ | .expr _ | .ret _ _ | .declare _ _ => []

def Stmt.allLoopBodies : List Stmt → List Stmt
  | [] => []
  | s :: ss => s.loopBodies ++ Stmt.allLoopBodies ss

end

theorem Stmt.mem_allLoopBodies {ss : List Stmt} {b : Stmt} :
    b ∈ Stmt.allLoopBodies ss ↔ ∃ s ∈ ss, b ∈ s.loopBodies := by
  induction ss with
  | nil => simp [allLoopBodies]
  | cons s ss ih => simp [allLoopBodies, ih]

def Line.loopBodies : Line → List Stmt
  | .statements body => Stmt.allLoopBodies body
  | .expression _ => []

/-- `Tame binds continues s`: the statement binds names in the scope that it is executed in only if
`binds`, and repeats the loop around it only if `continues`. -/
inductive Stmt.Tame : Bool → Bool → Stmt → Prop
  | block {binds continues : Bool} {body : List Stmt} (h : ∀ s ∈ body, Tame true continues s) :
      Tame binds continues (.block body)
  | breakLoop {binds continues : Bool} {keyword : Token} : Tame binds continues (.breakLoop keyword)
  | continueLoop {binds : Bool} {keyword : Token} : Tame binds true (.continueLoop keyword)
  | expr {binds continues : Bool} {e : Expr} : Tame binds continues (.expr e)
  | forLoop {binds continues : Bool} {c : Expr} {i : Option Expr} {body : Stmt}
      (h : Tame binds true body) : Tame binds continues (.forLoop c i body)
  | func {continues : Bool} {name : Token} {params : List Token} {body : List Stmt} :
      Tame true continues (.func name params body)
  | ifThen {binds continues : Bool} {c : Expr} {body : Stmt} (h : Tame binds continues body) :
      Tame binds continues (.ifThen c body)
  | ifElse {binds continues : Bool} {c : Expr} {body otherwise : Stmt}
      (h : Tame binds continues body) (h' : Tame binds continues otherwise) :
      Tame binds continues (.ifElse c body otherwise)
  | ret {binds continues : Bool} {keyword : Token} {value : Option Expr} :
      Tame binds continues (.ret keyword value)
  | declare {continues : Bool} {name : Token} {value : Option Expr} :
      Tame true continues (.declare name value)
  | whileLoop {binds continues : Bool} {c : Expr} {body : Stmt} (h : Tame binds true body) :
      Tame binds continues (.whileLoop c body)

/-- Nothing is asked of a statement that may do both. -/
theorem Stmt.tame_free : (s : Stmt) → s.Tame true true
  | .block _ => .block fun s _ => s.tame_free
  | .breakLoop _ => .breakLoop
  | .continueLoop _ => .continueLoop
  | .expr _ => .expr
  | .forLoop _ _ body => .forLoop body.tame_free
  | .func _ _ _ => .func
  | .ifThen _ body => .ifThen body.tame_free
  | .ifElse _ body otherwise => .ifElse body.tame_free otherwise.tame_free
  | .ret _ _ => .ret
  | .declare _ _ => .declare
  | .whileLoop _ body => .whileLoop body.tame_free

theorem Stmt.Tame.func_binds {binds continues : Bool} {name : Token} {params : List Token}
    {body : List Stmt} (h : (Stmt.func name params body).Tame binds continues) : binds = true := by
  cases h
  rfl

theorem Stmt.Tame.declare_binds {binds continues : Bool} {name : Token} {value : Option Expr}
    (h : (Stmt.declare name value).Tame binds continues) : binds = true := by
  cases h
  rfl

theorem Stmt.Tame.of_not_continues {binds continues : Bool} {s : Stmt} (h : s.Tame binds continues)
    (hs : s.continues = false) : s.Tame binds false := by
  induction h with
  | block _ ih => exact .block fun s hmem => ih s hmem (Stmt.anyContinues_eq_false.mp hs s hmem)
  | breakLoop => exact .breakLoop
  | continueLoop => cases hs
  | expr => exact .expr
  | forLoop h => exact .forLoop h
  | func => exact .func
  | ifThen _ ih => exact .ifThen (ih hs)
  | ifElse _ _ ih ih' =>
    obtain ⟨hbody, hotherwise⟩ := Bool.or_eq_false_iff.mp hs
    exact .ifElse (ih hbody) (ih' hotherwise)
  | ret => exact .ret
  | declare => exact .declare
  | whileLoop h => exact .whileLoop h

/-! ## What is derived is tame -/

theorem Sentence.tame {inLoop dangling : Bool} {ts : List Token} {s : Stmt}
    (h : Sentence inLoop dangling ts s) : s.Tame false true := by
  cases h with
  | expression => exact .expr
  | ret => exact .ret
  | breakLoop => exact .breakLoop
  | continueLoop => exact .continueLoop
  | block | forLoop => exact .block fun s _ => s.tame_free
  | whileLoop _ _ _ _ h => exact .whileLoop h.tame
  | ifThen _ _ _ _ h => exact .ifThen h.tame
  | ifElse _ _ _ _ h _ h' => exact .ifElse h.tame h'.tame

theorem VariableDeclaration.loopBodies {ts : List Token} {s : Stmt} (h : VariableDeclaration ts s) :
    s.loopBodies = [] := by
  cases h <;> rfl

theorem FirstClause.loopBodies {ts : List Token} {first : Option Stmt} (h : FirstClause ts first) :
    ∀ s ∈ first.toList, s.loopBodies = [] := by
  cases h with
  | none => simp
  | binding h => simpa using h.loopBodies
  | expression => simp [Stmt.loopBodies]

mutual

theorem Sentence.loopBodies_tame {inLoop dangling : Bool} {ts : List Token} {s b : Stmt} :
    Sentence inLoop dangling ts s → b ∈ s.loopBodies → b.Tame false true
  | .expression _ _, hb | .ret _ _ _, hb | .breakLoop _ _, hb | .continueLoop _ _, hb => nomatch hb
  | .block _ h _, hb => h.loopBodies_tame hb
  | .whileLoop _ _ _ _ h, hb => by
    rcases List.mem_cons.mp hb with rfl | hb
    · exact h.tame
    · exact h.loopBodies_tame hb
  | .forLoop _ _ hfirst _ _ _ _ h, hb => by
    obtain ⟨s, hs, hb⟩ := Stmt.mem_allLoopBodies.mp hb
    rcases List.mem_append.mp hs with hs | hs
    · rw [hfirst.loopBodies s hs] at hb
      cases hb
    · rw [List.mem_singleton.mp hs] at hb
      rcases List.mem_cons.mp hb with rfl | hb
      · exact h.tame
      · exact h.loopBodies_tame hb
  | .ifThen _ _ _ _ h, hb => h.loopBodies_tame hb
  | .ifElse _ _ _ _ h _ h', hb =>
    (List.mem_append.mp hb).elim (fun hb => h.loopBodies_tame hb) fun hb => h'.loopBodies_tame hb

theorem Declaration.loopBodies_tame {inLoop : Bool} {ts : List Token} {s b : Stmt} :
    Declaration inLoop ts s → b ∈ s.loopBodies → b.Tame false true
  | .binding h, hb => by
    rw [h.loopBodies] at hb
    cases hb
  | .function _ _ _ _ _ _ _ _ h _, hb => h.loopBodies_tame hb
  | .sentence h, hb => h.loopBodies_tame hb

theorem Body.loopBodies_tame {inLoop : Bool} {ts : List Token} {body : List Stmt} {b : Stmt} :
    Body inLoop ts body → b ∈ Stmt.allLoopBodies body → b.Tame false true
  | .nil, hb => nomatch hb
  | .cons h hs, hb =>
    (List.mem_append.mp hb).elim (fun hb => h.loopBodies_tame hb) fun hb => hs.loopBodies_tame hb

end

theorem Request.loopBodies_tame {r : Request} (h : r.examined.found = []) {b : Stmt}
    (hb : b ∈ r.examined.tree.loopBodies) : b.Tame false true := by
  obtain ⟨ts, hts⟩ := Request.derived h
  cases hl : r.examined.tree with
  | statements body =>
    rw [hl] at hts hb
    exact Body.loopBodies_tame hts hb
  | expression e =>
    rw [hl] at hb
    cases hb

/-! ## States -/

namespace Frame

/-- Whether frames go on when a loop is repeated. -/
def catches : List Frame → Bool
  | [] => false
  | .round _ :: _ => true
  | .endCall :: _ => true
  | _ :: k => catches k

def Tame (binds continues : Bool) : Frame → Prop
  | .branch body otherwise =>
    body.Tame binds continues ∧ ∀ s ∈ otherwise, s.Tame binds continues
  | .declare _ => binds = true
  | .test l | .stepped l | .round l => l.body.Tame binds true
  | .sequence rest => ∀ s ∈ rest, s.Tame binds continues
  | _ => True

def AllTame : List Frame → Prop
  | [] => True
  | f :: k => f.Tame (nested k) (catches k) ∧ AllTame k

theorem opened_ne_nil_of_nested {k : List Frame} (h : nested k = true) : opened k ≠ [] := by
  induction k with
  | nil => cases h
  | cons f k ih =>
    cases f with
    | leave left back => simp [opened]
    | _ => exact ih h

end Frame

def Control.Tame (binds continues : Bool) : Control → Prop
  | .exec s => s.Tame binds continues
  | .flow .continued => continues = true
  | _ => True

namespace State

/-- Names are bound only where a scope was opened since, loops repeated only where one was
started since. -/
structure Tame (s : State) : Prop where
  control : s.control.Tame (Frame.nested s.frames) (Frame.catches s.frames)
  frames : Frame.AllTame s.frames

variable {k : List Frame} {w : World}

theorem ofResult_tame (hk : Frame.AllTame k) (r : Except RuntimeError Value) :
    (ofResult k w r).Tame := by
  cases r with
  | ok v => exact ⟨trivial, hk⟩
  | error e => exact ⟨trivial, hk⟩

theorem after_tame (hk : Frame.AllTame k) {c : Control}
    (hc : c.Tame (Frame.nested k) (Frame.catches k)) (r : Except RuntimeError Unit × World) :
    (after k c r).Tame := by
  obtain ⟨_ | _, w⟩ := r
  · exact ⟨trivial, hk⟩
  · exact ⟨hc, hk⟩

theorem eval_tame (hk : Frame.AllTame k) (e : Expr) : (eval k w e).Tame := by
  cases e with
  | reference name => exact ofResult_tame hk _
  | group | constant => exact ⟨trivial, hk⟩
  | _ => exact ⟨trivial, trivial, hk⟩

theorem exec_tame (hk : Frame.AllTame k) {s : Stmt}
    (hs : s.Tame (Frame.nested k) (Frame.catches k)) : (exec k w s).Tame := by
  generalize hbinds : Frame.nested k = binds at hs
  generalize hcontinues : Frame.catches k = continues at hs
  cases hs with
  | block h => exact ⟨trivial, by rwa [← hcontinues] at h, trivial, hk⟩
  | breakLoop => exact ⟨trivial, hk⟩
  | continueLoop => exact ⟨hcontinues, hk⟩
  | expr => exact ⟨trivial, trivial, hk⟩
  | forLoop h | whileLoop h => exact ⟨trivial, by rwa [← hbinds] at h, hk⟩
  | func => exact after_tame hk (c := .flow .normal) trivial _
  | ifThen h => exact ⟨trivial, ⟨by rwa [hbinds, hcontinues], by simp⟩, hk⟩
  | ifElse h h' =>
    rw [← hbinds, ← hcontinues] at h h'
    exact ⟨trivial, ⟨h, by simpa using h'⟩, hk⟩
  | @ret _ _ _ value =>
    cases value with
    | none => exact ⟨trivial, hk⟩
    | some e => exact ⟨trivial, trivial, hk⟩
  | @declare _ _ value =>
    cases value with
    | none => exact after_tame hk (c := .flow .normal) trivial _
    | some e => exact ⟨trivial, hbinds, hk⟩

theorem call_tame (hk : Frame.AllTame k) (paren : Token) (callee : Value) (args : List Value) :
    (call k w paren callee args).Tame := by
  cases callee with
  | nil | bool | number | text => exact ⟨trivial, hk⟩
  | callable identity c =>
    simp only [call]
    split
    · exact ⟨trivial, hk⟩
    · split
      · exact ⟨trivial, hk⟩
      · cases c with
        | function name params body closure =>
          simp only [callFunction]
          split
          · -- the body of a function has a scope of its own, and no loop around it
            exact ⟨trivial, fun s _ => s.tame_free, trivial, trivial, hk⟩
          · exact ⟨trivial, hk⟩
        | native n =>
          simp only []
          split <;> exact ⟨trivial, hk⟩

theorem nextArgument_tame (hk : Frame.AllTame k) (paren : Token) (callee : Value)
    (done : List Value) (args : List Expr) : (nextArgument k w paren callee done args).Tame := by
  cases args with
  | nil => exact call_tame hk paren callee done.reverse
  | cons arg args => exact ⟨trivial, trivial, hk⟩

theorem resume_tame {f : Frame} (hf : f.Tame (Frame.nested k) (Frame.catches k))
    (hk : Frame.AllTame k) (v : Value) : (resume k w v f).Tame := by
  cases f with
  | assign => exact after_tame hk (c := .value v) trivial _
  | declare => exact after_tame hk (c := .flow .normal) trivial _
  | left => exact ⟨trivial, trivial, hk⟩
  | right | sign => exact ofResult_tame hk _
  | decide op right =>
    simp only [resume]
    split <;> exact ⟨trivial, hk⟩
  | callee | argument => exact nextArgument_tame hk _ _ _ _
  | branch body otherwise =>
    simp only [resume]
    split
    · exact ⟨hf.1, hk⟩
    · cases otherwise with
      | none => exact ⟨trivial, hk⟩
      | some s => exact ⟨hf.2 s rfl, hk⟩
  | test loop =>
    simp only [resume]
    split
    · exact ⟨hf, hf, hk⟩
    · exact ⟨trivial, hk⟩
  | stepped loop => exact ⟨trivial, hf, hk⟩
  | discard | giveBack | round | sequence | leave | endCall => exact ⟨trivial, hk⟩

theorem proceed_tame {frame : Frame} (hframe : frame.Tame (Frame.nested k) (Frame.catches k))
    (hk : Frame.AllTame k) {f : Flow}
    (hf : (Control.flow f).Tame (Frame.nested (frame :: k)) (Frame.catches (frame :: k))) :
    (proceed k w f frame).Tame := by
  cases frame with
  | round loop =>
    obtain ⟨condition, increment, body⟩ := loop
    cases f with
    | broke | returned => exact ⟨trivial, hk⟩
    | normal | continued => cases increment <;> exact ⟨trivial, hframe, hk⟩
  | sequence rest =>
    cases f with
    | normal =>
      cases rest with
      | nil => exact ⟨trivial, hk⟩
      | cons s rest =>
        obtain ⟨hs, hrest⟩ := List.forall_mem_cons.mp hframe
        exact ⟨hs, hrest, hk⟩
    | broke | continued | returned => exact ⟨hf, hk⟩
  | leave left back => cases f <;> exact ⟨hf, hk⟩
  | endCall => exact ⟨trivial, hk⟩
  | _ => cases f <;> exact ⟨hf, hk⟩

theorem step_tame {s : State} (h : s.Tame) : s.step.Tame := by
  obtain ⟨c, k, w⟩ := s
  obtain ⟨hc, hk⟩ := h
  cases c with
  | eval e => exact eval_tame hk e
  | exec s => exact exec_tame hk hc
  | value v =>
    cases k with
    | nil => exact ⟨hc, hk⟩
    | cons f k => exact resume_tame hk.1 hk.2 v
  | flow f =>
    cases k with
    | nil => exact ⟨hc, hk⟩
    | cons frame k => exact proceed_tame hk.1 hk.2 hc
  | raise e =>
    cases k with
    | nil => exact ⟨hc, hk⟩
    | cons frame k => cases frame <;> exact ⟨trivial, hk.2⟩
  | exit => exact ⟨hc, hk⟩

/-- A tame statement binds names in scopes that were opened since, and leaves no others. -/
theorem Tame.touches {s : State} {k : List Frame} (h : s.Tame) (ha : s.Above k) :
    ∀ id ∈ s.touches, id ∈ Frame.opened s.frames := by
  have hcurrent : Frame.nested s.frames = true → s.world.scope ∈ Frame.opened s.frames := by
    intro hn
    have hne := Frame.opened_ne_nil_of_nested hn
    have hcurrent : s.world.scope = _ := ha.sound.world.current
    rw [onto, Frame.opened_append] at hcurrent
    rw [hcurrent]
    cases ho : Frame.opened s.frames with
    | nil => exact absurd ho hne
    | cons id rest => simp
  intro id hid
  obtain ⟨hc, hk⟩ := h
  unfold State.touches at hid
  split at hid
  · cases hid
    exact hcurrent (Stmt.Tame.func_binds hc)
  · cases hid
    exact hcurrent (Stmt.Tame.declare_binds hc)
  · cases hid
    exact hcurrent hk.1
  · cases hid
    exact leaves_opened rfl
  · cases hid
    exact leaves_opened rfl
  · cases hid

theorem Tame.not_continued {s : State} (h : s.Tame) : s.outcome? ≠ some (.flow .continued) := by
  intro ho
  obtain ⟨c, k, w⟩ := s
  cases c <;> cases k <;> cases ho
  cases h.control

end State

end Script
