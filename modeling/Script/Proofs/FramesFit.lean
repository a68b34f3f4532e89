import Script.Machine.Step

/-!
# Frames get what they wait for

An expression comes to a value and a statement to a flow. Each frame waits for
one of the two, and what comes of it is again one of the two, so the frames of a
state fit on top of each other. No frame is ever handed an outcome of the wrong
kind.
-/

namespace Script

/-- Whether a frame waits for a value, and not for the outcome of a statement. -/
def Frame.takesValue : Frame → Bool
  | .round _ | .sequence _ | .leave _ _ | .endCall => false
  | _ => true

/-- Whether what comes of a frame is a value, and not the outcome of a statement. -/
def Frame.givesValue : Frame → Bool
  | .assign _ | .left _ _ | .right _ _ | .decide _ _ | .sign _ | .callee _ _ | .argument _ _ _ _
  | .endCall => true
  | _ => false

/-- Frames each of which gives what the next one waits for, the first one waiting for a value or
not. -/
def Frame.Fit : Bool → List Frame → Prop
  | _, [] => True
  | b, f :: k => f.takesValue = b ∧ Fit f.givesValue k

/-- Whether something comes to a value or not. An error is passed on to any frame. -/
def Control.Comes : Control → Bool → Prop
  | .eval _, b | .value _, b => b = true
  | .exec _, b | .flow _, b => b = false
  | .raise _, _ | .exit, _ => True

def State.Fitting (s : State) : Prop := ∃ b, s.control.Comes b ∧ Frame.Fit b s.frames

namespace State

variable {k : List Frame}

theorem ofResult_fitting (hk : Frame.Fit true k) (w : World) (r : Except RuntimeError Value) :
    (ofResult k w r).Fitting := by
  cases r with
  | ok v => exact ⟨true, rfl, hk⟩
  | error e => exact ⟨true, trivial, hk⟩

theorem after_fitting {b : Bool} (hk : Frame.Fit b k) (c : Control) (hc : c.Comes b)
    (r : Except RuntimeError Unit × World) : (after k c r).Fitting := by
  obtain ⟨r, w⟩ := r
  cases r with
  | ok u => exact ⟨b, hc, hk⟩
  | error e => exact ⟨b, trivial, hk⟩

theorem eval_fitting (hk : Frame.Fit true k) (w : World) (e : Expr) : (eval k w e).Fitting := by
  cases e with
  | reference name => exact ofResult_fitting hk w _
  | group | constant => exact ⟨true, rfl, hk⟩
  | _ => exact ⟨true, rfl, rfl, hk⟩

theorem exec_fitting (hk : Frame.Fit false k) (w : World) (s : Stmt) : (exec k w s).Fitting := by
  cases s with
  | block => exact ⟨false, rfl, rfl, rfl, hk⟩
  | breakLoop | continueLoop => exact ⟨false, rfl, hk⟩
  | expr | forLoop | ifThen | ifElse | whileLoop => exact ⟨true, rfl, rfl, hk⟩
  | func name params body => exact after_fitting hk (.flow .normal) rfl _
  | ret _ value =>
    cases value with
    | none => exact ⟨false, rfl, hk⟩
    | some e => exact ⟨true, rfl, rfl, hk⟩
  | declare name value =>
    cases value with
    | none => exact after_fitting hk (.flow .normal) rfl _
    | some e => exact ⟨true, rfl, rfl, hk⟩

theorem call_fitting (hk : Frame.Fit true k) (w : World) (paren : Token) (callee : Value)
    (args : List Value) : (call k w paren callee args).Fitting := by
  cases callee with
  | nil | bool | number | text => exact ⟨true, trivial, hk⟩
  | callable identity c =>
    simp only [call]
    split
    · exact ⟨true, trivial, hk⟩
    · split
      · exact ⟨true, trivial, hk⟩
      · cases c with
        | function name params body closure =>
          simp only [callFunction]
          split
          · exact ⟨false, rfl, rfl, rfl, rfl, hk⟩
          · exact ⟨true, trivial, hk⟩
        | native n =>
          simp only
          split
          · exact ⟨true, rfl, hk⟩
          · exact ⟨true, trivial, hk⟩
          · exact ⟨true, trivial, hk⟩

theorem nextArgument_fitting (hk : Frame.Fit true k) (w : World) (paren : Token) (callee : Value)
    (done : List Value) (args : List Expr) : (nextArgument k w paren callee done args).Fitting := by
  cases args with
  | nil => exact call_fitting hk w paren callee _
  | cons arg args => exact ⟨true, rfl, rfl, hk⟩

theorem resume_fitting {f : Frame} (hf : f.takesValue = true) (hk : Frame.Fit f.givesValue k)
    (w : World) (v : Value) : (resume k w v f).Fitting := by
  cases f with
  | assign name => exact after_fitting hk (.value v) rfl _
  | left => exact ⟨true, rfl, rfl, hk⟩
  | right | sign => exact ofResult_fitting hk w _
  | decide op right =>
    simp only [resume]
    split
    · exact ⟨true, rfl, hk⟩
    · exact ⟨true, rfl, hk⟩
  | callee paren args => exact nextArgument_fitting hk w paren v [] args
  | argument paren callee done args => exact nextArgument_fitting hk w paren callee _ args
  | discard | giveBack => exact ⟨false, rfl, hk⟩
  | branch body otherwise =>
    simp only [resume]
    split
    · exact ⟨false, rfl, hk⟩
    · cases otherwise with
      | none => exact ⟨false, rfl, hk⟩
      | some s => exact ⟨false, rfl, hk⟩
  | declare name => exact after_fitting hk (.flow .normal) rfl _
  | test loop =>
    simp only [resume]
    split
    · exact ⟨false, rfl, rfl, hk⟩
    · exact ⟨false, rfl, hk⟩
  | stepped loop => exact ⟨true, rfl, rfl, hk⟩
  | round | sequence | leave | endCall => cases hf

theorem proceed_fitting {f : Frame} (hf : f.takesValue = false) (hk : Frame.Fit f.givesValue k)
    (w : World) (fl : Flow) : (proceed k w fl f).Fitting := by
  cases f with
  | round loop =>
    cases fl with
    | broke | returned => exact ⟨false, rfl, hk⟩
    | normal | continued =>
      simp only [proceed]
      split
      · exact ⟨true, rfl, rfl, hk⟩
      · exact ⟨true, rfl, rfl, hk⟩
  | sequence rest =>
    cases fl with
    | normal =>
      cases rest with
      | nil => exact ⟨false, rfl, hk⟩
      | cons s rest => exact ⟨false, rfl, rfl, hk⟩
    | broke | continued | returned => exact ⟨false, rfl, hk⟩
  | leave left back => exact ⟨false, rfl, hk⟩
  | endCall => exact ⟨true, rfl, hk⟩
  | _ => cases hf

theorem unwind_fitting (f : Frame) (hk : Frame.Fit f.givesValue k) (w : World) (e : RuntimeError) :
    (unwind k w e f).Fitting := by
  cases f <;> exact ⟨_, trivial, hk⟩

theorem step_fitting {s : State} (h : s.Fitting) : s.step.Fitting := by
  obtain ⟨c, k, w⟩ := s
  obtain ⟨b, hc, hk⟩ := h
  cases c with
  | eval e => cases hc; exact eval_fitting hk w e
  | exec s => cases hc; exact exec_fitting hk w s
  | value v =>
    cases hc
    cases k with
    | nil => exact ⟨true, rfl, trivial⟩
    | cons f k => exact resume_fitting hk.1 hk.2 w v
  | flow fl =>
    cases hc
    cases k with
    | nil => exact ⟨false, rfl, trivial⟩
    | cons f k => exact proceed_fitting hk.1 hk.2 w fl
  | raise e =>
    cases k with
    | nil => exact ⟨b, trivial, trivial⟩
    | cons f k => exact unwind_fitting f hk.2 w e
  | exit => exact ⟨b, trivial, hk⟩

end State

end Script
