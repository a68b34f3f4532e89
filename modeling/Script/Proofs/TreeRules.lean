import Script.Proofs.BoundValues
import Script.Proofs.ClosuresSound

/-!
# Rules for trees

Rules say which operators stand in which nodes, which parameters a function has, where loops are
left and where functions are declared. A state meets the rules if all trees in it do: the one at
hand, those that wait in frames, and the bodies of all functions that exist. What a statement may do
depends on the frames below it, for a loop catches what its body breaks out of, a call catches
nothing, and a scope that is open is not the global one. Every step of a state that meets the rules
leads to one that does.
-/

namespace Script

/-! ## Rules -/

/-- What is asked of trees: of the operators in each kind of node, of parameters, of a statement
that leaves or repeats a loop, given whether it is inside of one, and of the declaration of a
function, given whether it is inside of a scope other than the global one. Faults are those that
such trees can make. -/
structure Rules where
  binary : Kind → Prop
  logical : Kind → Prop
  sign : Kind → Prop
  params : List Token → Prop
  leaves : Bool → Prop
  declares : Bool → Prop
  fault : Fault → Prop
  fault_binary : ∀ {op : Kind} {left right : Value} {f : Fault}, binary op →
    Operator.apply op left right = .error f → fault f
  fault_sign : ∀ {op : Kind} {operand : Value} {f : Fault}, sign op →
    Operator.applySign op operand = .error f → fault f
  fault_other : ∀ {f : Fault}, f ≠ .unknownOperator → f ≠ .unknownSign → fault f

section
variable (R : Rules)

inductive Expr.Meets : Expr → Prop
  | assign {name : Token} {value : Expr} (h : Meets value) : Meets (.assign name value)
  | binary {op : Token} {left right : Expr} (hop : R.binary op.kind) (hl : Meets left)
      (hr : Meets right) : Meets (.binary left op right)
  | logical {op : Token} {left right : Expr} (hop : R.logical op.kind) (hl : Meets left)
      (hr : Meets right) : Meets (.logical left op right)
  | unary {op : Token} {operand : Expr} (hop : R.sign op.kind) (h : Meets operand) :
      Meets (.unary op operand)
  | call {callee : Expr} {paren : Token} {args : List Expr} (h : Meets callee)
      (hargs : ∀ e ∈ args, Meets e) : Meets (.call callee paren args)
  | group {inner : Expr} (h : Meets inner) : Meets (.group inner)
  | constant {value : Constant} : Meets (.constant value)
  | reference {name : Token} : Meets (.reference name)

/-- `Stmt.Meets R inLoop nested s`: the statement meets the rules inside of a loop or not, and
inside of a scope other than the global one or not. -/
inductive Stmt.Meets : Bool → Bool → Stmt → Prop
  | block {inLoop nested : Bool} {body : List Stmt} (h : ∀ s ∈ body, Meets inLoop true s) :
      Meets inLoop nested (.block body)
  | breakLoop {inLoop nested : Bool} {keyword : Token} (h : R.leaves inLoop) :
      Meets inLoop nested (.breakLoop keyword)
  | continueLoop {inLoop nested : Bool} {keyword : Token} (h : R.leaves inLoop) :
      Meets inLoop nested (.continueLoop keyword)
  | expr {inLoop nested : Bool} {e : Expr} (h : e.Meets R) : Meets inLoop nested (.expr e)
  | forLoop {inLoop nested : Bool} {c : Expr} {i : Option Expr} {body : Stmt} (hc : c.Meets R)
      (hi : ∀ e ∈ i, e.Meets R) (h : Meets true nested body) :
      Meets inLoop nested (.forLoop c i body)
  | func {inLoop nested : Bool} {name : Token} {params : List Token} {body : List Stmt}
      (hparams : R.params params) (hnested : R.declares nested)
      (h : ∀ s ∈ body, Meets false true s) : Meets inLoop nested (.func name params body)
  | ifThen {inLoop nested : Bool} {c : Expr} {body : Stmt} (hc : c.Meets R)
      (h : Meets inLoop nested body) : Meets inLoop nested (.ifThen c body)
  | ifElse {inLoop nested : Bool} {c : Expr} {body otherwise : Stmt} (hc : c.Meets R)
      (h : Meets inLoop nested body) (h' : Meets inLoop nested otherwise) :
      Meets inLoop nested (.ifElse c body otherwise)
  | ret {inLoop nested : Bool} {keyword : Token} {value : Option Expr}
      (h : ∀ e ∈ value, e.Meets R) : Meets inLoop nested (.ret keyword value)
  | declare {inLoop nested : Bool} {name : Token} {value : Option Expr}
      (h : ∀ e ∈ value, e.Meets R) : Meets inLoop nested (.declare name value)
  | whileLoop {inLoop nested : Bool} {c : Expr} {body : Stmt} (hc : c.Meets R)
      (h : Meets true nested body) : Meets inLoop nested (.whileLoop c body)

/-! ## States -/

def Value.Meets : Value → Prop
  | .callable _ (.function _ params body _) => R.params params ∧ ∀ s ∈ body, s.Meets R false true
  | _ => True

def Flow.Meets (inLoop : Bool) : Flow → Prop
  | .normal => True
  | .broke | .continued => R.leaves inLoop
  | .returned v => v.Meets R

def Loop.Meets (nested : Bool) (l : Loop) : Prop :=
  l.condition.Meets R ∧ (∀ e ∈ l.increment, e.Meets R) ∧ l.body.Meets R true nested

end

namespace Frame

/-- Whether frames catch a statement that leaves or repeats a loop. -/
def inLoop : List Frame → Bool
  | [] => false
  | .round _ :: _ => true
  | .endCall :: _ => false
  | _ :: k => inLoop k

/-- Whether frames leave a scope. -/
def nested : List Frame → Bool
  | [] => false
  | .leave _ _ :: _ => true
  | _ :: k => nested k

end Frame

section
variable (R : Rules)

def Frame.Meets (inLoop nested : Bool) : Frame → Prop
  | .left op e => R.binary op.kind ∧ e.Meets R
  | .right v op => R.binary op.kind ∧ v.Meets R
  | .decide op e => R.logical op.kind ∧ e.Meets R
  | .sign op => R.sign op.kind
  | .callee _ args => ∀ e ∈ args, e.Meets R
  | .argument _ v done args => v.Meets R ∧ (∀ u ∈ done, u.Meets R) ∧ ∀ e ∈ args, e.Meets R
  | .branch body otherwise =>
    body.Meets R inLoop nested ∧ ∀ s ∈ otherwise, s.Meets R inLoop nested
  | .test l | .stepped l | .round l => l.Meets R nested
  | .sequence rest => ∀ s ∈ rest, s.Meets R inLoop nested
  | _ => True

def Frame.AllMeet : List Frame → Prop
  | [] => True
  | f :: k => f.Meets R (inLoop k) (nested k) ∧ AllMeet k

def Control.Meets (inLoop nested : Bool) : Control → Prop
  | .eval e => e.Meets R
  | .exec s => s.Meets R inLoop nested
  | .value v => v.Meets R
  | .flow f => f.Meets R inLoop
  | .raise e => R.fault e.fault
  | .exit => True

/-- Every value that a name is bound to meets the rules. -/
def Scopes.Meets (s : Scopes) : Prop :=
  ∀ id name v, (name, some v) ∈ (s.scope id).bindings → v.Meets R

structure State.Meets (s : State) : Prop where
  control : s.control.Meets R (Frame.inLoop s.frames) (Frame.nested s.frames)
  frames : Frame.AllMeet R s.frames
  bound : s.world.scopes.Meets R

end

variable {R : Rules}

theorem Value.meets_plain {v : Value} (h : v.closure? = none) : v.Meets R := by
  cases v with
  | callable identity c =>
    cases c with
    | function => cases h
    | native => trivial
  | _ => trivial

theorem Frame.AllMeet.values {k : List Frame} (h : AllMeet R k) :
    ∀ f ∈ k, ∀ v ∈ f.values, v.Meets R := by
  induction k with
  | nil => simp
  | cons f k ih =>
    refine List.forall_mem_cons.mpr ⟨fun v hv => ?_, ih h.2⟩
    cases f with
    | right u op =>
      rw [List.mem_singleton.mp hv]
      exact h.1.2
    | argument paren u done args => exact List.forall_mem_cons.mpr ⟨h.1.1, h.1.2.1⟩ v hv
    | _ => cases hv

theorem State.Meets.held {s : State} (h : s.Meets R) {v : Value} (hv : s.Holds v) : v.Meets R := by
  obtain ⟨c, k, w⟩ := s
  rcases hv with hv | ⟨f, hf, hv⟩ | ⟨id, name, hv⟩
  · have hc := h.control
    cases c with
    | value u =>
      rw [List.mem_singleton.mp hv]
      exact hc
    | flow f =>
      cases f with
      | returned u =>
        rw [List.mem_singleton.mp hv]
        exact hc
      | _ => cases hv
    | _ => cases hv
  · exact h.frames.values f hf v hv
  · exact h.bound id name v hv

/-! ## Scopes -/

namespace Scopes

variable {s : Scopes}

theorem Meets.push (h : s.Meets R) (parent : ScopeId) : (s.push parent).2.Meets R :=
  AllBound.push h parent

theorem Meets.release (h : s.Meets R) (id : ScopeId) : (s.release id).Meets R :=
  AllBound.release h id

theorem Meets.capture (h : s.Meets R) (id : ScopeId) : (s.capture id).Meets R :=
  AllBound.capture h id

theorem Meets.define (h : s.Meets R) (id : ScopeId) (name : String) {value : Option Value}
    (hv : ∀ v ∈ value, v.Meets R) : (s.define id name value).2.Meets R :=
  AllBound.define h id name hv

theorem Meets.assign (h : s.Meets R) (id : ScopeId) (name : String) {value : Value}
    (hv : value.Meets R) : (s.assign id name value).2.Meets R :=
  AllBound.assign h id name hv

theorem Meets.get (h : s.Meets R) {id : ScopeId} {name : String} {v : Value}
    (hg : s.get id name = .ok v) : v.Meets R :=
  AllBound.get h hg

theorem Meets.register (h : s.Meets R) (identity : Nat) (natives : List Native) :
    (s.register identity natives).Meets R := by
  induction natives generalizing s identity with
  | nil => exact h
  | cons n rest ih => exact ih (h.define .global n.name (by rintro _ ⟨⟩; trivial)) (identity + 1)

theorem initial_meets : initial.Meets R := by
  refine Meets.register ?_ 0 Native.library
  intro id name v hv
  rw [scope_empty] at hv
  cases hv

end Scopes

/-! ## Operations on the world -/

namespace World

variable {w : World} (hw : w.scopes.Meets R)
include hw

theorem lookup_meets (name : Token) : (∀ v, w.lookup name = .ok v → v.Meets R) ∧
    ∀ e, w.lookup name = .error e → R.fault e.fault := by
  unfold lookup
  split
  · rename_i v hv
    exact ⟨by rintro _ ⟨⟩; exact hw.get hv, by rintro _ ⟨⟩⟩
  · exact ⟨by rintro _ ⟨⟩, by rintro _ ⟨⟩; exact R.fault_other (by simp) (by simp)⟩
  · exact ⟨by rintro _ ⟨⟩, by rintro _ ⟨⟩; exact R.fault_other (by simp) (by simp)⟩

theorem define_meets (name : Token) {value : Option Value} (hv : ∀ v ∈ value, v.Meets R) :
    (w.define name value).2.scopes.Meets R ∧
      ∀ e, (w.define name value).1 = .error e → R.fault e.fault := by
  have h := hw.define w.scope name.source hv
  unfold define
  split
  · rename_i scopes hd
    rw [hd] at h
    exact ⟨h, by rintro _ ⟨⟩⟩
  · rename_i scopes hd
    rw [hd] at h
    exact ⟨h, by rintro _ ⟨⟩; exact R.fault_other (by simp) (by simp)⟩

theorem assign_meets (name : Token) {value : Value} (hv : value.Meets R) :
    (w.assign name value).2.scopes.Meets R ∧
      ∀ e, (w.assign name value).1 = .error e → R.fault e.fault := by
  have h := hw.assign w.scope name.source hv
  unfold assign
  split
  · rename_i scopes hd
    rw [hd] at h
    exact ⟨h, by rintro _ ⟨⟩⟩
  · rename_i scopes hd
    rw [hd] at h
    exact ⟨h, by rintro _ ⟨⟩; exact R.fault_other (by simp) (by simp)⟩

theorem bind_meets {l : List (Token × Value)} (hl : ∀ p ∈ l, p.2.Meets R) :
    (bind l w).2.scopes.Meets R ∧ ∀ e, (bind l w).1 = .error e → R.fault e.fault := by
  induction l generalizing w with
  | nil => exact ⟨hw, by rintro _ ⟨⟩⟩
  | cons p l ih =>
    obtain ⟨param, arg⟩ := p
    have harg : ∀ v ∈ some arg, v.Meets R := by
      rintro _ ⟨⟩
      exact hl (param, arg) (by simp)
    have hd := define_meets hw param harg
    unfold bind
    split
    · rename_i w' h
      rw [h] at hd
      exact ih hd.1 fun p hp => hl p (by simp [hp])
    · rename_i e w' h
      rw [h] at hd
      exact hd

omit hw

theorem perform_fault {args : List Value} {a : Action} {f : Fault} {w' : World}
    (h : w.perform args a = (.fault f, w')) : R.fault f := by
  cases a with
  | clock => cases h
  | print | println | exit =>
    simp only [perform, operate] at h
    split at h <;> cases h
    exact R.fault_other (by simp) (by simp)
  | read =>
    simp only [perform] at h
    split at h <;> cases h
    exact R.fault_other (by simp) (by simp)

end World

/-! ## Steps -/

namespace State

variable {k : List Frame} {w : World}

theorem ofResult_meets (hk : Frame.AllMeet R k) (hw : w.scopes.Meets R)
    {r : Except RuntimeError Value} (hok : ∀ v, r = .ok v → v.Meets R)
    (herror : ∀ e, r = .error e → R.fault e.fault) : (ofResult k w r).Meets R := by
  cases r with
  | ok v => exact ⟨hok v rfl, hk, hw⟩
  | error e => exact ⟨herror e rfl, hk, hw⟩

theorem after_meets (hk : Frame.AllMeet R k) (c : Control)
    (hc : c.Meets R (Frame.inLoop k) (Frame.nested k))
    {r : Except RuntimeError Unit × World} (hr : r.2.scopes.Meets R ∧
      ∀ e, r.1 = .error e → R.fault e.fault) : (after k c r).Meets R := by
  obtain ⟨_ | _, w⟩ := r
  · exact ⟨hr.2 _ rfl, hk, hr.1⟩
  · exact ⟨hc, hk, hr.1⟩

theorem eval_meets (hk : Frame.AllMeet R k) (hw : w.scopes.Meets R) {e : Expr} (he : e.Meets R) :
    (eval k w e).Meets R := by
  cases he with
  | assign h => exact ⟨h, ⟨trivial, hk⟩, hw⟩
  | binary hop hl hr => exact ⟨hl, ⟨⟨hop, hr⟩, hk⟩, hw⟩
  | logical hop hl hr => exact ⟨hl, ⟨⟨hop, hr⟩, hk⟩, hw⟩
  | unary hop h => exact ⟨h, ⟨hop, hk⟩, hw⟩
  | call h hargs => exact ⟨h, ⟨hargs, hk⟩, hw⟩
  | group h => exact ⟨h, hk, hw⟩
  | constant => exact ⟨Value.meets_plain (closure?_ofConstant _), hk, hw⟩
  | reference =>
    obtain ⟨hok, herror⟩ := World.lookup_meets hw _
    exact ofResult_meets hk hw hok herror

theorem exec_meets (hk : Frame.AllMeet R k) (hw : w.scopes.Meets R) {s : Stmt}
    (hs : s.Meets R (Frame.inLoop k) (Frame.nested k)) : (exec k w s).Meets R := by
  cases hs with
  | block h => exact ⟨trivial, ⟨h, trivial, hk⟩, hw.push _⟩
  | breakLoop h => exact ⟨h, hk, hw⟩
  | continueLoop h => exact ⟨h, hk, hw⟩
  | expr h => exact ⟨h, ⟨trivial, hk⟩, hw⟩
  | forLoop hc hi h => exact ⟨hc, ⟨⟨hc, hi, h⟩, hk⟩, hw⟩
  | whileLoop hc h => exact ⟨hc, ⟨⟨hc, by simp, h⟩, hk⟩, hw⟩
  | func hparams hnested h =>
    refine after_meets hk (.flow .normal) trivial (World.define_meets ?_ _ ?_)
    · exact hw.capture w.scope
    · rintro _ ⟨⟩
      exact ⟨hparams, h⟩
  | ifThen hc h => exact ⟨hc, ⟨⟨h, by simp⟩, hk⟩, hw⟩
  | ifElse hc h h' => exact ⟨hc, ⟨⟨h, by simpa using h'⟩, hk⟩, hw⟩
  | @ret _ _ _ value h =>
    cases value with
    | none => exact ⟨trivial, hk, hw⟩
    | some e => exact ⟨h e rfl, ⟨trivial, hk⟩, hw⟩
  | @declare _ _ _ value h =>
    cases value with
    | none => exact after_meets hk (.flow .normal) trivial (World.define_meets hw _ (by simp))
    | some e => exact ⟨h e rfl, ⟨trivial, hk⟩, hw⟩

theorem callFunction_meets (hk : Frame.AllMeet R k) (hw : w.scopes.Meets R) (params : List Token)
    {body : List Stmt} (hbody : ∀ s ∈ body, s.Meets R false true) (closure : ScopeId)
    {args : List Value} (hargs : ∀ v ∈ args, v.Meets R) :
    (callFunction k w params body closure args).Meets R := by
  have henter : (w.enter closure).scopes.Meets R := hw.push closure
  have hbound := World.bind_meets henter (l := params.zip args) fun p hp =>
    hargs p.2 (List.of_mem_zip hp).2
  simp only [callFunction]
  split
  · rename_i w' hb
    rw [hb] at hbound
    exact ⟨trivial, ⟨hbody, trivial, trivial, hk⟩, hbound.1⟩
  · rename_i e w' hb
    rw [hb] at hbound
    exact ⟨hbound.2 e rfl, hk, hbound.1.release _⟩

theorem call_meets (hk : Frame.AllMeet R k) (hw : w.scopes.Meets R) (paren : Token) {callee : Value}
    (hc : callee.Meets R) {args : List Value} (hargs : ∀ v ∈ args, v.Meets R) :
    (call k w paren callee args).Meets R := by
  have hraise : ∀ f, R.fault f → (⟨.raise ⟨paren, f⟩, k, w⟩ : State).Meets R :=
    fun f hf => ⟨hf, hk, hw⟩
  cases callee with
  | nil | bool | number | text => exact hraise .notCallable (R.fault_other (by simp) (by simp))
  | callable identity c =>
    simp only [call]
    split
    · exact hraise _ (R.fault_other (by simp) (by simp))
    · split
      · exact hraise _ (R.fault_other (by simp) (by simp))
      · cases c with
        | function name params body closure =>
          exact callFunction_meets hk hw params hc.2 closure hargs
        | native n =>
          obtain ⟨effect, w', he, hscopes, -, hplain⟩ := perform_plain w args n.action
          have hw' : w'.scopes.Meets R := hscopes ▸ hw
          simp only [he]
          cases effect with
          | value v => exact ⟨Value.meets_plain (hplain v rfl), hk, hw'⟩
          | fault f => exact ⟨World.perform_fault he, hk, hw'⟩
          | exit => exact ⟨trivial, hk, hw'⟩

theorem nextArgument_meets (hk : Frame.AllMeet R k) (hw : w.scopes.Meets R) (paren : Token)
    {callee : Value} (hc : callee.Meets R) {done : List Value} (hdone : ∀ v ∈ done, v.Meets R)
    {args : List Expr} (hargs : ∀ e ∈ args, e.Meets R) :
    (nextArgument k w paren callee done args).Meets R := by
  cases args with
  | nil => exact call_meets hk hw paren hc fun v hv => hdone v (List.mem_reverse.mp hv)
  | cons arg args =>
    obtain ⟨harg, hargs⟩ := List.forall_mem_cons.mp hargs
    exact ⟨harg, ⟨⟨hc, hdone, hargs⟩, hk⟩, hw⟩

theorem resume_meets {f : Frame} (hf : f.Meets R (Frame.inLoop k) (Frame.nested k))
    (hk : Frame.AllMeet R k) (hw : w.scopes.Meets R) {v : Value} (hv : v.Meets R) :
    (resume k w v f).Meets R := by
  cases f with
  | assign name => exact after_meets hk (.value v) hv (World.assign_meets hw name hv)
  | left op right => exact ⟨hf.2, ⟨⟨hf.1, hv⟩, hk⟩, hw⟩
  | right left op =>
    refine ofResult_meets hk hw (fun u hu => Value.meets_plain (apply_plain (mapError_ok hu))) ?_
    intro e he
    cases ha : Operator.apply op.kind left v with
    | ok u => rw [ha] at he; cases he
    | error f => rw [ha] at he; cases he; exact R.fault_binary hf.1 ha
  | sign op =>
    refine ofResult_meets hk hw ?_ ?_
    · exact fun u hu => Value.meets_plain (applySign_plain (mapError_ok hu))
    intro e he
    cases ha : Operator.applySign op.kind v with
    | ok u => rw [ha] at he; cases he
    | error f => rw [ha] at he; cases he; exact R.fault_sign hf ha
  | decide op right =>
    simp only [resume]
    split
    · exact ⟨hv, hk, hw⟩
    · exact ⟨hf.2, hk, hw⟩
  | callee paren args => exact nextArgument_meets hk hw paren hv (by simp) hf
  | argument paren callee done args =>
    obtain ⟨hc, hdone, hargs⟩ := hf
    exact nextArgument_meets hk hw paren hc (List.forall_mem_cons.mpr ⟨hv, hdone⟩) hargs
  | discard => exact ⟨trivial, hk, hw⟩
  | branch body otherwise =>
    simp only [resume]
    split
    · exact ⟨hf.1, hk, hw⟩
    · cases otherwise with
      | none => exact ⟨trivial, hk, hw⟩
      | some s => exact ⟨hf.2 s rfl, hk, hw⟩
  | giveBack => exact ⟨hv, hk, hw⟩
  | declare name =>
    exact after_meets hk (.flow .normal) trivial
      (World.define_meets hw name (by rintro _ ⟨⟩; exact hv))
  | test loop =>
    simp only [resume]
    split
    · exact ⟨hf.2.2, ⟨hf, hk⟩, hw⟩
    · exact ⟨trivial, hk, hw⟩
  | stepped loop => exact ⟨hf.1, ⟨hf, hk⟩, hw⟩
  | round | sequence | leave | endCall => exact ⟨hv, hk, hw⟩

theorem proceed_meets {frame : Frame} (hframe : frame.Meets R (Frame.inLoop k) (Frame.nested k))
    (hk : Frame.AllMeet R k) (hw : w.scopes.Meets R) {f : Flow}
    (hf : f.Meets R (Frame.inLoop (frame :: k))) : (proceed k w f frame).Meets R := by
  cases frame with
  | round loop =>
    obtain ⟨condition, increment, body⟩ := loop
    have hagain : (⟨.eval condition, .test ⟨condition, increment, body⟩ :: k, w⟩ : State).Meets R :=
      ⟨hframe.1, ⟨hframe, hk⟩, hw⟩
    cases f with
    | broke => exact ⟨trivial, hk, hw⟩
    | returned v => exact ⟨hf, hk, hw⟩
    | normal | continued =>
      cases increment with
      | none => exact hagain
      | some e => exact ⟨hframe.2.1 e rfl, ⟨hframe, hk⟩, hw⟩
  | sequence rest =>
    cases f with
    | normal =>
      cases rest with
      | nil => exact ⟨hf, hk, hw⟩
      | cons s rest =>
        obtain ⟨hs, hrest⟩ := List.forall_mem_cons.mp hframe
        exact ⟨hs, ⟨hrest, hk⟩, hw⟩
    | broke | continued | returned => exact ⟨hf, hk, hw⟩
  | leave left back => exact ⟨hf, hk, hw.release left⟩
  | endCall =>
    cases f with
    | returned v => exact ⟨hf, hk, hw⟩
    | normal | broke | continued => exact ⟨trivial, hk, hw⟩
  | _ => exact ⟨hf, hk, hw⟩

theorem unwind_meets (frame : Frame) (hk : Frame.AllMeet R k) (hw : w.scopes.Meets R)
    {e : RuntimeError} (he : R.fault e.fault) : (unwind k w e frame).Meets R := by
  cases frame with
  | leave left back => exact ⟨he, hk, hw.release left⟩
  | _ => exact ⟨he, hk, hw⟩

theorem step_meets {s : State} (h : s.Meets R) : s.step.Meets R := by
  obtain ⟨c, k, w⟩ := s
  obtain ⟨hc, hk, hw⟩ := h
  cases c with
  | eval e => exact eval_meets hk hw hc
  | exec s => exact exec_meets hk hw hc
  | value v =>
    cases k with
    | nil => exact ⟨hc, hk, hw⟩
    | cons f k => exact resume_meets hk.1 hk.2 hw hc
  | flow f =>
    cases k with
    | nil => exact ⟨hc, hk, hw⟩
    | cons frame k => exact proceed_meets hk.1 hk.2 hw hc
  | raise e =>
    cases k with
    | nil => exact ⟨hc, hk, hw⟩
    | cons frame k => exact unwind_meets frame hk.2 hw hc
  | exit => exact ⟨hc, hk, hw⟩

end State

end Script
