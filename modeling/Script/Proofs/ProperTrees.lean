import Script.Proofs.ExaminedSound
import Script.Proofs.TreeRules

/-!
# Proper trees

What holds of every tree that the grammar derives, whichever tokens it was derived from: an operator
stands in a node that it belongs to, the parameters of a function have different names, and a loop
is left or repeated only from inside of one. A function starts outside of all loops.
-/

namespace Script

/-- The operators that are applied to the values of two operands. -/
def Kind.isBinary (k : Kind) : Bool := k.level.isSome && !k.isLogical

theorem Kind.isBinary_of_level {k : Kind} {n : Nat} (h : k.level = some n)
    (hlog : k.isLogical = false) : k.isBinary = true := by
  simp [isBinary, h, hlog]

theorem Kind.isLogical_iff {k : Kind} : k.isLogical = true ↔ k = .andAnd ∨ k = .orOr := by
  cases k <;> simp [isLogical]

/-- A fault that is not due to a tree that no program has. -/
def Fault.Possible (f : Fault) : Prop := f ≠ .unknownOperator ∧ f ≠ .unknownSign

namespace Operator

variable {left right : Value} {f : Fault}

theorem onNumbers_possible {g : Float → Float → Value} (h : onNumbers g left right = .error f) :
    f.Possible := by
  unfold onNumbers at h
  split at h <;> cases h
  exact ⟨by simp, by simp⟩

theorem add_possible (h : add left right = .error f) : f.Possible := by
  unfold add at h
  split at h <;> cases h
  exact ⟨by simp, by simp⟩

theorem onBits_possible {g : Int32 → Int32 → Int32} (h : onBits g left right = .error f) :
    f.Possible := by
  unfold onBits at h
  split at h
  · split at h <;> cases h
    exact ⟨by simp, by simp⟩
  · cases h
    exact ⟨by simp, by simp⟩

theorem apply_possible {op : Kind} (hop : op.isBinary = true) (h : apply op left right = .error f) :
    f.Possible := by
  cases op with
  | plus => exact add_possible h
  | minus | star | slash | percent | greater | greaterEqual | less | lessEqual =>
    exact onNumbers_possible h
  | and | or | xor => exact onBits_possible h
  | equal | bangEqual => cases h
  | _ => cases hop

theorem applySign_possible {op : Kind} (hop : op.isSign = true) (h : applySign op left = .error f) :
    f.Possible := by
  have hnumber : ∀ g, onNumber g left = .error f → f.Possible := by
    intro g h
    unfold onNumber at h
    split at h <;> cases h
    exact ⟨by simp, by simp⟩
  cases op with
  | bang => cases h
  | minus | plus => exact hnumber _ h
  | _ => cases hop

end Operator

/-- The rules that all trees of programs meet. -/
def Rules.proper : Rules where
  binary op := op.isBinary = true
  logical op := op.isLogical = true
  sign op := op.isSign = true
  params names := (names.map Token.source).Nodup
  leaves inLoop := inLoop = true
  declares _ := True
  fault := Fault.Possible
  fault_binary := Operator.apply_possible
  fault_sign := Operator.applySign_possible
  fault_other h h' := ⟨h, h'⟩

def Line.Proper : Line → Prop
  | .statements body => ∀ s ∈ body, s.Meets .proper false false
  | .expression e => e.Meets .proper

/-! ## What is derived is proper -/

mutual

theorem Phrase.proper {n : Nat} {ts : List Token} {e : Expr} : Phrase n ts e → e.Meets .proper
  | .tighter _ h => h.proper
  | .assign _ _ h => .assign h.proper
  | .logical _ hlog hl hr => .logical hlog hl.proper hr.proper
  | .binary hop hlog hl hr => .binary (Kind.isBinary_of_level hop hlog) hl.proper hr.proper
  | .sign hop h => .unary hop h.proper
  | .callNone h _ _ => .call h.proper (by simp)
  | .call h _ hargs _ _ => .call h.proper hargs.proper
  | .falseWord _ | .trueWord _ | .nilWord _ | .literal _ _ => .constant
  | .reference _ => .reference
  | .group _ h _ => .group h.proper

theorem Arguments.proper {ts : List Token} {es : List Expr} :
    Arguments ts es → ∀ e ∈ es, e.Meets .proper
  | .one h => List.forall_mem_singleton.mpr h.proper
  | .more h _ hs => List.forall_mem_cons.mpr ⟨h.proper, hs.proper⟩

end

theorem Optional.proper {ts : List Token} {value : Option Expr} (h : Optional (Phrase 0) ts value) :
    ∀ e ∈ value, e.Meets .proper := by
  cases h with
  | none => simp
  | some h => simpa using h.proper

section
variable {inLoop nested : Bool} {ts : List Token}

theorem VariableDeclaration.proper {s : Stmt} (h : VariableDeclaration ts s) :
    s.Meets .proper inLoop nested := by
  cases h with
  | plain => exact .declare (by simp)
  | valued _ _ _ h => exact .declare (by simpa using h.proper)

theorem FirstClause.proper {first : Option Stmt} (h : FirstClause ts first) :
    ∀ s ∈ first.toList, s.Meets .proper inLoop nested := by
  cases h with
  | none => simp
  | binding h => simpa using h.proper
  | expression h => simpa using Stmt.Meets.expr h.proper

mutual

theorem Sentence.proper {inLoop nested dangling : Bool} {ts : List Token} {s : Stmt} :
    Sentence inLoop dangling ts s → s.Meets .proper inLoop nested
  | .expression h _ => .expr h.proper
  | .ret _ h _ => .ret h.proper
  | .breakLoop _ _ => .breakLoop rfl
  | .continueLoop _ _ => .continueLoop rfl
  | .block _ h _ => .block h.proper
  | .whileLoop _ _ hc _ h => .whileLoop hc.proper h.proper
  | @Sentence.forLoop _ _ _ _ _ _ _ _ _ _ _ c _ _ _ _ hfirst hc _ hi _ h => by
    have hcondition : (c.getD (.constant (.bool true))).Meets .proper := by
      cases hc with
      | none => exact .constant
      | some hc => exact hc.proper
    refine .block fun s hs => ?_
    rcases List.mem_append.mp hs with hs | hs
    · exact hfirst.proper s hs
    · rw [List.mem_singleton.mp hs]
      exact .forLoop hcondition hi.proper h.proper
  | .ifThen _ _ hc _ h => .ifThen hc.proper h.proper
  | .ifElse _ _ hc _ h _ h' => .ifElse hc.proper h.proper h'.proper

theorem Declaration.proper {inLoop nested : Bool} {ts : List Token} {s : Stmt} :
    Declaration inLoop ts s → s.Meets .proper inLoop nested
  | .binding h => h.proper
  | .function _ _ _ _ _ hdistinct _ _ h _ => .func hdistinct trivial h.proper
  | .sentence h => h.proper

theorem Body.proper {inLoop nested : Bool} {ts : List Token} {body : List Stmt} :
    Body inLoop ts body → ∀ s ∈ body, s.Meets .proper inLoop nested
  | .nil => by simp
  | .cons h hs => List.forall_mem_cons.mpr ⟨h.proper, hs.proper⟩

end

end

theorem Request.proper {r : Request} (h : r.examined.found = []) : r.examined.tree.Proper := by
  obtain ⟨ts, hts⟩ := Request.derived h
  cases hl : r.examined.tree with
  | statements body =>
    rw [hl] at hts
    exact Body.proper hts
  | expression e =>
    rw [hl] at hts
    exact Phrase.proper hts

end Script
