import Script.Proofs.ScopesSound

/-!
# What names are bound to

If every value that a name is bound to has some property, then so it is after each
operation on the store, provided that what is newly bound has it too.
-/

namespace Script.Scopes

variable {P : Value → Prop} {s : Scopes}

/-- Every value that a name is bound to, in any scope, has the property. -/
def AllBound (P : Value → Prop) (s : Scopes) : Prop :=
  ∀ id name v, (name, some v) ∈ (s.scope id).bindings → P v

namespace AllBound

theorem modify (h : s.AllBound P) (id : ScopeId) (f : Scope → Scope)
    (hf : ∀ name v, (name, some v) ∈ (f (s.scope id)).bindings →
      (name, some v) ∈ (s.scope id).bindings ∨ P v) : (s.modify id f).AllBound P := by
  intro j name v hv
  by_cases hj : j = id
  · subst hj
    by_cases hin : j.slot < s.slots.size
    · rw [scope_modify_self f hin] at hv
      exact (hf name v hv).elim (h j name v) id
    · rw [scope_out (by rw [size_modify]; omega)] at hv
      cases hv
  · rw [scope_modify_ne f hj] at hv
    exact h j name v hv

theorem push (h : s.AllBound P) (parent : ScopeId) : (s.push parent).2.AllBound P := by
  unfold Scopes.push
  cases hs : s.spare with
  | nil =>
    have hpush := push_pushed s parent (by simp [hs])
    unfold Scopes.push at hpush
    simp only [hs] at hpush
    intro j name v hv
    by_cases hj : j = ⟨s.slots.size⟩
    · subst hj
      rw [hpush.fresh] at hv
      cases hv
    · rw [hpush.other j hj] at hv
      exact h j name v hv
  | cons id spare => exact h.modify id _ fun name v hv => by cases hv

theorem release (h : s.AllBound P) (id : ScopeId) : (s.release id).AllBound P := by
  simp only [Scopes.release]
  split
  · exact h
  · exact h.modify id _ fun name v hv => by cases hv

theorem capture (h : s.AllBound P) (id : ScopeId) : (s.capture id).AllBound P := by
  intro j name v hv
  rw [Scopes.capture, captureWithin_bindings] at hv
  exact h j name v hv

theorem define (h : s.AllBound P) (id : ScopeId) (name : String) {value : Option Value}
    (hv : ∀ v ∈ value, P v) : (s.define id name value).2.AllBound P := by
  unfold Scopes.define
  split
  · exact h
  · refine h.modify id _ fun key v hm => ?_
    rcases List.mem_cons.mp hm with e | hm
    · cases e
      exact .inr (hv v rfl)
    · exact .inl hm

theorem assign (h : s.AllBound P) (id : ScopeId) (name : String) {value : Value}
    (hv : P value) : (s.assign id name value).2.AllBound P := by
  unfold Scopes.assign
  split
  · exact h
  · refine h.modify _ _ fun key v hm => ?_
    exact (mem_set hm).imp_right (by rintro rfl; exact hv)

theorem get (h : s.AllBound P) {id : ScopeId} {name : String} {v : Value}
    (hg : s.get id name = .ok v) : P v := by
  obtain ⟨owner, hm⟩ := mem_of_get hg
  exact h owner name v hm

end AllBound

end Script.Scopes
