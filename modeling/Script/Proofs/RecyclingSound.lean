import Script.Proofs.HollowScopes

/-!
# Recycling slots cannot be seen

A store that never frees a slot keeps, for every scope in use of one that does, a
copy under another name. The renaming changes as slots are handed out again: it
is set anew where a scope is pushed. As no function in reach has a scope whose
slot is free, no value in reach notices. The two machines take the same steps.
-/

namespace Script

namespace Scopes

/-- A store that never recycles and holds, under the names that `ρ` gives them, all scopes in use
of another. -/
abbrev Mirrors (ρ : ScopeId → ScopeId) (s s' : Scopes) : Prop := Folds (fun _ => False) ρ s s'

end Scopes

namespace World

open State Scopes

/-- Two worlds that differ in nothing but the names of scopes, the second one with a store that never
recycles. -/
def Twins (w w' : World) : Prop := ∃ ρ s', Mirrors ρ w.scopes s' ∧ w' = w.mirror ρ s'

/-- Two worlds between calls that are twins, in one order or the other. -/
def Alike (w w' : World) : Prop := (Twins w w' ∧ w.Sound []) ∨ (Twins w' w ∧ w'.Sound [])

theorem Alike.symm {w w' : World} (h : Alike w w') : Alike w' w := Or.symm h

theorem Alike.transcript {w w' : World} (h : Alike w w') {calls : List Line}
    {sights : List Sight} (hc : w.Transcript calls sights) : w'.Transcript calls sights := by
  have hI := Folds.imitation fun _ => False
  rcases h with ⟨ht, hw⟩ | ⟨ht, hw⟩
  · have himitated : w.Imitated Mirrors (fun _ => ¬ False) [] w' := ⟨hw, not_false, ht⟩
    exact (himitated.transcript hI calls sights).mp hc
  · have himitated : w'.Imitated Mirrors (fun _ => ¬ False) [] w := ⟨hw, not_false, ht⟩
    exact (himitated.transcript hI calls sights).mpr hc

/-- A store with no free slot is mirrored by itself, once it stops to recycle. -/
theorem mirrors_self {s : Scopes} (h : s.spare = []) :
    Mirrors id s { s with recycles := false } := by
  have hself := Folds.self s
  rwa [← h] at hself

/-- Whatever calls are made in a new world, they come to an end if they do when no slot is ever used
twice, and are seen the same. -/
theorem recycling_unseen (sink : Sink) (input : Input) (clock : Nat → Float)
    (calls : List Line) (sights : List Sight) :
    Transcript { sink, input, clock } calls sights ↔
      Transcript { scopes := { Scopes.initial with recycles := false }, sink, input, clock }
        calls sights := by
  have hs : World.Sound { sink, input, clock } [] :=
    ⟨initial_sound, rfl, trivial, by simp⟩
  have ht : Twins { sink, input, clock }
      { scopes := { Scopes.initial with recycles := false }, sink, input, clock } :=
    ⟨id, _, mirrors_self rfl, rfl⟩
  have ha : Alike { sink, input, clock }
      { scopes := { Scopes.initial with recycles := false }, sink, input, clock } := .inl ⟨ht, hs⟩
  exact ⟨ha.transcript, ha.symm.transcript⟩

end World

end Script
