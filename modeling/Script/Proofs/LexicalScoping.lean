import Mathlib.Tactic.IntervalCases
import Script.Proofs.ScopesLemmas

/-!
# Names as seen from a scope

A name belongs to the nearest scope outward that binds it, whatever other scopes share that scope or
shadow the name. Binding a name adds just that binding; giving it another value is seen from the
scopes from which the name belongs to the same one, and from nowhere else. So a name has no value
just if it was bound without one and has not been given one since.
-/

namespace Script

namespace Scopes

/-! ## Stores with finite chains -/

/-- A slot of the store. -/
def Has (s : Scopes) (id : ScopeId) : Prop := id.slot < s.slots.size

instance (s : Scopes) (id : ScopeId) : Decidable (s.Has id) :=
  inferInstanceAs (Decidable (id.slot < s.slots.size))

/-- The scopes from a scope outward, up to one that is in no other. -/
inductive Chain (s : Scopes) : ScopeId → List ScopeId → Prop where
  | last {id : ScopeId} : s.Has id → (s.scope id).parent = none → Chain s id [id]
  | next {id parent : ScopeId} {l : List ScopeId} : s.Has id → (s.scope id).parent = some parent →
      Chain s parent l → Chain s id (id :: l)

/-- From every scope one gets outward to an end. -/
def Chained (s : Scopes) : Prop := ∀ id, s.Has id → ∃ l, s.Chain id l

section
variable {s s' : Scopes} {id j : ScopeId} {l l' : List ScopeId}

theorem Chain.unique (h : s.Chain id l) (h' : s.Chain id l') : l = l' := by
  induction h generalizing l' with
  | last _ hp => cases h' <;> simp_all
  | next _ hp _ ih =>
    cases h' with
    | last _ hp' => simp [hp] at hp'
    | next _ hp' hl' =>
      cases hp.symm.trans hp'
      rw [ih hl']

theorem Chain.suffix (h : s.Chain id l) (hj : j ∈ l) : ∃ t, t <:+ l ∧ s.Chain j t := by
  induction h with
  | last hid hp =>
    obtain rfl := List.mem_singleton.mp hj
    exact ⟨_, List.suffix_rfl, .last hid hp⟩
  | next hid hp hl ih =>
    rcases List.mem_cons.mp hj with rfl | hj
    · exact ⟨_, List.suffix_rfl, .next hid hp hl⟩
    · obtain ⟨t, ht, hc⟩ := ih hj
      exact ⟨t, ht.trans (List.suffix_cons _ _), hc⟩

theorem Chain.nodup (h : s.Chain id l) : l.Nodup := by
  induction h with
  | last => simp
  | next hid hp hl ih =>
    refine List.nodup_cons.mpr ⟨?_, ih⟩
    intro hm
    obtain ⟨t, ht, hc⟩ := hl.suffix hm
    have hlen := ht.length_le
    rw [hc.unique (.next hid hp hl), List.length_cons] at hlen
    omega

theorem Chain.has (h : s.Chain id l) (hj : j ∈ l) : s.Has j := by
  obtain ⟨t, -, hc⟩ := h.suffix hj
  cases hc with
  | last hid => exact hid
  | next hid => exact hid

theorem Chain.length_le (h : s.Chain id l) : l.length ≤ s.slots.size :=
  length_le_slots h.nodup fun _ => h.has

theorem Chain.congr (h : SameShape s s') (hl : s.Chain id l) : s'.Chain id l := by
  have hhas : ∀ {j}, s.Has j → s'.Has j := fun hj => by rwa [Has, h.size]
  induction hl with
  | last hid hp => exact .last (hhas hid) ((h.parent _).trans hp)
  | next hid hp _ ih => exact .next (hhas hid) ((h.parent _).trans hp) ih

theorem SameShape.has_iff (h : SameShape s s') : s'.Has id ↔ s.Has id := by
  simp [Has, h.size]

theorem SameShape.chained (h : SameShape s s') (hs : s.Chained) : s'.Chained := by
  intro id hid
  obtain ⟨l, hl⟩ := hs id (h.has_iff.mp hid)
  exact ⟨l, hl.congr h⟩

theorem Chain.finds (h : s.Chain id l) (name : String) {n : Nat} (hn : l.length ≤ n) :
    Finds s name id (s.ownerWithin name n id) := by
  induction h generalizing n with
  | @last id _ hp =>
    cases n with
    | zero => simp at hn
    | succ n =>
      simp only [ownerWithin, hp]
      cases hb : ((s.scope id).bindings.lookup name).isSome with
      | true => exact .here hb
      | false => exact .nowhere hb hp
  | @next id parent l _ hp _ ih =>
    cases n with
    | zero => simp at hn
    | succ n =>
      simp only [ownerWithin, hp]
      cases hb : ((s.scope id).bindings.lookup name).isSome with
      | true => exact .here hb
      | false => exact .outside hb hp (ih (by simpa using hn))

/-- The number of slots bounds the search, but never cuts it off. -/
theorem Chained.owner_finds (hs : s.Chained) (hid : s.Has id) (name : String) :
    Finds s name id (s.owner id name) := by
  obtain ⟨l, hl⟩ := hs id hid
  exact hl.finds name hl.length_le

end

/-! ## One binding -/

/-- What a scope itself binds a name to. -/
def binding (s : Scopes) (id : ScopeId) (name : String) : Option (Option Value) :=
  (s.scope id).bindings.lookup name

/-- The second store is the first one with one more binding, or with one that is changed. -/
structure Binds (s s' : Scopes) (id : ScopeId) (name : String) (value : Option Value) : Prop where
  binding : ∀ j m, s'.binding j m = if j = id ∧ m = name then some value else s.binding j m
  shape : SameShape s s'
  captured : ∀ j, (s'.scope j).captured = (s.scope j).captured

theorem lookup_set (name m : String) (value : Value) (b : Bindings) :
    (b.set name value).lookup m =
      if m = name ∧ (b.lookup name).isSome = true then some (some value) else b.lookup m := by
  induction b with
  | nil => simp [Bindings.set]
  | cons p b ih =>
    obtain ⟨key, old⟩ := p
    by_cases hk : key = name
    · subst hk
      by_cases hm : m = key
      · simp [Bindings.set, hm]
      · simp [Bindings.set, List.lookup_cons, beq_false_of_ne hm, hm]
    · have hlookup : ((key, old) :: b).lookup name = b.lookup name := by
        simp [List.lookup_cons, beq_false_of_ne (Ne.symm hk)]
      rw [hlookup]
      by_cases hm : m = key
      · subst hm
        simp [Bindings.set, hk]
      · simp [Bindings.set, List.lookup_cons, beq_false_of_ne hm, hk, ih]

section
variable {s s' : Scopes} {id j : ScopeId} {name : String}

theorem has_of_binding (h : (s.binding id name).isSome = true) : s.Has id := by
  by_contra hid
  rw [binding, scope_out (Nat.le_of_not_lt hid)] at h
  cases h

theorem modify_binds {f : Bindings → Bindings} {value : Option Value} (hid : s.Has id)
    (hf : ∀ m, (f (s.scope id).bindings).lookup m =
      if m = name then some value else s.binding id m) :
    Binds s (s.modify id fun scope => { scope with bindings := f scope.bindings }) id name value where
  binding j m := by
    by_cases hj : j = id
    · subst hj
      rw [binding, scope_modify_self _ hid]
      simp [hf]
    · rw [binding, scope_modify_ne _ hj]
      simp [hj, binding]
  shape := .modify s id _ rfl rfl
  captured := scope_modify_part Scope.captured s id _ rfl

theorem define_binds (hid : s.Has id) (h : s.binding id name = none) (value : Option Value) :
    (s.define id name value).1 = true ∧ Binds s (s.define id name value).2 id name value := by
  have hnot : ((s.scope id).bindings.lookup name).isSome = false := by
    simpa [binding] using h
  simp only [define, hnot, Bool.false_eq_true, if_false]
  refine ⟨trivial, modify_binds (f := fun b => (name, value) :: b) hid ?_⟩
  intro m
  by_cases hm : m = name
  · simp [hm]
  · simp [List.lookup_cons, beq_false_of_ne hm, hm, binding]

theorem define_bound (h : (s.binding id name).isSome = true) (value : Option Value) :
    s.define id name value = (false, s) := by
  simp only [define]
  exact if_pos h

theorem ownerWithin_binding {n : Nat} {o : ScopeId} (h : s.ownerWithin name n id = some o) :
    (s.binding o name).isSome = true := by
  induction n generalizing id with
  | zero => cases h
  | succ n ih =>
    simp only [ownerWithin] at h
    split at h
    · cases h
      assumption
    · split at h
      · cases h
      · exact ih h

theorem assign_binds {o : ScopeId} (h : s.owner id name = some o) (value : Value) :
    (s.assign id name value).1 = true ∧ Binds s (s.assign id name value).2 o name (some value) := by
  have hb := ownerWithin_binding h
  simp only [assign, h]
  refine ⟨trivial, modify_binds (f := Bindings.set name value) (has_of_binding hb) ?_⟩
  intro m
  rw [binding] at hb
  simp [lookup_set, hb, binding]

theorem assign_unbound (h : s.owner id name = none) (value : Value) :
    s.assign id name value = (false, s) := by
  simp [assign, h]

/-! ## Looking up names afterwards -/

theorem ownerWithin_congr (hp : ∀ j, (s'.scope j).parent = (s.scope j).parent)
    (hb : ∀ j, (s'.binding j name).isSome = (s.binding j name).isSome) (n : Nat) (id : ScopeId) :
    s'.ownerWithin name n id = s.ownerWithin name n id := by
  induction n generalizing id with
  | zero => rfl
  | succ n ih =>
    have hb' := hb id
    simp only [binding] at hb'
    simp only [ownerWithin, hb', hp id, ih]

/-- Another value for what is bound changes no owner. -/
theorem Binds.owner {value : Option Value} (h : Binds s s' j name value)
    (hj : (s.binding j name).isSome = true) (id : ScopeId) (m : String) :
    s'.owner id m = s.owner id m := by
  rw [Scopes.owner, h.shape.size, Scopes.owner]
  refine ownerWithin_congr h.shape.parent ?_ _ _
  intro i
  rw [h.binding]
  by_cases hi : i = j ∧ m = name
  · rw [if_pos hi, hi.1, hi.2, hj]
    rfl
  · rw [if_neg hi]

theorem get_eq (s : Scopes) (id : ScopeId) (m : String) : s.get id m =
    match s.owner id m with
    | none => .error .undefined
    | some o =>
      match s.binding o m with
      | some (some value) => .ok value
      | _ => .error .uninitialized := rfl

theorem get_undefined_iff : s.get id name = .error .undefined ↔ s.owner id name = none := by
  rw [get_eq]
  cases s.owner id name with
  | none => simp
  | some o =>
    simp only [reduceCtorEq, iff_false]
    split <;> simp

theorem get_uninitialized_iff : s.get id name = .error .uninitialized ↔
    ∃ o, s.owner id name = some o ∧ s.binding o name = some none := by
  rw [get_eq]
  cases ho : s.owner id name with
  | none => simp
  | some o =>
    have hb := ownerWithin_binding ho
    cases hv : s.binding o name with
    | none => simp [hv] at hb
    | some v => cases v <;> simp [hv]

/-- The new value is seen from where the name has the same owner, and nowhere else. -/
theorem assign_get {o : ScopeId} (h : s.owner id name = some o) (value : Value) (id' : ScopeId)
    (m : String) : (s.assign id name value).2.get id' m =
      if m = name ∧ s.owner id' name = s.owner id name then .ok value else s.get id' m := by
  obtain ⟨-, hbinds⟩ := assign_binds h value
  rw [get_eq, hbinds.owner (ownerWithin_binding h), h, get_eq s]
  by_cases hm : m = name
  · subst hm
    cases ho : s.owner id' m with
    | none => simp
    | some o' =>
      by_cases hoo : o' = o
      · simp [hbinds.binding, hoo]
      · simp [hbinds.binding, hoo]
  · simp only [hm, false_and, if_false]
    cases ho : s.owner id' m with
    | none => rfl
    | some o' => simp [hbinds.binding, hm]

end

/-! ## After a sequence of operations -/

/-- What is done to names from a scope. -/
inductive Operation where
  | define (id : ScopeId) (name : String) (value : Option Value)
  | assign (id : ScopeId) (name : String) (value : Value)
  | get (id : ScopeId) (name : String)

namespace Operation

def scope : Operation → ScopeId
  | define id _ _ => id
  | assign id _ _ => id
  | get id _ => id

/-- Whether the operation gives another value to what `o` binds `name` to. -/
def Reaches (s : Scopes) (o : ScopeId) (name : String) : Operation → Prop
  | assign id m _ => m = name ∧ s.owner id name = some o
  | _ => False

end Operation

/-- The store after one operation. -/
def perform (s : Scopes) : Operation → Scopes
  | .define id name value => (s.define id name value).2
  | .assign id name value => (s.assign id name value).2
  | .get _ _ => s

/-- The store after one operation after the other. -/
def after (s : Scopes) (ops : List Operation) : Scopes := ops.foldl perform s

/-- One of the operations gives another value to what `o` binds `name` to. -/
def Reached (s : Scopes) (ops : List Operation) (o : ScopeId) (name : String) : Prop :=
  ∃ before op rest, ops = before ++ op :: rest ∧ op.Reaches (s.after before) o name

/-- The name was bound without a value, before the operations or by one of them, and none of those
that came later has given it one. -/
def LeftUnset (s : Scopes) (ops : List Operation) (o : ScopeId) (name : String) : Prop :=
  s.binding o name = some none ∧ ¬ s.Reached ops o name ∨
    ∃ before rest, ops = before ++ .define o name none :: rest ∧
      (s.after before).binding o name = none ∧
      ¬ (s.after (before ++ [.define o name none])).Reached rest o name

section
variable {s : Scopes} {op : Operation} {ops : List Operation} {o : ScopeId} {name : String}

theorem perform_shape (h : s.Has op.scope) : SameShape s (s.perform op) := by
  cases op with
  | define id m value =>
    by_cases hb : (s.binding id m).isSome = true
    · simp only [perform, define_bound hb]
      exact .refl s
    · have hid : s.Has id := h
      exact (define_binds hid (by simpa using hb) value).2.shape
  | assign id m value =>
    cases ho : s.owner id m with
    | none =>
      simp only [perform, assign_unbound ho]
      exact .refl s
    | some o => exact (assign_binds ho value).2.shape
  | get => exact .refl s

theorem after_shape (h : ∀ op ∈ ops, s.Has op.scope) : SameShape s (s.after ops) := by
  induction ops generalizing s with
  | nil => exact .refl s
  | cons op ops ih =>
    have hop := perform_shape (h op (by simp))
    refine hop.trans (ih ?_)
    intro op' hop'
    exact hop.has_iff.mpr (h op' (by simp [hop']))

/-- One operation leaves a name without a value, or binds it without one. -/
theorem perform_unset (h : s.Has op.scope) : (s.perform op).binding o name = some none ↔
    s.binding o name = some none ∧ ¬ op.Reaches s o name ∨
      op = .define o name none ∧ s.binding o name = none := by
  cases op with
  | define id m value =>
    by_cases hb : (s.binding id m).isSome = true
    · simp only [perform, define_bound hb, Operation.Reaches, not_false_eq_true, and_true]
      refine ⟨.inl, ?_⟩
      rintro (hn | ⟨hop, hn⟩)
      · exact hn
      · cases hop
        simp [hn] at hb
    · have hid : s.Has id := h
      have hnone : s.binding id m = none := by simpa using hb
      simp only [perform, (define_binds hid hnone value).2.binding, Operation.Reaches]
      by_cases hi : o = id ∧ name = m
      · obtain ⟨rfl, rfl⟩ := hi
        simp [hnone]
      · have hne : Operation.define id m value ≠ .define o name none := by
          intro heq
          cases heq
          exact hi ⟨rfl, rfl⟩
        simp [hi, hne]
  | assign id m value =>
    cases ho : s.owner id m with
    | none =>
      have hreach : ¬ Operation.Reaches s o name (.assign id m value) := by
        rintro ⟨rfl, hown⟩
        rw [ho] at hown
        cases hown
      simp [perform, assign_unbound ho, hreach]
    | some o' =>
      have hreach : Operation.Reaches s o name (.assign id m value) ↔ o = o' ∧ name = m := by
        constructor
        · rintro ⟨rfl, hown⟩
          rw [ho] at hown
          cases hown
          exact ⟨rfl, rfl⟩
        · rintro ⟨rfl, rfl⟩
          exact ⟨rfl, ho⟩
      rw [perform, (assign_binds ho value).2.binding, hreach]
      by_cases hi : o = o' ∧ name = m
      · simp [hi]
      · simp [hi]
  | get => simp [perform, Operation.Reaches]

theorem reached_cons : s.Reached (op :: ops) o name ↔
    op.Reaches s o name ∨ (s.perform op).Reached ops o name := by
  constructor
  · rintro ⟨before, op', rest, heq, h⟩
    cases before with
    | nil =>
      cases heq
      exact .inl h
    | cons _ before =>
      cases heq
      exact .inr ⟨before, op', rest, rfl, h⟩
  · rintro (h | ⟨before, op', rest, rfl, h⟩)
    · exact ⟨[], op, ops, rfl, h⟩
    · exact ⟨op :: before, op', rest, rfl, h⟩

theorem leftUnset_cons (h : s.Has op.scope) : s.LeftUnset (op :: ops) o name ↔
    (s.perform op).LeftUnset ops o name := by
  rw [LeftUnset, LeftUnset, reached_cons, perform_unset h]
  constructor
  · rintro (⟨hb, hn⟩ | ⟨before, rest, heq, hb, hn⟩)
    · exact .inl ⟨.inl ⟨hb, fun hr => hn (.inl hr)⟩, fun hr => hn (.inr hr)⟩
    · cases before with
      | nil =>
        cases heq
        exact .inl ⟨.inr ⟨rfl, hb⟩, hn⟩
      | cons _ before =>
        cases heq
        exact .inr ⟨before, rest, rfl, hb, hn⟩
  · rintro (⟨⟨hb, hr⟩ | ⟨rfl, hb⟩, hn⟩ | ⟨before, rest, rfl, hb, hn⟩)
    · exact .inl ⟨hb, fun hor => hor.elim hr hn⟩
    · exact .inr ⟨[], ops, rfl, hb, hn⟩
    · exact .inr ⟨op :: before, rest, rfl, hb, hn⟩

theorem after_unset (h : ∀ op ∈ ops, s.Has op.scope) :
    (s.after ops).binding o name = some none ↔ s.LeftUnset ops o name := by
  induction ops generalizing s with
  | nil => simp [after, LeftUnset, Reached]
  | cons op ops ih =>
    have hop := h op (by simp)
    rw [leftUnset_cons hop]
    refine ih ?_
    intro op' hop'
    exact (perform_shape hop).has_iff.mpr (h op' (by simp [hop']))

end

/-- Binding a name, giving it another value and looking it up, in every store with finite chains. -/
theorem lexical_scoping (s : Scopes) (hs : s.Chained) :
    (∀ id name, s.Has id → Finds s name id (s.owner id name)) ∧
    (∀ id name value, s.Has id →
      ((s.define id name value).1 = false ↔ (s.binding id name).isSome = true) ∧
      ((s.define id name value).1 = false → (s.define id name value).2 = s) ∧
      ((s.define id name value).1 = true → Binds s (s.define id name value).2 id name value)) ∧
    (∀ id name value, s.Has id →
      ((s.assign id name value).1 = true ↔ (s.owner id name).isSome = true) ∧
      ((s.assign id name value).1 = true ↔ s.get id name ≠ .error .undefined) ∧
      ((s.assign id name value).1 = true → ∀ id' m, s.Has id' →
        (s.assign id name value).2.get id' m =
          if m = name ∧ s.owner id' name = s.owner id name then .ok value else s.get id' m) ∧
      ((s.assign id name value).1 = false → (s.assign id name value).2 = s)) ∧
    ∀ ops, (∀ op ∈ ops, s.Has op.scope) → (s.after ops).Chained ∧ ∀ id name, s.Has id →
      ((s.after ops).get id name = .error .uninitialized ↔
        ∃ o, Finds (s.after ops) name id (some o) ∧ s.LeftUnset ops o name) := by
  refine ⟨?_, ?_, ?_, ?_⟩
  · intro id name hid
    exact hs.owner_finds hid name
  · intro id name value hid
    by_cases hb : (s.binding id name).isSome = true
    · simp [define_bound hb, hb]
    · obtain ⟨htrue, hbinds⟩ := define_binds hid (by simpa using hb) value
      simp [htrue, hb, hbinds]
  · intro id name value _
    cases ho : s.owner id name with
    | none => simp [assign_unbound ho, get_undefined_iff, ho]
    | some o =>
      have hget : s.get id name ≠ .error .undefined := by simp [get_undefined_iff, ho]
      simp only [(assign_binds ho value).1, assign_get ho, ho]
      simp [hget]
  · intro ops hops
    have hshape := after_shape hops
    have hchained := hshape.chained hs
    refine ⟨hchained, ?_⟩
    intro id name hid
    have hfinds := hchained.owner_finds (hshape.has_iff.mpr hid) name
    rw [get_uninitialized_iff]
    refine exists_congr fun o => ?_
    rw [after_unset hops]
    refine and_congr_left fun _ => ?_
    constructor
    · intro ho
      exact ho ▸ hfinds
    · intro ho
      exact hfinds.unique ho

/-- Two scopes in the global one, of which the first shadows `x` and has a scope inside. -/
def shadowed : Scopes where
  slots := #[{ bindings := [("x", some .nil)] }, { bindings := [("x", none)], parent := some ⟨0⟩ },
    { parent := some ⟨1⟩ }, { parent := some ⟨0⟩ }]

theorem lexical_scoping_shadowed : shadowed.Chained ∧ ∀ id m, shadowed.Has id →
    (shadowed.assign ⟨2⟩ "x" (.bool true)).2.get id m =
      if m = "x" ∧ shadowed.owner id "x" = some ⟨1⟩ then .ok (.bool true)
      else shadowed.get id m := by
  have hchained : shadowed.Chained := by
    have hglobal : shadowed.Chain ⟨0⟩ [⟨0⟩] := .last (by decide) rfl
    have hfirst : shadowed.Chain ⟨1⟩ [⟨1⟩, ⟨0⟩] := .next (by decide) rfl hglobal
    rintro ⟨slot⟩ hid
    have hslot : slot < 4 := hid
    interval_cases slot
    · exact ⟨_, hglobal⟩
    · exact ⟨_, hfirst⟩
    · exact ⟨_, .next (by decide) rfl hfirst⟩
    · exact ⟨_, .next (by decide) rfl hglobal⟩
  have hassign := (lexical_scoping shadowed hchained).2.2.1 ⟨2⟩ "x" (.bool true) (by decide)
  exact ⟨hchained, hassign.2.2.1 rfl⟩

end Scopes

end Script
