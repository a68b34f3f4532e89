import Mathlib.Data.List.Basic
import Mathlib.Data.List.Nodup
import Mathlib.Data.List.Perm.Subperm
import Script.Scopes

/-!
# Slots after each operation

What each operation on the store leaves in every slot, and the scopes around a
scope as a list. A search outward, or one that keeps scopes, is bounded by the
number of slots; when the scopes around are a list of distinct slots, the bound
is never met.
-/

namespace Script

theorem ScopeId.slot_ne {i j : ScopeId} (h : i ≠ j) : i.slot ≠ j.slot := by
  intro e
  cases i; cases j; simp_all

namespace Scopes

/-- A slot that holds a scope in use. -/
def Live (s : Scopes) (id : ScopeId) : Prop :=
  id.slot < s.slots.size ∧ (s.scope id).free = false

/-! ## Changing one slot -/

theorem scope_eq (s : Scopes) (id : ScopeId) : s.scope id = s.slots[id.slot]?.getD {} :=
  Array.getD_eq_getD_getElem?

theorem scope_out {s : Scopes} {id : ScopeId} (h : s.slots.size ≤ id.slot) : s.scope id = {} := by
  rw [scope_eq, Array.getElem?_eq_none h]; rfl

@[simp] theorem size_modify (s : Scopes) (id : ScopeId) (f : Scope → Scope) :
    (s.modify id f).slots.size = s.slots.size := by simp [modify]

theorem scope_modify_self {s : Scopes} {id : ScopeId} (f : Scope → Scope)
    (h : id.slot < s.slots.size) : (s.modify id f).scope id = f (s.scope id) := by
  rw [scope_eq, scope_eq, modify, Array.getElem?_modify, if_pos rfl]
  simp [h]

theorem scope_modify_ne {s : Scopes} {id j : ScopeId} (f : Scope → Scope) (h : j ≠ id) :
    (s.modify id f).scope j = s.scope j := by
  have := ScopeId.slot_ne h
  simp [scope_eq, modify, Array.getElem?_modify, this.symm]

/-- A part of a scope that a change does not touch is the same in every slot. -/
theorem scope_modify_part {β : Type} (part : Scope → β) (s : Scopes) (id : ScopeId)
    (f : Scope → Scope) (hf : part (f (s.scope id)) = part (s.scope id)) (j : ScopeId) :
    part ((s.modify id f).scope j) = part (s.scope j) := by
  by_cases h : j = id
  · subst h
    by_cases hj : j.slot < s.slots.size
    · rw [scope_modify_self f hj, hf]
    · rw [scope_out (s := s) (by omega), scope_out (by rw [size_modify]; omega)]
  · rw [scope_modify_ne f h]

/-! ## Pushing -/

/-- The store after a push, when the free slots are slots of the store. -/
structure Pushed (s s' : Scopes) (parent id : ScopeId) : Prop where
  fresh : s'.scope id = { parent := some parent }
  other : ∀ j, j ≠ id → s'.scope j = s.scope j
  inside : id.slot < s'.slots.size
  grows : s.slots.size ≤ s'.slots.size
  within : ∀ j : ScopeId, j.slot < s'.slots.size → j = id ∨ j.slot < s.slots.size
  recycles : s'.recycles = s.recycles

theorem push_pushed (s : Scopes) (parent : ScopeId)
    (h : ∀ id ∈ s.spare, id.slot < s.slots.size) :
    Pushed s (s.push parent).2 parent (s.push parent).1 := by
  unfold push
  cases hs : s.spare with
  | cons id spare =>
    have hid : id.slot < s.slots.size := h id (by simp [hs])
    exact {
      fresh := scope_modify_self _ hid
      other := fun j hj => scope_modify_ne _ hj
      inside := by simpa using hid
      grows := by simp
      within := fun j hj => .inr (by simpa using hj)
      recycles := rfl }
  | nil =>
    refine ⟨?_, ?_, ?_, ?_, ?_, rfl⟩
    · simp [scope_eq]
    · intro j hj
      have hne : j.slot ≠ s.slots.size := ScopeId.slot_ne hj
      simp [scope_eq, Array.getElem?_push, hne]
    · simp
    · simp
    · intro j hj
      simp only [Array.size_push] at hj
      by_cases hj' : j.slot = s.slots.size
      · exact .inl (by cases j; simp_all)
      · exact .inr (by omega)

theorem spare_push (s : Scopes) (parent : ScopeId) : (s.push parent).2.spare = s.spare.tail := by
  unfold push
  cases hs : s.spare with
  | cons id spare => rfl
  | nil => simp

/-- The slot that is handed out was not in use. -/
theorem push_not_live (s : Scopes) (parent : ScopeId)
    (h : ∀ id ∈ s.spare, (s.scope id).free = true) : ¬ s.Live (s.push parent).1 := by
  unfold push
  cases hs : s.spare with
  | cons id spare =>
    intro hl
    have := h id (by simp [hs])
    rw [hl.2] at this
    cases this
  | nil =>
    intro hl
    have : s.slots.size < s.slots.size := hl.1
    omega

theorem Pushed.live_iff {s s' : Scopes} {parent id j : ScopeId} (h : Pushed s s' parent id) :
    s'.Live j ↔ j = id ∨ s.Live j := by
  by_cases hj : j = id
  · subst hj
    simp [Live, h.fresh, h.inside]
  · simp only [hj, false_or, Live, h.other j hj]
    constructor
    · intro ⟨h1, h2⟩
      exact ⟨(h.within j h1).resolve_left hj, h2⟩
    · intro ⟨h1, h2⟩
      exact ⟨Nat.lt_of_lt_of_le h1 h.grows, h2⟩

/-! ## Releasing -/

theorem release_eq {s : Scopes} {id : ScopeId}
    (h : s.recycles = false ∨ id = .global ∨ (s.scope id).captured = true ∨
      (s.scope id).free = true) : s.release id = s := by
  unfold release
  rcases h with h | h | h | h <;> simp [h]

/-- The store after a slot has been freed. -/
structure Released (s s' : Scopes) (id : ScopeId) : Prop where
  freed : s'.scope id = { s.scope id with bindings := [], free := true }
  other : ∀ j, j ≠ id → s'.scope j = s.scope j
  size : s'.slots.size = s.slots.size
  spare : s'.spare = id :: s.spare
  recycles : s'.recycles = s.recycles

theorem release_released {s : Scopes} {id : ScopeId} (hr : s.recycles = true) (hg : id ≠ .global)
    (hc : (s.scope id).captured = false) (hl : s.Live id) : Released s (s.release id) id := by
  have he : s.release id = { s.modify id (fun scope => { scope with bindings := [], free := true })
      with spare := id :: s.spare } := by simp [release, hr, hg, hc, hl.2]
  rw [he]
  exact {
    freed := scope_modify_self (fun scope => { scope with bindings := [], free := true }) hl.1
    other := fun j hj => scope_modify_ne (fun scope => { scope with bindings := [], free := true }) hj
    size := size_modify s id _
    spare := rfl
    recycles := rfl }

theorem Released.live_iff {s s' : Scopes} {id j : ScopeId} (h : Released s s' id) :
    s'.Live j ↔ j ≠ id ∧ s.Live j := by
  by_cases hj : j = id
  · subst hj; simp [Live, h.freed]
  · simp [Live, h.size, h.other j hj, hj]

theorem Released.parent {s s' : Scopes} {id : ScopeId} (h : Released s s' id) (j : ScopeId) :
    (s'.scope j).parent = (s.scope j).parent := by
  by_cases hj : j = id
  · subst hj; rw [h.freed]
  · rw [h.other j hj]

theorem Released.captured {s s' : Scopes} {id : ScopeId} (h : Released s s' id) (j : ScopeId) :
    (s'.scope j).captured = (s.scope j).captured := by
  by_cases hj : j = id
  · subst hj; rw [h.freed]
  · rw [h.other j hj]

/-! ## The scopes around a scope -/

/-- The scopes from a scope outward, itself first and the global one last. -/
inductive Around (s : Scopes) : ScopeId → List ScopeId → Prop where
  | outermost : (s.scope .global).parent = none → Around s .global [.global]
  | inside {id parent : ScopeId} {l : List ScopeId} : (s.scope id).parent = some parent →
      Around s parent l → Around s id (id :: l)

theorem Around.unique {s : Scopes} {id : ScopeId} {l l' : List ScopeId} (h : Around s id l)
    (h' : Around s id l') : l = l' := by
  induction h generalizing l' with
  | outermost hg =>
    cases h' with
    | outermost _ => rfl
    | inside hp _ => rw [hg] at hp; cases hp
  | inside hp _ ih =>
    cases h' with
    | outermost hg => rw [hg] at hp; cases hp
    | inside hp' hl' =>
      rw [hp] at hp'; cases hp'
      rw [ih hl']

theorem Around.head {s : Scopes} {id : ScopeId} {l : List ScopeId} (h : Around s id l) :
    ∃ t, l = id :: t := by
  cases h with
  | outermost _ => exact ⟨[], rfl⟩
  | inside _ _ => exact ⟨_, rfl⟩

theorem Around.getLast {s : Scopes} {id : ScopeId} {l : List ScopeId} (h : Around s id l) :
    l.getLast? = some .global := by
  induction h with
  | outermost _ => rfl
  | inside _ hl ih =>
    obtain ⟨t, rfl⟩ := hl.head
    rw [List.getLast?_cons_cons, ih]

/-- The scopes around a scope end with those around any of them. -/
theorem Around.suffix {s : Scopes} {id j : ScopeId} {l : List ScopeId} (h : Around s id l)
    (hj : j ∈ l) : ∃ t, t <:+ l ∧ Around s j t := by
  induction h with
  | outermost hg =>
    rw [List.mem_singleton] at hj; subst hj
    exact ⟨_, List.suffix_rfl, .outermost hg⟩
  | @inside id parent l hp hl ih =>
    rcases List.mem_cons.mp hj with rfl | hj
    · exact ⟨_, List.suffix_rfl, .inside hp hl⟩
    · obtain ⟨t, ht, ha⟩ := ih hj
      exact ⟨t, ht.trans (List.suffix_cons _ _), ha⟩

/-- No scope is around itself. -/
theorem Around.nodup {s : Scopes} {id : ScopeId} {l : List ScopeId} (h : Around s id l) :
    l.Nodup := by
  induction h with
  | outermost _ => simp
  | @inside id parent l hp hl ih =>
    refine List.nodup_cons.mpr ⟨fun hm => ?_, ih⟩
    obtain ⟨t, ht, ha⟩ := hl.suffix hm
    have hlen := ht.length_le
    rw [ha.unique (.inside hp hl), List.length_cons] at hlen
    omega

theorem Around.congr {s s' : Scopes} {id : ScopeId} {l : List ScopeId} (h : Around s id l)
    (hp : ∀ j ∈ l, (s'.scope j).parent = (s.scope j).parent) : Around s' id l := by
  induction h with
  | outermost hg => exact .outermost (by rw [hp _ (by simp), hg])
  | inside hq _ ih =>
    exact .inside (by rw [hp _ (by simp), hq]) (ih fun j hj => hp j (by simp [hj]))

/-- There are no more distinct slots than there are slots. -/
theorem length_le_slots {s : Scopes} {l : List ScopeId} (hn : l.Nodup)
    (hl : ∀ j ∈ l, j.slot < s.slots.size) : l.length ≤ s.slots.size := by
  have hslots : (l.map ScopeId.slot).Nodup :=
    hn.map fun i j e => by cases i; cases j; simp_all
  have hsub : l.map ScopeId.slot ⊆ List.range s.slots.size := by
    intro n hm
    obtain ⟨j, hj, rfl⟩ := List.mem_map.mp hm
    exact List.mem_range.mpr (hl j hj)
  have := (List.subperm_of_subset hslots hsub).length_le
  simpa using this

theorem Around.length_le {s : Scopes} {id : ScopeId} {l : List ScopeId} (h : Around s id l)
    (hl : ∀ j ∈ l, j.slot < s.slots.size) : l.length ≤ s.slots.size :=
  length_le_slots h.nodup hl

/-! ## Keeping scopes -/

/-- Two stores that differ at most in what is bound and in what is kept. -/
structure SameShape (s s' : Scopes) : Prop where
  size : s'.slots.size = s.slots.size
  spare : s'.spare = s.spare
  recycles : s'.recycles = s.recycles
  parent : ∀ j, (s'.scope j).parent = (s.scope j).parent
  free : ∀ j, (s'.scope j).free = (s.scope j).free

theorem SameShape.refl (s : Scopes) : SameShape s s := ⟨rfl, rfl, rfl, fun _ => rfl, fun _ => rfl⟩

theorem SameShape.trans {s s' s'' : Scopes} (h : SameShape s s') (h' : SameShape s' s'') :
    SameShape s s'' where
  size := h'.size.trans h.size
  spare := h'.spare.trans h.spare
  recycles := h'.recycles.trans h.recycles
  parent j := (h'.parent j).trans (h.parent j)
  free j := (h'.free j).trans (h.free j)

theorem SameShape.modify (s : Scopes) (id : ScopeId) (f : Scope → Scope)
    (hp : (f (s.scope id)).parent = (s.scope id).parent)
    (hf : (f (s.scope id)).free = (s.scope id).free) : SameShape s (s.modify id f) where
  size := size_modify s id f
  spare := rfl
  recycles := rfl
  parent := scope_modify_part Scope.parent s id f hp
  free := scope_modify_part Scope.free s id f hf

theorem SameShape.live_iff {s s' : Scopes} (h : SameShape s s') (j : ScopeId) :
    s'.Live j ↔ s.Live j := by
  simp only [Live, h.size, h.free]

theorem SameShape.around {s s' : Scopes} {id : ScopeId} {l : List ScopeId} (h : SameShape s s')
    (hl : Around s id l) : Around s' id l :=
  hl.congr fun j _ => h.parent j

theorem captureWithin_shape : ∀ (n : Nat) (s : Scopes) (id : ScopeId),
    SameShape s (captureWithin n s id)
  | 0, s, _ => .refl s
  | n + 1, s, id => by
    have hm : SameShape s (s.modify id fun scope => { scope with captured := true }) :=
      .modify s id _ rfl rfl
    simp only [captureWithin]
    split
    · exact .refl s
    · split
      · exact hm
      · exact hm.trans (captureWithin_shape n _ _)

theorem captureWithin_bindings : ∀ (n : Nat) (s : Scopes) (id j : ScopeId),
    ((captureWithin n s id).scope j).bindings = (s.scope j).bindings
  | 0, _, _, _ => rfl
  | n + 1, s, id, j => by
    have hm := scope_modify_part Scope.bindings s id (fun scope => { scope with captured := true })
      rfl j
    simp only [captureWithin]
    split
    · rfl
    · split
      · exact hm
      · rw [captureWithin_bindings n, hm]

/-- The walk that keeps scopes may stop at the first that is kept already when, along the scopes
around `id`, whatever is outside of a kept scope is kept too. -/
theorem captureWithin_captured {s : Scopes} {id : ScopeId} {l : List ScopeId} (h : Around s id l)
    (hl : ∀ j ∈ l, j.slot < s.slots.size)
    (hc : l.Pairwise fun i j => (s.scope i).captured = true → (s.scope j).captured = true)
    (n : Nat) (hn : l.length ≤ n) (j : ScopeId) :
    ((captureWithin n s id).scope j).captured = true ↔ (s.scope j).captured = true ∨ j ∈ l := by
  induction n generalizing s id l with
  | zero =>
    obtain ⟨t, rfl⟩ := h.head
    simp at hn
  | succ n ih =>
    obtain ⟨t, rfl⟩ := h.head
    rw [List.pairwise_cons] at hc
    simp only [captureWithin]
    by_cases hk : (s.scope id).captured = true
    · -- everything around `id` is kept already
      rw [if_pos hk]
      refine ⟨.inl, fun hj => ?_⟩
      rcases hj with hj | hj
      · exact hj
      · rcases List.mem_cons.mp hj with rfl | hj
        · exact hk
        · exact hc.1 j hj hk
    · rw [if_neg hk]
      have hself := scope_modify_self (fun scope => { scope with captured := true })
        (hl id (by simp))
      cases h with
      | outermost hg =>
        rw [hg]
        by_cases hj : j = .global
        · subst hj; simp [hself]
        · simp [scope_modify_ne _ hj, hj]
      | @inside _ parent _ hp ht =>
        rw [hp]
        have hnd : id ∉ t := (List.nodup_cons.mp (Around.inside hp ht).nodup).1
        have hne : ∀ i ∈ t, i ≠ id := fun i hi e => hnd (e ▸ hi)
        have hstep := ih (s := s.modify id fun scope => { scope with captured := true })
          (ht.congr fun i hi => by rw [scope_modify_ne _ (hne i hi)])
          (fun i hi => by rw [size_modify]; exact hl i (by simp [hi]))
          (hc.2.imp_of_mem fun {a b} ha hb hab => by
            rwa [scope_modify_ne _ (hne a ha), scope_modify_ne _ (hne b hb)])
          (by simpa using hn)
        rw [hstep]
        by_cases hj : j = id
        · subst hj; simp [hself]
        · simp [scope_modify_ne _ hj, hj]

/-! ## Looking outward -/

/-- The unbounded search from a scope outward for one that binds a name comes to an end, with this
result. -/
inductive Finds (s : Scopes) (name : String) : ScopeId → Option ScopeId → Prop where
  | here {id : ScopeId} : ((s.scope id).bindings.lookup name).isSome = true →
      Finds s name id (some id)
  | nowhere {id : ScopeId} : ((s.scope id).bindings.lookup name).isSome = false →
      (s.scope id).parent = none → Finds s name id none
  | outside {id parent : ScopeId} {r : Option ScopeId} :
      ((s.scope id).bindings.lookup name).isSome = false → (s.scope id).parent = some parent →
      Finds s name parent r → Finds s name id r

/-- The unbounded walk that keeps a scope and those around it comes to an end, with this store. -/
inductive Captures : Scopes → ScopeId → Scopes → Prop where
  | already {s : Scopes} {id : ScopeId} : (s.scope id).captured = true → Captures s id s
  | last {s : Scopes} {id : ScopeId} : (s.scope id).captured = false →
      (s.scope id).parent = none →
      Captures s id (s.modify id fun scope => { scope with captured := true })
  | more {s s' : Scopes} {id parent : ScopeId} : (s.scope id).captured = false →
      (s.scope id).parent = some parent →
      Captures (s.modify id fun scope => { scope with captured := true }) parent s' →
      Captures s id s'

theorem ownerWithin_finds {s : Scopes} {id : ScopeId} {l : List ScopeId} (h : Around s id l)
    (name : String) {n : Nat} (hn : l.length ≤ n) : Finds s name id (s.ownerWithin name n id) := by
  induction h generalizing n with
  | outermost hg =>
    obtain ⟨n, rfl⟩ : ∃ m, n = m + 1 := ⟨n - 1, by simp at hn; omega⟩
    simp only [ownerWithin, hg]
    cases hb : ((s.scope .global).bindings.lookup name).isSome with
    | true => exact .here hb
    | false => exact .nowhere hb hg
  | @inside id parent l hp _ ih =>
    obtain ⟨n, rfl⟩ : ∃ m, n = m + 1 := ⟨n - 1, by simp at hn; omega⟩
    simp only [ownerWithin, hp]
    cases hb : ((s.scope id).bindings.lookup name).isSome with
    | true => exact .here hb
    | false => exact .outside hb hp (ih (by simpa using hn))

theorem Finds.unique {s : Scopes} {name : String} {id : ScopeId} {r r' : Option ScopeId}
    (h : Finds s name id r) (h' : Finds s name id r') : r = r' := by
  induction h with
  | here hb => cases h' <;> simp_all
  | nowhere hb hp => cases h' <;> simp_all
  | outside hb hp _ ih =>
    cases h' with
    | here hb' => simp_all
    | nowhere _ hp' => simp_all
    | outside _ hp' hr =>
      rw [hp] at hp'; cases hp'
      exact ih hr

theorem captureWithin_captures {s : Scopes} {id : ScopeId} {l : List ScopeId} (h : Around s id l)
    {n : Nat} (hn : l.length ≤ n) : Captures s id (captureWithin n s id) := by
  induction n generalizing s id l with
  | zero =>
    obtain ⟨t, rfl⟩ := h.head
    simp at hn
  | succ n ih =>
    simp only [captureWithin]
    by_cases hk : (s.scope id).captured = true
    · rw [if_pos hk]; exact .already hk
    · rw [if_neg hk]
      have hk' : (s.scope id).captured = false := by simpa using hk
      cases h with
      | outermost hg => rw [hg]; exact .last hk' hg
      | inside hp ht =>
        rw [hp]
        exact .more hk' hp (ih ((SameShape.modify s id _ rfl rfl).around ht) (by simpa using hn))

/-- A value that is found is bound somewhere. -/
theorem mem_of_get {s : Scopes} {id : ScopeId} {name : String} {v : Value}
    (h : s.get id name = .ok v) : ∃ owner, (name, some v) ∈ (s.scope owner).bindings := by
  unfold get at h
  split at h
  · cases h
  · rename_i owner _
    split at h
    · rename_i value hl
      cases h
      obtain ⟨us, vs, hl, -⟩ := List.lookup_eq_some_iff.mp hl
      exact ⟨owner, by simp [hl]⟩
    · cases h

end Scopes

end Script
