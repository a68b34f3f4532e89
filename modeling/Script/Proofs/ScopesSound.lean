import Script.Proofs.ScopesLemmas

/-!
# A store that loses no scope that is needed

A store is tidy with respect to the scopes that are open at the moment, the
innermost first: every scope in use is open, kept by a function, or global, and
the scope around an open one is the next open one or is kept. Then nothing in
use is inside the scope that is left next, unless that scope is kept, so freeing
its slot leaves no scope without the one around it.
-/

namespace Script

/-- The scope that a declared function was declared in. -/
def Value.closure? : Value → Option ScopeId
  | .callable _ (.function _ _ _ closure) => some closure
  | _ => none

def Value.isCallable : Value → Bool
  | .callable _ _ => true
  | _ => false

theorem Value.closure?_of_isCallable {v : Value} (h : v.isCallable = false) : v.closure? = none := by
  cases v with
  | callable => cases h
  | nil | bool | number | text => rfl

namespace Scopes

/-- The scope of a function is kept. -/
def Keeps (s : Scopes) (v : Value) : Prop :=
  ∀ closure, v.closure? = some closure → (s.scope closure).captured = true

/-- Every function that a name is bound to has its scope kept. -/
def KeepsBound (s : Scopes) : Prop :=
  ∀ id name v, (name, some v) ∈ (s.scope id).bindings → s.Keeps v

/-- The scope around each open scope is the next open one, or is kept. -/
def Nested (s : Scopes) : List ScopeId → Prop
  | [] => True
  | id :: opened =>
    (∃ parent, (s.scope id).parent = some parent ∧
      (parent = opened.headD .global ∨ (s.scope parent).captured = true)) ∧ Nested s opened

structure Tidy (s : Scopes) (opened : List ScopeId) : Prop where
  recycles : s.recycles = true
  root_live : s.Live .global
  root_parent : (s.scope .global).parent = none
  spare_inside : ∀ id ∈ s.spare, id.slot < s.slots.size
  spare_free : ∀ id ∈ s.spare, (s.scope id).free = true
  spare_nodup : s.spare.Nodup
  rooted : ∀ id, s.Live id → ∃ l, s.Around id l
  parent_live : ∀ id parent, s.Live id → (s.scope id).parent = some parent → s.Live parent
  captured_live : ∀ id, (s.scope id).captured = true → s.Live id
  captured_parent : ∀ id parent, (s.scope id).captured = true →
    (s.scope id).parent = some parent → (s.scope parent).captured = true
  opened_live : ∀ id ∈ opened, s.Live id
  opened_nodup : opened.Nodup
  opened_inner : .global ∉ opened
  opened_all : ∀ id, s.Live id → (s.scope id).captured = false → id = .global ∨ id ∈ opened
  nested : s.Nested opened

/-- Scopes that are kept stay kept, with the same scope around them. -/
def Retains (s s' : Scopes) : Prop :=
  ∀ id, (s.scope id).captured = true →
    (s'.scope id).captured = true ∧ (s'.scope id).parent = (s.scope id).parent

theorem Retains.refl (s : Scopes) : Retains s s := fun _ h => ⟨h, rfl⟩

theorem Retains.trans {s s' s'' : Scopes} (h : Retains s s') (h' : Retains s' s'') :
    Retains s s'' := by
  intro id hc
  obtain ⟨h1, h2⟩ := h id hc
  obtain ⟨h3, h4⟩ := h' id h1
  exact ⟨h3, h4.trans h2⟩

theorem Keeps.mono {s s' : Scopes} {v : Value} (h : s.Keeps v) (hr : Retains s s') : s'.Keeps v :=
  fun c hc => (hr c (h c hc)).1

/-! ## Facts about nested scopes -/

theorem Nested.of_retains {s s' : Scopes} (hr : Retains s s') : ∀ {opened : List ScopeId},
    (∀ id ∈ opened, (s'.scope id).parent = (s.scope id).parent) → s.Nested opened →
    s'.Nested opened
  | [], _, _ => trivial
  | id :: opened, hp, ⟨⟨parent, h1, h2⟩, h3⟩ => by
    refine ⟨⟨parent, by rw [hp id (by simp), h1], ?_⟩, ?_⟩
    · exact h2.imp_right fun h => (hr parent h).1
    · exact of_retains hr (fun j hj => hp j (by simp [hj])) h3

theorem Nested.parent_mem {s : Scopes} {j : ScopeId} : ∀ {opened : List ScopeId},
    s.Nested opened → j ∈ opened → ∃ parent, (s.scope j).parent = some parent ∧
      (parent = .global ∨ parent ∈ opened ∨ (s.scope parent).captured = true)
  | id :: opened, ⟨⟨parent, h1, h2⟩, h3⟩, hj => by
    rcases List.mem_cons.mp hj with rfl | hj
    · refine ⟨parent, h1, ?_⟩
      rcases h2 with rfl | h2
      · cases opened with
        | nil => exact .inl rfl
        | cons a rest => exact .inr (.inl (by simp))
      · exact .inr (.inr h2)
    · obtain ⟨parent, h1, h2⟩ := parent_mem h3 hj
      exact ⟨parent, h1, h2.imp_right (.imp_left (by simp +contextual))⟩

namespace Tidy

variable {s : Scopes} {opened : List ScopeId}

/-- The scope that is open at the moment is in use. -/
theorem head_live (h : s.Tidy opened) : s.Live (opened.headD .global) := by
  cases opened with
  | nil => exact h.root_live
  | cons id rest => exact h.opened_live id (by simp)

theorem around_live (h : s.Tidy opened) {id : ScopeId} {l : List ScopeId} (hl : s.Around id l)
    (hid : s.Live id) : ∀ j ∈ l, s.Live j := by
  induction hl with
  | outermost _ => simpa using hid
  | inside hp _ ih =>
    have := ih (h.parent_live _ _ hid hp)
    simpa [hid] using this

theorem around_captured (h : s.Tidy opened) {id : ScopeId} {l : List ScopeId} (hl : s.Around id l)
    (hid : (s.scope id).captured = true) : ∀ j ∈ l, (s.scope j).captured = true := by
  induction hl with
  | outermost _ => simpa using hid
  | inside hp _ ih =>
    have := ih (h.captured_parent _ _ hid hp)
    simpa [hid] using this

/-- Along the scopes around a scope, whatever is outside of a kept one is kept. -/
theorem around_pairwise (h : s.Tidy opened) {id : ScopeId} {l : List ScopeId}
    (hl : s.Around id l) :
    l.Pairwise fun i j => (s.scope i).captured = true → (s.scope j).captured = true := by
  induction hl with
  | outermost _ => simp
  | inside hp ht ih =>
    refine List.pairwise_cons.mpr ⟨fun j hj hc => ?_, ih⟩
    exact h.around_captured (.inside hp ht) hc j (by simp [hj])

theorem around_length (h : s.Tidy opened) {id : ScopeId} {l : List ScopeId} (hl : s.Around id l)
    (hid : s.Live id) : l.length ≤ s.slots.size :=
  hl.length_le fun j hj => (h.around_live hl hid j hj).1

/-! ## What each operation does to a tidy store -/

theorem push_retains (h : s.Tidy opened) (parent : ScopeId) : Retains s (s.push parent).2 := by
  intro id hc
  have hne : id ≠ (s.push parent).1 := by
    rintro rfl
    exact push_not_live s parent h.spare_free (h.captured_live _ hc)
  rw [(push_pushed s parent h.spare_inside).other id hne]
  exact ⟨hc, rfl⟩

/-- A scope may be opened inside the one that is open at the moment, or inside a kept one. -/
theorem push (h : s.Tidy opened) (parent : ScopeId)
    (hp : parent = opened.headD .global ∨ (s.scope parent).captured = true) :
    (s.push parent).2.Tidy ((s.push parent).1 :: opened) := by
  have hpush := push_pushed s parent h.spare_inside
  have hdead := push_not_live s parent h.spare_free
  have hret := h.push_retains parent
  have hspare := spare_push s parent
  have hsub : ∀ id ∈ s.spare.tail, id ∈ s.spare ∧ id ≠ (s.push parent).1 := by
    intro id hid
    refine ⟨List.mem_of_mem_tail hid, ?_⟩
    have hnd := h.spare_nodup
    unfold Scopes.push
    cases hs : s.spare with
    | nil => simp [hs] at hid
    | cons a rest =>
      rw [hs] at hid hnd
      rintro rfl
      exact (List.nodup_cons.mp hnd).1 hid
  generalize (s.push parent).1 = new at *
  generalize (s.push parent).2 = s' at *
  have hplive : s.Live parent := by
    rcases hp with rfl | hp
    · exact h.head_live
    · exact h.captured_live _ hp
  have hother : ∀ {j}, s.Live j → s'.scope j = s.scope j :=
    fun {j} hj => hpush.other j fun e => hdead (e ▸ hj)
  have hglobal : s'.scope .global = s.scope .global := hother h.root_live
  have hold : ∀ {j l}, s.Live j → s.Around j l → s'.Around j l := fun hj hl =>
    hl.congr fun i hi => by rw [hother (h.around_live hl hj i hi)]
  have hcap : ∀ {j}, (s'.scope j).captured = true → (s.scope j).captured = true := by
    intro j hj
    by_cases e : j = new
    · rw [e, hpush.fresh] at hj; cases hj
    · rwa [hpush.other j e] at hj
  exact {
    recycles := hpush.recycles.trans h.recycles
    root_live := hpush.live_iff.mpr (.inr h.root_live)
    root_parent := by rw [hglobal, h.root_parent]
    spare_inside := by
      intro id hid
      exact Nat.lt_of_lt_of_le (h.spare_inside id (hsub id (hspare ▸ hid)).1) hpush.grows
    spare_free := by
      intro id hid
      obtain ⟨h1, h2⟩ := hsub id (hspare ▸ hid)
      rw [hpush.other id h2, h.spare_free id h1]
    spare_nodup := by rw [hspare]; exact h.spare_nodup.tail
    rooted := by
      intro id hid
      rcases hpush.live_iff.mp hid with rfl | hid
      · obtain ⟨l, hl⟩ := h.rooted parent hplive
        exact ⟨_, .inside (by rw [hpush.fresh]) (hold hplive hl)⟩
      · obtain ⟨l, hl⟩ := h.rooted id hid
        exact ⟨l, hold hid hl⟩
    parent_live := by
      intro id q hid hq
      apply hpush.live_iff.mpr
      rcases hpush.live_iff.mp hid with rfl | hid
      · rw [hpush.fresh] at hq; cases hq
        exact .inr hplive
      · rw [hother hid] at hq
        exact .inr (h.parent_live id q hid hq)
    captured_live := fun id hid => hpush.live_iff.mpr (.inr (h.captured_live id (hcap hid)))
    captured_parent := by
      intro id q hid hq
      have hlive := h.captured_live id (hcap hid)
      rw [hother hlive] at hq
      exact (hret q (h.captured_parent id q (hcap hid) hq)).1
    opened_live := by
      intro id hid
      apply hpush.live_iff.mpr
      rcases List.mem_cons.mp hid with rfl | hid
      · exact .inl rfl
      · exact .inr (h.opened_live id hid)
    opened_nodup := List.nodup_cons.mpr ⟨fun hm => hdead (h.opened_live _ hm), h.opened_nodup⟩
    opened_inner := by
      rw [List.mem_cons]
      rintro (e | hm)
      · exact hdead (e ▸ h.root_live)
      · exact h.opened_inner hm
    opened_all := by
      intro id hid hc
      rcases hpush.live_iff.mp hid with rfl | hid
      · exact .inr (by simp)
      · rw [hother hid] at hc
        exact (h.opened_all id hid hc).imp_right (by simp +contextual)
    nested := by
      refine ⟨⟨parent, by rw [hpush.fresh], ?_⟩, ?_⟩
      · exact hp.imp_right fun hc => (hret parent hc).1
      · refine h.nested.of_retains hret fun id hid => ?_
        rw [hother (h.opened_live id hid)] }

/-- Leaving the innermost scope. The point is that the scope around one in use stays in use: a scope
inside the one that is freed would be kept, and this one with it, or it would be open, and the scope
around it among those that are open still. -/
theorem release {id : ScopeId} (h : s.Tidy (id :: opened)) :
    (s.release id).Tidy opened ∧ Retains s (s.release id) := by
  have hlive : s.Live id := h.opened_live id (by simp)
  have hnd := List.nodup_cons.mp h.opened_nodup
  have hg : id ≠ .global := fun e => h.opened_inner (e ▸ by simp)
  cases hc : (s.scope id).captured with
  | true =>
    rw [release_eq (.inr (.inr (.inl hc)))]
    refine ⟨{ h with
      opened_live := fun j hj => h.opened_live j (by simp [hj])
      opened_nodup := hnd.2
      opened_inner := fun hm => h.opened_inner (by simp [hm])
      opened_all := fun j hj hk => ?_
      nested := h.nested.2 }, .refl s⟩
    refine (h.opened_all j hj hk).imp_right fun hm => ?_
    rcases List.mem_cons.mp hm with rfl | hm
    · rw [hc] at hk; cases hk
    · exact hm
  | false =>
    have hrel := release_released h.recycles hg hc hlive
    generalize s.release id = s' at hrel
    have hret : Retains s s' := fun j hj => ⟨by rw [hrel.captured, hj], hrel.parent j⟩
    refine ⟨?_, hret⟩
    exact {
      recycles := hrel.recycles.trans h.recycles
      root_live := hrel.live_iff.mpr ⟨hg.symm, h.root_live⟩
      root_parent := by rw [hrel.parent, h.root_parent]
      spare_inside := by
        intro j hj
        rw [hrel.spare] at hj; rw [hrel.size]
        rcases List.mem_cons.mp hj with rfl | hj
        · exact hlive.1
        · exact h.spare_inside j hj
      spare_free := by
        intro j hj
        by_cases e : j = id
        · rw [e, hrel.freed]
        · rw [hrel.spare] at hj
          rw [hrel.other j e, h.spare_free j (List.mem_of_ne_of_mem e hj)]
      spare_nodup := by
        rw [hrel.spare]
        refine List.nodup_cons.mpr ⟨fun hm => ?_, h.spare_nodup⟩
        have := h.spare_free id hm
        rw [hlive.2] at this
        cases this
      rooted := by
        intro j hj
        obtain ⟨l, hl⟩ := h.rooted j (hrel.live_iff.mp hj).2
        exact ⟨l, hl.congr fun i _ => hrel.parent i⟩
      parent_live := by
        intro j q hj hq
        obtain ⟨hne, hj⟩ := hrel.live_iff.mp hj
        rw [hrel.parent] at hq
        refine hrel.live_iff.mpr ⟨?_, h.parent_live j q hj hq⟩
        rintro rfl
        cases hk : (s.scope j).captured with
        | true =>
          have := h.captured_parent j _ hk hq
          rw [hc] at this; cases this
        | false =>
          rcases h.opened_all j hj hk with rfl | hm
          · rw [h.root_parent] at hq; cases hq
          · obtain ⟨p, hp, hcase⟩ := h.nested.2.parent_mem (List.mem_of_ne_of_mem hne hm)
            rw [hq] at hp; cases hp
            rcases hcase with e | e | e
            · exact hg e
            · exact hnd.1 e
            · rw [hc] at e; cases e
      captured_live := by
        intro j hj
        rw [hrel.captured] at hj
        refine hrel.live_iff.mpr ⟨?_, h.captured_live j hj⟩
        rintro rfl
        rw [hc] at hj; cases hj
      captured_parent := by
        intro j q hj hq
        rw [hrel.captured] at hj ⊢; rw [hrel.parent] at hq
        exact h.captured_parent j q hj hq
      opened_live := fun j hj =>
        hrel.live_iff.mpr ⟨fun e => hnd.1 (e ▸ hj), h.opened_live j (by simp [hj])⟩
      opened_nodup := hnd.2
      opened_inner := fun hm => h.opened_inner (by simp [hm])
      opened_all := by
        intro j hj hk
        obtain ⟨hne, hj⟩ := hrel.live_iff.mp hj
        rw [hrel.captured] at hk
        exact (h.opened_all j hj hk).imp_right (List.mem_of_ne_of_mem hne)
      nested := h.nested.2.of_retains hret fun j _ => hrel.parent j }

/-- A change of what is bound or kept, when it keeps at least what was kept and, with each scope,
those around it. -/
theorem reshape {s' : Scopes} (h : s.Tidy opened) (hs : SameShape s s')
    (hr : ∀ j, (s.scope j).captured = true → (s'.scope j).captured = true)
    (hc : ∀ j, (s'.scope j).captured = true → s.Live j ∧
      ∀ q, (s.scope j).parent = some q → (s'.scope q).captured = true) : s'.Tidy opened where
  recycles := hs.recycles.trans h.recycles
  root_live := (hs.live_iff _).mpr h.root_live
  root_parent := by rw [hs.parent, h.root_parent]
  spare_inside j hj := by rw [hs.spare] at hj; rw [hs.size]; exact h.spare_inside j hj
  spare_free j hj := by rw [hs.spare] at hj; rw [hs.free]; exact h.spare_free j hj
  spare_nodup := by rw [hs.spare]; exact h.spare_nodup
  rooted j hj := by
    obtain ⟨l, hl⟩ := h.rooted j ((hs.live_iff j).mp hj)
    exact ⟨l, hs.around hl⟩
  parent_live j q hj hq := by
    rw [hs.live_iff] at hj ⊢; rw [hs.parent] at hq
    exact h.parent_live j q hj hq
  captured_live j hj := (hs.live_iff j).mpr (hc j hj).1
  captured_parent j q hj hq := by
    rw [hs.parent] at hq
    exact (hc j hj).2 q hq
  opened_live j hj := (hs.live_iff j).mpr (h.opened_live j hj)
  opened_nodup := h.opened_nodup
  opened_inner := h.opened_inner
  opened_all j hj hk := by
    refine h.opened_all j ((hs.live_iff j).mp hj) ?_
    by_contra hn
    rw [hr j (by simpa using hn)] at hk; cases hk
  nested := h.nested.of_retains (fun j hj => ⟨hr j hj, hs.parent j⟩) fun j _ => hs.parent j

theorem capture (h : s.Tidy opened) {id : ScopeId} (hid : s.Live id) :
    (s.capture id).Tidy opened ∧ Retains s (s.capture id) ∧
      ((s.capture id).scope id).captured = true := by
  obtain ⟨l, hl⟩ := h.rooted id hid
  have hlive := h.around_live hl hid
  have hcap : ∀ j, ((s.capture id).scope j).captured = true ↔
      (s.scope j).captured = true ∨ j ∈ l :=
    captureWithin_captured hl (fun j hj => (hlive j hj).1) (h.around_pairwise hl) _
      (h.around_length hl hid)
  have hshape : SameShape s (s.capture id) := captureWithin_shape _ s id
  refine ⟨?_, fun j hj => ⟨(hcap j).mpr (.inl hj), hshape.parent j⟩, ?_⟩
  · refine h.reshape hshape (fun j hj => (hcap j).mpr (.inl hj)) fun j hj => ?_
    rcases (hcap j).mp hj with hj | hj
    · exact ⟨h.captured_live j hj, fun q hq => (hcap q).mpr (.inl (h.captured_parent j q hj hq))⟩
    · refine ⟨hlive j hj, fun q hq => (hcap q).mpr (.inr ?_)⟩
      obtain ⟨t, ht, ha⟩ := hl.suffix hj
      cases ha with
      | outermost hg => rw [hg] at hq; cases hq
      | inside hp ha =>
        rw [hp] at hq; cases hq
        obtain ⟨u, rfl⟩ := ha.head
        exact ht.subset (by simp)
  · obtain ⟨t, rfl⟩ := hl.head
    exact (hcap id).mpr (.inr (by simp))

/-- Binding names touches neither the slots nor what is kept. -/
theorem rebind (h : s.Tidy opened) (id : ScopeId) (f : Bindings → Bindings) :
    (s.modify id fun scope => { scope with bindings := f scope.bindings }).Tidy opened ∧
      Retains s (s.modify id fun scope => { scope with bindings := f scope.bindings }) := by
  have hs : SameShape s (s.modify id fun scope => { scope with bindings := f scope.bindings }) :=
    .modify s id _ rfl rfl
  have hc := scope_modify_part Scope.captured s id
    (fun scope => { scope with bindings := f scope.bindings }) rfl
  refine ⟨h.reshape hs (fun j hj => by rw [hc, hj]) fun j hj => ?_, fun j hj => ?_⟩
  · rw [hc] at hj
    exact ⟨h.captured_live j hj, fun q hq => by rw [hc]; exact h.captured_parent j q hj hq⟩
  · exact ⟨by rw [hc, hj], hs.parent j⟩

end Tidy

/-! ## What names are bound to -/

theorem KeepsBound.of_subset {s s' : Scopes} (h : s.KeepsBound) (hr : Retains s s')
    (hb : ∀ id name v, (name, some v) ∈ (s'.scope id).bindings →
      (name, some v) ∈ (s.scope id).bindings ∨ s'.Keeps v) : s'.KeepsBound := by
  intro id name v hv
  rcases hb id name v hv with hv | hv
  · exact (h id name v hv).mono hr
  · exact hv

theorem mem_set {name key : String} {value v : Value} : ∀ {b : Bindings},
    (key, some v) ∈ Bindings.set name value b → (key, some v) ∈ b ∨ v = value
  | [], h => .inl h
  | (k, old) :: rest, h => by
    simp only [Bindings.set] at h
    split at h
    · rcases List.mem_cons.mp h with h | h
      · cases h; exact .inr rfl
      · exact .inl (by simp [h])
    · rcases List.mem_cons.mp h with h | h
      · exact .inl (by simp [h])
      · exact (mem_set h).imp_left (by simp +contextual)

/-- A tidy store in which no name is bound to a function whose scope may be lost. -/
structure Sound (s : Scopes) (opened : List ScopeId) : Prop where
  tidy : s.Tidy opened
  bound : s.KeepsBound

namespace Sound

variable {s : Scopes} {opened : List ScopeId}

theorem push (h : s.Sound opened) (parent : ScopeId)
    (hp : parent = opened.headD .global ∨ (s.scope parent).captured = true) :
    (s.push parent).2.Sound ((s.push parent).1 :: opened) := by
  have hpush := push_pushed s parent h.tidy.spare_inside
  refine ⟨h.tidy.push parent hp, h.bound.of_subset (h.tidy.push_retains parent) ?_⟩
  intro id name v hv
  by_cases e : id = (s.push parent).1
  · rw [e, hpush.fresh] at hv; simp at hv
  · rw [hpush.other id e] at hv; exact .inl hv

theorem release {id : ScopeId} (h : s.Sound (id :: opened)) : (s.release id).Sound opened := by
  obtain ⟨ht, hr⟩ := h.tidy.release
  refine ⟨ht, h.bound.of_subset hr fun j name v hv => .inl ?_⟩
  have hlive : s.Live id := h.tidy.opened_live id (by simp)
  have hg : id ≠ .global := fun e => h.tidy.opened_inner (e ▸ by simp)
  cases hc : (s.scope id).captured with
  | true => rwa [release_eq (.inr (.inr (.inl hc)))] at hv
  | false =>
    have hrel := release_released h.tidy.recycles hg hc hlive
    by_cases e : j = id
    · rw [e, hrel.freed] at hv; simp at hv
    · rwa [hrel.other j e] at hv

theorem capture (h : s.Sound opened) {id : ScopeId} (hid : s.Live id) :
    (s.capture id).Sound opened := by
  obtain ⟨ht, hr, -⟩ := h.tidy.capture hid
  refine ⟨ht, h.bound.of_subset hr fun j name v hv => .inl ?_⟩
  rwa [Scopes.capture, captureWithin_bindings] at hv

theorem rebind (h : s.Sound opened) (id : ScopeId) (f : Bindings → Bindings)
    (hf : ∀ name v, (name, some v) ∈ f (s.scope id).bindings →
      (name, some v) ∈ (s.scope id).bindings ∨ s.Keeps v) :
    (s.modify id fun scope => { scope with bindings := f scope.bindings }).Sound opened := by
  obtain ⟨ht, hr⟩ := h.tidy.rebind id f
  refine ⟨ht, h.bound.of_subset hr fun j name v hv => ?_⟩
  by_cases hj : j = id ∧ j.slot < s.slots.size
  · obtain ⟨rfl, hj⟩ := hj
    rw [scope_modify_self _ hj] at hv
    exact (hf name v hv).imp_right fun hk => hk.mono hr
  · rw [not_and_or] at hj
    rcases hj with hj | hj
    · rw [scope_modify_ne _ hj] at hv; exact .inl hv
    · rw [scope_out (by rw [size_modify]; omega)] at hv; simp at hv

theorem define (h : s.Sound opened) (id : ScopeId) (name : String) (value : Option Value)
    (hv : ∀ v, value = some v → s.Keeps v) :
    (s.define id name value).2.Sound opened ∧ Retains s (s.define id name value).2 := by
  unfold Scopes.define
  split
  · exact ⟨h, .refl s⟩
  · refine ⟨h.rebind id ((name, value) :: ·) fun key v hm => ?_, (h.tidy.rebind id _).2⟩
    rcases List.mem_cons.mp hm with e | hm
    · cases e; exact .inr (hv v rfl)
    · exact .inl hm

theorem assign (h : s.Sound opened) (id : ScopeId) (name : String) (value : Value)
    (hv : s.Keeps value) :
    (s.assign id name value).2.Sound opened ∧ Retains s (s.assign id name value).2 := by
  unfold Scopes.assign
  split
  · exact ⟨h, .refl s⟩
  · rename_i owner _
    refine ⟨h.rebind owner (Bindings.set name value) fun key v hm => ?_, (h.tidy.rebind owner _).2⟩
    exact (mem_set hm).imp_right (by rintro rfl; exact hv)

theorem get_keeps (h : s.Sound opened) {id : ScopeId} {name : String} {v : Value}
    (hg : s.get id name = .ok v) : s.Keeps v := by
  obtain ⟨owner, hm⟩ := mem_of_get hg
  exact h.bound owner name v hm

theorem register (h : s.Sound opened) (identity : Nat) (natives : List Native) :
    (s.register identity natives).Sound opened := by
  induction natives generalizing s identity with
  | nil => exact h
  | cons n rest ih =>
    refine ih (h.define .global n.name _ fun v hv => ?_).1 (identity + 1)
    cases hv
    intro c hc
    cases hc

end Sound

theorem scope_empty (id : ScopeId) : empty.scope id = {} := by
  rcases id with ⟨_ | n⟩ <;> simp [scope_eq, empty]

theorem eq_global_of_live_empty {id : ScopeId} (h : empty.Live id) : id = .global := by
  cases id with
  | mk slot =>
    have : slot < 1 := h.1
    simp only [ScopeId.global, ScopeId.mk.injEq]
    omega

theorem empty_sound : empty.Sound [] where
  tidy := {
    recycles := rfl
    root_live := ⟨by decide, rfl⟩
    root_parent := rfl
    spare_inside := by simp [empty]
    spare_free := by simp [empty]
    spare_nodup := by simp [empty]
    rooted := by
      intro id hid
      rw [eq_global_of_live_empty hid]
      exact ⟨_, .outermost rfl⟩
    parent_live := by simp [scope_empty]
    captured_live := by simp [scope_empty]
    captured_parent := by simp [scope_empty]
    opened_live := by simp
    opened_nodup := by simp
    opened_inner := by simp
    opened_all := fun id hid _ => .inl (eq_global_of_live_empty hid)
    nested := trivial }
  bound := by simp [KeepsBound, scope_empty]

theorem initial_sound : initial.Sound [] := empty_sound.register 0 Native.library

end Scopes

end Script
