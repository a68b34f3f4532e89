import Script.Proofs.LexicalScoping
import Script.Proofs.StepTurns

/-!
# Slots are accounted for, however a store is used

A store gives out handles, and nothing is asked of those who use them: a scope may
be released twice or before the scopes inside it, a scope may be kept whose slot is
free, and a handle may be used after its slot was handed out again. Scopes may then
be inside each other in a circle. Still the free slots are those that are marked
free, a slot in use is never handed out, and one that is kept while in use is not
handed out again.
-/

namespace Script

namespace Scopes

/-! ## Uses of a store -/

/-- What a store can be used for. -/
inductive Use where
  | push (parent : ScopeId)
  | release (id : ScopeId)
  | capture (id : ScopeId)
  | names (op : Operation)

def Use.handle : Use → ScopeId
  | push parent => parent
  | release id => id
  | capture id => id
  | names op => op.scope

/-- The handle that is given out. -/
def gives (s : Scopes) : Use → Option ScopeId
  | .push parent => some (s.push parent).1
  | _ => none

/-- The store after a use. A search for a name that would go in circles finds nothing here. -/
def use (s : Scopes) : Use → Scopes
  | .push parent => (s.push parent).2
  | .release id => s.release id
  | .capture id => s.capture id
  | .names op => s.perform op

def useAll (s : Scopes) (us : List Use) : Scopes := us.foldl use s

def givesAll (s : Scopes) : List Use → List ScopeId
  | [] => []
  | u :: us => (s.gives u).toList ++ (s.use u).givesAll us

/-- Every use comes with one of the handles `known` or with one that was given out before. -/
def Honest (s : Scopes) (known : List ScopeId) : List Use → Prop
  | [] => True
  | u :: us => u.handle ∈ known ∧ (s.use u).Honest (known ++ (s.gives u).toList) us

instance Honest.decidable (s : Scopes) (known : List ScopeId) :
    (us : List Use) → Decidable (s.Honest known us)
  | [] => .isTrue trivial
  | u :: us =>
    have := Honest.decidable (s.use u) (known ++ (s.gives u).toList) us
    inferInstanceAs (Decidable (_ ∧ _))

/-! ## What is promised -/

def occupied (s : Scopes) : List ScopeId :=
  ((List.range s.slots.size).map ScopeId.mk).filter fun id => !(s.scope id).free

/-- The records that the store keeps of its free slots agree. -/
structure Consistent (s : Scopes) : Prop where
  spare_nodup : s.spare.Nodup
  spare_iff : ∀ id, id ∈ s.spare ↔ s.Has id ∧ (s.scope id).free = true
  root_live : s.Live .global
  live_eq : s.live = s.occupied.length
  live_pos : 1 ≤ s.live

/-- A release takes a slot out of use. -/
def Frees (s : Scopes) (id : ScopeId) : Prop := s.Live id ∧ ¬ (s.release id).Live id

/-- What a use gives out, and how it changes the number of scopes in use. -/
def Regular (s : Scopes) : Use → Prop
  | .push parent =>
    ¬ s.Live (s.push parent).1 ∧ (s.push parent).2.Live (s.push parent).1 ∧
      (s.push parent).2.scope (s.push parent).1 = { parent := some parent } ∧
      (s.push parent).2.live = s.live + 1
  | .release id =>
    (s.Frees id ↔ s.Live id ∧ id ≠ .global ∧ (s.scope id).captured = false) ∧
      (s.Frees id → (s.release id).live + 1 = s.live) ∧ (¬ s.Frees id → s.release id = s)
  | .capture id => Captures s id (s.capture id) ∧ (s.capture id).live = s.live
  | .names op => (s.perform op).live = s.live

/-! ## The invariant -/

/-- A store whose handles, those it gave out and those it keeps itself, are slots of it. -/
structure Orderly (s : Scopes) (known : List ScopeId) : Prop where
  recycles : s.recycles = true
  spare_nodup : s.spare.Nodup
  spare_iff : ∀ id, id ∈ s.spare ↔ s.Has id ∧ (s.scope id).free = true
  root_live : s.Live .global
  parent_has : ∀ id parent, (s.scope id).parent = some parent → s.Has parent
  known_has : ∀ id ∈ known, s.Has id

theorem mem_occupied {s : Scopes} {id : ScopeId} : id ∈ s.occupied ↔ s.Live id := by
  rcases id with ⟨n⟩
  simp [occupied, Live]

theorem nodup_occupied (s : Scopes) : s.occupied.Nodup := by
  refine List.Nodup.filter _ (List.nodup_range.map ?_)
  intro m n h
  exact congrArg ScopeId.slot h

theorem rebound_perform (s : Scopes) (op : Operation) : Rebound s (s.perform op) := by
  cases op with
  | define id name value => exact rebound_define s id name value
  | assign id name value => exact rebound_assign s id name value
  | get => exact .refl s

theorem SameShape.live_eq {s s' : Scopes} (h : SameShape s s') : s'.live = s.live := by
  unfold live
  rw [h.size, h.spare]

theorem capture_shape (s : Scopes) (id : ScopeId) : SameShape s (s.capture id) :=
  captureWithin_shape _ s id

/-! ## Keeping scopes that may be around themselves -/

/-- The walk that keeps scopes comes to an end in any store, for it stops at a scope it has been to. -/
theorem captures_within {n : Nat} {s : Scopes} {id : ScopeId} {l : List ScopeId} (hn : l.Nodup)
    (hl : ∀ j ∈ l, s.Has j ∧ (s.scope j).captured = true)
    (hp : ∀ j parent, (s.scope j).parent = some parent → s.Has parent) (hid : s.Has id)
    (hsize : s.slots.size ≤ n + l.length) : Captures s id (captureWithin n s id) := by
  -- `l` are the scopes it has been to: with each step one more, so `n` is enough for the others
  induction n generalizing s id l with
  | zero =>
    refine .already ?_
    by_contra hc
    -- then there would be more scopes than slots
    have hcons : (id :: l).Nodup := List.nodup_cons.mpr ⟨fun hm => hc (hl id hm).2, hn⟩
    have := length_le_slots hcons (List.forall_mem_cons.mpr ⟨hid, fun j hj => (hl j hj).1⟩)
    rw [List.length_cons] at this
    omega
  | succ n ih =>
    simp only [captureWithin]
    by_cases hc : (s.scope id).captured = true
    · rw [if_pos hc]
      exact .already hc
    · rw [if_neg hc]
      have hc' : (s.scope id).captured = false := by simpa using hc
      have hm : SameShape s (s.modify id fun scope => { scope with captured := true }) :=
        .modify s id _ rfl rfl
      cases hq : (s.scope id).parent with
      | none => exact .last hc' hq
      | some parent =>
        refine .more hc' hq (ih (l := id :: l) ?_ ?_ ?_ ?_ ?_)
        · exact List.nodup_cons.mpr ⟨fun hm => hc (hl id hm).2, hn⟩
        · intro j hj
          rw [hm.has_iff]
          by_cases e : j = id
          · rw [e, scope_modify_self _ hid]
            exact ⟨hid, rfl⟩
          · rw [scope_modify_ne _ e]
            exact hl j (List.mem_of_ne_of_mem e hj)
        · intro j q hjq
          rw [hm.parent] at hjq
          exact hm.has_iff.mpr (hp j q hjq)
        · exact hm.has_iff.mpr (hp id parent hq)
        · rw [size_modify, List.length_cons]
          omega

theorem captureWithin_keeps (n : Nat) {s : Scopes} {id j : ScopeId}
    (hc : (s.scope j).captured = true) : ((captureWithin n s id).scope j).captured = true := by
  induction n generalizing s id with
  | zero => exact hc
  | succ n ih =>
    have hm : ((s.modify id fun scope => { scope with captured := true }).scope j).captured = true := by
      by_cases e : j = id
      · subst e
        by_cases hj : j.slot < s.slots.size
        · rw [scope_modify_self _ hj]
        · rw [scope_out (by omega)] at hc
          cases hc
      · rw [scope_modify_ne _ e, hc]
    simp only [captureWithin]
    split
    · exact hc
    · split
      · exact hm
      · exact ih hm

namespace Orderly

variable {s s' : Scopes} {known : List ScopeId}

theorem spare_has (h : s.Orderly known) : ∀ id ∈ s.spare, id.slot < s.slots.size :=
  fun id hm => ((h.spare_iff id).mp hm).1

theorem spare_free (h : s.Orderly known) : ∀ id ∈ s.spare, (s.scope id).free = true :=
  fun id hm => ((h.spare_iff id).mp hm).2

/-- The global scope apart, there are at most as many free slots as there are slots. -/
theorem spare_lt (h : s.Orderly known) : s.spare.length < s.slots.size := by
  have hroot : .global ∉ s.spare := by
    intro hm
    have := h.spare_free _ hm
    rw [h.root_live.2] at this
    cases this
  have hall : ∀ j ∈ ScopeId.global :: s.spare, j.slot < s.slots.size :=
    List.forall_mem_cons.mpr ⟨h.root_live.1, h.spare_has⟩
  exact length_le_slots (List.nodup_cons.mpr ⟨hroot, h.spare_nodup⟩) hall

theorem consistent (h : s.Orderly known) : s.Consistent where
  spare_nodup := h.spare_nodup
  spare_iff := h.spare_iff
  root_live := h.root_live
  live_eq := live_eq_length h.spare_nodup h.spare_iff s.nodup_occupied fun _ => mem_occupied
  live_pos := by
    have := h.spare_lt
    unfold live
    omega

/-! ## What each use keeps -/

theorem sameShape (h : s.Orderly known) (hs : SameShape s s') : s'.Orderly known where
  recycles := hs.recycles.trans h.recycles
  spare_nodup := by rw [hs.spare]; exact h.spare_nodup
  spare_iff id := by rw [hs.spare, hs.has_iff, hs.free]; exact h.spare_iff id
  root_live := (hs.live_iff _).mpr h.root_live
  parent_has id parent hp := by
    rw [hs.parent] at hp
    exact hs.has_iff.mpr (h.parent_has id parent hp)
  known_has id hid := hs.has_iff.mpr (h.known_has id hid)

theorem push (h : s.Orderly known) {parent : ScopeId} (hp : s.Has parent) :
    (s.push parent).2.Orderly (known ++ [(s.push parent).1]) := by
  have hpush := push_pushed s parent h.spare_has
  have hdead := push_not_live s parent h.spare_free
  have hspare := spare_push s parent
  have htail : ∀ id, id ∈ s.spare.tail ↔ id ∈ s.spare ∧ id ≠ (s.push parent).1 := by
    intro id
    have hnd := h.spare_nodup
    unfold Scopes.push
    cases hs : s.spare with
    | nil => simp
    | cons a rest =>
      rw [hs] at hnd
      have ha : a ∉ rest := (List.nodup_cons.mp hnd).1
      simp only [List.tail_cons, List.mem_cons]
      constructor
      · intro hm
        exact ⟨.inr hm, fun e => ha (e ▸ hm)⟩
      · rintro ⟨e | hm, hne⟩
        · exact absurd e hne
        · exact hm
  have hgrows : ∀ {j}, s.Has j → (s.push parent).2.Has j :=
    fun hj => Nat.lt_of_lt_of_le hj hpush.grows
  exact {
    recycles := hpush.recycles.trans h.recycles
    spare_nodup := by rw [hspare]; exact h.spare_nodup.tail
    spare_iff := by
      intro id
      rw [hspare, htail, h.spare_iff]
      by_cases hid : id = (s.push parent).1
      · simp [hid, hpush.fresh]
      · rw [hpush.other id hid]
        constructor
        · rintro ⟨⟨hhas, hfree⟩, -⟩
          exact ⟨hgrows hhas, hfree⟩
        · rintro ⟨hhas, hfree⟩
          exact ⟨⟨(hpush.within id hhas).resolve_left hid, hfree⟩, hid⟩
    root_live := hpush.live_iff.mpr (.inr h.root_live)
    parent_has := by
      intro id q hq
      by_cases hid : id = (s.push parent).1
      · rw [hid, hpush.fresh] at hq
        cases hq
        exact hgrows hp
      · rw [hpush.other id hid] at hq
        exact hgrows (h.parent_has id q hq)
    known_has := by
      intro id hid
      rcases List.mem_append.mp hid with hid | hid
      · exact hgrows (h.known_has id hid)
      · rw [List.mem_singleton.mp hid]
        exact hpush.inside }

/-- A release frees the slot, or it changes nothing. -/
theorem release_cases (h : s.Orderly known) {id : ScopeId} (hid : s.Has id) :
    (s.Live id ∧ id ≠ .global ∧ (s.scope id).captured = false ∧ Released s (s.release id) id) ∨
      (¬ (s.Live id ∧ id ≠ .global ∧ (s.scope id).captured = false) ∧ s.release id = s) := by
  by_cases hfrees : s.Live id ∧ id ≠ .global ∧ (s.scope id).captured = false
  · obtain ⟨hl, hg, hc⟩ := hfrees
    exact .inl ⟨hl, hg, hc, release_released h.recycles hg hc hl⟩
  · refine .inr ⟨hfrees, release_eq (.inr ?_)⟩
    by_contra hnot
    simp only [not_or, Bool.not_eq_true] at hnot
    exact hfrees ⟨⟨hid, hnot.2.2⟩, hnot.1, hnot.2.1⟩

theorem release (h : s.Orderly known) {id : ScopeId} (hid : s.Has id) :
    (s.release id).Orderly known := by
  rcases h.release_cases hid with ⟨hl, hg, -, hrel⟩ | ⟨-, he⟩
  · have hhas : ∀ {j}, (s.release id).Has j ↔ s.Has j := by
      intro j
      rw [Has, Has, hrel.size]
    have hspare : id ∉ s.spare := by
      intro hm
      have := h.spare_free id hm
      rw [hl.2] at this
      cases this
    exact {
      recycles := hrel.recycles.trans h.recycles
      spare_nodup := by
        rw [hrel.spare]
        exact List.nodup_cons.mpr ⟨hspare, h.spare_nodup⟩
      spare_iff := by
        intro j
        rw [hrel.spare, List.mem_cons, hhas]
        by_cases hj : j = id
        · simp [hj, hrel.freed, hid]
        · rw [hrel.other j hj, h.spare_iff]
          simp [hj]
      root_live := hrel.live_iff.mpr ⟨hg.symm, h.root_live⟩
      parent_has := by
        intro j q hq
        rw [hrel.parent] at hq
        exact hhas.mpr (h.parent_has j q hq)
      known_has := fun j hj => hhas.mpr (h.known_has j hj) }
  · rw [he]
    exact h

theorem use (h : s.Orderly known) {u : Use} (hu : u.handle ∈ known) :
    (s.use u).Orderly (known ++ (s.gives u).toList) := by
  have hid := h.known_has _ hu
  cases u with
  | push parent => exact h.push hid
  | release id =>
    show (s.release id).Orderly (known ++ [])
    rw [List.append_nil]
    exact h.release hid
  | capture id =>
    show (s.capture id).Orderly (known ++ [])
    rw [List.append_nil]
    exact h.sameShape (capture_shape s id)
  | names op =>
    show (s.perform op).Orderly (known ++ [])
    rw [List.append_nil]
    exact h.sameShape (rebound_perform s op).toSameShape

theorem useAll (h : s.Orderly known) {done next : List Use} (hh : s.Honest known (done ++ next)) :
    ∃ known', (s.useAll done).Orderly known' ∧ (s.useAll done).Honest known' next := by
  induction done generalizing s known with
  | nil => exact ⟨known, h, hh⟩
  | cons u done ih => exact ih (h.use hh.1) hh.2

/-! ## How the number of scopes in use changes -/

theorem live_push (h : s.Orderly known) (parent : ScopeId) :
    (s.push parent).2.live = s.live + 1 := by
  have hlt := h.spare_lt
  unfold Scopes.push live
  cases hs : s.spare with
  | nil => simp
  | cons id spare =>
    rw [hs, List.length_cons] at hlt
    simp only [size_modify, List.length_cons]
    omega

theorem live_release {id : ScopeId} (h : s.Orderly known) (hrel : Released s (s.release id) id) :
    (s.release id).live + 1 = s.live := by
  have hlt := h.spare_lt
  unfold live
  rw [hrel.size, hrel.spare, List.length_cons]
  omega

theorem regular (h : s.Orderly known) {u : Use} (hu : u.handle ∈ known) : s.Regular u := by
  cases u with
  | push parent =>
    have hpush := push_pushed s parent h.spare_has
    exact ⟨push_not_live s parent h.spare_free, hpush.live_iff.mpr (.inl rfl), hpush.fresh,
      h.live_push parent⟩
  | release id =>
    have hid : s.Has id := h.known_has id hu
    rcases h.release_cases hid with ⟨hl, hg, hc, hrel⟩ | ⟨hnot, he⟩
    · have hfrees : s.Frees id := ⟨hl, fun hl' => (hrel.live_iff.mp hl').1 rfl⟩
      exact ⟨⟨fun _ => ⟨hl, hg, hc⟩, fun _ => hfrees⟩, fun _ => h.live_release hrel,
        fun hkeeps => absurd hfrees hkeeps⟩
    · have hkeeps : ¬ s.Frees id := by
        rintro ⟨hl, hfreed⟩
        exact hfreed (by rwa [he])
      exact ⟨⟨fun hfrees => absurd hfrees hkeeps, fun hall => absurd hall hnot⟩,
        fun hfrees => absurd hfrees hkeeps, fun _ => he⟩
  | capture id =>
    have hid : s.Has id := h.known_has id hu
    exact ⟨captures_within .nil (by simp) h.parent_has hid (by simp), (capture_shape s id).live_eq⟩
  | names op => exact (rebound_perform s op).live_eq

/-! ## Slots that are kept -/

/-- A slot that is kept while in use stays in use and kept, and is not what a use gives out. -/
theorem keeps (h : s.Orderly known) {u : Use} (hu : u.handle ∈ known) {id : ScopeId}
    (hl : s.Live id) (hc : (s.scope id).captured = true) :
    (s.use u).Live id ∧ ((s.use u).scope id).captured = true ∧ s.gives u ≠ some id := by
  cases u with
  | push parent =>
    have hpush := push_pushed s parent h.spare_has
    have hne : id ≠ (s.push parent).1 := fun e => push_not_live s parent h.spare_free (e ▸ hl)
    refine ⟨hpush.live_iff.mpr (.inr hl), ?_, fun e => hne (Option.some.inj e).symm⟩
    exact (hpush.other id hne) ▸ hc
  | release j =>
    have hj : s.Has j := h.known_has j hu
    refine ⟨?_, (release_captured s j id).trans hc, by simp [gives]⟩
    rcases h.release_cases hj with ⟨-, -, hcj, hrel⟩ | ⟨-, he⟩
    · refine hrel.live_iff.mpr ⟨fun e => ?_, hl⟩
      rw [e, hcj] at hc
      cases hc
    · show (s.release j).Live id
      rwa [he]
  | capture j =>
    exact ⟨((capture_shape s j).live_iff id).mpr hl, captureWithin_keeps _ hc, by simp [gives]⟩
  | names op =>
    have hre := rebound_perform s op
    exact ⟨(hre.live_iff id).mpr hl, (hre.captured id).trans hc, by simp [gives]⟩

theorem not_given (h : s.Orderly known) {us : List Use} (hh : s.Honest known us) {id : ScopeId}
    (hl : s.Live id) (hc : (s.scope id).captured = true) : id ∉ s.givesAll us := by
  induction us generalizing s known with
  | nil => simp [givesAll]
  | cons u us ih =>
    obtain ⟨hl', hc', hne⟩ := h.keeps hh.1 hl hc
    simp only [givesAll, List.mem_append, Option.mem_toList, not_or]
    exact ⟨hne, ih (h.use hh.1) hh.2 hl' hc'⟩

end Orderly

theorem empty_orderly : empty.Orderly [.global] where
  recycles := rfl
  spare_nodup := List.nodup_nil
  spare_iff id := by
    rw [scope_empty]
    simp [empty]
  root_live := ⟨by decide, rfl⟩
  parent_has := by simp [scope_empty]
  known_has id hid := by
    rw [List.mem_singleton.mp hid]
    exact Nat.zero_lt_one

/-- At every moment in the use of a store, the uses `done` behind it and the uses `next` before it:
its records agree, the next use is regular, and no slot that is kept while in use is given out. -/
theorem slots_accounted_for {done next : List Use}
    (h : empty.Honest [.global] (done ++ next)) :
    (empty.useAll done).Consistent ∧
      (∀ u rest, next = u :: rest → (empty.useAll done).Regular u) ∧
      ∀ id, (empty.useAll done).Live id → ((empty.useAll done).scope id).captured = true →
        id ∉ (empty.useAll done).givesAll next := by
  obtain ⟨known, ho, hh⟩ := empty_orderly.useAll h
  refine ⟨ho.consistent, ?_, fun id hl hc => ho.not_given hh hl hc⟩
  rintro u rest rfl
  exact ho.regular hh.1

/-- A scope is left before the one inside it, and twice; then its slot is handed out inside that one,
so that the two are inside each other. Both are kept, and what is made next gets another slot. -/
theorem slots_accounted_for_circle :
    let done : List Use := [.push .global, .push ⟨1⟩, .release ⟨1⟩, .release ⟨1⟩, .push ⟨2⟩, .capture ⟨2⟩]
    let next : List Use := [.release ⟨1⟩, .release ⟨2⟩, .push ⟨1⟩]
    empty.Honest [.global] (done ++ next) ∧ empty.givesAll done = [⟨1⟩, ⟨2⟩, ⟨1⟩] ∧
      (empty.useAll done).Consistent ∧ (empty.useAll done).Regular (.release ⟨1⟩) ∧
      ⟨1⟩ ∉ (empty.useAll done).givesAll next ∧ (empty.useAll done).givesAll next = [⟨3⟩] := by
  intro done next
  have h : empty.Honest [.global] (done ++ next) := by decide
  obtain ⟨hcons, hreg, hkept⟩ := slots_accounted_for h
  exact ⟨h, by decide, hcons, hreg _ _ rfl, hkept ⟨1⟩ ⟨by decide, by rfl⟩ (by rfl), by decide⟩

end Scopes

end Script
