import Script.Proofs.Imitation
import Script.Proofs.LexicalScoping

/-!
# Scopes that bind nothing

A scope in which no name is ever bound might as well not be there: from it one sees what is seen from
the scope around it. A store with such scopes is stood in for by one that leaves them out and has the
scopes around them in their place. It never frees a slot, so what it holds stays where it is.
-/

namespace Script

namespace Scopes

/-- A store that never recycles and holds, under the names that `ρ` gives them, all scopes in use of
another but the hollow ones. A hollow scope binds nothing and goes by the name of the scope around
it. -/
structure Folds (hollow : ScopeId → Prop) (ρ : ScopeId → ScopeId) (s s' : Scopes) : Prop where
  recycles : s'.recycles = false
  spare : s'.spare = []
  inside : ∀ id, s.Live id → (ρ id).slot < s'.slots.size
  injective : ∀ i j, s.Live i → s.Live j → ¬ hollow i → ¬ hollow j → ρ i = ρ j → i = j
  parent : ∀ id, s.Live id → ¬ hollow id →
    (s'.scope (ρ id)).parent = (s.scope id).parent.map ρ
  bindings : ∀ id, s.Live id → ¬ hollow id →
    (s'.scope (ρ id)).bindings = Bindings.rename ρ (s.scope id).bindings
  hollow_live : ∀ id, hollow id → s.Live id
  hollow_bindings : ∀ id, hollow id → (s.scope id).bindings = []
  hollow_parent : ∀ id, hollow id → ∃ parent, (s.scope id).parent = some parent ∧ ρ id = ρ parent

theorem release_other {s : Scopes} {id j : ScopeId} (hj : j ≠ id) :
    (s.release id).scope j = s.scope j := by
  simp only [release]
  split
  · rfl
  · exact scope_modify_ne _ hj

theorem Tidy.release_bindings {s : Scopes} {id j : ScopeId} {opened : List ScopeId}
    (h : s.Tidy (id :: opened)) (hj : (s.release id).Live j) :
    ((s.release id).scope j).bindings = (s.scope j).bindings := by
  obtain ⟨-, hc⟩ := (h.release_live j).mp hj
  by_cases e : j = id
  · rw [release_eq (.inr (.inr (.inl (hc e))))]
  · rw [release_other e]

/-- A store binds no function whose scope may be lost, so what it binds is renamed alike where the
names of the scopes in use are the same. -/
theorem Sound.rename_bindings {s : Scopes} {opened : List ScopeId} (h : s.Sound opened)
    {ρ ρ' : ScopeId → ScopeId} (hρ : ∀ j, s.Live j → ρ' j = ρ j) (j : ScopeId) :
    Bindings.rename ρ' (s.scope j).bindings = Bindings.rename ρ (s.scope j).bindings := by
  refine Bindings.rename_congr fun name v hv => Value.rename_congr fun c hc => ?_
  exact hρ c (h.tidy.captured_live c (h.bound j name v hv c hc))

namespace Folds

variable {hollow : ScopeId → Prop} {ρ : ScopeId → ScopeId} {s s' : Scopes} {opened : List ScopeId}
  {id : ScopeId}

/-! ## Looking up -/

theorem not_hollow_of_parent (h : Folds hollow ρ s s') (hp : (s.scope id).parent = none) :
    ¬ hollow id := by
  intro hid
  obtain ⟨parent, hp', -⟩ := h.hollow_parent id hid
  rw [hp] at hp'
  cases hp'

theorem not_hollow_of_bound (h : Folds hollow ρ s s') {name : String}
    (hb : ((s.scope id).bindings.lookup name).isSome = true) : ¬ hollow id := by
  intro hid
  rw [h.hollow_bindings id hid] at hb
  cases hb

theorem chain (h : Folds hollow ρ s s') (hs : s.Tidy opened) {l : List ScopeId}
    (hl : s.Around id l) (hid : s.Live id) : ∃ l', s'.Chain (ρ id) l' := by
  induction hl with
  | outermost hg =>
    have hpart := h.parent _ hid (h.not_hollow_of_parent hg)
    rw [hg] at hpart
    exact ⟨_, .last (h.inside _ hid) hpart⟩
  | @inside id parent l hp _ ih =>
    obtain ⟨l', hl'⟩ := ih (hs.parent_live id parent hid hp)
    by_cases hh : hollow id
    · obtain ⟨parent', hp', he⟩ := h.hollow_parent id hh
      cases hp.symm.trans hp'
      exact ⟨l', he ▸ hl'⟩
    · have hpart := h.parent id hid hh
      rw [hp] at hpart
      exact ⟨_, .next (h.inside id hid) hpart hl'⟩

/-- A search that comes to a hollow scope goes on outward, so it makes no difference to leave it
out. -/
theorem finds (h : Folds hollow ρ s s') (hs : s.Tidy opened) {name : String}
    {r : Option ScopeId} (hf : Finds s name id r) (hid : s.Live id) :
    Finds s' name (ρ id) (r.map ρ) := by
  induction hf with
  | @here id hb =>
    refine .here ?_
    rw [h.bindings id hid (h.not_hollow_of_bound hb), Bindings.isSome_lookup_rename]
    exact hb
  | @nowhere id hb hp =>
    have hh := h.not_hollow_of_parent hp
    refine .nowhere ?_ ?_
    · rw [h.bindings id hid hh, Bindings.isSome_lookup_rename]
      exact hb
    · rw [h.parent id hid hh, hp]
      rfl
  | @outside id parent r hb hp _ ih =>
    have hparent := ih (hs.parent_live id parent hid hp)
    by_cases hh : hollow id
    · obtain ⟨parent', hp', he⟩ := h.hollow_parent id hh
      cases hp.symm.trans hp'
      exact he ▸ hparent
    · refine .outside ?_ ?_ hparent
      · rw [h.bindings id hid hh, Bindings.isSome_lookup_rename]
        exact hb
      · rw [h.parent id hid hh, hp]
        rfl

theorem owner (h : Folds hollow ρ s s') (hs : s.Tidy opened) (hid : s.Live id) (name : String) :
    s'.owner (ρ id) name = (s.owner id name).map ρ := by
  obtain ⟨l, hl⟩ := hs.rooted id hid
  obtain ⟨l', hl'⟩ := h.chain hs hl hid
  have hfinds := ownerWithin_finds hl name (hs.around_length hl hid)
  exact (hl'.finds name hl'.length_le).unique (h.finds hs hfinds hid)

theorem get (h : Folds hollow ρ s s') (hs : s.Tidy opened) (hid : s.Live id) (name : String) :
    s'.get (ρ id) name = (s.get id name).map (Value.rename ρ) := by
  simp only [Scopes.get, h.owner hs hid]
  cases ho : s.owner id name with
  | none => rfl
  | some owner =>
    have hh := h.not_hollow_of_bound (ownerWithin_binding ho)
    simp only [Option.map_some, h.bindings owner (hs.owner_live hid ho) hh, Bindings.lookup_rename]
    rcases (s.scope owner).bindings.lookup name with _ | _ | v <;> rfl

/-! ## Changing the store -/

theorem reshape {t t' : Scopes} (h : Folds hollow ρ s s') (hs : SameShape s t)
    (hs' : SameShape s' t') (hhollow : ∀ id, hollow id → (t.scope id).bindings = [])
    (hb : ∀ id, s.Live id → ¬ hollow id →
      (t'.scope (ρ id)).bindings = Bindings.rename ρ (t.scope id).bindings) :
    Folds hollow ρ t t' where
  recycles := hs'.recycles.trans h.recycles
  spare := hs'.spare.trans h.spare
  inside id hid := by
    rw [hs'.size]
    exact h.inside id ((hs.live_iff id).mp hid)
  injective i j hi hj := h.injective i j ((hs.live_iff i).mp hi) ((hs.live_iff j).mp hj)
  parent id hid := by
    rw [hs.parent, hs'.parent]
    exact h.parent id ((hs.live_iff id).mp hid)
  bindings id hid := hb id ((hs.live_iff id).mp hid)
  hollow_live id hid := (hs.live_iff id).mpr (h.hollow_live id hid)
  hollow_bindings := hhollow
  hollow_parent id hid := by
    rw [hs.parent]
    exact h.hollow_parent id hid

theorem capture (h : Folds hollow ρ s s') (id id' : ScopeId) :
    Folds hollow ρ (s.capture id) (s'.capture id') := by
  refine h.reshape (captureWithin_shape _ s id) (captureWithin_shape _ s' id') ?_ ?_
  · intro j hj
    rw [Scopes.capture, captureWithin_bindings]
    exact h.hollow_bindings j hj
  · intro j hj hh
    simp only [Scopes.capture, captureWithin_bindings, h.bindings j hj hh]

theorem rebind (h : Folds hollow ρ s s') (hid : s.Live id) (hh : ¬ hollow id)
    (f f' : Bindings → Bindings) (hf : Bindings.rename ρ (f (s.scope id).bindings) =
      f' (Bindings.rename ρ (s.scope id).bindings)) :
    Folds hollow ρ (s.modify id fun scope => { scope with bindings := f scope.bindings })
      (s'.modify (ρ id) fun scope => { scope with bindings := f' scope.bindings }) := by
  refine h.reshape (.modify s id _ rfl rfl) (.modify s' (ρ id) _ rfl rfl) ?_ ?_
  · intro j hj
    have hne : j ≠ id := by
      rintro rfl
      exact hh hj
    rw [scope_modify_ne _ hne]
    exact h.hollow_bindings j hj
  · intro j hj hhj
    by_cases e : j = id
    · subst e
      rw [scope_modify_self _ hj.1, scope_modify_self _ (h.inside j hj)]
      simp only [h.bindings j hj hhj, hf]
    · rw [scope_modify_ne _ e, scope_modify_ne _ fun e' => e (h.injective j id hj hid hhj hh e'),
        h.bindings j hj hhj]

theorem define (h : Folds hollow ρ s s') (hid : s.Live id) (hh : ¬ hollow id) (name : String)
    (value : Option Value) :
    (s'.define (ρ id) name (value.map (Value.rename ρ))).1 = (s.define id name value).1 ∧
      Folds hollow ρ (s.define id name value).2
        (s'.define (ρ id) name (value.map (Value.rename ρ))).2 := by
  unfold Scopes.define
  rw [h.bindings id hid hh, Bindings.isSome_lookup_rename]
  split
  · exact ⟨rfl, h⟩
  · exact ⟨rfl, h.rebind hid hh ((name, value) :: ·) ((name, value.map (Value.rename ρ)) :: ·) rfl⟩

theorem assign (h : Folds hollow ρ s s') (hs : s.Tidy opened) (hid : s.Live id) (name : String)
    (value : Value) :
    (s'.assign (ρ id) name (value.rename ρ)).1 = (s.assign id name value).1 ∧
      Folds hollow ρ (s.assign id name value).2 (s'.assign (ρ id) name (value.rename ρ)).2 := by
  unfold Scopes.assign
  rw [h.owner hs hid]
  cases ho : s.owner id name with
  | none => exact ⟨rfl, h⟩
  | some owner =>
    have hh := h.not_hollow_of_bound (ownerWithin_binding ho)
    exact ⟨rfl, h.rebind (hs.owner_live hid ho) hh (Bindings.set name value)
      (Bindings.set name (value.rename ρ)) (Bindings.set_rename ρ name value _)⟩

/-- Leaving a scope: if its slot is freed, it is not hollow any more. -/
theorem release (h : Folds hollow ρ s s') (hs : s.Tidy (id :: opened)) :
    Folds (fun j => hollow j ∧ (s.release id).Live j) ρ (s.release id) s' := by
  have hold : ∀ {j}, (s.release id).Live j → s.Live j := fun hj => ((hs.release_live _).mp hj).1
  have hsolid : ∀ {j}, (s.release id).Live j → ¬ (hollow j ∧ (s.release id).Live j) → ¬ hollow j :=
    fun hj hn hh => hn ⟨hh, hj⟩
  exact {
    recycles := h.recycles
    spare := h.spare
    inside := fun j hj => h.inside j (hold hj)
    injective := fun i j hi hj hni hnj =>
      h.injective i j (hold hi) (hold hj) (hsolid hi hni) (hsolid hj hnj)
    parent := fun j hj hn => by
      rw [release_parent]
      exact h.parent j (hold hj) (hsolid hj hn)
    bindings := fun j hj hn => by
      rw [hs.release_bindings hj]
      exact h.bindings j (hold hj) (hsolid hj hn)
    hollow_live := fun j hj => hj.2
    hollow_bindings := fun j hj => by
      rw [hs.release_bindings hj.2]
      exact h.hollow_bindings j hj.1
    hollow_parent := fun j hj => by
      rw [release_parent]
      exact h.hollow_parent j hj.1 }

/-- Leaving a scope that is not hollow. -/
theorem release_solid (h : Folds hollow ρ s s') (hs : s.Tidy (id :: opened)) (hid : ¬ hollow id) :
    Folds hollow ρ (s.release id) s' := by
  have hsame : (fun j => hollow j ∧ (s.release id).Live j) = hollow := by
    funext j
    refine propext ⟨And.left, fun hj => ⟨hj, ?_⟩⟩
    refine (hs.release_live j).mpr ⟨h.hollow_live j hj, ?_⟩
    rintro rfl
    exact absurd hj hid
  exact hsame ▸ h.release hs

/-! ## New scopes -/

section
variable {t t' : Scopes} {ρ' : ScopeId → ScopeId} (h : Folds hollow ρ s s') (hs : s.Sound opened)
  (hρ : ∀ j, s.Live j → ρ' j = ρ j) (ht : ∀ j, s.Live j → t.scope j = s.scope j)
  (hid : s.Live id)
include h hs hρ ht hid

/-- A solid scope that was in use stays as it was. -/
theorem solid_kept (ht' : t'.scope (ρ id) = s'.scope (ρ id)) (hh : ¬ hollow id) :
    (t'.scope (ρ' id)).parent = (t.scope id).parent.map ρ' ∧
      (t'.scope (ρ' id)).bindings = Bindings.rename ρ' (t.scope id).bindings := by
  rw [hρ id hid, ht', ht id hid, h.parent id hid hh, h.bindings id hid hh, hs.rename_bindings hρ]
  refine ⟨?_, rfl⟩
  cases hq : (s.scope id).parent with
  | none => rfl
  | some q => simp [hρ q (hs.tidy.parent_live id q hid hq)]

/-- So does a hollow one. -/
theorem hollow_kept (hh : hollow id) : (t.scope id).bindings = [] ∧
    ∃ parent, (t.scope id).parent = some parent ∧ ρ' id = ρ' parent := by
  obtain ⟨q, hq, he⟩ := h.hollow_parent id hh
  rw [ht id hid, hρ id hid, he]
  exact ⟨h.hollow_bindings id hh, q, hq, (hρ q (hs.tidy.parent_live id q hid hq)).symm⟩

end

section
variable {parent : ScopeId} (h : Folds hollow ρ s s') (hs : s.Sound opened) (hp : s.Live parent)
include h hs hp

/-- A new scope in both stores. -/
theorem push : Folds hollow (Function.update ρ (s.push parent).1 ⟨s'.slots.size⟩)
    (s.push parent).2 (s'.push (ρ parent)).2 := by
  have hpush := push_pushed s parent hs.tidy.spare_inside
  have hpush' := push_pushed s' (ρ parent) (by simp [h.spare])
  have hdead := push_not_live s parent hs.tidy.spare_free
  have hnew : (s'.push (ρ parent)).1 = ⟨s'.slots.size⟩ := by simp [Scopes.push, h.spare]
  have hspare := spare_push s' (ρ parent)
  rw [hnew] at hpush'
  generalize (s.push parent).1 = new at *
  generalize (s.push parent).2 = t at *
  generalize (s'.push (ρ parent)).2 = t' at *
  have hne : ∀ j, s.Live j → j ≠ new := fun j hj e => hdead (e ▸ hj)
  have hold : ∀ j, s.Live j → Function.update ρ new ⟨s'.slots.size⟩ j = ρ j :=
    fun j hj => Function.update_of_ne (hne j hj) _ _
  have hfresh : ∀ j, s.Live j → ρ j ≠ ⟨s'.slots.size⟩ := by
    intro j hj e
    have hlt := h.inside j hj
    rw [e] at hlt
    exact Nat.lt_irrefl _ hlt
  have hother : ∀ j, s.Live j → t.scope j = s.scope j := fun j hj => hpush.other j (hne j hj)
  have hsolid := fun j hj => h.solid_kept hs hold hother hj (hpush'.other _ (hfresh j hj))
  have hhollow := fun j hj => h.hollow_kept hs hold hother (h.hollow_live j hj) hj
  exact {
    recycles := hpush'.recycles.trans h.recycles
    spare := by
      rw [hspare, h.spare]
      rfl
    inside := by
      intro j hj
      rcases hpush.live_iff.mp hj with rfl | hj
      · rw [Function.update_self]
        exact hpush'.inside
      · rw [hold j hj]
        exact Nat.lt_of_lt_of_le (h.inside j hj) hpush'.grows
    injective := by
      intro i j hi hj hhi hhj e
      rcases hpush.live_iff.mp hi with rfl | hi <;> rcases hpush.live_iff.mp hj with rfl | hj
      · rfl
      · rw [Function.update_self, hold j hj] at e
        exact absurd e.symm (hfresh j hj)
      · rw [Function.update_self, hold i hi] at e
        exact absurd e (hfresh i hi)
      · rw [hold i hi, hold j hj] at e
        exact h.injective i j hi hj hhi hhj e
    parent := by
      intro j hj hh
      rcases hpush.live_iff.mp hj with rfl | hj
      · rw [Function.update_self, hpush'.fresh, hpush.fresh]
        simp [hold parent hp]
      · exact (hsolid j hj hh).1
    bindings := by
      intro j hj hh
      rcases hpush.live_iff.mp hj with rfl | hj
      · rw [Function.update_self, hpush'.fresh, hpush.fresh]
        rfl
      · exact (hsolid j hj hh).2
    hollow_live := fun j hj => hpush.live_iff.mpr (.inr (h.hollow_live j hj))
    hollow_bindings := fun j hj => (hhollow j hj).1
    hollow_parent := fun j hj => (hhollow j hj).2 }

/-- A new scope in the first store only: it is hollow. -/
theorem pushHollow : Folds (fun j => j = (s.push parent).1 ∨ hollow j)
    (Function.update ρ (s.push parent).1 (ρ parent)) (s.push parent).2 s' := by
  have hpush := push_pushed s parent hs.tidy.spare_inside
  have hdead := push_not_live s parent hs.tidy.spare_free
  generalize (s.push parent).1 = new at *
  generalize (s.push parent).2 = t at *
  have hne : ∀ j, s.Live j → j ≠ new := fun j hj e => hdead (e ▸ hj)
  have hold : ∀ j, s.Live j → Function.update ρ new (ρ parent) j = ρ j :=
    fun j hj => Function.update_of_ne (hne j hj) _ _
  have hother : ∀ j, s.Live j → t.scope j = s.scope j := fun j hj => hpush.other j (hne j hj)
  have hsolid : ∀ {j}, t.Live j → ¬ (j = new ∨ hollow j) → s.Live j ∧ ¬ hollow j := by
    intro j hj hn
    rw [not_or] at hn
    exact ⟨(hpush.live_iff.mp hj).resolve_left hn.1, hn.2⟩
  exact {
    recycles := h.recycles
    spare := h.spare
    inside := by
      intro j hj
      rcases hpush.live_iff.mp hj with rfl | hj
      · rw [Function.update_self]
        exact h.inside parent hp
      · rw [hold j hj]
        exact h.inside j hj
    injective := by
      intro i j hi hj hni hnj e
      obtain ⟨hi, hhi⟩ := hsolid hi hni
      obtain ⟨hj, hhj⟩ := hsolid hj hnj
      rw [hold i hi, hold j hj] at e
      exact h.injective i j hi hj hhi hhj e
    parent := by
      intro j hj hn
      obtain ⟨hj, hh⟩ := hsolid hj hn
      exact (h.solid_kept hs hold hother hj rfl hh).1
    bindings := by
      intro j hj hn
      obtain ⟨hj, hh⟩ := hsolid hj hn
      exact (h.solid_kept hs hold hother hj rfl hh).2
    hollow_live := by
      rintro j (rfl | hj)
      · exact hpush.live_iff.mpr (.inl rfl)
      · exact hpush.live_iff.mpr (.inr (h.hollow_live j hj))
    hollow_bindings := by
      rintro j (rfl | hj)
      · rw [hpush.fresh]
      · exact (h.hollow_kept hs hold hother (h.hollow_live j hj) hj).1
    hollow_parent := by
      rintro j (rfl | hj)
      · refine ⟨parent, by rw [hpush.fresh], ?_⟩
        rw [Function.update_self, hold parent hp]
      · exact (h.hollow_kept hs hold hother (h.hollow_live j hj) hj).2 }

end

/-- Names may be bound in all scopes but the hollow ones, and all but these may be left. -/
theorem imitation (hollow : ScopeId → Prop) : Imitation (Folds hollow) fun id => ¬ hollow id where
  fresh h hdead hid := hdead (h.hollow_live _ hid)
  get h hs hid name := h.get hs.tidy hid name
  define h _ hid hh name value := h.define hid hh name value
  assign h hs hid name value := h.assign hs.tidy hid name value
  capture id h := h.capture id _
  push {ρ s s' opened parent} h hs hp := by
    have hnew : (s'.push (ρ parent)).1 = ⟨s'.slots.size⟩ := by simp [Scopes.push, h.spare]
    refine ⟨_, h.push hs hp, ?_, ?_⟩
    · rw [Function.update_self, hnew]
    · intro id hid
      refine Function.update_of_ne ?_ _ _
      rintro rfl
      exact push_not_live s parent hs.tidy.spare_free hid
  release {ρ s s' opened id} h hs hh := by
    rw [release_eq (s := s') (.inl h.recycles)]
    exact h.release_solid hs.tidy hh

end Folds

/-- A store that stops to recycle stands in for itself, with nothing left out. -/
theorem Folds.self (s : Scopes) :
    Folds (fun _ => False) id s { s with spare := [], recycles := false } where
  recycles := rfl
  spare := rfl
  inside _ hid := hid.1
  injective _ _ _ _ _ _ e := e
  parent j _ _ := by
    rw [Option.map_id]
    rfl
  bindings j _ _ := by
    rw [Bindings.rename_id]
    rfl
  hollow_live _ := False.elim
  hollow_bindings _ := False.elim
  hollow_parent _ := False.elim

end Scopes

end Script
