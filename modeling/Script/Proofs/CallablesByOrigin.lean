import Script.Proofs.HandedOn

/-!
# Callables are equal by origin

A callable comes into being when a declaration is executed, or with the world, and
from then on it is handed on as it is. The number it gets is above that of every
callable that exists, so each callable that exists has one origin, and two are equal
just if they have the same one.
-/

namespace Script

namespace State

/-! ## Runs -/

/-- A run from the beginning: a new world, and one move after the other. Every state that is reached
is one of a run, for a machine that has nothing to do can always make the step that changes nothing. -/
structure Run (s : Nat → State) : Prop where
  start : ∃ sink input clock, s 0 = fresh sink input clock
  move : ∀ n, Move (s n) (s (n + 1))

theorem Idle.makes {s : State} (h : s.Idle) : s.makes = none := by
  obtain ⟨o, ho, -⟩ := h
  obtain ⟨c, k, w⟩ := s
  cases c <;> first | rfl | cases ho

namespace Move

variable {s t : State} (h : Move s t)
include h

theorem holds {v : Value} (hv : v.isCallable = true) (ht : t.Holds v) :
    s.Holds v ∨ s.makes = some v := by
  cases h with
  | step => exact step_holds hv ht
  | exec | eval =>
    rcases ht with ht | ⟨f, hf, -⟩ | ht
    · cases ht
    · cases hf
    · exact .inl (.inr (.inr ht))

theorem fresh_eq : t.world.fresh = if s.makes.isSome then s.world.fresh + 1 else s.world.fresh := by
  cases h with
  | step => exact step_fresh s
  | exec hi | eval hi => simp [hi.makes]

end Move

namespace Run

variable {s : Nat → State} (hs : Run s)
include hs

theorem reaches (n : Nat) : ∃ sink input clock, Reaches (fresh sink input clock) (s n) := by
  obtain ⟨sink, input, clock, h⟩ := hs.start
  refine ⟨sink, input, clock, ?_⟩
  induction n with
  | zero => exact h ▸ .refl
  | succ n ih => exact ih.tail (hs.move n)

theorem sound (n : Nat) : (s n).Sound := by
  obtain ⟨sink, input, clock, h⟩ := hs.reaches n
  exact (h.follows (fresh_idle sink input clock).fitting (fresh_sound sink input clock)).2.toSound

theorem fresh_mono {i j : Nat} (h : i ≤ j) : (s i).world.fresh ≤ (s j).world.fresh := by
  induction h with
  | refl => exact Nat.le_refl _
  | step _ ih =>
    refine Nat.le_trans ih ?_
    rw [(hs.move _).fresh_eq]
    split <;> omega

theorem library_le (n : Nat) : Native.library.length ≤ (s n).world.fresh := by
  obtain ⟨sink, input, clock, h⟩ := hs.start
  have hmono := hs.fresh_mono (Nat.zero_le n)
  rw [h] at hmono
  exact hmono

theorem fresh_lt {i j : Nat} (h : i < j) {v : Value} (hv : (s i).makes = some v) :
    (s i).world.fresh < (s j).world.fresh := by
  have hnext := (hs.move i).fresh_eq
  have hmono : (s (i + 1)).world.fresh ≤ (s j).world.fresh := hs.fresh_mono h
  simp only [hv, Option.isSome_some, if_true] at hnext
  omega

end Run

/-! ## Origins -/

/-- Where a callable comes from: it is there from the start, bound to a name, or a declaration was
executed at some moment. -/
inductive Origin where
  | registered (name : String)
  | executed (moment : Nat)
deriving DecidableEq

/-- In a run, up to the moment `n`: the value is what was made at the origin, and it has existed ever
since. -/
def Stems (s : Nat → State) (n : Nat) (v : Value) : Origin → Prop
  | .registered name => Scopes.initial.get .global name = .ok v ∧ ∀ j ≤ n, (s j).Holds v
  | .executed i => i < n ∧ (s i).makes = some v ∧ ∀ j, i < j → j ≤ n → (s j).Holds v

theorem initial_bindings : (Scopes.initial.scope .global).bindings =
    (Native.library.zipIdx.map fun (f, i) => (f.name, some (.callable i (.native f)))).reverse := rfl

theorem mem_initial {id : ScopeId} {name : String} {v : Value}
    (h : (name, some v) ∈ (Scopes.initial.scope id).bindings) :
    ∃ i f, Native.library[i]? = some f ∧ f.name = name ∧ v = .callable i (.native f) := by
  have hid : id = .global := by
    by_contra hne
    have hslot : id.slot ≠ 0 := ScopeId.slot_ne hne
    have hsize : Scopes.initial.slots.size ≤ id.slot := Nat.one_le_iff_ne_zero.mpr hslot
    rw [Scopes.scope_out hsize] at h
    cases h
  subst hid
  rw [initial_bindings, List.mem_reverse, List.mem_map] at h
  obtain ⟨⟨f, i⟩, hm, he⟩ := h
  cases he
  exact ⟨i, f, by simpa using List.mem_zipIdx_iff_getElem?.mp hm, rfl, rfl⟩

theorem initial_get {i : Nat} {f : Native} (h : Native.library[i]? = some f) :
    Scopes.initial.get .global f.name = .ok (.callable i (.native f)) := by
  rcases i with _ | _ | _ | _ | _ | i
  all_goals cases h
  all_goals rfl

/-- What is there from the start is numbered as the library lists it. -/
theorem numbered_of_initial {name : String} {v : Value}
    (h : Scopes.initial.get .global name = .ok v) :
    ∃ i f, Native.library[i]? = some f ∧ f.name = name ∧ v = .callable i (.native f) := by
  obtain ⟨owner, hm⟩ := Scopes.mem_of_get h
  exact mem_initial hm

theorem numbered_of_makes {s : State} {v : Value} (h : s.makes = some v) :
    ∃ c, v = .callable s.world.fresh c := by
  obtain ⟨c, k, w⟩ := s
  cases c with
  | exec stmt =>
    cases stmt with
    | func name params body =>
      cases h
      exact ⟨_, rfl⟩
    | _ => cases h
  | _ => cases h

theorem Stems.next {s : Nat → State} {n : Nat} {v : Value} {o : Origin} (h : Stems s n v o)
    (hv : (s (n + 1)).Holds v) : Stems s (n + 1) v o := by
  cases o with
  | registered name =>
    refine ⟨h.1, fun j hj => ?_⟩
    rcases Nat.le_succ_iff.mp hj with hj | rfl
    · exact h.2 j hj
    · exact hv
  | executed i =>
    refine ⟨Nat.lt_succ_of_lt h.1, h.2.1, fun j hi hj => ?_⟩
    rcases Nat.le_succ_iff.mp hj with hj | rfl
    · exact h.2.2 j hi hj
    · exact hv

theorem Stems.value_unique {s : Nat → State} {n : Nat} {v u : Value} {o : Origin}
    (hv : Stems s n v o) (hu : Stems s n u o) : v = u := by
  cases o with
  | registered name => exact Except.ok.inj (hv.1.symm.trans hu.1)
  | executed i => exact Option.some.inj (hv.2.1.symm.trans hu.2.1)

namespace Run

variable {s : Nat → State} (hs : Run s)
include hs

theorem stems {n : Nat} {v : Value} (hv : v.isCallable = true) (h : (s n).Holds v) :
    ∃ o, Stems s n v o := by
  -- what exists now existed a moment ago, with an origin, or was made just then
  induction n with
  | zero =>
    obtain ⟨sink, input, clock, hstart⟩ := hs.start
    have hbound : ∃ id name, (name, some v) ∈ (Scopes.initial.scope id).bindings := by
      rw [hstart] at h
      rcases h with h | ⟨f, hf, -⟩ | h
      · cases h
      · cases hf
      · exact h
    obtain ⟨id, name, hm⟩ := hbound
    obtain ⟨i, f, hf, -, rfl⟩ := mem_initial hm
    refine ⟨.registered f.name, initial_get hf, fun j hj => ?_⟩
    rw [Nat.le_zero.mp hj]
    exact h
  | succ n ih =>
    rcases (hs.move n).holds hv h with hheld | hmade
    · obtain ⟨o, ho⟩ := ih hheld
      exact ⟨o, ho.next h⟩
    · refine ⟨.executed n, Nat.lt_succ_self n, hmade, fun j hi hj => ?_⟩
      rw [Nat.le_antisymm hj hi]
      exact h

/-- Callables are numbered in the order of their origins. -/
theorem number_lt {n : Nat} {v : Value} {o : Origin} (h : Stems s n v o) :
    ∃ i c, v = .callable i c ∧ i < (s n).world.fresh := by
  cases o with
  | registered name =>
    obtain ⟨i, f, hf, -, rfl⟩ := numbered_of_initial h.1
    have hi : i < Native.library.length := (List.getElem?_eq_some_iff.mp hf).1
    exact ⟨i, .native f, rfl, Nat.lt_of_lt_of_le hi (hs.library_le n)⟩
  | executed i =>
    obtain ⟨c, rfl⟩ := numbered_of_makes h.2.1
    exact ⟨_, c, rfl, hs.fresh_lt h.1 h.2.1⟩

theorem origin_unique {n i : Nat} {c d : Callable} {o p : Origin}
    (hv : Stems s n (.callable i c) o) (hu : Stems s n (.callable i d) p) : o = p := by
  have hmade : ∀ {j e}, (s j).makes = some (.callable i e) → i = (s j).world.fresh := by
    intro j e hm
    obtain ⟨_, he⟩ := numbered_of_makes hm
    exact (Value.callable.inj he).1
  have hlibrary : ∀ {name e}, Scopes.initial.get .global name = .ok (.callable i e) →
      ∃ f, Native.library[i]? = some f ∧ f.name = name := by
    intro name e hg
    obtain ⟨_, f, hf, hname, he⟩ := numbered_of_initial hg
    cases he
    exact ⟨f, hf, hname⟩
  have happart : ∀ {j f}, Native.library[i]? = some f → i = (s j).world.fresh → False := by
    intro j f hf hi
    have hlt := (List.getElem?_eq_some_iff.mp hf).1
    have hle := hs.library_le j
    omega
  cases o with
  | registered name =>
    obtain ⟨f, hf, rfl⟩ := hlibrary hv.1
    cases p with
    | registered name' =>
      obtain ⟨g, hg, rfl⟩ := hlibrary hu.1
      rw [hf] at hg
      cases hg
      rfl
    | executed m => exact (happart hf (hmade hu.2.1)).elim
  | executed j =>
    cases p with
    | registered name =>
      obtain ⟨f, hf, -⟩ := hlibrary hu.1
      exact (happart hf (hmade hv.2.1)).elim
    | executed m =>
      -- of two moments the later one has the larger number
      have hsame : (s j).world.fresh = (s m).world.fresh := (hmade hv.2.1).symm.trans (hmade hu.2.1)
      rcases Nat.lt_trichotomy j m with hlt | rfl | hlt
      · exact absurd hsame (hs.fresh_lt hlt hv.2.1).ne
      · rfl
      · exact absurd hsame (hs.fresh_lt hlt hu.2.1).ne'

theorem equals_iff {n : Nat} {v u : Value} {o p : Origin} (hv : Stems s n v o)
    (hu : Stems s n u p) : v.equals u = true ↔ o = p := by
  obtain ⟨i, c, rfl, -⟩ := hs.number_lt hv
  obtain ⟨j, d, rfl, -⟩ := hs.number_lt hu
  have hnumber : (Value.callable i c).equals (.callable j d) = true ↔ i = j := by
    simp [Value.equals]
  rw [hnumber]
  constructor
  · rintro rfl
    exact hs.origin_unique hv hu
  · rintro rfl
    cases hv.value_unique hu
    rfl

theorem makes_new {n : Nat} {v u : Value} (hv : (s n).makes = some v) (hu : (s n).Holds u) :
    v.equals u = false ∧ u.equals v = false := by
  obtain ⟨c, rfl⟩ := numbered_of_makes hv
  cases u with
  | nil | bool | number | text => exact ⟨rfl, rfl⟩
  | callable j d =>
    obtain ⟨o, ho⟩ := hs.stems rfl hu
    obtain ⟨j', d', he, hlt⟩ := hs.number_lt ho
    cases he
    simp [Value.equals]
    omega

end Run

/-! ## Moments of a run -/

/-- What a move does with values: all callables that are there afterwards were there before, or one
of them was made just now; what is stored or passed is found again, if there is no error; and what is
on its way back stays what it is. -/
structure HandsOn (s t : State) : Prop where
  held : ∀ v, t.Holds v → v.isCallable = true → s.Holds v ∨ s.makes = some v
  stored : (∃ e, t.control = .raise e) ∨ ∀ p ∈ s.stores, t.world.lookup p.1 = .ok p.2
  returned : ∀ v, s.control = .flow (.returned v) → s.frames ≠ [] → t.control.values = [v]

theorem Idle.stores {s : State} (h : s.Idle) : s.stores = [] := by
  have hk := h.frames
  obtain ⟨o, ho, -⟩ := h
  obtain ⟨c, k, w⟩ := s
  cases hk
  cases c with
  | exec | eval => cases ho
  | _ => rfl

theorem Move.handsOn {s t : State} (h : Move s t) (hs : s.Sound) : HandsOn s t where
  held v ht hv := h.holds hv ht
  stored := by
    cases h with
    | step => exact step_stores hs
    | exec hi | eval hi =>
      rw [hi.stores]
      exact .inr (by simp)
  returned v hv hk := by
    cases h with
    | step => exact step_returned hv hk
    | exec hi | eval hi => exact absurd hi.frames hk

/-- At every moment of every run: each callable that exists has one origin, two are equal just if
they have the same one, what a declaration makes is equal to nothing that exists, and values are
handed on as they are. -/
theorem callables_equal_by_origin {s : Nat → State} (hs : Run s) (n : Nat) :
    (∀ v, (s n).Holds v → v.isCallable = true → ∃! o, Stems s n v o) ∧
    (∀ v u o p, Stems s n v o → Stems s n u p → (v.equals u = true ↔ o = p)) ∧
    (∀ v u, (s n).makes = some v → (s n).Holds u → v.equals u = false ∧ u.equals v = false) ∧
    HandsOn (s n) (s (n + 1)) := by
  refine ⟨fun v h hv => ?_, fun v u o p => hs.equals_iff, fun v u => hs.makes_new,
    (hs.move n).handsOn (hs.sound n)⟩
  obtain ⟨o, ho⟩ := hs.stems hv h
  refine ⟨o, ho, fun p hp => ?_⟩
  obtain ⟨i, c, rfl, -⟩ := hs.number_lt ho
  exact hs.origin_unique hp ho

/-- One declaration, executed at the top and then once more inside of a block. -/
def declaredTwice : Nat → State
  | 0 => fresh {} {} fun _ => 0
  | 1 => ⟨.exec (.func ⟨.name, "f", none, .start⟩ [] []), [], (declaredTwice 0).world⟩
  | 2 => (declaredTwice 1).step
  | 3 => ⟨.exec (.block [.func ⟨.name, "f", none, .start⟩ [] []]), [], (declaredTwice 2).world⟩
  | n + 4 => (declaredTwice (n + 3)).step

theorem callables_equal_by_origin_declaredTwice :
    let f (scope : ScopeId) : Callable := .function ⟨.name, "f", none, .start⟩ [] [] scope
    Run declaredTwice ∧ (declaredTwice 1).makes = some (.callable 5 (f .global)) ∧
      (declaredTwice 5).Holds (.callable 5 (f .global)) ∧
      (declaredTwice 5).makes = some (.callable 6 (f ⟨1⟩)) ∧
      (Value.callable 6 (f ⟨1⟩)).equals (.callable 5 (f .global)) = false ∧
      (declaredTwice 6).world.lookup ⟨.name, "f", none, .start⟩ = .ok (.callable 6 (f ⟨1⟩)) := by
  intro f
  have hrun : Run declaredTwice := by
    refine ⟨⟨_, _, _, rfl⟩, fun n => ?_⟩
    match n with
    | 0 => exact .exec (fresh_idle ..) _
    | 1 => exact .step _
    | 2 => exact .exec ⟨.flow .normal, rfl, by simp⟩ _
    | n + 3 => exact .step _
  have hheld : (declaredTwice 5).Holds (.callable 5 (f .global)) :=
    .inr (.inr ⟨.global, "f", .head _⟩)
  obtain ⟨-, -, hnew, hhands⟩ := callables_equal_by_origin hrun 5
  refine ⟨hrun, rfl, hheld, rfl, (hnew _ _ rfl hheld).1, ?_⟩
  rcases hhands.stored with ⟨e, he⟩ | hfound
  · cases he
  · exact hfound _ (.head _)

end State

end Script
