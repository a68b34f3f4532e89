import Script.Proofs.HollowScopes
import Script.Proofs.TameStatements

/-!
# A loop with clauses is the loop it stands for

The increment of a loop may as well be the last statement of its body, if the body does not repeat
the loop. The body is then a block, so there is one more scope in each round. Nothing is ever bound in
it, and yet functions may keep it. The two loops are run side by side: each round of the one is a
round of the other, with the hollow scope left out.
-/

namespace Script

namespace State

open Scopes

/-! ## Two runs that keep pace -/

/-- A run of the machine comes to this end. -/
def Ends (s : State) (r : Outcome × World) : Prop := ∃ n, run n s = some r

def ended? (s : State) : Option (Outcome × World) := s.outcome?.map fun o => (o, s.world)

theorem ended?_iff {s : State} {r : Outcome × World} :
    s.ended? = some r ↔ s.outcome? = some r.1 ∧ s.world = r.2 := by
  simp [ended?, Prod.ext_iff]

theorem run_of_ended {s : State} {r : Outcome × World} {m : Nat}
    (h : (step^[m] s).ended? = some r) : run (m + 1) s = some r := by
  induction m generalizing s with
  | zero =>
    obtain ⟨ho, hw⟩ := ended?_iff.mp h
    rw [Function.iterate_zero_apply] at ho hw
    simp [run, ho, hw]
  | succ m ih =>
    cases ho : s.outcome? with
    | none =>
      rw [run, ho]
      exact ih h
    | some o =>
      have hsame : step^[m + 1] s = s := iterate_ended (m := 0) ho (Nat.zero_le _)
      obtain ⟨ho', hw⟩ := ended?_iff.mp (hsame ▸ h)
      simp [run, ho', hw]

theorem ends_iff {s : State} {r : Outcome × World} :
    s.Ends r ↔ ∃ m, (step^[m] s).ended? = some r := by
  constructor
  · rintro ⟨n, hn⟩
    obtain ⟨m, ho, hw⟩ := run_iterate hn
    exact ⟨m, ended?_iff.mpr ⟨ho, hw⟩⟩
  · rintro ⟨m, hm⟩
    exact ⟨m + 1, run_of_ended hm⟩

theorem iterate_ended? {s : State} {r : Outcome × World} {m n : Nat}
    (h : (step^[m] s).ended? = some r) (hn : m ≤ n) : (step^[n] s).ended? = some r := by
  rw [iterate_ended (ended?_iff.mp h).1 hn, h]

theorem ended?_unique {s : State} {r r' : Outcome × World} {m n : Nat}
    (h : (step^[m] s).ended? = some r) (h' : (step^[n] s).ended? = some r') : r = r' := by
  rcases Nat.le_total m n with hle | hle
  · exact Option.some.inj ((iterate_ended? h hle).symm.trans h')
  · exact Option.some.inj (h.symm.trans (iterate_ended? h' hle))

/-- Related machines end together, and while the second one takes a step the first one takes at least
one. -/
structure KeepPace (P : State → State → Prop)
    (Q : Outcome × World → Outcome × World → Prop) : Prop where
  ended : ∀ {s t}, P s t → Option.Rel Q s.ended? t.ended?
  goes : ∀ {s t}, P s t → t.ended? = none → ∃ n, P (step^[n + 1] s) t.step

namespace KeepPace

variable {P : State → State → Prop} {Q : Outcome × World → Outcome × World → Prop} {s t : State}
  {r : Outcome × World} (hP : KeepPace P Q)
include hP

theorem iterate (h : P s t) (m : Nat) :
    ∃ n, P (step^[n] s) (step^[m] t) ∧ ((step^[m] t).ended? = none → m ≤ n) := by
  induction m with
  | zero => exact ⟨0, h, fun _ => Nat.le_refl 0⟩
  | succ m ih =>
    obtain ⟨n, hn, hle⟩ := ih
    rw [Function.iterate_succ_apply']
    cases ht : (step^[m] t).ended? with
    | some r =>
      have hsame : (step^[m] t).step = step^[m] t := step_ended (ended?_iff.mp ht).1
      rw [hsame]
      exact ⟨n, hn, fun hnone => by simp [ht] at hnone⟩
    | none =>
      obtain ⟨i, hi⟩ := hP.goes hn ht
      rw [← Function.iterate_add_apply] at hi
      have := hle ht
      exact ⟨i + 1 + n, hi, fun _ => by omega⟩

theorem forth (h : P s t) (hs : s.Ends r) : ∃ r', t.Ends r' ∧ Q r r' := by
  obtain ⟨m, hm⟩ := ends_iff.mp hs
  obtain ⟨n, hn, hle⟩ := hP.iterate h m
  have hrel := hP.ended hn
  cases ht : (step^[m] t).ended? with
  | none =>
    -- then `s` has made at least `m` steps and has ended, so `t` has as well
    rw [ht, iterate_ended? hm (hle ht)] at hrel
    cases hrel
  | some r' =>
    rw [ht] at hrel
    generalize hs' : (step^[n] s).ended? = r₀ at hrel
    cases hrel with
    | some hQ =>
      cases ended?_unique hm hs'
      exact ⟨r', ends_iff.mpr ⟨m, ht⟩, hQ⟩

theorem back (h : P s t) (ht : t.Ends r) : ∃ r', s.Ends r' ∧ Q r' r := by
  obtain ⟨m, hm⟩ := ends_iff.mp ht
  obtain ⟨n, hn, -⟩ := hP.iterate h m
  have hrel := hP.ended hn
  rw [hm] at hrel
  generalize hs : (step^[n] s).ended? = r₀ at hrel
  cases hrel with
  | some hQ => exact ⟨_, ends_iff.mpr ⟨n, hs⟩, hQ⟩

end KeepPace

/-! ## Parts of a loop -/

/-- The loop with clauses. -/
def clauseLoop (c inc : Expr) (b : Stmt) : Loop := ⟨c, some inc, b⟩

/-- The same loop with the increment at the end of its body. -/
def plainLoop (c inc : Expr) (b : Stmt) : Loop := ⟨c, none, .block [b, .expr inc]⟩

/-- What a loop is at: its condition, its body, or its increment. In the plain loop the last two are
in a scope of the block. -/
inductive Phase where
  | testing
  | body (left back : ScopeId)
  | stepping (left back : ScopeId)

namespace Phase

/-- The frames of the plain loop. -/
def plain (c inc : Expr) (b : Stmt) : Phase → List Frame
  | testing => [.test (plainLoop c inc b)]
  | body left back => [.sequence [.expr inc], .leave left back, .round (plainLoop c inc b)]
  | stepping left back =>
    [.discard, .sequence [], .leave left back, .round (plainLoop c inc b)]

/-- The frames of the loop with clauses. -/
def clauses (c inc : Expr) (b : Stmt) : Phase → List Frame
  | testing => [.test (clauseLoop c inc b)]
  | body _ _ => [.round (clauseLoop c inc b)]
  | stepping _ _ => [.stepped (clauseLoop c inc b)]

/-- The scope of the block is hollow. -/
def Hollow (hollow : ScopeId → Prop) (ρ : ScopeId → ScopeId) : Phase → Prop
  | testing => True
  | body left back | stepping left back => hollow left ∧ ρ left = ρ back

end Phase

/-- A part of the plain loop is run, which is tame, above the frames `fs` of the loop, the frames
`j` of what follows it, and the frames `k` of what is left for later. -/
structure Within (hollow : ScopeId → Prop) (ρ : ScopeId → ScopeId) (s' : Scopes)
    (fs j k : List Frame) (s : State) : Prop where
  folds : Folds hollow ρ s.world.scopes s'
  above : s.Above (fs ++ (j ++ k))
  tame : s.Tame
  opened : ∀ id ∈ Frame.opened s.frames, ¬ hollow id
  below : ∀ id ∈ Frame.opened (j ++ k), ¬ hollow id

/-- The states of the two loops side by side, the first of them that of the plain loop. When the loop
is over they take the same steps. -/
inductive Paired (c inc : Expr) (b : Stmt) (j k : List Frame) : State → State → Prop
  | within (phase : Phase) {hollow : ScopeId → Prop} {ρ : ScopeId → ScopeId} {s' : Scopes}
      {s : State} (h : Within hollow ρ s' (phase.plain c inc b) j k s) (hp : phase.Hollow hollow ρ) :
      Paired c inc b j k (s.onto (phase.plain c inc b ++ j))
        ((s.mirror ρ s').onto (phase.clauses c inc b ++ j.map (Frame.rename ρ)))
  | done {hollow : ScopeId → Prop} {ρ : ScopeId → ScopeId} {s' : Scopes} {s : State}
      (h : Folds hollow ρ s.world.scopes s') (hr : s.Ready (fun id => ¬ hollow id) k) :
      Paired c inc b j k s (s.mirror ρ s')

theorem above_onto {s : State} {fs k : List Frame} : (s.onto fs).Above k ↔ s.Above (fs ++ k) := by
  have he : (s.onto fs).onto k = s.onto (fs ++ k) := by simp [onto]
  constructor
  · rintro ⟨hf, hs⟩
    exact ⟨he ▸ hf, he ▸ hs⟩
  · rintro ⟨hf, hs⟩
    exact ⟨he ▸ hf, he ▸ hs⟩

section
variable {hollow : ScopeId → Prop} {ρ : ScopeId → ScopeId} {s' : Scopes} {fs j k : List Frame}
  {s : State}

theorem Within.whole (h : Within hollow ρ s' fs j k s) : (s.onto (fs ++ j)).Above k := by
  rw [above_onto, List.append_assoc]
  exact h.above

theorem Within.start {control : Control} {w : World} (hf : Folds hollow ρ w.scopes s')
    (ha : (⟨control, fs ++ j, w⟩ : State).Above k) (hc : control.Tame false false)
    (hbelow : ∀ id ∈ Frame.opened (j ++ k), ¬ hollow id) :
    Within hollow ρ s' fs j k ⟨control, [], w⟩ where
  folds := hf
  above := by
    rw [← List.append_assoc]
    exact above_onto.mp ha
  tame := ⟨hc, trivial⟩
  opened := by simp [Frame.opened]
  below := hbelow

theorem Within.next (h : Within hollow ρ s' fs j k s) :
    ∃ ρ' t', Within hollow ρ' t' fs j k s.step ∧ (s.mirror ρ s').step = s.step.mirror ρ' t' ∧
      ∀ id, s.world.scopes.Live id → ρ' id = ρ id := by
  have hI := Folds.imitation hollow
  obtain ⟨ρ', t', ht, he, hρ⟩ := h.above.imitated hI h.folds fun id hid =>
    h.opened id (h.tame.touches h.above id hid)
  exact ⟨ρ', t', ⟨ht, h.above.next.1, step_tame h.tame, h.above.opened_next hI h.folds h.opened,
    h.below⟩, he, hρ⟩

theorem Within.names {ρ' : ScopeId → ScopeId} (h : Within hollow ρ s' fs j k s)
    (hρ : ∀ id, s.world.scopes.Live id → ρ' id = ρ id) :
    j.map (Frame.rename ρ') = j.map (Frame.rename ρ) := by
  have hall := List.map_inj_left.mp (h.above.sound.world.frames_congr hρ)
  exact List.map_congr_left fun f hf => hall f (by simp [onto, hf])

end

/-! ## The two loops keep pace -/

section
variable {c inc : Expr} {b : Stmt} {hollow : ScopeId → Prop} {ρ : ScopeId → ScopeId} {s' : Scopes}
  {j k : List Frame} {w : World}

theorem Paired.leave {control : Control} (ha : (⟨control, j, w⟩ : State).Above k)
    (hf : Folds hollow ρ w.scopes s') (hbelow : ∀ id ∈ Frame.opened (j ++ k), ¬ hollow id) :
    Paired c inc b j k ⟨control, j, w⟩
      ⟨control.rename ρ, j.map (Frame.rename ρ), w.mirror ρ s'⟩ := by
  rw [Frame.opened_append] at hbelow
  refine .done hf ⟨ha, ?_, fun id hid => hbelow id (List.mem_append_left _ hid)⟩
  cases hk : Frame.opened k with
  | nil => exact hf.not_hollow_of_parent ha.sound.world.store.tidy.root_parent
  | cons id rest => exact hbelow id (by simp [hk])

theorem plain_round {v : Value} (hv : v.isTrue = true) :
    step^[3] (onto (Phase.testing.plain c inc b ++ j) ⟨.value v, [], w⟩) =
      ⟨.exec b, (Phase.body (w.enter w.scope).scope w.scope).plain c inc b ++ j,
        w.enter w.scope⟩ := by
  simp only [Function.iterate_succ_apply, Function.iterate_zero_apply, onto, step, resume,
    Phase.plain, List.nil_append, List.cons_append, hv, if_true]
  rfl

/-- Entering the scope of the block: it is hollow from now on. -/
theorem Within.enter {v : Value} (h : Within hollow ρ s' (Phase.testing.plain c inc b) j k
      ⟨.value v, [], w⟩) (hv : v.isTrue = true) (hb : b.Tame false false) :
    Paired c inc b j k
      (step^[3] (onto (Phase.testing.plain c inc b ++ j) ⟨.value v, [], w⟩))
      ⟨.exec b, .round (clauseLoop c inc b) :: j.map (Frame.rename ρ), w.mirror ρ s'⟩ := by
  have hw : w.Sound _ := h.above.sound.world
  have hdead := push_not_live w.scopes w.scope hw.store.tidy.spare_free
  have hwhole := h.whole.iterate 3
  rw [plain_round hv] at hwhole ⊢
  have hold : ∀ id, w.scopes.Live id →
      Function.update ρ (w.scopes.push w.scope).1 (ρ w.scope) id = ρ id := by
    intro id hid
    refine Function.update_of_ne ?_ _ _
    rintro rfl
    exact hdead hid
  have hbody : Within (fun id => id = (w.scopes.push w.scope).1 ∨ hollow id)
      (Function.update ρ (w.scopes.push w.scope).1 (ρ w.scope)) s'
      ((Phase.body (w.enter w.scope).scope w.scope).plain c inc b) j k
      ⟨.exec b, [], w.enter w.scope⟩ := by
    refine .start (h.folds.pushHollow hw.store hw.scope_live) hwhole hb ?_
    rintro id hid (rfl | hh)
    · exact hdead (hw.store.tidy.opened_live _ hid)
    · exact h.below id hid hh
  have hmirror : (w.enter w.scope).mirror (Function.update ρ (w.scopes.push w.scope).1 (ρ w.scope))
      s' = w.mirror ρ s' := by
    simp [World.enter, World.mirror]
  have hnext := Paired.within _ hbody ⟨.inl rfl, by
    rw [hold w.scope hw.scope_live]
    exact Function.update_self _ _ _⟩
  rw [mirror, hmirror, h.names hold] at hnext
  exact hnext

section
variable {fs : List Frame} {control : Control} {left back : ScopeId} {n : Nat}
  (h : Within hollow ρ s' fs j k ⟨control, [], w⟩) (hfs : Frame.opened fs = [left])
  (hback : ρ left = ρ back)
include h hfs hback

/-- Leaving the scope of the block: nothing changes in the store without it. -/
theorem Within.leave :
    Folds (fun id => hollow id ∧ (w.leave left back).scopes.Live id) ρ
        (w.leave left back).scopes s' ∧
      (w.leave left back).mirror ρ s' = w.mirror ρ s' := by
  have hw : w.Sound (fs ++ (j ++ k)) := h.above.sound.world
  have hopened : Frame.opened (fs ++ (j ++ k)) = left :: Frame.opened (j ++ k) := by
    rw [Frame.opened_append, hfs]
    rfl
  have hscope : w.scope = left := by
    rw [hw.current, hopened]
    rfl
  exact ⟨h.folds.release (hopened ▸ hw.store.tidy), by
    simp [World.leave, World.mirror, hscope, hback]⟩

theorem Within.leave_over (control' : Control)
    (hn : step^[n] (onto (fs ++ j) ⟨control, [], w⟩) = ⟨control', j, w.leave left back⟩) :
    Paired c inc b j k (step^[n] (onto (fs ++ j) ⟨control, [], w⟩))
      ⟨control'.rename ρ, j.map (Frame.rename ρ), w.mirror ρ s'⟩ := by
  obtain ⟨hfolds, hmirror⟩ := h.leave hfs hback
  have ha := h.whole.iterate n
  rw [hn] at ha ⊢
  rw [← hmirror]
  exact .leave ha hfolds fun id hid hh => h.below id hid hh.1

theorem Within.leave_again (hn : step^[n] (onto (fs ++ j) ⟨control, [], w⟩) =
      ⟨.eval c, Phase.testing.plain c inc b ++ j, w.leave left back⟩) :
    Paired c inc b j k (step^[n] (onto (fs ++ j) ⟨control, [], w⟩))
      ⟨.eval c, Phase.testing.clauses c inc b ++ j.map (Frame.rename ρ), w.mirror ρ s'⟩ := by
  obtain ⟨hfolds, hmirror⟩ := h.leave hfs hback
  have ha := h.whole.iterate n
  rw [hn] at ha ⊢
  have htest := Within.start hfolds ha trivial fun id hid hh => h.below id hid hh.1
  have hnext := Paired.within .testing htest trivial
  rw [mirror, hmirror] at hnext
  exact hnext

end

section
variable {phase : Phase} (hp : phase.Hollow hollow ρ)
include hp

/-- A part of the loop has come to a value: it was the condition or the increment. -/
theorem Within.value {v : Value} (hb : b.Tame false false)
    (h : Within hollow ρ s' (phase.plain c inc b) j k ⟨.value v, [], w⟩) :
    ∃ n, Paired c inc b j k
      (step^[n + 1] (onto (phase.plain c inc b ++ j) ⟨.value v, [], w⟩))
      (onto (phase.clauses c inc b ++ j.map (Frame.rename ρ))
        (mirror ρ s' ⟨.value v, [], w⟩)).step := by
  cases phase with
  | testing =>
    simp only [mirror, onto, Phase.clauses, Control.rename, step, resume, Value.isTrue_rename,
      List.map_nil, List.nil_append, List.cons_append]
    split
    · rename_i hv
      exact ⟨2, h.enter hv hb⟩
    · rename_i hv
      have hdone : step^[1] (onto (Phase.testing.plain c inc b ++ j) ⟨.value v, [], w⟩) =
          ⟨.flow .normal, j, w⟩ := by
        simp [onto, Phase.plain, step, resume, hv]
      have ha := h.whole.iterate 1
      rw [hdone] at ha
      have hnext : Paired c inc b j k _ _ := .leave ha h.folds h.below
      rw [← hdone] at hnext
      exact ⟨0, hnext⟩
  | body left back =>
    obtain ⟨_, rfl, hfit⟩ := h.above.fitting
    cases hfit.1
  | stepping left back => exact ⟨3, h.leave_again rfl hp.2 rfl⟩

theorem Within.flow {f : Flow} (h : Within hollow ρ s' (phase.plain c inc b) j k ⟨.flow f, [], w⟩) :
    ∃ n, Paired c inc b j k
      (step^[n + 1] (onto (phase.plain c inc b ++ j) ⟨.flow f, [], w⟩))
      (onto (phase.clauses c inc b ++ j.map (Frame.rename ρ))
        (mirror ρ s' ⟨.flow f, [], w⟩)).step := by
  cases phase with
  | testing | stepping =>
    obtain ⟨_, rfl, hfit⟩ := h.above.fitting
    cases hfit.1
  | body left back =>
    cases f with
    | normal =>
      refine ⟨1, ?_⟩
      exact .within (.stepping left back) (.start h.folds (h.whole.iterate 2) trivial h.below) hp
    | broke => exact ⟨2, h.leave_over rfl hp.2 (.flow .normal) rfl⟩
    | continued => exact absurd rfl h.tame.not_continued
    | returned v => exact ⟨2, h.leave_over rfl hp.2 (.flow (.returned v)) rfl⟩

theorem Within.raise {e : RuntimeError}
    (h : Within hollow ρ s' (phase.plain c inc b) j k ⟨.raise e, [], w⟩) :
    ∃ n, Paired c inc b j k
      (step^[n + 1] (onto (phase.plain c inc b ++ j) ⟨.raise e, [], w⟩))
      (onto (phase.clauses c inc b ++ j.map (Frame.rename ρ))
        (mirror ρ s' ⟨.raise e, [], w⟩)).step := by
  cases phase with
  | testing => exact ⟨0, .leave h.whole.next.1 h.folds h.below⟩
  | body left back => exact ⟨2, h.leave_over rfl hp.2 (.raise e) rfl⟩
  | stepping left back => exact ⟨3, h.leave_over rfl hp.2 (.raise e) rfl⟩

end

theorem Within.stays {phase : Phase} {s : State} {ρ' : ScopeId → ScopeId}
    (h : Within hollow ρ s' (phase.plain c inc b) j k s) (hp : phase.Hollow hollow ρ)
    (hρ : ∀ id, s.world.scopes.Live id → ρ' id = ρ id) : phase.Hollow hollow ρ' := by
  have hall := List.map_inj_left.mp (h.above.sound.world.frames_congr hρ)
  cases phase with
  | testing => trivial
  | body left back | stepping left back =>
    have hleave := hall (.leave left back) (by simp [onto, Phase.plain])
    obtain ⟨hleft, hback⟩ := Frame.leave.inj hleave
    exact ⟨hp.1, by rw [hleft, hback, hp.2]⟩

theorem Paired.goes {s t : State} (hb : b.Tame false false) (h : Paired c inc b j k s t)
    (ht : t.ended? = none) : ∃ n, Paired c inc b j k (step^[n + 1] s) t.step := by
  cases h with
  | @done hollow ρ s' s hf hr =>
    have hI := Folds.imitation hollow
    obtain ⟨ρ', t', hf', he, -⟩ := hr.above.imitated hI hf hr.touches
    rw [he]
    exact ⟨0, .done hf' (hr.next hI hf)⟩
  | @within phase hollow ρ s' s h hp =>
    cases ho : s.outcome? with
    | none =>
      -- the part of the loop goes on, and both take one step
      obtain ⟨ρ', t', hnext, he, hρ⟩ := h.next
      rw [step_onto (by rw [outcome?_mirror, ho]; rfl), he, ← h.names hρ]
      have hstep := step_onto ho (phase.plain c inc b ++ j)
      exact ⟨0, by
        rw [Function.iterate_succ_apply, hstep]
        exact .within phase hnext (h.stays hp hρ)⟩
    | some o =>
      -- it has ended, and the frames of the loop are next
      obtain ⟨control, frames, w⟩ := s
      cases control with
      | eval | exec => cases ho
      | exit => cases ht
      | value v =>
        cases frames with
        | cons => cases ho
        | nil => exact h.value hp hb
      | flow f =>
        cases frames with
        | cons => cases ho
        | nil => exact h.flow hp
      | raise e =>
        cases frames with
        | cons => cases ho
        | nil => exact h.raise hp

/-- The ends of two paired machines: the second one comes to what the first one does, in a world that
stands in for that of the first one. -/
structure Closes (k : List Frame) (r r' : Outcome × World) : Prop where
  outcome : ∃ ρ, r'.1 = r.1.rename ρ
  sink : r'.2.sink = r.2.sink
  input : r'.2.input = r.2.input
  world : r.1 ≠ .exit →
    ∃ hollow : ScopeId → Prop, r.2.Imitated (Folds hollow) (fun id => ¬ hollow id) k r'.2

theorem Paired.ended {s t : State} (h : Paired c inc b j k s t) :
    Option.Rel (Closes k) s.ended? t.ended? := by
  cases h with
  | @done hollow ρ s' s hf hr =>
    rw [ended?, ended?, outcome?_mirror]
    cases ho : s.outcome? with
    | none => exact .none
    | some o =>
      refine .some ⟨⟨ρ, rfl⟩, rfl, rfl, fun hne => ?_⟩
      have hw := hr.above.sound.world
      rw [onto, Idle.frames ⟨o, ho, hne⟩, List.nil_append] at hw
      refine ⟨hollow, hw, ?_, ρ, s', hf, rfl⟩
      have hscope : s.world.scope = _ := hw.current
      show ¬ hollow s.world.scope
      rw [hscope]
      exact hr.base
  | @within phase hollow ρ s' s h hp =>
    obtain ⟨control, frames, w⟩ := s
    cases control with
    | exit => exact .some ⟨⟨ρ, rfl⟩, rfl, rfl, fun hne => absurd rfl hne⟩
    | eval | exec => exact .none
    | value | flow | raise => cases frames <;> cases phase <;> exact .none

theorem Paired.keepPace (hb : b.Tame false false) : KeepPace (Paired c inc b j k) (Closes k) :=
  ⟨Paired.ended, Paired.goes hb⟩

end

/-! ## The same runs -/

/-- Two runs have ended the same for all that can be seen: what they came to differs at most in the
scopes of functions, the same was written and read, and calls that are made later are seen the
same. -/
structure SameEnd (r r' : Outcome × World) : Prop where
  outcome : r.1.rename (fun _ => .global) = r'.1.rename fun _ => .global
  sink : r.2.sink = r'.2.sink
  input : r.2.input = r'.2.input
  later : r.1 ≠ .exit → ∀ calls sights, r.2.Transcript calls sights ↔ r'.2.Transcript calls sights

/-- Two machines both come to an end, and to the same one, or neither does. -/
structure SameRuns (s t : State) : Prop where
  forth : ∀ r, s.Ends r → ∃ r', t.Ends r' ∧ SameEnd r r'
  back : ∀ r', t.Ends r' → ∃ r, s.Ends r ∧ SameEnd r r'

theorem Closes.sameEnd {k : List Frame} {r r' u : Outcome × World} (h : Closes k r u)
    (h' : Closes k r' u) : SameEnd r r' := by
  obtain ⟨ρ, ho⟩ := h.outcome
  obtain ⟨ρ', ho'⟩ := h'.outcome
  have hsame : r.1.rename (fun _ => .global) = r'.1.rename fun _ => .global := by
    have hu := congrArg (Outcome.rename fun _ => .global) (ho.symm.trans ho')
    rw [Outcome.rename_rename, Outcome.rename_rename] at hu
    exact hu
  refine ⟨hsame, h.sink.symm.trans h'.sink, h.input.symm.trans h'.input, fun hne calls sights => ?_⟩
  have hne' : r'.1 ≠ .exit := by
    intro e
    rw [e] at hsame
    cases he : r.1 with
    | exit => exact hne he
    | _ => rw [he] at hsame; cases hsame
  obtain ⟨hollow, hw⟩ := h.world hne
  obtain ⟨hollow', hw'⟩ := h'.world hne'
  exact (hw.transcript (Folds.imitation hollow) calls sights).trans
    (hw'.transcript (Folds.imitation hollow') calls sights).symm

theorem ends_step {s : State} (h : s.outcome? = none) {r : Outcome × World} :
    s.Ends r ↔ s.step.Ends r := by
  constructor
  · rintro ⟨_ | n, hn⟩
    · cases hn
    · rw [run, h] at hn
      exact ⟨n, hn⟩
  · rintro ⟨n, hn⟩
    exact ⟨n + 1, by rw [run, h]; exact hn⟩

section
variable {c inc : Expr} {b : Stmt} {j k : List Frame} {w : World}

/-- The plain loop, and the loop with clauses in the same world with a store that stops to
recycle. -/
theorem paired_plain (ha : (⟨.exec (.whileLoop c (.block [b, .expr inc])), j, w⟩ : State).Above k) :
    Paired c inc b j k (step ⟨.exec (.whileLoop c (.block [b, .expr inc])), j, w⟩)
      (step (mirror id { w.scopes with spare := [], recycles := false }
        ⟨.exec (.forLoop c (some inc) b), j, w⟩)) :=
  .within .testing (.start (Folds.self w.scopes) ha.next.1 trivial fun _ _ => not_false) trivial

theorem paired_clauses {s : State} (ha : s.Above k) :
    Paired c inc b j k s (s.mirror id { s.world.scopes with spare := [], recycles := false }) :=
  .done (Folds.self s.world.scopes) ⟨ha, not_false, fun _ _ => not_false⟩

end

/-- Wherever a loop with clauses may be executed, its increment may as well be the last statement of
the body of a loop without: the one comes to an end if the other does, and nothing that is done later
tells them apart. The frames `j` are those of what is carried out after the loop; with none of them
it is the loop alone that is run. -/
theorem forLoop_as_whileLoop {sink : Sink} {input : Input} {clock : Nat → Float} {s : Stmt}
    {j k : List Frame} {w : World} (hw : Reaches (fresh sink input clock) ⟨.exec s, j ++ k, w⟩)
    {r : Request} (hr : r.examined.found = []) {b : Stmt} (hb : b ∈ r.examined.tree.loopBodies)
    (hcontinues : b.continues = false) (c inc : Expr) :
    SameRuns ⟨.exec (.forLoop c (some inc) b), j, w⟩
      ⟨.exec (.whileLoop c (.block [b, .expr inc])), j, w⟩ := by
  obtain ⟨⟨_, hcomes, hfit⟩, hsound⟩ :=
    hw.follows (fresh_idle sink input clock).fitting (fresh_sound sink input clock)
  have habove : ∀ x, (⟨.exec x, j, w⟩ : State).Above k := fun x =>
    ⟨⟨_, hcomes, hfit⟩, hsound.world, keeps_none⟩
  have htame := (Request.loopBodies_tame hr hb).of_not_continues hcontinues
  have hpace : KeepPace (Paired c inc b j k) (Closes k) := Paired.keepPace htame
  have hclauses : Paired c inc b j k ⟨.exec (.forLoop c (some inc) b), j, w⟩ _ :=
    paired_clauses (habove _)
  have hplain := paired_plain (c := c) (b := b) (habove (.whileLoop c (.block [b, .expr inc])))
  constructor
  · intro r hends
    obtain ⟨u, hu, hclose⟩ := hpace.forth hclauses hends
    obtain ⟨r', hr', hclose'⟩ := hpace.back hplain ((ends_step rfl).mp hu)
    exact ⟨r', (ends_step rfl).mpr hr', hclose.sameEnd hclose'⟩
  · intro r' hends
    obtain ⟨u, hu, hclose'⟩ := hpace.forth hplain ((ends_step rfl).mp hends)
    obtain ⟨r, hr, hclose⟩ := hpace.back hclauses ((ends_step rfl).mpr hu)
    exact ⟨r, hr, hclose.sameEnd hclose'⟩

/-- A function in the body of this loop keeps the scope of the body, and what is around it. -/
def keepingLoop : Request := .program "while (go) \x7b func f() \x7b\x7d \x7d"

def go : Token := ⟨.name, "go", none, .start⟩

/-- `{ let go = true; {} }`. -/
def goingBlock : Stmt := .block [.declare go (some (.constant (.bool true))), .block []]

/-- The moment before the inner block. -/
def going : State := step^[6] ⟨.exec goingBlock, [], {}⟩

theorem forLoop_as_whileLoop_keeping :
    ∃ b ∈ keepingLoop.examined.tree.loopBodies, ∃ r r',
      Ends ⟨.exec (.forLoop (.reference go) (some (.assign go (.constant .nil))) b), going.frames,
        going.world⟩ r ∧
      Ends ⟨.exec (.whileLoop (.reference go) (.block [b, .expr (.assign go (.constant .nil))])),
        going.frames, going.world⟩ r' ∧
      SameEnd r r' := by
  have hreaches : Reaches (fresh {} {} fun _ => 0) going :=
    .head (.exec (fresh_idle ..) goingBlock) (iterate_reaches _ 6)
  have hgoing : going = ⟨.exec (.block []), going.frames ++ [], going.world⟩ := rfl
  rw [hgoing] at hreaches
  have hclean : keepingLoop.examined.found = [] := by
    have hempty : keepingLoop.examined.found.isEmpty = true := by decide +kernel
    simpa using hempty
  have hbodies : (keepingLoop.examined.tree.loopBodies.map fun b => (b.continues,
      (run 40 ⟨.exec (.forLoop (.reference go) (some (.assign go (.constant .nil))) b), going.frames,
        going.world⟩).isSome)) = [(false, true)] := by
    decide +kernel
  obtain ⟨b, hb, he⟩ : ∃ b ∈ keepingLoop.examined.tree.loopBodies, _ = (false, true) :=
    List.mem_map.mp (hbodies ▸ List.mem_singleton_self _)
  obtain ⟨hcontinues, hrun⟩ := Prod.mk.inj he
  obtain ⟨r, hr⟩ := Option.isSome_iff_exists.mp hrun
  have hsame := forLoop_as_whileLoop hreaches hclean hb hcontinues (.reference go)
    (.assign go (.constant .nil))
  obtain ⟨r', hr', hend⟩ := hsame.forth r ⟨40, hr⟩
  exact ⟨b, hb, r, r', ⟨40, hr⟩, hr', hend⟩

end State

end Script
