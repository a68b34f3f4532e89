import Script.Proofs.DebugTransparent
import Script.Proofs.ImpossibleBranches

/-!
# A full sink only truncates the output

A session over a sink with a limit is followed side by side with one over a sink without. As long as
everything fits, the first is the second with its output cut off at the limit, which is nowhere. The
first text that does not fit is written in part and ends its request with an error. From then on the
two sessions may have nothing in common, but the full sink takes nothing any more.
-/

namespace Script

/-! ## Sinks with a limit -/

namespace Sink

/-- A sink that takes everything and can always be flushed. -/
def Unlimited (s : Sink) : Prop := ∀ written past op, s.device written past op = .done

/-- What a sink with a limit has taken where this one has taken everything. -/
def cap (limit : Nat) (s : Sink) : Sink :=
  { s with written := s.written.extract 0 limit, device := (limited limit).device }

/-- The sink has a limit, and has taken what there is room for of all that `full` has taken. -/
structure Cut (s : Sink) (limit : Nat) (full : Sink) : Prop where
  written : s.written = full.written.extract 0 limit
  device : s.device = (limited limit).device

variable {s s' full full' : Sink} {limit : Nat}

theorem Unlimited.grows (hs : s.Unlimited) (h : s.Grows s') : s'.Unlimited := by
  unfold Unlimited
  rwa [h.device]

theorem Grows.size_le (h : s.Grows s') : s.written.size ≤ s'.written.size := by
  obtain ⟨piece, hpiece⟩ := h.written
  rw [hpiece, ByteArray.size_append]
  exact Nat.le_add_right _ _

theorem extract_of_le {bytes : ByteArray} (h : bytes.size ≤ limit) :
    bytes.extract 0 limit = bytes := by
  have hmax : bytes.extract 0 (max limit bytes.size) = bytes := ByteArray.extract_zero_max_size
  rwa [Nat.max_eq_left h] at hmax

/-- A sink at its limit takes nothing, whether it says so or not. -/
theorem Grows.at_limit (h : s.Grows s') (hs : s.device = (limited limit).device)
    (hfull : limit ≤ s.written.size) : s'.written = s.written := by
  induction h with
  | refl => rfl
  | @operate s' h op ih =>
    have hroom : limit - s'.written.size = 0 := by
      rw [ih]
      exact Nat.sub_eq_zero_of_le hfull
    have hanswer : s'.device s'.written s'.past op =
        if op.bytes.size ≤ 0 then .done else .failed 0 limitReached := by
      rw [h.device, hs]
      simp only [limited, hroom]
    rw [Sink.operate, hanswer]
    by_cases hempty : op.bytes.size ≤ 0
    · have hbytes : op.bytes = .empty := ByteArray.size_eq_zero_iff.mp (Nat.le_zero.mp hempty)
      rw [if_pos hempty, hbytes]
      simpa using ih
    · rw [if_neg hempty]
      simpa using ih

/-- Past the limit it makes no difference what else is written. -/
theorem Cut.grows (h : s.Cut limit full) (hlong : limit ≤ full.written.size)
    (hs : s.Grows s') (hfull : full.Grows full') : s'.Cut limit full' := by
  have hsize : limit ≤ s.written.size := by
    rw [h.written, ByteArray.size_extract]
    omega
  refine ⟨?_, hs.device.trans h.device⟩
  obtain ⟨piece, hpiece⟩ := hfull.written
  rw [hs.at_limit h.device hsize, h.written, hpiece, ByteArray.extract_append,
    Nat.sub_eq_zero_of_le hlong, Nat.zero_sub, ByteArray.extract_same, ByteArray.append_empty]

theorem cut_cap (limit : Nat) (s : Sink) : (s.cap limit).Cut limit s := ⟨rfl, rfl⟩

theorem operate_unlimited (hs : s.Unlimited) (op : Operation) :
    s.operate op = (.ok (), { s with written := s.written ++ op.bytes, past := op :: s.past }) := by
  rw [operate, hs]

theorem operate_cap (hs : s.Unlimited) (hfit : s.written.size ≤ limit) (op : Operation) :
    (s.cap limit).operate op =
      (if (s.operate op).2.written.size ≤ limit then .ok () else .error limitReached,
        (s.operate op).2.cap limit) := by
  have hcap : (s.cap limit).written = s.written := extract_of_le hfit
  have hpart : (s.written ++ op.bytes).extract 0 limit =
      s.written ++ op.bytes.extract 0 (limit - s.written.size) := by
    rw [ByteArray.extract_append, extract_of_le hfit, Nat.zero_sub]
  have hanswer : (s.cap limit).device (s.cap limit).written (s.cap limit).past op =
      if op.bytes.size ≤ limit - s.written.size then .done
      else .failed (limit - s.written.size) limitReached := by
    rw [hcap]
    rfl
  have hsize : (s.written ++ op.bytes).size = s.written.size + op.bytes.size :=
    ByteArray.size_append
  rw [operate_unlimited hs, operate, hanswer, hcap]
  simp only [hsize]
  by_cases h : op.bytes.size ≤ limit - s.written.size
  · have hle : s.written.size + op.bytes.size ≤ limit := by omega
    rw [if_pos h, if_pos hle]
    simp only [cap, hpart, extract_of_le h]
  · have hlt : ¬ s.written.size + op.bytes.size ≤ limit := by omega
    rw [if_neg h, if_neg hlt]
    simp only [cap, hpart]

theorem carryOut_unlimited (hs : s.Unlimited) (op : Operation) (ops : List Operation) :
    s.carryOut (op :: ops) = (s.operate op).2.carryOut ops := by
  rw [carryOut, operate_unlimited hs]

theorem carryOut_ok (hs : s.Unlimited) (ops : List Operation) : (s.carryOut ops).1 = .ok () := by
  induction ops generalizing s with
  | nil => rfl
  | cons op ops ih =>
    rw [carryOut_unlimited hs]
    exact ih (hs.grows (Grows.refl.operate op))

/-- What is carried out within the limit is carried out alike. -/
theorem carryOut_cap (hs : s.Unlimited) (hfit : s.written.size ≤ limit) (ops : List Operation)
    (h : (s.carryOut ops).2.written.size ≤ limit) :
    (s.cap limit).carryOut ops = (.ok (), (s.carryOut ops).2.cap limit) := by
  induction ops generalizing s with
  | nil => rfl
  | cons op ops ih =>
    rw [carryOut_unlimited hs] at h ⊢
    have hop : (s.operate op).2.written.size ≤ limit :=
      Nat.le_trans (carryOut_grows ops _).size_le h
    rw [carryOut, operate_cap hs hfit, if_pos hop]
    exact ih (hs.grows (Grows.refl.operate op)) hop h

/-- What goes beyond the limit is cut off there. -/
theorem carryOut_cut (hs : s.Unlimited) (hfit : s.written.size ≤ limit) (ops : List Operation)
    (h : limit < (s.carryOut ops).2.written.size) :
    ∃ s', (s.cap limit).carryOut ops = (.error limitReached, s') ∧
      s'.Cut limit (s.carryOut ops).2 := by
  induction ops generalizing s with
  | nil => exact absurd hfit (Nat.not_le.mpr h)
  | cons op ops ih =>
    rw [carryOut_unlimited hs] at h ⊢
    rw [carryOut, operate_cap hs hfit]
    by_cases hop : (s.operate op).2.written.size ≤ limit
    · rw [if_pos hop]
      exact ih (hs.grows (Grows.refl.operate op)) hop h
    · rw [if_neg hop]
      exact ⟨_, rfl, (cut_cap limit _).grows (Nat.le_of_not_le hop) .refl (carryOut_grows ops _)⟩

end Sink

def World.cap (limit : Nat) (w : World) : World := w.into (w.sink.cap limit)

def State.cap (limit : Nat) (s : State) : State := s.into (s.world.sink.cap limit)

def World.output (w : World) : Nat := w.sink.written.size

/-! ## Steps -/

namespace State

/-- The next step prints a text that there is no room for, and this is the error for it. -/
structure Overflows (limit : Nat) (s : State) (e : RuntimeError) : Prop where
  fault : e.fault = .writeFailed Sink.limitReached
  print : ∃ text, s.errand? = some (e.token, Sink.delivery text, .value .nil) ∧
    limit < s.world.output + text.toUTF8.size

variable {s : State} {limit : Nat}

theorem errand_cases {paren : Token} {ops : List Sink.Operation} {effect : World.Effect}
    (h : s.errand? = some (paren, ops, effect)) :
    (∃ text, ops = Sink.delivery text ∧ effect = .value .nil) ∨ ops = [.flush] ∧ effect = .exit := by
  obtain ⟨⟨paren, callee, args⟩, -, herrand⟩ := Option.bind_eq_some_iff.mp h
  obtain ⟨⟨ops, effect⟩, hops, he⟩ := Option.map_eq_some_iff.mp herrand
  cases he
  unfold World.errand? at hops
  split at hops
  · rename_i n
    split at hops
    · cases ha : n.action <;> rw [ha] at hops <;> cases hops
      · exact .inl ⟨_, rfl, rfl⟩
      · exact .inl ⟨_, rfl, rfl⟩
      · exact .inr ⟨rfl, rfl⟩
    · cases hops
  · cases hops

theorem step_cap (hs : s.world.sink.Unlimited) (hfit : s.world.output ≤ limit)
    (hnext : s.step.world.output ≤ limit) : (s.cap limit).step = s.step.cap limit := by
  cases h : s.errand? with
  | none =>
    have hstep : (s.cap limit).step = s.step.into (s.world.sink.cap limit) := step_into h
    rw [hstep, State.cap, step_sink h]
  | some p =>
    obtain ⟨paren, ops, effect⟩ := p
    have hcapped : (s.cap limit).errand? = some (paren, ops, effect) := errand_into.trans h
    have hok := Sink.carryOut_ok hs ops
    rw [World.output, step_errand h, answered_sink] at hnext
    rw [step_errand hcapped, step_errand h]
    show answered _ (s.world.into _) paren effect ((s.world.sink.cap limit).carryOut ops) = _
    rw [Sink.carryOut_cap hs hfit ops hnext, answered_into]
    rcases hops : s.world.sink.carryOut ops with ⟨r, sink⟩
    rw [hops] at hok
    cases hok
    cases effect <;> rfl

/-- The step that goes beyond the limit prints, and it is an error when there is a limit. -/
theorem step_overflows (hs : s.world.sink.Unlimited) (hfit : s.world.output ≤ limit)
    (hnext : limit < s.step.world.output) :
    ∃ e w, (s.cap limit).Overflows limit e ∧
      (s.cap limit).step = ⟨.raise e, s.frames.tail, w⟩ ∧ w.sink.Cut limit s.step.world.sink := by
  have hcap : (s.cap limit).world.output = s.world.output :=
    congrArg ByteArray.size (Sink.extract_of_le hfit)
  cases h : s.errand? with
  | none =>
    -- a step that asks for nothing writes nothing
    have hsame : s.step.world.output = s.world.output :=
      congrArg (fun sink => sink.written.size) (step_sink h)
    omega
  | some p =>
    obtain ⟨paren, ops, effect⟩ := p
    have hcapped : (s.cap limit).errand? = some (paren, ops, effect) := errand_into.trans h
    have hsink : s.step.world.sink = (s.world.sink.carryOut ops).2 := by
      rw [step_errand h, answered_sink]
    have hlong := hnext
    rw [World.output, hsink] at hlong
    obtain ⟨sink, hcut, hsame⟩ := Sink.carryOut_cut hs hfit ops hlong
    refine ⟨⟨paren, .writeFailed Sink.limitReached⟩, s.world.into sink, ⟨rfl, ?_⟩, ?_, ?_⟩
    · obtain ⟨text, rfl, rfl⟩ | ⟨rfl, rfl⟩ := errand_cases h
      · refine ⟨text, hcapped, ?_⟩
        have hsize : (s.world.sink.carryOut (Sink.delivery text)).2.written.size =
            s.world.output + text.toUTF8.size := by
          simp [Sink.delivery, Sink.carryOut, Sink.operate, hs _ _ _, Sink.Operation.bytes,
            World.output]
        omega
      · have hsize : (s.world.sink.carryOut [.flush]).2.written.size = s.world.output := by
          simp [Sink.carryOut, Sink.operate, hs _ _ _, Sink.Operation.bytes, World.output]
        omega
    · rw [step_errand hcapped]
      show answered _ (s.world.into _) paren effect ((s.world.sink.cap limit).carryOut ops) = _
      rw [hcut]
      rfl
    · rw [hsink]
      exact hsame

/-! ## Runs -/

theorem run_raise {n : Nat} {e : RuntimeError} {k : List Frame} {w w' : World} {o : Outcome}
    (h : run n ⟨.raise e, k, w⟩ = some (o, w')) : o = .error e ∧ w'.sink = w.sink := by
  induction n generalizing k w with
  | zero => cases h
  | succ n ih =>
    cases k with
    | nil =>
      cases h
      exact ⟨rfl, rfl⟩
    | cons f k =>
      have hstep : run n (unwind k w e f) = some (o, w') := h
      have hunwind : ∃ w₁, unwind k w e f = ⟨.raise e, k, w₁⟩ ∧ w₁.sink = w.sink := by
        cases f <;> exact ⟨_, rfl, rfl⟩
      obtain ⟨w₁, hw₁, hsink⟩ := hunwind
      rw [hw₁] at hstep
      obtain ⟨ho, hw'⟩ := ih hstep
      exact ⟨ho, hw'.trans hsink⟩

end State

theorem Watched.seen_map {α β : Type} (f : α → β) (x : Watched α) : (f <$> x).seen = x.seen := by
  rw [← bind_pure_comp]
  cases h : x.result with
  | none => rw [bind_none h]
  | some a =>
    rw [bind_some h]
    exact List.append_nil _

/-- What comes of a run with a limit, where without it comes `b`: the same, if that is within the
limit, and otherwise an error for a text that did not fit. -/
def Capped {α : Type} (limit : Nat) (fail : RuntimeError → α) (b : α × World)
    (x : Watched (α × World)) : Prop :=
  ∀ a w, x.result = some (a, w) →
    b.2.output ≤ limit ∧ a = b.1 ∧ w = b.2.cap limit ∨
      limit < b.2.output ∧ w.sink.Cut limit b.2.sink ∧
        ∃ e, a = fail e ∧ ∃ t ∈ x.seen, t.Overflows limit e

section
variable {α β : Type} {limit : Nat} {fail : RuntimeError → α} {fail' : RuntimeError → β}
  {b : α × World} {c : β × World} {x : Watched (α × World)}

theorem capped_pure (h : b.2.output ≤ limit) : Capped limit fail b (pure (b.1, b.2.cap limit)) := by
  intro a w hr
  cases hr
  exact .inl ⟨h, rfl, rfl⟩

theorem Capped.bind {f : α × World → Watched (β × World)} (hx : Capped limit fail b x)
    (hgrows : b.2.sink.Grows c.2.sink)
    (hf : b.2.output ≤ limit → Capped limit fail' c (f (b.1, b.2.cap limit)))
    (hfail : ∀ e w, f (fail e, w) = pure (fail' e, w)) : Capped limit fail' c (x >>= f) := by
  intro a w hr
  rw [Watched.result_bind] at hr
  obtain ⟨⟨a₁, w₁⟩, hx₁, hr₁⟩ := Option.bind_eq_some_iff.mp hr
  have hseen : (x >>= f).seen = x.seen ++ (f (a₁, w₁)).seen :=
    congrArg Watched.seen (Watched.bind_some hx₁)
  rcases hx a₁ w₁ hx₁ with ⟨hfit, rfl, rfl⟩ | ⟨hlt, hsink, e, rfl, t, ht, he⟩
  · rcases hf hfit a w hr₁ with hsame | ⟨hlt, hsink, e, ha, t, ht, he⟩
    · exact .inl hsame
    · refine .inr ⟨hlt, hsink, e, ha, t, ?_, he⟩
      rw [hseen]
      exact List.mem_append_right _ ht
  · rw [hfail] at hr₁
    cases hr₁
    have hsize : b.2.output ≤ c.2.output := hgrows.size_le
    refine .inr ⟨Nat.lt_of_lt_of_le hlt hsize, ?_, e, rfl, t, ?_, he⟩
    · exact hsink.grows (Nat.le_of_lt hlt) .refl hgrows
    · rw [hseen]
      exact List.mem_append_left _ ht

theorem Capped.map {g : α → β} (hx : Capped limit fail b x) (hg : ∀ e, g (fail e) = fail' e) :
    Capped limit fail' (g b.1, b.2) ((fun r => (g r.1, r.2)) <$> x) := by
  rw [← bind_pure_comp]
  refine hx.bind .refl (fun hfit => capped_pure (b := (g b.1, b.2)) hfit) ?_
  intro e w
  rw [hg]

end

namespace State

variable {limit : Nat}

theorem run_capped {m n : Nat} {s : State} {b : Outcome × World} (hs : s.world.sink.Unlimited)
    (hfit : s.world.output ≤ limit) (h : run m s = some b) :
    Capped limit .error b (watch n (s.cap limit)) := by
  -- The two runs go in step, so the induction is on the fuel of one of them.
  induction m generalizing n s with
  | zero => cases h
  | succ m ih =>
    intro a w hr
    cases n with
    | zero => cases hr
    | succ n =>
      have houtcome : (s.cap limit).outcome? = s.outcome? := outcome_into s _
      unfold run at h
      unfold watch at hr ⊢
      rw [houtcome] at hr ⊢
      cases ho : s.outcome? with
      | some o =>
        rw [ho] at h hr
        cases h
        cases hr
        exact .inl ⟨hfit, rfl, rfl⟩
      | none =>
        rw [ho] at h hr
        have hgrows := step_grows s
        by_cases hnext : s.step.world.output ≤ limit
        · have hcapped := ih (n := n) (hs.grows hgrows) hnext h
          rw [step_cap hs hfit hnext] at hr ⊢
          rcases hcapped a w hr with hsame | ⟨hlt, hsink, e, ha, t, ht, he⟩
          · exact .inl hsame
          · exact .inr ⟨hlt, hsink, e, ha, t, List.mem_cons_of_mem _ ht, he⟩
        · obtain ⟨e, w₁, he, hstep, hcut⟩ := step_overflows hs hfit (Nat.not_le.mp hnext)
          rw [hstep, watch_result] at hr
          obtain ⟨rfl, hsink⟩ := run_raise hr
          have hrun := run_grows (o := b.1) (w := b.2) h
          have hsize : s.step.world.output ≤ b.2.output := hrun.size_le
          refine .inr ⟨by omega, ?_, e, rfl, _, List.mem_cons_self, he⟩
          rw [hsink]
          exact hcut.grows (Nat.le_of_not_le hnext) .refl hrun

end State

namespace World

variable {limit m n : Nat} {w : World}

theorem execute_capped {body : List Stmt} {b : Ending Completion × World}
    (hw : w.sink.Unlimited) (hfit : w.output ≤ limit) (h : w.execute (State.run m) body = some b) :
    Capped limit .failed b ((w.cap limit).execute (State.watch n) body) := by
  obtain ⟨ending, w'⟩ := b
  induction body generalizing w with
  | nil =>
    cases h
    exact capped_pure hfit
  | cons s rest ih =>
    rw [execute_cons] at h ⊢
    obtain ⟨⟨o, w₁⟩, hr, h⟩ := Option.bind_eq_some_iff.mp h
    have hrun := State.run_capped (s := ⟨.exec s, [], w⟩) (n := n) hw hfit hr
    have hw₁ : w₁.sink.Unlimited := hw.grows (State.run_grows hr)
    rcases goOn_cases o rest with ⟨ended, hend⟩ | hgo
    · rw [hend] at h
      cases h
      refine hrun.bind .refl (fun hfit => ?_) fun e w => rfl
      rw [hend]
      exact capped_pure (b := (ending, w')) hfit
    · rw [hgo] at h
      refine hrun.bind (execute_grows h) (fun hfit => ?_) fun e w => rfl
      rw [hgo]
      exact ih hw₁ hfit h

theorem evaluate_capped {e : Expr} {b : Ending Value × World} (hw : w.sink.Unlimited)
    (hfit : w.output ≤ limit) (h : w.evaluate (State.run m) e = some b) :
    Capped limit .failed b ((w.cap limit).evaluate (State.watch n) e) := by
  rw [evaluate_eq] at h ⊢
  obtain ⟨⟨o, w₁⟩, hr, he⟩ := Option.map_eq_some_iff.mp h
  cases he
  exact (State.run_capped (s := ⟨.eval e, [], w⟩) hw hfit hr).map fun e => rfl

end World

theorem Line.go_capped {limit m n : Nat} {tree : Line} {w : World}
    {b : Reply (Option String) × World} (hw : w.sink.Unlimited) (hfit : w.output ≤ limit)
    (h : tree.go (State.run m) w = some b) :
    Capped limit (fun e => .failed (.runtime e)) b (tree.go (State.watch n) (w.cap limit)) := by
  cases tree with
  | statements body =>
    obtain ⟨⟨ending, w₁⟩, hr, he⟩ := Option.map_eq_some_iff.mp h
    cases he
    exact (World.execute_capped hw hfit hr).map (g := fun x => x.toReply.map fun _ => none)
      fun e => rfl
  | expression e =>
    obtain ⟨⟨ending, w₁⟩, hr, he⟩ := Option.map_eq_some_iff.mp h
    cases he
    exact (World.evaluate_capped hw hfit hr).map
      (g := fun x => x.toReply.map fun v => some v.render) fun e => rfl

/-! ## Requests -/

namespace Session

def into (sink : Sink) (s : Session) : Session := { s with world := s.world.into sink }

def cap (limit : Nat) (s : Session) : Session := { s with world := s.world.cap limit }

section
variable (texts : List String) {w : World} {limit : Nat} (hw : w.sink.Unlimited)
  (hfit : w.output ≤ limit)
include hw hfit

theorem display_cap (h : (display texts w).2.output ≤ limit) :
    display texts (w.cap limit) = (.ok (), (display texts w).2.cap limit) := by
  have hsame : (w.cap limit).sink.carryOut _ = _ := Sink.carryOut_cap hw hfit _ h
  unfold display
  rw [hsame]
  rfl

theorem display_cut (h : limit < (display texts w).2.output) :
    ∃ sink, display texts (w.cap limit) = (.error Sink.limitReached, w.into sink) ∧
      sink.Cut limit (display texts w).2.sink := by
  obtain ⟨sink, hcarry, hcut⟩ := Sink.carryOut_cut hw hfit _ h
  have hsame : (w.cap limit).sink.carryOut _ = _ := hcarry
  refine ⟨sink, ?_, hcut⟩
  unfold display
  rw [hsame]
  rfl

end

/-- How a request ends whose output goes beyond the limit. Either its outlines do not fit, and then
nothing of it is run; or it is run up to a text that does not fit, and that is an error at the
closing parenthesis of the call that prints it. -/
inductive CutShort (limit n : Nat) (s : Session) (r : Request) :
    Reply (Option String) × Session → Prop
  | outlines (hdebug : s.debug = true)
      (hlong : limit < s.world.output + (linesOfTexts r.examined.outlines).size)
      (hseen : (s.serve (State.watch n) r).seen = []) (sink : Sink) :
      CutShort limit n s r (.failed (.output Sink.limitReached), s.into sink)
  | print {t : State} {e : RuntimeError} (hseen : t ∈ (s.serve (State.watch n) r).seen)
      (h : t.Overflows limit e) (s' : Session) : CutShort limit n s r (.failed (.runtime e), s')

section
variable {limit m n : Nat} {u : Session} {r : Request} {tree : Line} {w : World}
  (hx : r.examined = ⟨tree, []⟩) (hu : u.world.sink.Unlimited) (hfit : u.world.output ≤ limit)
  (hshown : display (if u.debug then tree.outlines else []) u.world = (.ok (), w))
include hx hshown

theorem serve_shown {m : Type → Type} [Monad m] [LawfulMonad m] (run : Runner m) :
    u.serve run r = (fun p => (p.1, { u with world := p.2 })) <$> tree.go run w := by
  rw [serve_eq, hx, obey_tree, hshown]

include hu hfit

theorem serve_shown_cap {m : Type → Type} [Monad m] [LawfulMonad m] (run : Runner m)
    (h : w.output ≤ limit) : (u.cap limit).serve run r =
      (fun p => (p.1, { u with world := p.2 })) <$> tree.go run (w.cap limit) := by
  have hcap := display_cap (if u.debug then tree.outlines else []) hu hfit
    (by rw [hshown]; exact h)
  rw [hshown] at hcap
  replace hcap : display (if (u.cap limit).debug then tree.outlines else []) (u.cap limit).world =
      _ := hcap
  rw [serve_eq, hx, obey_tree, hcap]
  rfl

theorem serve_shown_cut (h : limit < w.output) :
    ∃ sink, (u.cap limit).serve (State.watch n) r =
        pure (.failed (.output Sink.limitReached), u.into sink) ∧ sink.Cut limit w.sink ∧
      CutShort limit n (u.cap limit) r (.failed (.output Sink.limitReached), u.into sink) := by
  have hcut := display_cut (if u.debug then tree.outlines else []) hu hfit
    (by rw [hshown]; exact h)
  rw [hshown] at hcut
  obtain ⟨sink, hdisplay, hcut⟩ := hcut
  have hserve : (u.cap limit).serve (State.watch n) r =
      pure (.failed (.output Sink.limitReached), u.into sink) := by
    replace hdisplay : display (if (u.cap limit).debug then tree.outlines else [])
        (u.cap limit).world = _ := hdisplay
    rw [serve_eq, hx, obey_tree, hdisplay]
    rfl
  have hdebug : u.debug = true := by
    cases hd : u.debug with
    | true => rfl
    | false =>
      -- nothing was shown, and what was written before did fit
      rw [hd] at hshown
      cases hshown
      exact absurd h (Nat.not_lt.mpr hfit)
  have hcapped : (u.cap limit).world.output = u.world.output :=
    congrArg ByteArray.size (Sink.extract_of_le hfit)
  have hdebug' : (u.cap limit).debug = true := hdebug
  refine ⟨sink, hserve, hcut, .outlines hdebug' ?_ ?_ sink⟩
  · rw [hdebug, if_pos rfl, display, Sink.carryOut_lines fun _ _ _ => hu _ _ _] at hshown
    cases hshown
    rw [hcapped, hx]
    rwa [World.output, ByteArray.size_append] at h
  · rw [hserve]
    rfl

theorem serve_accepted_capped {u' s : Session} {a b : Reply (Option String)}
    (h : u.serve (State.run m) r = some (b, u'))
    (h' : ((u.cap limit).serve (State.watch n) r).result = some (a, s)) :
    u'.world.output ≤ limit ∧ a = b ∧ s = u'.cap limit ∨
      limit < u'.world.output ∧ s.world.sink.Cut limit u'.world.sink ∧
        CutShort limit n (u.cap limit) r (a, s) := by
  have hw : w.sink.Unlimited := by
    have hgrows := display_grows (if u.debug then tree.outlines else []) u.world
    rw [hshown] at hgrows
    exact hu.grows hgrows
  rw [serve_shown hx hshown] at h
  obtain ⟨⟨b, w₁⟩, hgo, he⟩ := Option.map_eq_some_iff.mp h
  cases he
  by_cases hfit₁ : w.output ≤ limit
  · have hserve := serve_shown_cap hx hu hfit hshown (State.watch n) hfit₁
    rw [hserve, Watched.result_map] at h'
    obtain ⟨⟨a, w₂⟩, hgo', he⟩ := Option.map_eq_some_iff.mp h'
    cases he
    rcases Line.go_capped hw hfit₁ hgo a w₂ hgo' with
      ⟨hle, rfl, rfl⟩ | ⟨hlt, hsink, e, rfl, t, ht, he⟩
    · exact .inl ⟨hle, rfl, rfl⟩
    · refine .inr ⟨hlt, hsink, .print ?_ he _⟩
      rw [hserve, Watched.seen_map]
      exact ht
  · have hlong := Nat.not_le.mp hfit₁
    have hgrows := Line.go_grows hgo
    obtain ⟨sink, hserve, hcut, hshort⟩ := serve_shown_cut (n := n) hx hu hfit hshown hlong
    rw [hserve] at h'
    cases h'
    exact .inr ⟨Nat.lt_of_lt_of_le hlong hgrows.size_le,
      hcut.grows (Nat.le_of_lt hlong) .refl hgrows, hshort⟩

end

theorem serve_capped {limit m n : Nat} {u u' s : Session} {r : Request}
    {a b : Reply (Option String)} (hu : u.world.sink.Unlimited) (hfit : u.world.output ≤ limit)
    (h : u.serve (State.run m) r = some (b, u'))
    (h' : (u.cap limit).serve (State.run n) r = some (a, s)) :
    u'.world.output ≤ limit ∧ a = b ∧ s = u'.cap limit ∨
      limit < u'.world.output ∧ s.world.sink.Cut limit u'.world.sink ∧
        CutShort limit n (u.cap limit) r (a, s) := by
  rcases hx : r.examined with ⟨tree, _ | ⟨d, ds⟩⟩
  · have hwatch : ((u.cap limit).serve (State.watch n) r).result = some (a, s) := by
      rw [serve_eq, obey_watch, ← serve_eq, h']
    have hok : (display (if u.debug then tree.outlines else []) u.world).1 = .ok () :=
      Sink.carryOut_ok hu _
    rcases hshown : display (if u.debug then tree.outlines else []) u.world with ⟨shown, w⟩
    rw [hshown] at hok
    cases hok
    exact serve_accepted_capped hx hu hfit hshown h hwatch
  · rw [serve_eq, hx] at h h'
    cases h
    cases h'
    exact .inl ⟨hfit, rfl, rfl⟩

/-! ## Whole sessions -/

abbrev Course := List (Reply (Option String) × Session)

/-- The course of a session that is asked for one thing after the other: the replies, each with the
session after it. Nobody replies once the program has ended. -/
def course {m : Type → Type} [Monad m] (run : Runner m) : Session → List Request → m Course
  | _, [] => pure []
  | s, r :: rs => do
    let (reply, s) ← s.serve run r
    match reply with
    | .exited => pure [(reply, s)]
    | _ => ((reply, s) :: ·) <$> course run s rs

def after : Session → Course → Session
  | s, [] => s
  | _, (_, s) :: rest => after s rest

/-- The replies are the same up to the first request whose output goes beyond the limit, and the
reply to that one is cut short. -/
inductive Truncated (limit n : Nat) : Session → List Request → Course → Course → Prop
  | here {s : Session} {r : Request} {rs : List Request} {a b : Reply (Option String) × Session}
      {as bs : Course} (hlong : limit < b.2.world.output) (h : CutShort limit n s r a) :
      Truncated limit n s (r :: rs) (a :: as) (b :: bs)
  | later {s : Session} {r : Request} {rs : List Request} {a b : Reply (Option String) × Session}
      {as bs : Course} (hreply : a.1 = b.1) (hfit : b.2.world.output ≤ limit)
      (h : Truncated limit n a.2 rs as bs) : Truncated limit n s (r :: rs) (a :: as) (b :: bs)

theorem course_cons {n : Nat} {s : Session} {r : Request} {rs : List Request} {as : Course}
    (h : s.course (State.run n) (r :: rs) = some as) :
    ∃ reply s' rest, s.serve (State.run n) r = some (reply, s') ∧ as = (reply, s') :: rest ∧
      (reply = .exited ∧ rest = [] ∨
        reply ≠ .exited ∧ s'.course (State.run n) rs = some rest) := by
  obtain ⟨⟨reply, s'⟩, hserve, h⟩ := Option.bind_eq_some_iff.mp h
  by_cases hreply : reply = .exited
  · subst hreply
    cases h
    exact ⟨_, s', [], hserve, rfl, .inl ⟨rfl, rfl⟩⟩
  · have hmap : (s'.course (State.run n) rs).map ((reply, s') :: ·) = some as := by
      cases reply with
      | exited => exact absurd rfl hreply
      | ok | failed => exact h
    obtain ⟨rest, hrest, rfl⟩ := Option.map_eq_some_iff.mp hmap
    exact ⟨reply, s', rest, hserve, rfl, .inr ⟨hreply, hrest⟩⟩

theorem serve_grows {n : Nat} {s s' : Session} {r : Request} {reply : Reply (Option String)}
    (h : s.serve (State.run n) r = some (reply, s')) : s.world.sink.Grows s'.world.sink := by
  rw [serve_eq] at h
  exact obey_grows h

theorem course_grows {n : Nat} {rs : List Request} {s : Session} {as : Course}
    (h : s.course (State.run n) rs = some as) : s.world.sink.Grows (s.after as).world.sink := by
  induction rs generalizing s as with
  | nil =>
    cases h
    exact .refl
  | cons r rs ih =>
    obtain ⟨reply, s', rest, hserve, rfl, ⟨-, rfl⟩ | ⟨-, hrest⟩⟩ := course_cons h
    · exact serve_grows hserve
    · exact (serve_grows hserve).trans (ih hrest)

theorem course_capped {limit m n : Nat} {rs : List Request} {u : Session} {as bs : Course}
    (hu : u.world.sink.Unlimited) (hfit : u.world.output ≤ limit)
    (has : (u.cap limit).course (State.run n) rs = some as)
    (hbs : u.course (State.run m) rs = some bs) :
    ((u.cap limit).after as).world.sink.Cut limit (u.after bs).world.sink ∧
      ((u.after bs).world.output ≤ limit ∧ as.map Prod.fst = bs.map Prod.fst ∨
        limit < (u.after bs).world.output ∧ Truncated limit n (u.cap limit) rs as bs) := by
  induction rs generalizing u as bs with
  | nil =>
    cases has
    cases hbs
    exact ⟨Sink.cut_cap limit _, .inl ⟨hfit, rfl⟩⟩
  | cons r rs ih =>
    obtain ⟨a, s', as, hserve, rfl, hrest⟩ := course_cons has
    obtain ⟨b, u', bs, hserve', rfl, hrest'⟩ := course_cons hbs
    rcases serve_capped hu hfit hserve' hserve with ⟨hfit', rfl, rfl⟩ | ⟨hlong, hsink, hcut⟩
    · rcases hrest with ⟨hreply, rfl⟩ | ⟨hreply, hrest⟩
      · rcases hrest' with ⟨-, rfl⟩ | ⟨hne, -⟩
        · exact ⟨Sink.cut_cap limit _, .inl ⟨hfit', rfl⟩⟩
        · exact absurd hreply hne
      · rcases hrest' with ⟨he, -⟩ | ⟨-, hrest'⟩
        · exact absurd he hreply
        · have hgrown : u'.world.sink.Unlimited := hu.grows (serve_grows hserve')
          obtain ⟨hsink, hsame | hcut⟩ := ih hgrown hfit' hrest hrest'
          · exact ⟨hsink, .inl ⟨hsame.1, congrArg (a :: ·) hsame.2⟩⟩
          · exact ⟨hsink, .inr ⟨hcut.1, .later rfl hfit' hcut.2⟩⟩
    · -- From here on the two sessions have only their sinks in common.
      have hgrows : s'.world.sink.Grows (s'.after as).world.sink := by
        rcases hrest with ⟨-, rfl⟩ | ⟨-, hrest⟩
        · exact .refl
        · exact course_grows hrest
      have hgrows' : u'.world.sink.Grows (u'.after bs).world.sink := by
        rcases hrest' with ⟨-, rfl⟩ | ⟨-, hrest'⟩
        · exact .refl
        · exact course_grows hrest'
      have hend : (s'.after as).world.sink.Cut limit (u'.after bs).world.sink :=
        hsink.grows (Nat.le_of_lt hlong) hgrows hgrows'
      have hbeyond : limit < (u'.after bs).world.output :=
        Nat.lt_of_lt_of_le hlong hgrows'.size_le
      exact ⟨hend, .inr ⟨hbeyond, .here hlong hcut⟩⟩

/-- A session over a sink that takes a limited number of bytes writes the first bytes of what it
writes over an unlimited one. If all of them fit, the replies are the same as well; and if they do
not, they are the same until one request is cut short. -/
theorem full_sink_truncates (s : Session) (limit : Nat) (rs : List Request) (n m : Nat)
    (as bs : Course) (has : (s.into (.limited limit)).course (State.run n) rs = some as)
    (hbs : (s.into {}).course (State.run m) rs = some bs) :
    let written := ((s.into {}).after bs).world.sink.written
    ((s.into (.limited limit)).after as).world.sink.written = written.extract 0 limit ∧
      (written.size ≤ limit → as.map Prod.fst = bs.map Prod.fst) ∧
      (limit < written.size → Truncated limit n (s.into (.limited limit)) rs as bs) := by
  intro written
  have hcap : s.into (.limited limit) = (s.into {}).cap limit := by
    have hempty : ByteArray.empty.extract 0 limit = .empty := Sink.extract_of_le (Nat.zero_le _)
    simp [Session.into, Session.cap, World.into, World.cap, Sink.cap, Sink.limited, hempty]
  rw [hcap] at has ⊢
  obtain ⟨hsink, hreplies⟩ := course_capped (fun _ _ _ => rfl) (Nat.zero_le _) has hbs
  refine ⟨hsink.written, fun hle => ?_, fun hlt => ?_⟩
  · rcases hreplies with hsame | hcut
    · exact hsame.2
    · exact absurd hcut.1 (Nat.not_lt.mpr hle)
  · rcases hreplies with hsame | hcut
    · exact absurd hlt (Nat.not_lt.mpr hsame.1)
    · exact hcut.2

/-- Of the second text one byte fits, and of the text of the last request none. -/
theorem full_sink_truncates_printing :
    let rs : List Request := [.line "1", .program "print(12); print(34);", .line "print(5)"]
    ∃ as bs, course (State.run 20) (into (.limited 3) {}) rs = some as ∧
      course (State.run 20) (into {} {}) rs = some bs ∧
      ((into {} {}).after bs).world.output = 5 ∧
      Truncated 3 20 (into (.limited 3) {}) rs as bs := by
  intro rs
  have hbs : (course (State.run 20) (into {} {}) rs).map
      (fun bs => ((into {} {}).after bs).world.output) = some 5 := by decide +kernel
  have has : (course (State.run 20) (into (.limited 3) {}) rs).isSome = true := by
    decide +kernel
  obtain ⟨as, has⟩ := Option.isSome_iff_exists.mp has
  obtain ⟨bs, hbs, hfive⟩ := Option.map_eq_some_iff.mp hbs
  refine ⟨as, bs, has, hbs, hfive, ?_⟩
  apply (full_sink_truncates {} 3 rs 20 20 as bs has hbs).2.2
  show 3 < ((into {} {}).after bs).world.output
  omega

end Session

end Script
