import Script.Proofs.ReaderPrograms
import Script.Proofs.Relocation

/-!
# Reading tokens in another place

What a parser reads, and what it objects to, does not depend on where the tokens are. Nor does it
depend on the numbers that bound its recursion, once they are large enough for the tokens at hand.
Both are seen by comparing a parser with another one, whose bounds may differ, on the same tokens in
another place.
-/

namespace Script

section
variable (g : Position → Position)

def Objection.relocate (o : Objection) : Objection := { o with token := o.token.relocate g }

def Tape.relocate (t : Tape) : Tape where
  last := t.last.relocate g
  rest := t.rest.map (Token.relocate g)
  stop := t.stop.relocate g
  loops := t.loops
  objections := t.objections.map (Objection.relocate g)

theorem Expr.relocateAll_eq (es : List Expr) : Expr.relocateAll g es = es.map (Expr.relocate g) := by
  induction es with
  | nil => rfl
  | cons e es ih => rw [relocateAll, ih, List.map_cons]

theorem Stmt.relocateAll_eq (ss : List Stmt) : Stmt.relocateAll g ss = ss.map (Stmt.relocate g) := by
  induction ss with
  | nil => rfl
  | cons s ss ih => rw [relocateAll, ih, List.map_cons]

end

variable {g : Position → Position}

theorem Token.kind_relocate (t : Token) : (t.relocate g).kind = t.kind := rfl

namespace Tape

variable (t : Tape)

theorem peek_relocate : (t.relocate g).peek = t.peek.relocate g := by
  simp only [peek, relocate]
  cases t.rest <;> rfl

theorem skip_relocate : (t.relocate g).skip = t.skip.relocate g := by
  unfold skip
  cases h : t.rest with
  | nil => simp [relocate, h]
  | cons x xs => simp [relocate, h]

theorem atEnd_relocate : (t.relocate g).atEnd = t.atEnd := by
  simp [atEnd, relocate]

theorem landmark_relocate (last : Token) (rest : List Token) :
    landmark (last.relocate g) (rest.map (Token.relocate g)) =
      ((landmark last rest).1.relocate g, (landmark last rest).2.map (Token.relocate g)) := by
  induction rest generalizing last with
  | nil => rfl
  | cons token rest ih =>
    unfold landmark
    by_cases h : (last.kind == .semicolon || token.kind.isLandmark) = true
    · rw [if_pos h]
      exact if_pos h
    · rw [if_neg h, ← ih]
      exact if_neg h

theorem recover_relocate : (t.relocate g).recover = t.recover.relocate g := by
  unfold recover
  cases h : t.rest with
  | nil => simp [relocate, h]
  | cons x xs => simp [relocate, h, landmark_relocate]

end Tape

namespace Parse

variable {α β : Type} {L : Nat}

/-- Tapes with fewer than `L` tokens. -/
def Within (L : Nat) (t : Tape) : Prop := Ended t ∧ t.rest.length < L

/-- On the tapes in `S`, `q` in the other place does what `p` does, and what comes of it is changed
by `f`. -/
def Mirrors (g : Position → Position) (S : Tape → Prop) (f : α → α) (p q : Parse α) : Prop :=
  ∀ t, S t → q (t.relocate g) = ((p t).1.map f, (p t).2.relocate g)

/-! ## Rules -/

section
variable {S : Tape → Prop} {f : α → α} {p q : Parse α}

theorem Within.mono {K : Nat} {t : Tape} (h : Within K t) (hK : K ≤ L) : Within L t :=
  ⟨h.1, Nat.lt_of_lt_of_le h.2 hK⟩

theorem Within.leads {t u : Tape} (h : Within L t) (hu : t.Leads u) : Within L u :=
  ⟨(congrArg Token.kind hu.stop).trans h.1, Nat.lt_of_le_of_lt hu.length_le h.2⟩

theorem Within.skip {t : Tape} (h : Within (L + 1) t) (hrest : t.rest ≠ []) : Within L t.skip := by
  have hlt := Tape.length_skip hrest
  have hle := h.2
  exact ⟨(h.leads (.skip t)).1, by omega⟩

theorem Mirrors.mono {K : Nat} (h : Mirrors g (Within L) f p q) (hK : K ≤ L) :
    Mirrors g (Within K) f p q := fun t ht => h t (ht.mono hK)

theorem mirrors_zero : Mirrors g (Within 0) f p q := fun _ ht => absurd ht.2 (Nat.not_lt_zero _)

theorem mirrors_pure {a b : α} (h : b = f a) : Mirrors g S f (pure a) (pure b) := by
  subst h
  exact fun t _ => rfl

/-- The second parser starts where the first one stops, on a tape in `S'`. -/
theorem Mirrors.bind_to {S' : Tape → Prop} {h : β → β} {F G : α → Parse β}
    (hp : Mirrors g S f p q) (hto : ∀ t a, S t → (p t).1 = some a → S' (p t).2)
    (hF : ∀ a, Mirrors g S' h (F a) (G (f a))) : Mirrors g S h (p >>= F) (q >>= G) := by
  intro t ht
  have hq := hp t ht
  have hnext := hto t
  rcases hpt : p t with ⟨_ | a, u⟩ <;> rw [hpt] at hq hnext
  · rw [bind_none hpt, bind_none hq]
    rfl
  · rw [bind_some hpt, bind_some hq]
    exact hF a u (hnext a ht rfl)

theorem Mirrors.bind {h : β → β} {F G : α → Parse β} (hp : Mirrors g (Within L) f p q)
    (hm : Moves p) (hF : ∀ a, Mirrors g (Within L) h (F a) (G (f a))) :
    Mirrors g (Within L) h (p >>= F) (q >>= G) :=
  hp.bind_to (fun t _ ht _ => ht.leads (hm t)) hF

/-- A token less is left for the second parser. -/
theorem Mirrors.bind_takes {h : β → β} {F G : α → Parse β} (hp : Mirrors g (Within (L + 1)) f p q)
    (hm : Moves p) (ht : Takes Ended p) (hF : ∀ a, Mirrors g (Within L) h (F a) (G (f a))) :
    Mirrors g (Within (L + 1)) h (p >>= F) (q >>= G) := by
  refine hp.bind_to (fun t a hL ha => ?_) hF
  have hlt := ht t a hL.1 ha
  have hle := hL.2
  exact ⟨(hL.leads (hm t)).1, by omega⟩

theorem Mirrors.map {h : β → β} {k : α → β} (hp : Mirrors g (Within L) f p q)
    (hk : ∀ a, k (f a) = h (k a)) (hm : Moves p) :
    Mirrors g (Within L) h (k <$> p) (k <$> q) := by
  rw [← bind_pure_comp, ← bind_pure_comp]
  exact hp.bind hm fun a => mirrors_pure (hk a)

theorem Mirrors.ite {c : Prop} [Decidable c] {p' q' : Parse α} (hp : Mirrors g S f p q)
    (hp' : Mirrors g S f p' q') :
    Mirrors g S f (if c then p else p') (if c then q else q') := by
  split
  · exact hp
  · exact hp'

theorem mirrors_peek {F G : Token → Parse α}
    (hF : ∀ token, Mirrors g (fun t => Within L t ∧ Faces token t) f (F token)
      (G (token.relocate g))) :
    Mirrors g (Within L) f (peek >>= F) (peek >>= G) := by
  intro t ht
  have h := hF t.peek t ⟨ht, faces_peek ht.1⟩
  rw [← Tape.peek_relocate] at h
  exact h

theorem Mirrors.facing (hp : Mirrors g (Within L) f p q) (token : Token) :
    Mirrors g (fun t => Within L t ∧ Faces token t) f p q := fun t ht => hp t ht.1

theorem mirrors_skip {token : Token} {k : Kind} (hk : token.kind = k) (hne : k ≠ .finish)
    (hp : Mirrors g (Within L) f p q) :
    Mirrors g (fun t => Within (L + 1) t ∧ Faces token t) f (skip >>= fun _ => p)
      (skip >>= fun _ => q) := by
  intro t ht
  have hrest := ht.2.2 (by rwa [hk])
  show q (t.relocate g).skip = _
  rw [Tape.skip_relocate]
  exact hp t.skip (ht.1.skip hrest)

theorem mirrors_loops : Mirrors g S id loops loops := fun _ _ => rfl

theorem mirrors_atEnd : Mirrors g S id atEnd atEnd := by
  intro t _
  simp only [atEnd, Tape.atEnd_relocate]
  rfl

theorem mirrors_object {token : Token} {c : Complaint} :
    Mirrors g S id (object token c) (object (token.relocate g) c) := fun _ _ => rfl

theorem mirrors_objectIf {b b' : Prop} [Decidable b] [Decidable b'] {token : Token}
    {c : Complaint} (hb : b' ↔ b) :
    Mirrors g S id (objectIf b token c) (objectIf b' (token.relocate g) c) := by
  unfold objectIf
  simp only [hb]
  exact mirrors_object.ite (mirrors_pure rfl)

theorem mirrors_refuse {token : Token} {c : Complaint} :
    Mirrors g S f (refuse token c) (refuse (token.relocate g) c) := fun _ _ => rfl

theorem mirrors_sees {k : Kind} : Mirrors g S id (sees k) (sees k) := by
  intro t _
  simp only [sees, Tape.relocate, List.head?_map, Option.any_map]
  rfl

theorem mirrors_expect {k : Kind} {c : Complaint} :
    Mirrors g S (Token.relocate g) (expect k c) (expect k c) := by
  intro t _
  cases hrest : t.rest with
  | nil =>
    rw [expect_nil hrest, expect_nil (by simp [Tape.relocate, hrest])]
    rfl
  | cons x xs =>
    have hrest' : (t.relocate g).rest = x.relocate g :: xs.map (Token.relocate g) := by
      simp [Tape.relocate, hrest]
    rw [expect_cons hrest, expect_cons hrest', Token.kind_relocate]
    by_cases hx : x.kind = k
    · rw [if_pos hx, if_pos hx, Tape.skip_relocate]
      rfl
    · rw [if_neg hx, if_neg hx]
      rfl

/-- Behind an operator there is a token less. -/
theorem mirrors_acceptAny {ks : List Kind} {F G : Option Token → Parse α}
    (hsome : ∀ op, Mirrors g (Within L) f (F (some op)) (G (some (op.relocate g))))
    (hnone : Mirrors g (Within (L + 1)) f (F none) (G none)) :
    Mirrors g (Within (L + 1)) f (acceptAny ks >>= F) (acceptAny ks >>= G) := by
  intro t ht
  cases hrest : t.rest with
  | nil =>
    rw [bind_some (acceptAny_nil hrest), bind_some (acceptAny_nil (by simp [Tape.relocate, hrest]))]
    exact hnone t ht
  | cons x xs =>
    have hrest' : (t.relocate g).rest = x.relocate g :: xs.map (Token.relocate g) := by
      simp [Tape.relocate, hrest]
    have hx := acceptAny_cons (k := ks) hrest
    have hx' := acceptAny_cons (k := ks) hrest'
    rw [Token.kind_relocate] at hx'
    by_cases hk : x.kind ∈ ks
    · rw [if_pos hk] at hx hx'
      rw [Tape.skip_relocate] at hx'
      rw [bind_some hx, bind_some hx']
      exact hsome x t.skip (ht.skip (by simp [hrest]))
    · rw [if_neg hk] at hx hx'
      rw [bind_some hx, bind_some hx']
      exact hnone t ht

theorem lacks_relocate {k : Kind} {ts : List Token} :
    Lacks k (ts.map (Token.relocate g)) ↔ Lacks k ts := by
  cases ts with
  | nil => simp [Lacks]
  | cons x xs => simp [Lacks, Token.relocate]

theorem mirrors_accept {k : Kind} : Mirrors g S id (accept k) (accept k) := by
  intro t _
  by_cases hk : Lacks k t.rest
  · rw [accept_lacks hk, accept_lacks (lacks_relocate.mpr hk)]
    rfl
  · obtain ⟨x, xs, hrest, hx⟩ := not_lacks hk
    have hrest' : (t.relocate g).rest = x.relocate g :: xs.map (Token.relocate g) := by
      simp [Tape.relocate, hrest]
    rw [accept_cons hrest hx, accept_cons hrest' hx, Tape.skip_relocate]
    rfl

/-- Behind the token there is one less. -/
theorem mirrors_accept_takes {k : Kind} {p' q' : Parse α} (hp : Mirrors g (Within L) f p q)
    (hp' : Mirrors g (Within (L + 1)) f p' q') :
    Mirrors g (Within (L + 1)) f (accept k >>= fun b => if b then p else p')
      (accept k >>= fun b => if b then q else q') := by
  intro t ht
  have hq := mirrors_accept (g := g) (k := k) t ht
  by_cases hk : Lacks k t.rest
  · rw [accept_lacks hk] at hq
    rw [bind_some hq, bind_some (accept_lacks hk)]
    exact hp' t ht
  · obtain ⟨x, xs, hrest, hx⟩ := not_lacks hk
    rw [accept_cons hrest hx] at hq
    rw [bind_some hq, bind_some (accept_cons hrest hx)]
    exact hp t.skip (ht.skip (by simp [hrest]))

theorem Mirrors.withLoops {change : Nat → Nat} (hp : Mirrors g (Within L) f p q) :
    Mirrors g (Within L) f (withLoops change p) (withLoops change q) := by
  intro t ht
  have h := hp { t with loops := change t.loops } ht
  have hq : q { t.relocate g with loops := change (t.relocate g).loops } = _ := h
  simp only [Parse.withLoops, hq]
  rfl

theorem Mirrors.optionally {k : Kind} (hp : Mirrors g (Within L) f p q) (hm : Moves p) :
    Mirrors g (Within L) (Option.map f) (optionally k p) (optionally k q) := by
  refine mirrors_sees.bind (moves_sees k) fun b => ?_
  exact (mirrors_pure rfl).ite (hp.map (fun _ => rfl) hm)

end

/-! ## Expressions -/

theorem join_relocate (left : Expr) (op : Token) (right : Expr) :
    join (left.relocate g) (op.relocate g) (right.relocate g) = (join left op right).relocate g := by
  unfold join
  by_cases h : (op.kind == .orOr || op.kind == .andAnd) = true
  · rw [if_pos h]
    exact if_pos h
  · rw [if_neg h]
    exact if_neg h

section
variable {p q : Parse Expr} (hm : Moves p) (hp : Mirrors g (Within L) (Expr.relocate g) p q)
include hm hp

theorem chain_mirrors {ops : List Kind} {K n m : Nat} (hK : K ≤ L) (hn : K ≤ n) (hn' : K ≤ m)
    (left : Expr) :
    Mirrors g (Within K) (Expr.relocate g) (chain ops p n left)
      (chain ops q m (left.relocate g)) := by
  induction K generalizing n m left with
  | zero => exact mirrors_zero
  | succ K ih =>
    obtain ⟨n, rfl⟩ := Nat.exists_eq_add_one.mpr (Nat.zero_lt_of_lt hn)
    obtain ⟨m, rfl⟩ := Nat.exists_eq_add_one.mpr (Nat.zero_lt_of_lt hn')
    refine mirrors_acceptAny (fun op => ?_) (mirrors_pure rfl)
    refine (hp.mono (by omega)).bind hm fun right => ?_
    rw [join_relocate]
    exact ih (by omega) (by omega) (by omega) _

theorem operation_mirrors {n m : Nat} (hn : L ≤ n) (hn' : L ≤ m) : ∀ levels : List (List Kind),
    Mirrors g (Within L) (Expr.relocate g) (operation n p levels) (operation m q levels)
  | [] => hp
  | _ :: tighter => by
    have htight := operation_mirrors hn hn' tighter
    have hmoves := operation_moves n hm tighter
    exact htight.bind hmoves fun left => chain_mirrors hmoves htight (Nat.le_refl L) hn hn' left

theorem moreArguments_mirrors {K n m : Nat} (hK : K ≤ L) (hn : K ≤ n) (hn' : K ≤ m)
    (args : List Expr) :
    Mirrors g (Within K) (List.map (Expr.relocate g)) (moreArguments p n args)
      (moreArguments q m (args.map (Expr.relocate g))) := by
  induction K generalizing n m args with
  | zero => exact mirrors_zero
  | succ K ih =>
    obtain ⟨n, rfl⟩ := Nat.exists_eq_add_one.mpr (Nat.zero_lt_of_lt hn)
    obtain ⟨m, rfl⟩ := Nat.exists_eq_add_one.mpr (Nat.zero_lt_of_lt hn')
    rw [moreArguments_succ, moreArguments_succ, List.length_map]
    refine mirrors_accept_takes ?_ (mirrors_pure (List.map_reverse).symm)
    refine mirrors_peek fun next => Mirrors.facing ?_ next
    refine (mirrors_objectIf .rfl).bind (moves_objectIf _ next _) fun _ => ?_
    exact (hp.mono (by omega)).bind hm fun e => ih (by omega) (by omega) (by omega) (e :: args)

theorem arguments_mirrors {n m : Nat} (hn : L ≤ n) (hn' : L ≤ m) :
    Mirrors g (Within L) (List.map (Expr.relocate g)) (arguments n p) (arguments m q) := by
  rw [arguments_eq, arguments_eq]
  have hargs : Mirrors g (Within L) (List.map (Expr.relocate g))
      (do moreArguments p n [← p]) (do moreArguments q m [← q]) :=
    hp.bind hm fun e => moreArguments_mirrors hm hp (Nat.le_refl L) hn hn' [e]
  have hmoves : Moves (do moreArguments p n [← p]) := hm.bind fun e => moreArguments_moves hm n [e]
  refine (hargs.optionally hmoves).bind (hmoves.optionally _) fun args => mirrors_pure ?_
  cases args <;> rfl

theorem calls_mirrors {K n m : Nat} (hK : K ≤ L + 1) (hn : K ≤ n) (hn' : K ≤ m) (callee : Expr) :
    Mirrors g (Within K) (Expr.relocate g) (calls p n callee)
      (calls q m (callee.relocate g)) := by
  induction K generalizing n m callee with
  | zero => exact mirrors_zero
  | succ K ih =>
    obtain ⟨n, rfl⟩ := Nat.exists_eq_add_one.mpr (Nat.zero_lt_of_lt hn)
    obtain ⟨m, rfl⟩ := Nat.exists_eq_add_one.mpr (Nat.zero_lt_of_lt hn')
    refine mirrors_accept_takes ?_ (mirrors_pure rfl)
    have hargs := arguments_mirrors hm (hp.mono (K := K) (by omega)) (n := n) (m := m) (by omega)
      (by omega)
    refine hargs.bind (arguments_moves hm n) fun args => ?_
    refine mirrors_expect.bind (moves_expect _ _) fun paren => ?_
    rw [← Expr.relocateAll_eq]
    exact ih (by omega) (by omega) (by omega) (.call callee paren args)

end

theorem literal_mirrors {S : Tape → Prop} (token : Token) : Mirrors g S (Expr.relocate g)
    (match token.literal with
      | some value => pure (Expr.constant value.toConstant)
      | none => refuse token .literalWithoutValue)
    (match (token.relocate g).literal with
      | some value => pure (Expr.constant value.toConstant)
      | none => refuse (token.relocate g) .literalWithoutValue) := by
  show Mirrors g S _ _ (match token.literal with | some _ => _ | none => _)
  cases token.literal with
  | some value => exact mirrors_pure rfl
  | none => exact mirrors_refuse

theorem primary_mirrors {p q : Parse Expr} (hm : Moves p)
    (hp : Mirrors g (Within L) (Expr.relocate g) p q) :
    Mirrors g (Within (L + 1)) (Expr.relocate g) (primary p) (primary q) := by
  refine mirrors_peek fun token => ?_
  rw [Token.kind_relocate]
  split
  case h_1 hk | h_2 hk | h_3 hk | h_6 hk => exact mirrors_skip hk (by decide) (mirrors_pure rfl)
  case h_4 hk | h_5 hk => exact mirrors_skip hk (by decide) (literal_mirrors token)
  case h_7 hk =>
    refine mirrors_skip hk (by decide) (hp.bind hm fun e => ?_)
    exact mirrors_expect.bind (moves_expect _ _) fun _ => mirrors_pure rfl
  case h_8 hk | h_9 hk | h_10 hk => exact mirrors_skip hk (by decide) mirrors_refuse
  · exact mirrors_refuse

theorem assignment_mirrors {S : Tape → Prop} (target value : Expr) :
    Mirrors g S (Expr.relocate g) (assignment target value)
      (assignment (target.relocate g) (value.relocate g)) := by
  cases target with
  | reference name => exact mirrors_pure rfl
  | _ => exact fun _ _ => rfl

mutual

theorem operand_mirrors {n m : Nat} : ∀ {L : Nat}, 2 * L ≤ n + 1 → 2 * L ≤ m + 1 →
    Mirrors g (Within L) (Expr.relocate g) (operand n) (operand m)
  | 0, _, _ => mirrors_zero
  | L + 1, hn, hm => by
    obtain ⟨n, rfl⟩ : ∃ k, n = k + 1 := ⟨n - 1, by omega⟩
    obtain ⟨m, rfl⟩ : ∃ k, m = k + 1 := ⟨m - 1, by omega⟩
    unfold operand
    refine mirrors_acceptAny (fun op => ?_) ?_
    · refine (operand_mirrors (by omega) (by omega)).bind (operand_moves n) fun e => ?_
      exact mirrors_pure rfl
    · have he : Mirrors g (Within L) _ (expression n) (expression m) :=
        expression_mirrors (by omega) (by omega)
      have hmoves := expression_moves n
      -- The callee has taken a token, so that the bounds are large enough for the calls behind it.
      refine (primary_mirrors hmoves he).bind_takes (primary_moves hmoves) (primary_takes hmoves)
        fun callee => ?_
      exact calls_mirrors hmoves he (by omega) (by omega) (by omega) callee
termination_by L => (L, 0)

theorem expression_mirrors {n m : Nat} : ∀ {L : Nat}, 2 * L ≤ n → 2 * L ≤ m →
    Mirrors g (Within L) (Expr.relocate g) (expression n) (expression m)
  | 0, _, _ => mirrors_zero
  | L + 1, hn, hm => by
    obtain ⟨n, rfl⟩ : ∃ k, n = k + 1 := ⟨n - 1, by omega⟩
    obtain ⟨m, rfl⟩ : ∃ k, m = k + 1 := ⟨m - 1, by omega⟩
    unfold expression
    have ho : Mirrors g (Within (L + 1)) _ (operand n) (operand m) :=
      operand_mirrors (by omega) (by omega)
    have hop := operation_mirrors (operand_moves n) ho (n := n) (m := m) (by omega) (by omega)
    refine (hop precedence).bind (operation_moves n (operand_moves n) _) fun target => ?_
    refine mirrors_accept_takes ?_ (mirrors_pure rfl)
    refine (expression_mirrors (by omega) (by omega)).bind (expression_moves n) fun value => ?_
    exact assignment_mirrors target value
termination_by L => (L, 1)

end

/-! ## Statements -/

theorem any_source_relocate (params : List Token) (param : Token) :
    (params.map (Token.relocate g)).any (·.source == (param.relocate g).source) =
      params.any (·.source == param.source) := by
  rw [List.any_map]
  rfl

theorem parameters_mirrors {n m : Nat} : ∀ {L : Nat}, L ≤ n → L ≤ m → ∀ params : List Token,
    Mirrors g (Within L) (List.map (Token.relocate g)) (parameters n params)
      (parameters m (params.map (Token.relocate g))) := by
  intro L hn hm params
  induction L generalizing n m params with
  | zero => exact mirrors_zero
  | succ L ih =>
    obtain ⟨n, rfl⟩ := Nat.exists_eq_add_one.mpr (Nat.zero_lt_of_lt hn)
    obtain ⟨m, rfl⟩ := Nat.exists_eq_add_one.mpr (Nat.zero_lt_of_lt hm)
    rw [parameters_succ, parameters_succ, List.length_map]
    refine mirrors_peek fun next => Mirrors.facing ?_ next
    refine (mirrors_objectIf .rfl).bind (moves_objectIf _ next _) fun _ => ?_
    refine mirrors_expect.bind_takes (moves_expect _ _) (takes_expect _ _) fun param => ?_
    have hany := Bool.eq_iff_iff.mp (any_source_relocate (g := g) params param)
    refine (mirrors_objectIf hany).bind (moves_objectIf _ param _) fun _ => ?_
    refine mirrors_accept.bind (moves_accept _) fun _ => Mirrors.ite ?_ (mirrors_pure ?_)
    · exact ih (by omega) (by omega) (param :: params)
    · rw [List.map_reverse, List.map_cons]

theorem functionDeclaration_mirrors {n m : Nat} {block block' : Parse (List Stmt)} (hn : L ≤ n)
    (hm : L ≤ m) (hmoves : Moves block)
    (hb : Mirrors g (Within L) (List.map (Stmt.relocate g)) block block') :
    Mirrors g (Within L) (Stmt.relocate g) (functionDeclaration n block)
      (functionDeclaration m block') := by
  rw [functionDeclaration_eq, functionDeclaration_eq]
  refine mirrors_expect.bind (moves_expect _ _) fun name => ?_
  refine mirrors_expect.bind (moves_expect _ _) fun _ => ?_
  have hparams := parameters_moves n []
  refine ((parameters_mirrors hn hm []).optionally hparams).bind (hparams.optionally _)
    fun params => ?_
  refine mirrors_expect.bind (moves_expect _ _) fun _ => ?_
  refine mirrors_expect.bind (moves_expect _ _) fun _ => ?_
  refine hb.withLoops.bind (hmoves.withLoops _) fun body => mirrors_pure ?_
  rw [Stmt.relocate, Stmt.relocateAll_eq]
  cases params <;> rfl

theorem loopControl_mirrors (keyword : Token) : Mirrors g (Within L) (Stmt.relocate g)
    (loopControl keyword) (loopControl (keyword.relocate g)) := by
  rw [loopControl_eq, loopControl_eq]
  refine mirrors_loops.bind moves_loops fun n => ?_
  refine (mirrors_objectIf .rfl).bind (moves_objectIf _ keyword _) fun _ => ?_
  refine mirrors_expect.bind (moves_expect _ _) fun _ => mirrors_pure ?_
  rw [Token.kind_relocate]
  split <;> rfl

section
variable {expr expr' : Parse Expr} (hme : Moves expr)
  (he : Mirrors g (Within L) (Expr.relocate g) expr expr')
include hme he

theorem variableDeclaration_mirrors : Mirrors g (Within L) (Stmt.relocate g)
    (variableDeclaration expr) (variableDeclaration expr') := by
  rw [variableDeclaration_eq, variableDeclaration_eq]
  have hvalue : Mirrors g (Within L) (Option.map (Expr.relocate g)) (initialiser expr)
      (initialiser expr') := by
    refine mirrors_accept.bind (moves_accept _) fun _ => Mirrors.ite ?_ (mirrors_pure rfl)
    exact he.map (fun _ => rfl) hme
  have hmoves : Moves (initialiser expr) :=
    (moves_accept _).bind fun _ => (hme.map some).ite (moves_pure none)
  refine mirrors_expect.bind (moves_expect _ _) fun name => hvalue.bind hmoves fun value => ?_
  exact mirrors_expect.bind (moves_expect _ _) fun _ => mirrors_pure rfl

theorem expressionStatement_mirrors : Mirrors g (Within L) (Stmt.relocate g)
    (expressionStatement expr) (expressionStatement expr') :=
  he.bind hme fun _ => mirrors_expect.bind (moves_expect _ _) fun _ => mirrors_pure rfl

theorem returnStatement_mirrors (keyword : Token) : Mirrors g (Within L) (Stmt.relocate g)
    (returnStatement expr keyword) (returnStatement expr' (keyword.relocate g)) := by
  rw [returnStatement_eq, returnStatement_eq]
  refine (he.optionally hme).bind (hme.optionally _) fun value => ?_
  exact mirrors_expect.bind (moves_expect _ _) fun _ => mirrors_pure rfl

theorem firstClause_mirrors : Mirrors g (Within L) (Option.map (Stmt.relocate g))
    (firstClause expr) (firstClause expr') := by
  refine mirrors_accept.bind (moves_accept _) fun _ => (mirrors_pure rfl).ite ?_
  refine mirrors_accept.bind (moves_accept _) fun _ => Mirrors.ite ?_ ?_
  · exact (variableDeclaration_mirrors hme he).map (fun _ => rfl) (variableDeclaration_moves hme)
  · exact (expressionStatement_mirrors hme he).map (fun _ => rfl) (expressionStatement_moves hme)

variable {stmt stmt' : Parse Stmt} (hms : Moves stmt)
  (hs : Mirrors g (Within L) (Stmt.relocate g) stmt stmt')
include hms hs

theorem forStatement_mirrors : Mirrors g (Within L) (Stmt.relocate g) (forStatement expr stmt)
    (forStatement expr' stmt') := by
  rw [forStatement_eq, forStatement_eq]
  refine mirrors_expect.bind (moves_expect _ _) fun _ => ?_
  refine (firstClause_mirrors hme he).bind (firstClause_moves hme) fun first => ?_
  refine (he.optionally hme).bind (hme.optionally _) fun c => ?_
  refine mirrors_expect.bind (moves_expect _ _) fun _ => ?_
  refine (he.optionally hme).bind (hme.optionally _) fun i => ?_
  refine mirrors_expect.bind (moves_expect _ _) fun _ => ?_
  refine hs.withLoops.bind (hms.withLoops _) fun body => mirrors_pure ?_
  cases first <;> cases c <;> rfl

theorem whileStatement_mirrors : Mirrors g (Within L) (Stmt.relocate g)
    (whileStatement expr stmt) (whileStatement expr' stmt') := by
  refine mirrors_expect.bind (moves_expect _ _) fun _ => he.bind hme fun c => ?_
  refine mirrors_expect.bind (moves_expect _ _) fun _ => ?_
  exact hs.withLoops.bind (hms.withLoops _) fun body => mirrors_pure rfl

theorem ifStatement_mirrors : Mirrors g (Within L) (Stmt.relocate g) (ifStatement expr stmt)
    (ifStatement expr' stmt') := by
  refine mirrors_expect.bind (moves_expect _ _) fun _ => he.bind hme fun c => ?_
  refine mirrors_expect.bind (moves_expect _ _) fun _ => hs.bind hms fun body => ?_
  refine mirrors_accept.bind (moves_accept _) fun _ => Mirrors.ite ?_ (mirrors_pure rfl)
  exact hs.bind hms fun otherwise => mirrors_pure rfl

end

theorem closing_relocate (closing : Option Kind) (t : Tape) :
    ((t.relocate g).atEnd || closing == some (t.relocate g).peek.kind) =
      (t.atEnd || closing == some t.peek.kind) := by
  rw [Tape.atEnd_relocate, Tape.peek_relocate, Token.kind_relocate]

/-- A declaration that is left out, or read, leaves fewer tokens. -/
theorem declared_mirrors {declaration declaration' : Parse Stmt} (closing : Option Kind)
    (hm : Moves declaration) (ht : Takes Ended declaration)
    (hd : Mirrors g (Within L) (Stmt.relocate g) declaration declaration') {K n m : Nat}
    (hK : K ≤ L) (hn : K ≤ n) (hn' : K ≤ m) (body : List Stmt) :
    Mirrors g (Within K) (List.map (Stmt.relocate g)) (declared declaration closing n body)
      (declared declaration' closing m (body.map (Stmt.relocate g))) := by
  induction K generalizing n m body with
  | zero => exact mirrors_zero
  | succ K ih =>
    obtain ⟨n, rfl⟩ := Nat.exists_eq_add_one.mpr (Nat.zero_lt_of_lt hn)
    obtain ⟨m, rfl⟩ := Nat.exists_eq_add_one.mpr (Nat.zero_lt_of_lt hn')
    intro t hw
    unfold declared declarations
    rw [closing_relocate]
    by_cases hend : (t.atEnd || closing == some t.peek.kind) = true
    · rw [if_pos hend, if_pos hend]
      simp [List.map_reverse]
    · rw [if_neg hend, if_neg hend]
      have hrest : t.rest ≠ [] := by
        intro hnil
        simp [Tape.atEnd, hnil] at hend
      have hlt := hw.2
      have hleads := hm t
      have htakes := ht t
      rw [hd t (hw.mono hK)]
      rcases hdt : declaration t with ⟨_ | s, u⟩ <;> rw [hdt] at hleads htakes
      · have hshort : u.recover.rest.length < t.rest.length := hleads.length_recover hrest
        have hu : Within K u.recover :=
          ⟨((hw.leads hleads).leads (.recover u)).1, by omega⟩
        have h := ih (n := n) (m := m) (by omega) (by omega) (by omega) body u.recover hu
        rw [← Tape.recover_relocate] at h
        exact h
      · have hshort : u.rest.length < t.rest.length := htakes s hw.1 rfl
        have hu : Within K u := ⟨(hw.leads hleads).1, by omega⟩
        exact ih (by omega) (by omega) (by omega) (s :: body) u hu

mutual

theorem statement_mirrors {n m : Nat} : ∀ {L : Nat}, 3 * L ≤ n → 3 * L ≤ m →
    Mirrors g (Within L) (Stmt.relocate g) (statement n) (statement m)
  | 0, _, _ => mirrors_zero
  | L + 1, hn, hm => by
    obtain ⟨n, rfl⟩ : ∃ k, n = k + 1 := ⟨n - 1, by omega⟩
    obtain ⟨m, rfl⟩ : ∃ k, m = k + 1 := ⟨m - 1, by omega⟩
    unfold statement
    have hme := expression_moves n
    have hms := statement_moves n
    have he : Mirrors g (Within L) _ (expression n) (expression m) :=
      expression_mirrors (by omega) (by omega)
    have hs : Mirrors g (Within L) _ (statement n) (statement m) :=
      statement_mirrors (by omega) (by omega)
    refine mirrors_peek fun token => ?_
    rw [Token.kind_relocate]
    split
    case h_1 hk => exact mirrors_skip hk (by decide) (returnStatement_mirrors hme he token)
    case h_2 hk => exact mirrors_skip hk (by decide) (forStatement_mirrors hme he hms hs)
    case h_3 hk => exact mirrors_skip hk (by decide) (whileStatement_mirrors hme he hms hs)
    case h_4 hk | h_5 hk => exact mirrors_skip hk (by decide) (loopControl_mirrors token)
    case h_6 hk => exact mirrors_skip hk (by decide) (ifStatement_mirrors hme he hms hs)
    case h_7 hk =>
      refine mirrors_skip hk (by decide) ?_
      refine (block_mirrors (by omega) (by omega)).map (fun body => ?_) (block_moves n)
      rw [Stmt.relocate, Stmt.relocateAll_eq]
    · refine Mirrors.facing ?_ token
      exact expressionStatement_mirrors hme (expression_mirrors (by omega) (by omega))
termination_by L => (L, 0)

theorem declaration_mirrors {n m : Nat} : ∀ {L : Nat}, 3 * L + 1 ≤ n → 3 * L + 1 ≤ m →
    Mirrors g (Within L) (Stmt.relocate g) (declaration n) (declaration m)
  | 0, _, _ => mirrors_zero
  | L + 1, hn, hm => by
    obtain ⟨n, rfl⟩ : ∃ k, n = k + 1 := ⟨n - 1, by omega⟩
    obtain ⟨m, rfl⟩ : ∃ k, m = k + 1 := ⟨m - 1, by omega⟩
    unfold declaration
    refine mirrors_peek fun token => ?_
    rw [Token.kind_relocate]
    split
    case h_1 hk =>
      have hb : Mirrors g (Within L) _ (block n) (block m) := block_mirrors (by omega) (by omega)
      exact mirrors_skip hk (by decide)
        (functionDeclaration_mirrors (by omega) (by omega) (block_moves n) hb)
    case h_2 hk =>
      have he : Mirrors g (Within L) _ (expression n) (expression m) :=
        expression_mirrors (by omega) (by omega)
      exact mirrors_skip hk (by decide) (variableDeclaration_mirrors (expression_moves n) he)
    · exact (statement_mirrors (by omega) (by omega)).facing token
termination_by L => (L, 1)

theorem block_mirrors {n m L : Nat} (hn : 3 * L + 2 ≤ n) (hm : 3 * L + 2 ≤ m) :
    Mirrors g (Within L) (List.map (Stmt.relocate g)) (block n) (block m) := by
  obtain ⟨n, rfl⟩ : ∃ k, n = k + 1 := ⟨n - 1, by omega⟩
  obtain ⟨m, rfl⟩ : ∃ k, m = k + 1 := ⟨m - 1, by omega⟩
  rw [block_succ, block_succ]
  have hmoves := declaration_moves n
  have hd : Mirrors g (Within L) _ (declaration n) (declaration m) :=
    declaration_mirrors (by omega) (by omega)
  refine (declared_mirrors _ hmoves (declaration_takes n) hd (Nat.le_refl L) (by omega) (by omega)
    []).bind (declared_moves hmoves _ n []) fun body => ?_
  exact mirrors_expect.bind (moves_expect _ _) fun _ => mirrors_pure rfl
termination_by (L, 2)

end

/-! ## Bounds -/

/-- With every token left in its place, the second parser does what the first one does. -/
theorem mirrors_id {α : Type} {S : Tape → Prop} {f : α → α} {p q : Parse α} (hf : ∀ a, f a = a) :
    Mirrors id S f p q ↔ ∀ t, S t → q t = p t := by
  have hid : ∀ u : Tape, u.relocate id = u := fun u => by
    have hobjections : u.objections.map (Objection.relocate id) = u.objections := List.map_id _
    simp only [Tape.relocate, Token.map_relocate_id, hobjections]
    rfl
  simp only [Mirrors, hid, funext hf, Option.map_id']

theorem Mirrors.bound {α : Type} {S : Tape → Prop} {f : α → α} {p q : Parse α}
    (h : Mirrors id S f p q) (hf : ∀ a, f a = a) {t : Tape} (ht : S t) : q t = p t :=
  (mirrors_id hf).mp h t ht

theorem expression_bound {n m : Nat} {t : Tape} (ht : Ended t) (hn : 2 * t.rest.length + 2 ≤ n)
    (hm : 2 * t.rest.length + 2 ≤ m) : expression m t = expression n t :=
  (expression_mirrors (L := t.rest.length + 1) (by omega) (by omega)).bound Expr.relocate_id
    ⟨ht, Nat.lt_succ_self _⟩

end Parse

/-! ## Programs -/

section
variable (g)

def Parsed.relocate {α : Type} (f : α → α) (x : Parsed α) : Parsed α :=
  ⟨f x.tree, x.objections.map (Objection.relocate g)⟩

end

theorem Tape.ofTokens_relocate {ts : List Token} (h : ts ≠ []) :
    ofTokens (ts.map (Token.relocate g)) = (ofTokens ts).relocate g := by
  have hfinish : Token.isFinish ∘ Token.relocate g = Token.isFinish := rfl
  have hwords : (fun t : Token => !t.isFinish) ∘ Token.relocate g = (!·.isFinish) := rfl
  have hstop : ((ts.map (Token.relocate g)).find? Token.isFinish).getD
      (.finish (((ts.map (Token.relocate g)).getLast?.map Token.start).getD .start)) =
      ((ts.find? Token.isFinish).getD
        (.finish ((ts.getLast?.map Token.start).getD .start))).relocate g := by
    rw [List.find?_map, hfinish, List.getLast?_map]
    cases ts.find? Token.isFinish with
    | some eof => rfl
    | none =>
      obtain ⟨last, hlast⟩ := Option.isSome_iff_exists.mp (List.getLast?_isSome.mpr h)
      rw [hlast]
      rfl
  simp only [ofTokens, relocate, hstop, List.takeWhile_map, hwords]
  congr 1
  cases ts with
  | nil => exact absurd rfl h
  | cons x xs => rfl

theorem Tape.nesting_relocate (t : Tape) : (t.relocate g).nesting = t.nesting := by
  simp [nesting, relocate]

/-- The tokens up to the end are read alike, if the bounds are large enough. -/
theorem Tape.finish_relocate {n m : Nat} {t : Tape} (ht : Parse.Ended t)
    (hn : 3 * t.rest.length + 4 ≤ n) (hm : 3 * t.rest.length + 4 ≤ m) (body : List Stmt) :
    (t.relocate g).finish m (body.map (Stmt.relocate g)) =
      (t.finish n body).relocate g (List.map (Stmt.relocate g)) := by
  have hd : Parse.Mirrors g (Parse.Within (t.rest.length + 1)) _ (Parse.declaration n)
      (Parse.declaration m) := Parse.declaration_mirrors (by omega) (by omega)
  have h := Parse.declared_mirrors none (Parse.declaration_moves n)
    (Parse.declaration_takes n) hd (Nat.le_refl _) (n := n) (m := m) (by omega) (by omega) body t
    ⟨ht, Nat.lt_succ_self _⟩
  simp only [Parse.declared, Prod.mk.injEq, Option.map_some, Option.some.injEq] at h
  simp only [finish, h.1, h.2]
  exact congrArg (Parsed.mk _) List.map_reverse.symm

theorem parseProgram_relocate {ts : List Token} (h : ts ≠ []) :
    parseProgram (ts.map (Token.relocate g)) =
      (parseProgram ts).relocate g (List.map (Stmt.relocate g)) := by
  rw [parseProgram_eq, parseProgram_eq, Tape.ofTokens_relocate h, Tape.nesting_relocate]
  exact Tape.finish_relocate (Tape.ended_ofTokens ts) (Nat.le_succ _) (Nat.le_succ _) []

end Script
