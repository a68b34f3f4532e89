import Mathlib.Data.List.Nodup
import Script.Proofs.ReaderPrograms

/-!
# Soundness of the parser

A reading that leaves no objection behind has taken tokens off the front of the tape, and they are,
by the grammar, what was read. Rules for the ways in which parsers are put together carry this from
the single token up to the whole program; an objection is never withdrawn, so a reading without one
had none on the way.
-/

namespace Script

theorem Tape.objections_recover (t : Tape) : t.recover.objections = t.objections := by
  unfold Tape.recover
  split <;> rfl

namespace Parse

variable {α β : Type}

/-- What a reading yields: given the number of loops around it, the tokens read, the tokens left and
the tree. -/
abbrev Post (α : Type) : Type := Nat → List Token → List Token → α → Prop

/-- A reading from `t` to `t'` that yields what `R` says and changes nothing else. -/
def Yields (R : Post α) (t : Tape) (r : Option α) (t' : Tape) : Prop :=
  t.objections = [] ∧ (t.stop.kind = .finish → t'.stop = t.stop ∧ t'.loops = t.loops ∧
    ∃ a us, r = some a ∧ t.rest = us ++ t'.rest ∧ R t.loops us t'.rest a)

def Sound (p : Parse α) (R : Post α) : Prop :=
  ∀ t r t', p t = (r, t') → t'.objections = [] → Yields R t r t'

/-! ## Rules -/

theorem Yields.imp {P R : Post α} {t t' : Tape} {r : Option α} (h : Yields P t r t')
    (hR : ∀ us a, t.stop.kind = .finish → t.rest = us ++ t'.rest → P t.loops us t'.rest a →
      R t.loops us t'.rest a) : Yields R t r t' := by
  refine ⟨h.1, fun hstop => ?_⟩
  obtain ⟨hs, hl, a, us, hr, hrest, hP⟩ := h.2 hstop
  exact ⟨hs, hl, a, us, hr, hrest, hR us a hstop hrest hP⟩

theorem Sound.mono {p : Parse α} {P R : Post α} (hp : Sound p P)
    (h : ∀ n us rest a, P n us rest a → R n us rest a) : Sound p R :=
  fun t r t' hrun hclean => (hp t r t' hrun hclean).imp fun us a _ _ => h _ us _ a

theorem sound_pure {a : α} {R : Post α} (h : ∀ n rest, R n [] rest a) : Sound (pure a) R := by
  rintro t r t' ⟨⟩ hclean
  exact ⟨hclean, fun _ => ⟨rfl, rfl, a, [], rfl, rfl, h _ _⟩⟩

theorem Sound.bind {p : Parse α} {f : α → Parse β} {P : Post α} {R : Post β} (hp : Sound p P)
    (hf : ∀ a, Sound (f a) fun n vs rest c =>
      ∀ us, P n us (vs ++ rest) a → R n (us ++ vs) rest c) :
    Sound (p >>= f) R := by
  intro t r t' hrun hclean
  rcases hpt : p t with ⟨_ | a, t₁⟩
  · rw [bind_none hpt] at hrun
    cases hrun
    obtain ⟨h0, h1⟩ := hp _ _ _ hpt hclean
    refine ⟨h0, fun hstop => ?_⟩
    obtain ⟨_, _, _, _, hr, _⟩ := h1 hstop
    cases hr
  · rw [bind_some hpt] at hrun
    -- the second reading had no objection on its tape to begin with, so the first one made none
    obtain ⟨hclean₁, h2⟩ := hf a _ _ _ hrun hclean
    obtain ⟨h0, h1⟩ := hp _ _ _ hpt hclean₁
    refine ⟨h0, fun hstop => ?_⟩
    obtain ⟨hs₁, hl₁, _, us, ⟨⟩, hrest₁, hP⟩ := h1 hstop
    obtain ⟨hs, hl, c, vs, hr, hrest, hR⟩ := h2 (by rw [hs₁]; exact hstop)
    rw [hl₁] at hR hl
    rw [hrest] at hP hrest₁
    exact ⟨hs.trans hs₁, hl, c, us ++ vs, hr, by rw [hrest₁, List.append_assoc], hR us hP⟩

theorem Sound.map {p : Parse α} {g : α → β} {R : Post β}
    (hp : Sound p fun n us rest a => R n us rest (g a)) : Sound (g <$> p) R := by
  rw [← bind_pure_comp]
  refine hp.bind fun a => sound_pure fun n rest us h => ?_
  rw [List.append_nil]
  exact h

theorem sound_refuse {token : Token} {complaint : Complaint} {R : Post α} :
    Sound (refuse token complaint) R := by
  rintro t r t' ⟨⟩ ⟨⟩

theorem sound_refuseNext {complaint : Complaint} {R : Post α} :
    Sound (refuseNext complaint) R := by
  rintro t r t' ⟨⟩ ⟨⟩

theorem sound_object {token : Token} {complaint : Complaint} {R : Post Unit} :
    Sound (object token complaint) R := by
  rintro t r t' ⟨⟩ ⟨⟩

theorem sound_objectIf {c : Prop} [Decidable c] {token : Token} {complaint : Complaint}
    {p : Parse α} {R : Post α} (hp : Sound p fun n us rest a => ¬ c → R n us rest a) :
    Sound (objectIf c token complaint >>= fun _ => p) R := by
  unfold objectIf
  split
  · exact Sound.bind (P := fun _ _ _ _ => False) sound_object fun _ =>
      hp.mono fun _ _ _ _ _ _ h => h.elim
  · rename_i hc
    rw [pure_bind]
    exact hp.mono fun _ _ _ _ h => h hc

theorem Sound.after_skip {p : Parse α} {R : Post α} {x : Token} {xs : List Token} {t t' : Tape}
    {r : Option α} (hp : Sound p fun n us rest a => R n (x :: us) rest a)
    (hrest : t.rest = x :: xs) (hrun : p t.skip = (r, t')) (hclean : t'.objections = []) :
    Yields R t r t' := by
  simp only [Tape.skip, hrest] at hrun
  obtain ⟨h0, h1⟩ := hp _ _ _ hrun hclean
  refine ⟨h0, fun hstop => ?_⟩
  obtain ⟨hs, hl, a, us, hr, hxs, hR⟩ := h1 hstop
  exact ⟨hs, hl, a, x :: us, hr, by rw [hrest, List.cons_append, ← hxs], hR⟩

theorem sound_expect {k : Kind} {complaint : Complaint} {f : Token → Parse α} {R : Post α}
    (hf : ∀ x, x.kind = k → Sound (f x) fun n us rest a => R n (x :: us) rest a) :
    Sound (expect k complaint >>= f) R := by
  intro t r t' hrun hclean
  cases hrest : t.rest with
  | nil =>
    rw [bind_none (expect_nil hrest)] at hrun
    cases hrun
    cases hclean
  | cons x xs =>
    have hx := expect_cons (k := k) (c := complaint) hrest
    by_cases hk : x.kind = k
    · rw [if_pos hk] at hx
      rw [bind_some hx] at hrun
      exact (hf x hk).after_skip hrest hrun hclean
    · rw [if_neg hk] at hx
      rw [bind_none hx] at hrun
      cases hrun
      cases hclean

theorem sound_acceptAny {ks : List Kind} {f : Option Token → Parse α} {R : Post α}
    (hsome : ∀ x, x.kind ∈ ks → Sound (f (some x)) fun n us rest a => R n (x :: us) rest a)
    (hnone : Sound (f none) R) : Sound (acceptAny ks >>= f) R := by
  intro t r t' hrun hclean
  cases hrest : t.rest with
  | nil =>
    rw [bind_some (acceptAny_nil hrest)] at hrun
    exact hnone _ _ _ hrun hclean
  | cons x xs =>
    have hx := acceptAny_cons (k := ks) hrest
    by_cases hk : x.kind ∈ ks
    · rw [if_pos hk] at hx
      rw [bind_some hx] at hrun
      exact (hsome x hk).after_skip hrest hrun hclean
    · rw [if_neg hk] at hx
      rw [bind_some hx] at hrun
      exact hnone _ _ _ hrun hclean

theorem sound_accept {k : Kind} {p q : Parse α} {R : Post α}
    (hp : ∀ x, x.kind = k → Sound p fun n us rest a => R n (x :: us) rest a)
    (hq : Sound q fun n us rest a => Lacks k (us ++ rest) → R n us rest a) :
    Sound (accept k >>= fun b => if b = true then p else q) R := by
  intro t r t' hrun hclean
  by_cases hk : Lacks k t.rest
  · rw [bind_some (accept_lacks hk)] at hrun
    exact (hq _ _ _ hrun hclean).imp fun us a _ hrest h => h (hrest ▸ hk)
  · obtain ⟨x, xs, hrest, hx⟩ := not_lacks hk
    rw [bind_some (accept_cons hrest hx)] at hrun
    exact (hp x hx).after_skip hrest hrun hclean

theorem sound_optionally {k : Kind} {p : Parse α} {P : List Token → α → Prop}
    (hp : Sound p fun _ us _ a => P us a) :
    Sound (optionally k p) fun _ us _ a => Optional P us a := by
  intro t r t' hrun hclean
  unfold optionally at hrun
  by_cases hk : Lacks k t.rest
  · rw [bind_some (sees_lacks hk)] at hrun
    exact Sound.map (hp.mono fun _ _ _ _ h => .some h) _ _ _ hrun hclean
  · obtain ⟨x, xs, hrest, hx⟩ := not_lacks hk
    rw [bind_some (sees_cons hrest hx)] at hrun
    exact sound_pure (fun _ _ => .none) _ _ _ hrun hclean

theorem sound_loops {f : Nat → Parse α} {R : Post α}
    (hf : ∀ m, Sound (f m) fun n us rest a => n = m → R n us rest a) :
    Sound (loops >>= f) R :=
  fun t r t' hrun hclean => (hf t.loops t r t' hrun hclean).imp fun _ _ _ _ h => h rfl

theorem Sound.withLoops {p : Parse α} {change : Nat → Nat} {R : Post α} (hp : Sound p R) :
    Sound (withLoops change p) fun n us rest a => R (change n) us rest a := by
  intro t r t' hrun hclean
  unfold Parse.withLoops at hrun
  cases hrun
  obtain ⟨h0, h1⟩ := hp { t with loops := change t.loops } _ _ rfl hclean
  refine ⟨h0, fun hstop => ?_⟩
  obtain ⟨hs, _, a, us, hr, hrest, hR⟩ := h1 hstop
  exact ⟨hs, rfl, a, us, hr, hrest, hR⟩

/-- What is read facing `token`: unless it ends the text, it is the next one. -/
def Facing (token : Token) (R : Post α) : Post α := fun n us rest a =>
  (token.kind ≠ .finish → (us ++ rest).head? = some token) → R n us rest a

theorem Sound.facing {p : Parse α} {token : Token} {R : Post α} (hp : Sound p R) :
    Sound p (Facing token R) :=
  hp.mono fun _ _ _ _ h _ => h

theorem sound_peek {f : Token → Parse α} {R : Post α}
    (hf : ∀ token, Sound (f token) (Facing token R)) : Sound (peek >>= f) R := by
  intro t r t' hrun hclean
  refine (hf t.peek t r t' hrun hclean).imp fun us a hstop hrest hR => hR fun hk => ?_
  rw [← hrest]
  unfold Tape.peek at hk ⊢
  cases h : t.rest with
  | nil =>
    rw [h] at hk
    exact absurd hstop hk
  | cons x xs => rfl

theorem sound_skip {p : Parse α} {token : Token} {k : Kind} {R : Post α} (hk : token.kind = k)
    (hne : k ≠ .finish) (hp : Sound p fun n us rest a => R n (token :: us) rest a) :
    Sound (skip >>= fun _ => p) (Facing token R) := by
  rw [← hk] at hne
  intro t r t' hrun hclean
  change p t.skip = (r, t') at hrun
  cases hrest : t.rest with
  | nil =>
    simp only [Tape.skip, hrest] at hrun
    refine (hp _ _ _ hrun hclean).imp fun us a _ hus _ h => ?_
    have := h hne
    rw [← hus, hrest] at this
    cases this
  | cons x xs =>
    have hx : Sound p fun n us rest a => Facing token R n (x :: us) rest a :=
      hp.mono fun n us rest a h hface => by
        cases Option.some.inj (hface hne)
        exact h
    exact hx.after_skip hrest hrun hclean

/-! ## Expressions -/

theorem join_phrase {n : Nat} {op : Token} {us vs : List Token} {left right : Expr}
    (hop : op.kind.level = some n) (hl : Phrase n us left) (hr : Phrase (n + 1) vs right) :
    Phrase n (us ++ op :: vs) (join left op right) := by
  cases hlog : op.kind.isLogical with
  | true =>
    rw [join_logical hlog]
    exact .logical hop hlog hl hr
  | false =>
    rw [join_binary hlog]
    exact .binary hop hlog hl hr

theorem chain_sound {n : Nat} {ops : List Kind} {p : Parse Expr}
    (hops : ∀ k ∈ ops, k.level = some n) (hp : Sound p fun _ us _ e => Phrase (n + 1) us e) :
    ∀ (m : Nat) (left : Expr), Sound (chain ops p m left) fun _ vs _ e =>
      ∀ us, Phrase n us left → Phrase n (us ++ vs) e
  | 0, left => sound_pure fun _ _ us h => by rwa [List.append_nil]
  | m + 1, left => by
    refine sound_acceptAny (fun op hop => ?_) (sound_pure fun _ _ us h => by rwa [List.append_nil])
    refine hp.bind fun right => (chain_sound hops hp m _).mono ?_
    intro _ ws _ e h vs hr us hl
    have := h _ (join_phrase (hops _ hop) hl hr)
    rwa [List.append_assoc, List.cons_append] at this

theorem operation_sound (bound : Nat) {p : Parse Expr}
    (hp : Sound p fun _ us _ e => Phrase 10 us e) :
    ∀ (n : Nat) (levels : List (List Kind)), Graded n levels →
      Sound (operation bound p levels) fun _ us _ e => Phrase n us e
  | _, [], rfl => hp
  | n, ops :: tighter, ⟨hn, hops, htighter⟩ => by
    have htight := operation_sound bound hp (n + 1) tighter htighter
    refine htight.bind fun left => (chain_sound (fun k => (hops k).1) htight bound left).mono ?_
    intro _ vs _ e h us hl
    exact h us (.tighter (by omega) hl)

theorem moreArguments_sound {argument : Parse Expr}
    (ha : Sound argument fun _ us _ e => Phrase 0 us e) :
    ∀ (m : Nat) (args : List Expr), Sound (moreArguments argument m args) fun _ vs _ es =>
      ∀ us, Arguments us args.reverse → args.length ≤ 255 →
        Arguments (us ++ vs) es ∧ es.length ≤ 255
  | 0, args => sound_pure fun _ _ us h hlen => by simpa using ⟨h, hlen⟩
  | m + 1, args => by
    rw [moreArguments_succ]
    refine sound_accept (fun comma hcomma => ?_)
      (sound_pure fun _ _ _ us h hlen => by simpa using ⟨h, hlen⟩)
    refine sound_peek fun next => Sound.facing (sound_objectIf ?_)
    refine ha.bind fun e => (moreArguments_sound ha m (e :: args)).mono ?_
    intro _ ws _ es h vs he hlen us hargs _
    have := h (us ++ comma :: vs) (by rw [List.reverse_cons]; exact hargs.snoc hcomma he)
      (by simp only [maxArguments] at hlen; simp only [List.length_cons]; omega)
    rwa [List.append_assoc, List.cons_append] at this

theorem arguments_sound {argument : Parse Expr} (bound : Nat)
    (ha : Sound argument fun _ us _ e => Phrase 0 us e) :
    Sound (arguments bound argument) fun _ us _ es =>
      us = [] ∧ es = [] ∨ Arguments us es ∧ es.length ≤ 255 := by
  rw [arguments_eq]
  have hp : Sound (do moreArguments argument bound [← argument]) fun _ us _ es =>
      Arguments us es ∧ es.length ≤ 255 := by
    refine ha.bind fun e => (moreArguments_sound ha bound [e]).mono ?_
    intro _ vs _ es h us he
    exact h us (.one he) (by simp)
  refine (sound_optionally hp).bind fun args => sound_pure fun _ _ us h => ?_
  rw [List.append_nil]
  cases h with
  | none => exact .inl ⟨rfl, rfl⟩
  | some h => exact .inr h

theorem calls_sound {argument : Parse Expr} (ha : Sound argument fun _ us _ e => Phrase 0 us e) :
    ∀ (m : Nat) (callee : Expr), Sound (calls argument m callee) fun _ vs _ e =>
      ∀ us, Phrase 11 us callee → Phrase 11 (us ++ vs) e
  | 0, callee => sound_pure fun _ _ us h => by rwa [List.append_nil]
  | m + 1, callee => by
    refine sound_accept (fun lp hlp => ?_) (sound_pure fun _ _ _ us h => by rwa [List.append_nil])
    refine (arguments_sound m ha).bind fun args => sound_expect fun rp hrp => ?_
    refine (calls_sound ha m _).mono ?_
    intro _ ws _ e h vs hargs us hcallee
    rcases hargs with ⟨rfl, rfl⟩ | ⟨hargs, hlen⟩
    · simpa using h _ (.callNone hcallee hlp hrp)
    · simpa using h _ (.call hcallee hlp hargs hlen hrp)

theorem literal_sound {token : Token} (hk : token.kind = .number ∨ token.kind = .text) :
    Sound (match token.literal with
      | some value => pure (.constant value.toConstant)
      | none => refuse token .literalWithoutValue) fun _ us _ e => Phrase 12 (token :: us) e := by
  split
  · rename_i value hv
    exact sound_pure fun _ _ => .literal hk hv
  · exact sound_refuse

theorem primary_sound {inner : Parse Expr} (hi : Sound inner fun _ us _ e => Phrase 0 us e) :
    Sound (primary inner) fun _ us _ e => Phrase 12 us e := by
  refine sound_peek fun token => ?_
  split
  · rename_i hk
    exact sound_skip hk (by decide) (sound_pure fun _ _ => .falseWord hk)
  · rename_i hk
    exact sound_skip hk (by decide) (sound_pure fun _ _ => .trueWord hk)
  · rename_i hk
    exact sound_skip hk (by decide) (sound_pure fun _ _ => .nilWord hk)
  · rename_i hk
    exact sound_skip hk (by decide) (literal_sound (.inl hk))
  · rename_i hk
    exact sound_skip hk (by decide) (literal_sound (.inr hk))
  · rename_i hk
    exact sound_skip hk (by decide) (sound_pure fun _ _ => .reference hk)
  · rename_i hk
    refine sound_skip hk (by decide) (hi.bind fun e => sound_expect fun rp hrp => ?_)
    refine sound_pure fun _ _ us h => ?_
    exact .group hk h hrp
  case h_8 | h_9 | h_10 =>
    rename_i hk
    exact sound_skip hk (by decide) sound_refuse
  · exact sound_refuse

theorem assignment_sound (target value : Expr) :
    Sound (assignment target value) fun _ us _ e =>
      us = [] ∧ ∃ name, target = .reference name ∧ e = .assign name value := by
  unfold assignment
  split
  · exact sound_pure fun _ _ => ⟨rfl, _, rfl, rfl⟩
  · rintro t r t' ⟨⟩ ⟨⟩

mutual

theorem operand_sound : ∀ n, Sound (operand n) fun _ us _ e => Phrase 10 us e
  | 0 => by
    unfold operand
    exact sound_refuseNext
  | n + 1 => by
    unfold operand
    refine sound_acceptAny (fun op hop => ?_) ?_
    · refine (operand_sound n).bind fun e => sound_pure fun _ _ us h => ?_
      rw [List.append_nil]
      exact .sign (signs_isSign.1 hop) h
    · refine (primary_sound (expression_sound n)).bind fun callee => ?_
      refine (calls_sound (expression_sound n) n callee).mono ?_
      intro _ vs _ e h us hc
      exact .tighter (by decide) (h us (.tighter (by decide) hc))

theorem expression_sound : ∀ n, Sound (expression n) fun _ us _ e => Phrase 0 us e
  | 0 => by
    unfold expression
    exact sound_refuseNext
  | n + 1 => by
    unfold expression
    refine (operation_sound n (operand_sound n) 1 _ precedence_graded).bind fun target => ?_
    refine sound_accept (fun mark hmark => ?_) (sound_pure fun _ _ _ us h => ?_)
    · refine (expression_sound n).bind fun value => (assignment_sound target value).mono ?_
      rintro _ ws _ e ⟨rfl, name, rfl, rfl⟩ vs hv us ht
      obtain ⟨rfl, hname⟩ := ht.reference_tokens name rfl
      rw [List.append_nil]
      exact .assign hname hmark hv
    · rw [List.append_nil]
      exact .tighter (by decide) h

end

/-! ## Statements -/

/-- A statement, at the end of which an `else` that belongs to it would have been read. -/
def IsStatement : Post Stmt := fun n us rest s =>
  ∃ dangling, Sentence (n != 0) dangling us s ∧ (dangling = true → Lacks .elseWord rest)

/-- The declarations of a block, and the brace that closes it. -/
def IsBlock : Post (List Stmt) := fun n us _ body =>
  ∃ ts rb, us = ts ++ [rb] ∧ rb.kind = .rightBrace ∧ Body (n != 0) ts body

theorem parameters_sound : ∀ (m : Nat) (params : List Token),
    Sound (parameters m params) fun _ us _ ps => (params.map Token.source).Nodup →
      ∃ more, ps = params.reverse ++ more ∧ Parameters us more ∧ ps.length ≤ 255 ∧
        (ps.map Token.source).Nodup
  | 0, params => by
    unfold parameters
    exact sound_refuseNext
  | m + 1, params => by
    rw [parameters_succ]
    refine sound_peek fun next => Sound.facing (sound_objectIf ?_)
    refine sound_expect fun param hparam => sound_objectIf ?_
    refine sound_accept (fun comma hcomma => (parameters_sound m (param :: params)).mono ?_)
      (sound_pure ?_)
    · intro _ us _ ps h hnew _ hnodup
      obtain ⟨more, hps, hmore, hlen, hnodup'⟩ := h (by simp_all)
      refine ⟨param :: more, ?_, .more hparam hcomma hmore, hlen, hnodup'⟩
      rw [hps, List.reverse_cons, List.append_assoc]
      rfl
    · intro _ _ _ hnew hlen hnodup
      refine ⟨[param], List.reverse_cons, .one hparam, ?_, ?_⟩
      · simp only [maxArguments] at hlen
        simp only [List.length_reverse, List.length_cons]
        omega
      · rw [List.map_reverse, List.nodup_reverse]
        simp_all

theorem functionDeclaration_sound (bound : Nat) {block : Parse (List Stmt)} {word : Token}
    (hb : Sound block IsBlock) (hword : word.kind = .funcWord) :
    Sound (functionDeclaration bound block) fun n us _ s =>
      Declaration (n != 0) (word :: us) s := by
  rw [functionDeclaration_eq]
  have hps : Sound (parameters bound []) fun _ us _ ps =>
      Parameters us ps ∧ ps.length ≤ 255 ∧ (ps.map Token.source).Nodup := by
    refine (parameters_sound bound []).mono fun _ us _ ps h => ?_
    obtain ⟨more, rfl, hmore, hlen, hnodup⟩ := h .nil
    exact ⟨hmore, hlen, hnodup⟩
  refine sound_expect fun name hname => sound_expect fun lp hlp => ?_
  refine (sound_optionally hps).bind fun params => ?_
  refine sound_expect fun rp hrp => sound_expect fun lb hlb => ?_
  refine hb.withLoops.bind fun body => sound_pure ?_
  rintro n rest us ⟨vs, rb, rfl, hrb, hbody⟩ ws hparams
  have hopt : Optional Parameters ws params ∧ (params.getD []).length ≤ 255 ∧
      ((params.getD []).map Token.source).Nodup := by
    cases hparams with
    | none => exact ⟨.none, Nat.zero_le _, .nil⟩
    | some h => exact ⟨.some h.1, h.2.1, h.2.2⟩
  obtain ⟨hopt, hlen, hnodup⟩ := hopt
  have : Declaration (n != 0) _ _ :=
    .function hword hname hlp hopt hlen hnodup hrp hlb hbody hrb
  simpa using this

section
variable {expr : Parse Expr} {word : Token} (he : Sound expr fun _ us _ e => Phrase 0 us e)
include he

theorem initialiser_sound : Sound (initialiser expr) fun _ us _ v => us = [] ∧ v = none ∨
    ∃ mark ts e, us = mark :: ts ∧ mark.kind = .assign ∧ Phrase 0 ts e ∧ v = some e := by
  refine sound_accept (fun mark hmark => Sound.map (he.mono ?_)) (sound_pure ?_)
  · intro _ us _ e h
    exact .inr ⟨mark, us, e, rfl, hmark, h, rfl⟩
  · intro _ _ _
    exact .inl ⟨rfl, rfl⟩

theorem variableDeclaration_sound (hword : word.kind = .letWord) :
    Sound (variableDeclaration expr) fun _ us _ s => VariableDeclaration (word :: us) s := by
  rw [variableDeclaration_eq]
  refine sound_expect fun name hname => (initialiser_sound he).bind fun value => ?_
  refine sound_expect fun semi hsemi => sound_pure ?_
  rintro _ _ us (⟨rfl, rfl⟩ | ⟨mark, ts, e, rfl, hmark, h, rfl⟩)
  · exact .plain hword hname hsemi
  · exact .valued hword hname hmark h hsemi

theorem expressionStatement_sound : Sound (expressionStatement expr) fun _ us _ s =>
    ∃ ts semi e, us = ts ++ [semi] ∧ semi.kind = .semicolon ∧ Phrase 0 ts e ∧ s = .expr e := by
  refine he.bind fun e => sound_expect fun semi hsemi => sound_pure ?_
  intro _ _ us h
  exact ⟨us, semi, e, rfl, hsemi, h, rfl⟩

theorem returnStatement_sound (hword : word.kind = .returnWord) :
    Sound (returnStatement expr word) fun n us rest s => IsStatement n (word :: us) rest s := by
  rw [returnStatement_eq]
  refine (sound_optionally he).bind fun value => sound_expect fun semi hsemi => sound_pure ?_
  intro _ _ us h
  exact ⟨false, .ret hword h hsemi, by simp⟩

theorem firstClause_sound : Sound (firstClause expr) fun _ us _ s => FirstClause us s := by
  refine sound_accept (fun semi hsemi => sound_pure fun _ _ => .none hsemi) ?_
  refine sound_accept (fun word hword => Sound.map ?_) (Sound.map ?_)
  · exact (variableDeclaration_sound he hword).mono fun _ _ _ _ h _ => .binding h
  · refine (expressionStatement_sound he).mono ?_
    rintro _ _ _ _ ⟨ts, semi, e, rfl, hsemi, h, rfl⟩ _ _
    exact .expression h hsemi

variable {stmt : Parse Stmt} (hs : Sound stmt IsStatement)
include hs

theorem whileStatement_sound (hword : word.kind = .whileWord) :
    Sound (whileStatement expr stmt) fun n us rest s => IsStatement n (word :: us) rest s := by
  refine sound_expect fun lp hlp => he.bind fun c => sound_expect fun rp hrp => ?_
  refine hs.withLoops.bind fun body => sound_pure ?_
  rintro n rest vs ⟨dangling, h, hrest⟩ us hc
  refine ⟨dangling, ?_, hrest⟩
  have : Sentence (n != 0) dangling _ _ := .whileLoop hword hlp hc hrp h
  simpa using this

theorem forStatement_sound (hword : word.kind = .forWord) :
    Sound (forStatement expr stmt) fun n us rest s => IsStatement n (word :: us) rest s := by
  rw [forStatement_eq]
  refine sound_expect fun lp hlp => (firstClause_sound he).bind fun first => ?_
  refine (sound_optionally he).bind fun c => sound_expect fun semi hsemi => ?_
  refine (sound_optionally he).bind fun i => sound_expect fun rp hrp => ?_
  refine hs.withLoops.bind fun body => sound_pure ?_
  rintro n rest xs ⟨dangling, h, hrest⟩ ws hi vs hc us hfirst
  refine ⟨dangling, ?_, hrest⟩
  have : Sentence (n != 0) dangling _ _ := .forLoop hword hlp hfirst hc hsemi hi hrp h
  simpa using this

theorem ifStatement_sound (hword : word.kind = .ifWord) :
    Sound (ifStatement expr stmt) fun n us rest s => IsStatement n (word :: us) rest s := by
  refine sound_expect fun lp hlp => he.bind fun c => sound_expect fun rp hrp => ?_
  refine hs.bind fun body => sound_accept (fun mid hmid => ?_) (sound_pure ?_)
  · refine hs.bind fun otherwise => sound_pure ?_
    rintro n rest ws ⟨dangling, h', hrest⟩ vs ⟨dangling', h, hmid'⟩ us hc
    -- the branch that was read first ends in front of an `else`, so it is not dangling
    cases dangling' with
    | true => exact absurd hmid (hmid' rfl mid rfl)
    | false =>
      refine ⟨dangling, ?_, hrest⟩
      simpa using Sentence.ifElse hword hlp hc hrp h hmid h'
  · rintro n rest hrest vs ⟨dangling, h, _⟩ us hc
    refine ⟨true, ?_, fun _ => hrest⟩
    simpa using Sentence.ifThen hword hlp hc hrp h

end

theorem loopControl_sound {word : Token}
    (hword : word.kind = .breakWord ∨ word.kind = .continueWord) :
    Sound (loopControl word) fun n us rest s => IsStatement n (word :: us) rest s := by
  rw [loopControl_eq]
  refine sound_loops fun m => sound_objectIf (sound_expect fun semi hsemi => sound_pure ?_)
  rintro n rest hm rfl
  have hloop : (n != 0) = true := by simpa using hm
  refine ⟨false, ?_, by simp⟩
  rw [hloop]
  rcases hword with hword | hword <;> simp only [hword]
  · exact .breakLoop hword hsemi
  · exact .continueLoop hword hsemi

theorem declared_sound {declaration : Parse Stmt} {c : Option Kind}
    (hd : Sound declaration fun n us _ s => Declaration (n != 0) us s) :
    ∀ (m : Nat) (body : List Stmt), Sound (declared declaration c m body)
      fun n us rest all => (∃ more, all = body.reverse ++ more ∧ Body (n != 0) us more) ∧
        (c = none → (us ++ rest).length ≤ m → rest = [])
  | 0, body => by
    refine sound_pure fun _ rest => ⟨⟨[], by simp, .nil⟩, fun _ h => ?_⟩
    exact List.eq_nil_of_length_eq_zero (Nat.le_zero.1 h)
  | m + 1, body => by
    intro t r t' hrun hclean
    unfold declared declarations at hrun
    split at hrun
    · rename_i hend
      cases hrun
      refine ⟨hclean, fun _ => ⟨rfl, rfl, _, [], rfl, rfl, ⟨[], by simp, .nil⟩, fun hc _ => ?_⟩⟩
      simpa [hc, Tape.atEnd] using hend
    · rcases hdt : declaration t with ⟨_ | s, t₁⟩ <;> rw [hdt] at hrun
      · -- a declaration that was given up on has left an objection, and dropping tokens keeps it
        obtain ⟨hclean₁, _⟩ := declared_sound hd m body _ _ _ hrun hclean
        rw [Tape.objections_recover] at hclean₁
        obtain ⟨h0, h1⟩ := hd _ _ _ hdt hclean₁
        refine ⟨h0, fun hstop => ?_⟩
        obtain ⟨_, _, _, _, hr, _⟩ := h1 hstop
        cases hr
      · refine Sound.bind hd (fun s => (declared_sound hd m (s :: body)).mono ?_) t r t'
          ((bind_some hdt).trans hrun) hclean
        rintro n vs rest all ⟨⟨more, rfl, hmore⟩, hrest⟩ us h
        refine ⟨⟨s :: more, by simp, .cons h hmore⟩, fun hc hlen => hrest hc ?_⟩
        -- every declaration takes a token, so as many turns as tokens are enough
        obtain ⟨x, xs, rfl, _⟩ := h.head
        simp only [List.length_append, List.length_cons] at hlen ⊢
        omega

mutual

theorem declaration_sound : ∀ n, Sound (declaration n) fun k us _ s => Declaration (k != 0) us s
  | 0 => by
    unfold declaration
    exact sound_refuseNext
  | n + 1 => by
    unfold declaration
    refine sound_peek fun token => ?_
    split
    · rename_i hk
      refine sound_skip hk (by decide) ?_
      exact functionDeclaration_sound n (block_sound n) hk
    · rename_i hk
      refine sound_skip hk (by decide) ?_
      exact (variableDeclaration_sound (expression_sound n) hk).mono fun _ _ _ _ h => .binding h
    · refine ((statement_sound n).mono ?_).facing
      rintro _ _ _ _ ⟨dangling, h, _⟩
      exact .sentence h

theorem statement_sound : ∀ n, Sound (statement n) IsStatement
  | 0 => by
    unfold statement
    exact sound_refuseNext
  | n + 1 => by
    unfold statement
    have he := expression_sound n
    have hs := statement_sound n
    refine sound_peek fun token => ?_
    split
    · rename_i hk
      exact sound_skip hk (by decide) (returnStatement_sound he hk)
    · rename_i hk
      exact sound_skip hk (by decide) (forStatement_sound he hs hk)
    · rename_i hk
      exact sound_skip hk (by decide) (whileStatement_sound he hs hk)
    · rename_i hk
      exact sound_skip hk (by decide) (loopControl_sound (.inl hk))
    · rename_i hk
      exact sound_skip hk (by decide) (loopControl_sound (.inr hk))
    · rename_i hk
      exact sound_skip hk (by decide) (ifStatement_sound he hs hk)
    · rename_i hk
      refine sound_skip hk (by decide) (Sound.map ((block_sound n).mono ?_))
      rintro _ _ _ _ ⟨ts, rb, rfl, hrb, h⟩
      exact ⟨false, .block hk h hrb, by simp⟩
    · refine ((expressionStatement_sound he).mono ?_).facing
      rintro _ _ _ _ ⟨ts, semi, e, rfl, hsemi, h, rfl⟩
      exact ⟨false, .expression h hsemi, by simp⟩

theorem block_sound : ∀ n, Sound (block n) IsBlock
  | 0 => by
    unfold block
    exact sound_refuseNext
  | n + 1 => by
    rw [block_succ]
    refine (declared_sound (declaration_sound n) n []).bind fun body => ?_
    refine sound_expect fun rb hrb => sound_pure ?_
    rintro _ _ us ⟨⟨more, rfl, h⟩, _⟩
    exact ⟨us, rb, rfl, hrb, h⟩

end

end Parse

/-! ## Programs -/

theorem Tape.finish_clean {n : Nat} {t : Tape} {body : List Stmt}
    (h : (t.finish n body).objections = []) : t.objections = [] := by
  unfold Tape.finish at h
  simp only [List.reverse_eq_nil_iff] at h
  exact (Parse.declared_sound (c := none) (Parse.declaration_sound n) n body t _ _ rfl h).1

/-- Reading to the end, after the declarations in `body`. -/
theorem Tape.finish_after {n : Nat} {t : Tape} {body : List Stmt} (hstop : t.stop.kind = .finish)
    (hn : t.rest.length ≤ n) (h : (t.finish n body).objections = []) :
    ∃ more, (t.finish n body).tree = body.reverse ++ more ∧ Body (t.loops != 0) t.rest more := by
  unfold Tape.finish at h ⊢
  simp only [List.reverse_eq_nil_iff] at h
  have hd := Parse.declared_sound (c := none) (Parse.declaration_sound n) n body
  obtain ⟨_, h1⟩ := hd t _ _ rfl h
  obtain ⟨_, _, _, us, ⟨⟩, hrest, ⟨more, hall, hbody⟩, hend⟩ := h1 hstop
  have hnil := hend rfl (by rwa [← hrest])
  rw [hnil, List.append_nil] at hrest
  exact ⟨more, hall, hrest ▸ hbody⟩

theorem Tape.finish_body {n : Nat} {t : Tape} (hstop : t.stop.kind = .finish)
    (hn : t.rest.length ≤ n) (h : (t.finish n []).objections = []) :
    Body (t.loops != 0) t.rest (t.finish n []).tree := by
  obtain ⟨more, hall, hbody⟩ := Tape.finish_after hstop hn h
  rw [hall]
  exact hbody

theorem parseProgram_derives {ts : List Token} {eof : Token}
    (hts : ∀ t ∈ ts, t.isFinish = false) (heof : eof.isFinish = true)
    (h : (parseProgram (ts ++ [eof])).objections = []) :
    Program ts (parseProgram (ts ++ [eof])).tree := by
  rw [parseProgram_eq, Tape.ofTokens_append hts heof] at h ⊢
  refine Tape.finish_body (by simpa [Token.isFinish] using heof) ?_ h
  show ts.length ≤ 3 * ts.length + 5
  omega

/-- A word that is no literal. -/
def Token.plain (k : Kind) (source : String) : Token := ⟨k, source, none, .start⟩

/-- A variable by its name. -/
def Expr.named (s : String) : Expr := .reference (.plain .name s)

/-- `if (a) if (b) c = -d - e * f; else g(h);` -/
def danglingElse : List Token :=
  [.plain .ifWord "if", .plain .leftParen "(", .plain .name "a", .plain .rightParen ")",
   .plain .ifWord "if", .plain .leftParen "(", .plain .name "b", .plain .rightParen ")",
   .plain .name "c", .plain .assign "=", .plain .minus "-", .plain .name "d", .plain .minus "-",
   .plain .name "e", .plain .star "*", .plain .name "f", .plain .semicolon ";",
   .plain .elseWord "else", .plain .name "g", .plain .leftParen "(", .plain .name "h",
   .plain .rightParen ")", .plain .semicolon ";"]

/-- The value on the right of the assignment. -/
def danglingElseValue : Expr :=
  .binary (.unary (.plain .minus "-") (.named "d")) (.plain .minus "-")
    (.binary (.named "e") (.plain .star "*") (.named "f"))

def danglingElseTree : List Stmt :=
  [.ifThen (.named "a")
    (.ifElse (.named "b") (.expr (.assign (.plain .name "c") danglingElseValue))
      (.expr (.call (.named "g") (.plain .rightParen ")") [.named "h"])))]

theorem parseProgram_derives_danglingElse :
    parseProgram (danglingElse ++ [.finish .start]) = ⟨danglingElseTree, []⟩ ∧
      Program danglingElse danglingElseTree := by
  have hparse : parseProgram (danglingElse ++ [.finish .start]) = ⟨danglingElseTree, []⟩ := by cbv
  have hwords : ∀ t ∈ danglingElse, t.isFinish = false := by decide
  have hderives := parseProgram_derives hwords (rfl : (Token.finish .start).isFinish = true)
  rw [hparse] at hderives
  exact ⟨hparse, hderives rfl⟩

end Script
