import Script.Proofs.ParseSound

/-!
# Completeness of the parser

Tokens that are a tree by the grammar are read as that tree, whatever comes behind them, as long as
it cannot be taken for a part of the tree. Operators of one level and calls nest to the left but are
read by a loop, so what is shown of them is how far the loop has come after reading a part.
-/

namespace Script

/-! ## The tape after reading -/

/-- The tape with the tokens `us` read. -/
def Tape.after (t : Tape) (us : List Token) : Tape :=
  { t with last := us.getLast?.getD t.last, rest := t.rest.drop us.length }

theorem Tape.after_after (t : Tape) (us vs : List Token) :
    (t.after us).after vs = t.after (us ++ vs) := by
  simp [Tape.after, List.getLast?_append, Option.getD_or]

theorem Tape.rest_after {t : Tape} {us rest : List Token} (h : t.rest = us ++ rest) :
    (t.after us).rest = rest := by
  simp [Tape.after, h]

theorem Tape.skip_eq {t : Tape} {x : Token} {xs : List Token} (h : t.rest = x :: xs) :
    t.skip = t.after [x] := by
  simp [Tape.skip, Tape.after, h]

namespace Parse

variable {α β : Type} {inLoop : Bool}

/-- Reading `us` off a tape on which `rest` follows yields `a`, inside of a loop if `inLoop`. -/
def Reads (inLoop : Bool) (p : Parse α) (us rest : List Token) (a : α) : Prop :=
  ∀ t : Tape, t.rest = us ++ rest → (inLoop = true → t.loops ≠ 0) → p t = (some a, t.after us)

/-! ## Rules -/

theorem Reads.weaken {p : Parse α} {us rest : List Token} {a : α} (h : Reads false p us rest a) :
    Reads inLoop p us rest a :=
  fun t ht _ => h t ht (by simp)

theorem reads_pure {rest : List Token} (a : α) : Reads inLoop (pure a) [] rest a :=
  fun _ _ _ => rfl

theorem Reads.bind {p : Parse α} {f : α → Parse β} {us vs rest : List Token} {a : α} {c : β}
    (hp : Reads inLoop p us (vs ++ rest) a) (hf : Reads inLoop (f a) vs rest c) :
    Reads inLoop (p >>= f) (us ++ vs) rest c := by
  intro t ht hl
  rw [List.append_assoc] at ht
  rw [bind_some (hp t ht hl), ← Tape.after_after]
  exact hf _ (Tape.rest_after ht) hl

theorem Reads.bind_nil {p : Parse α} {f : α → Parse β} {vs rest : List Token} {a : α} {c : β}
    (hp : Reads inLoop p [] (vs ++ rest) a) (hf : Reads inLoop (f a) vs rest c) :
    Reads inLoop (p >>= f) vs rest c :=
  Reads.bind hp hf

theorem Reads.map {p : Parse α} (g : α → β) {us rest : List Token} {a : α}
    (hp : Reads inLoop p us rest a) : Reads inLoop (g <$> p) us rest (g a) := by
  rw [← bind_pure_comp, ← List.append_nil us]
  exact Reads.bind hp (reads_pure _)

theorem Reads.last {p : Parse α} {g : α → β} {us rest : List Token} {a : α}
    (hp : Reads inLoop p us rest a) : Reads inLoop (p >>= fun x => pure (g x)) us rest (g a) := by
  rw [bind_pure_comp]
  exact hp.map g

theorem Reads.after_token {p : Parse α} {x : Token} {us rest : List Token} {a : α} {t : Tape}
    (hp : Reads inLoop p us rest a) (ht : t.rest = x :: us ++ rest)
    (hl : inLoop = true → t.loops ≠ 0) : p t.skip = (some a, t.after (x :: us)) := by
  rw [Tape.skip_eq ht, hp _ (Tape.rest_after ht) hl, Tape.after_after]
  rfl

theorem reads_expect {k : Kind} {c : Complaint} {x : Token} {f : Token → Parse α}
    {us rest : List Token} {a : α} (hx : x.kind = k) (hf : Reads inLoop (f x) us rest a) :
    Reads inLoop (expect k c >>= f) (x :: us) rest a := by
  intro t ht hl
  have := expect_cons (k := k) (c := c) ht
  rw [if_pos hx] at this
  rw [bind_some this]
  exact hf.after_token ht hl

theorem reads_acceptAny {ks : List Kind} {x : Token} {f : Option Token → Parse α}
    {us rest : List Token} {a : α} (hx : x.kind ∈ ks) (hf : Reads inLoop (f (some x)) us rest a) :
    Reads inLoop (acceptAny ks >>= f) (x :: us) rest a := by
  intro t ht hl
  have := acceptAny_cons (k := ks) ht
  rw [if_pos hx] at this
  rw [bind_some this]
  exact hf.after_token ht hl

theorem acceptAny_none {ks : List Kind} {t : Tape}
    (h : ∀ x, t.rest.head? = some x → x.kind ∉ ks) : acceptAny ks t = (some none, t) := by
  cases hrest : t.rest with
  | nil => exact acceptAny_nil hrest
  | cons x xs => rw [acceptAny_cons hrest, if_neg (h x (by rw [hrest]; rfl))]

theorem reads_accept {k : Kind} {x : Token} {p q : Parse α} {us rest : List Token} {a : α}
    (hx : x.kind = k) (hp : Reads inLoop p us rest a) :
    Reads inLoop (accept k >>= fun b => if b = true then p else q) (x :: us) rest a := by
  intro t ht hl
  rw [bind_some (accept_cons ht hx)]
  exact hp.after_token ht hl

theorem reads_accept_not {k : Kind} {p q : Parse α} {us rest : List Token} {a : α}
    (hk : Lacks k (us ++ rest)) (hq : Reads inLoop q us rest a) :
    Reads inLoop (accept k >>= fun b => if b = true then p else q) us rest a := by
  intro t ht hl
  rw [bind_some (accept_lacks (by rwa [ht]))]
  exact hq t ht hl

theorem reads_objectIf {c : Prop} [Decidable c] {token : Token} {complaint : Complaint}
    {p : Parse α} {us rest : List Token} {a : α} (hc : ¬ c) (hp : Reads inLoop p us rest a) :
    Reads inLoop (objectIf c token complaint >>= fun _ => p) us rest a := by
  unfold objectIf
  rw [if_neg hc, pure_bind]
  exact hp

theorem reads_peek {f : Token → Parse α} {x : Token} {xs us rest : List Token} {a : α}
    (hx : us ++ rest = x :: xs) (hf : Reads inLoop (f x) us rest a) :
    Reads inLoop (peek >>= f) us rest a := by
  intro t ht hl
  have : t.peek = x := by simp [Tape.peek, ht, hx]
  change f t.peek t = _
  rw [this]
  exact hf t ht hl

theorem reads_peek_any {f : Token → Parse α} {us rest : List Token} {a : α}
    (hf : ∀ x, Reads inLoop (f x) us rest a) : Reads inLoop (peek >>= f) us rest a :=
  fun t ht hl => hf t.peek t ht hl

theorem reads_loops {f : Nat → Parse α} {us rest : List Token} {a : α}
    (hf : ∀ n, n ≠ 0 → Reads true (f n) us rest a) : Reads true (loops >>= f) us rest a :=
  fun t ht hl => hf t.loops (hl rfl) t ht hl

theorem reads_skip {p : Parse α} {x : Token} {us rest : List Token} {a : α}
    (hp : Reads inLoop p us rest a) : Reads inLoop (skip >>= fun _ => p) (x :: us) rest a :=
  fun _ ht hl => hp.after_token ht hl

theorem Reads.withLoops {b : Bool} {p : Parse α} {change : Nat → Nat} {us rest : List Token}
    {a : α} (hp : Reads b p us rest a) (hb : b = true → ∀ n, change n ≠ 0) :
    Reads inLoop (withLoops change p) us rest a := by
  intro t ht _
  unfold Parse.withLoops
  rw [hp { t with loops := change t.loops } ht fun h => hb h _]
  rfl

theorem reads_optionally_none {k : Kind} {p : Parse α} {x : Token} {xs : List Token}
    (hx : x.kind = k) : Reads inLoop (optionally k p) [] (x :: xs) none := by
  intro t ht _
  unfold optionally
  rw [bind_some (sees_cons ht hx)]
  rfl

theorem reads_optionally_some {k : Kind} {p : Parse α} {us rest : List Token} {a : α}
    (hk : Lacks k (us ++ rest)) (hp : Reads inLoop p us rest a) :
    Reads inLoop (optionally k p) us rest (some a) := by
  intro t ht hl
  unfold optionally
  rw [bind_some (sees_lacks (by rwa [ht]))]
  exact hp.map some t ht hl

/-! ## Where expressions end -/

/-- Tokens behind an expression of level `n` that cannot belong to it. -/
structure Stops (n : Nat) (rest : List Token) : Prop where
  assign : n = 0 → Lacks .assign rest
  operator : ∀ x, rest.head? = some x → ∀ m, x.kind.level = some m → m < n
  call : Lacks .leftParen rest

theorem Stops.mono {n m : Nat} {rest : List Token} (h : Stops n rest) (hnm : n ≤ m) :
    Stops m rest where
  assign hm := h.assign (by omega)
  operator x hx k hk := Nat.lt_of_lt_of_le (h.operator x hx k hk) hnm
  call := h.call

theorem Stops.not_mem {n : Nat} {rest : List Token} {ops : List Kind} (h : Stops n rest)
    (hops : ∀ k, k ∈ ops ↔ k.level = some n) :
    ∀ x, rest.head? = some x → x.kind ∉ ops :=
  fun x hx hmem => absurd (h.operator x hx n ((hops _).1 hmem)) (Nat.lt_irrefl n)

/-- The marks that expressions stand in front of. -/
def endsPhrase : Kind → Bool
  | .semicolon | .rightParen | .comma => true
  | _ => false

theorem stops_cons {n : Nat} {x : Token} {xs : List Token} (ha : n = 0 → x.kind ≠ .assign)
    (ho : ∀ m, x.kind.level = some m → m < n) (hc : x.kind ≠ .leftParen) : Stops n (x :: xs) where
  assign hn y hy := by
    cases hy
    exact ha hn
  operator y hy := by
    cases hy
    exact ho
  call y hy := by
    cases hy
    exact hc

theorem stops_ends {n : Nat} {x : Token} {xs : List Token} (hx : endsPhrase x.kind = true) :
    Stops n (x :: xs) := by
  have hnone : x.kind.level = none := by
    cases hk : x.kind <;> rw [hk] at hx <;> first | rfl | cases hx
  refine stops_cons (fun _ hk => ?_) (fun m hm => ?_) (fun hk => ?_)
  · rw [hk] at hx
    cases hx
  · rw [hnone] at hm
    cases hm
  · rw [hk] at hx
    cases hx

theorem stops_operator {n : Nat} {op : Token} {xs : List Token} (hop : op.kind.level = some n) :
    Stops (n + 1) (op :: xs) := by
  refine stops_cons (fun h => absurd h (Nat.succ_ne_zero n)) (fun m hm => ?_) (fun hk => ?_)
  · rw [hop] at hm
    cases hm
    exact Nat.lt_succ_self n
  · rw [hk] at hop
    cases hop

theorem stops_assign {mark : Token} {xs : List Token} (hmark : mark.kind = .assign) :
    Stops 1 (mark :: xs) := by
  refine stops_cons (fun h => absurd h (by decide)) (fun m hm => ?_) (by rw [hmark]; decide)
  rw [hmark] at hm
  cases hm

/-! ## Operators -/

/-- The tokens are read as `e` by the parser of level `n`. -/
def Full (n : Nat) (ts : List Token) (e : Expr) : Prop :=
  ∀ f levels rest, Graded n levels → 2 * ts.length + 1 ≤ f → Stops n rest →
    Reads false (operation f (operand f) levels) ts rest e

/-- After reading the tokens, the loop of level `n` goes on with `e`. -/
def Joined (n : Nat) (ts : List Token) (e : Expr) : Prop :=
  ∀ f ops tighter, Graded n (ops :: tighter) → 2 * ts.length + 1 ≤ f →
    ∃ k ≤ ts.length, ∀ b rest t, Stops (n + 1) rest → t.rest = ts ++ rest →
      (operation f (operand f) tighter >>=
          chain ops (operation f (operand f) tighter) (b + k)) t =
        chain ops (operation f (operand f) tighter) b e (t.after ts)

theorem chain_stops {ops : List Kind} {p : Parse Expr} {e : Expr} {t : Tape}
    (h : ∀ x, t.rest.head? = some x → x.kind ∉ ops) (b : Nat) :
    chain ops p b e t = (some e, t) := by
  cases b with
  | zero => rfl
  | succ b =>
    unfold chain
    rw [bind_some (acceptAny_none h)]
    rfl

theorem Joined.full {n : Nat} {ts : List Token} {e : Expr} (h : Joined n ts e) (hn : n < 10) :
    Full n ts e := by
  intro f levels rest hg hf hstop t ht _
  cases levels with
  | nil =>
    simp only [Graded] at hg
    omega
  | cons ops tighter =>
    obtain ⟨k, hk, hloop⟩ := h f ops tighter hg hf
    -- the loop may take `f` turns and has taken `k`; it ends because no operator of its level follows
    have hb : f = f - k + k := by omega
    unfold operation
    have := hloop (f - k) rest t (hstop.mono (Nat.le_succ n)) ht
    rw [← hb] at this
    rw [this]
    apply chain_stops
    rw [Tape.rest_after ht]
    exact hstop.not_mem hg.2.1

theorem Full.joined {n : Nat} {ts : List Token} {e : Expr} (h : Full (n + 1) ts e) :
    Joined n ts e := by
  intro f ops tighter hg hf
  refine ⟨0, Nat.zero_le _, fun b rest t hstop ht => ?_⟩
  exact bind_some (h f tighter rest hg.2.2 hf hstop t ht (by simp))

theorem chain_turn {ops : List Kind} {p : Parse Expr} {left right : Expr} {op : Token}
    {xs : List Token} {t u : Tape} (hop : op.kind ∈ ops) (ht : t.rest = op :: xs)
    (hp : p t.skip = (some right, u)) (b : Nat) :
    chain ops p (b + 1) left t = chain ops p b (join left op right) u := by
  have hx := acceptAny_cons (k := ops) ht
  rw [if_pos hop] at hx
  exact (bind_some hx).trans (bind_some hp)

theorem Joined.join {n : Nat} {us vs : List Token} {op : Token} {left right : Expr}
    (hl : Joined n us left) (hop : op.kind.level = some n) (hr : Full (n + 1) vs right) :
    Joined n (us ++ op :: vs) (join left op right) := by
  intro f ops tighter hg hf
  simp only [List.length_append, List.length_cons] at hf ⊢
  obtain ⟨k, hk, hloop⟩ := hl f ops tighter hg (by omega)
  refine ⟨k + 1, by omega, fun b rest t hstop ht => ?_⟩
  rw [List.append_assoc] at ht
  have hright := hr f tighter rest hg.2.2 (by omega) hstop
  -- one more turn: the operator stops the left operand, and is read together with the right one
  rw [show b + (k + 1) = b + 1 + k by omega, hloop (b + 1) _ t (stops_operator hop) ht,
    chain_turn ((hg.2.1 _).2 hop) (Tape.rest_after ht)
      (hright.after_token (Tape.rest_after ht) (by simp)) b, Tape.after_after]

/-! ## Calls -/

/-- The tokens are read as one of the smallest expressions. -/
def Small (ts : List Token) (e : Expr) : Prop :=
  ∀ f rest, 2 * ts.length ≤ f → Reads false (primary (expression f)) ts rest e

/-- After reading the tokens, the loop of calls goes on with `e`. -/
def Called (ts : List Token) (e : Expr) : Prop :=
  ∀ f, 2 * ts.length ≤ f → ∃ k ≤ ts.length, ∀ b rest t, ts.length ≤ b → t.rest = ts ++ rest →
    (primary (expression f) >>= calls (expression f) (b + k)) t =
      calls (expression f) b e (t.after ts)

/-- The tokens are read as an expression. -/
def Whole (ts : List Token) (e : Expr) : Prop :=
  ∀ f rest, 2 * ts.length + 2 ≤ f → Stops 0 rest → Reads false (expression f) ts rest e

/-- The tokens are read as arguments, behind those given in reverse. -/
def Listed (ts : List Token) (es : List Expr) : Prop :=
  ∀ f b rest before, 2 * ts.length + 2 ≤ f → ts.length ≤ b → Lacks .comma rest → Stops 0 rest →
    before.length + es.length ≤ 255 →
    Reads false (do moreArguments (expression f) b ((← expression f) :: before)) ts rest
      (before.reverse ++ es)

theorem moreArguments_stops {argument : Parse Expr} {args : List Expr} {rest : List Token}
    (h : Lacks .comma rest) (b : Nat) :
    Reads false (moreArguments argument b args) [] rest args.reverse := by
  cases b with
  | zero => exact reads_pure _
  | succ b =>
    rw [moreArguments_succ]
    exact reads_accept_not h (reads_pure _)

theorem Whole.listed {ts : List Token} {e : Expr} (h : Whole ts e) : Listed ts [e] := by
  intro f b rest before hf _ hcomma hstop _
  rw [← List.append_nil ts]
  refine (h f _ hf hstop).bind ?_
  rw [← List.reverse_cons]
  exact moreArguments_stops hcomma b

theorem Whole.listed_cons {us vs : List Token} {comma : Token} {e : Expr} {es : List Expr}
    (he : Whole us e) (hcomma : comma.kind = .comma) (hs : Listed vs es) (hes : es ≠ []) :
    Listed (us ++ comma :: vs) (e :: es) := by
  intro f b rest before hf hb hrest hstop hlen
  simp only [List.length_append, List.length_cons] at hf hb hlen
  obtain ⟨b, rfl⟩ : ∃ c, b = c + 1 := ⟨b - 1, by omega⟩
  have hpos : 0 < es.length := List.length_pos_iff.2 hes
  refine (he f _ (by omega) (stops_ends (by rw [hcomma]; rfl))).bind ?_
  rw [moreArguments_succ]
  refine reads_accept hcomma (reads_peek_any fun next => reads_objectIf ?_ ?_)
  · simp only [List.length_cons, maxArguments]
    omega
  · have := hs f b rest (e :: before) (by omega) (by omega) hrest hstop
      (by simp only [List.length_cons]; omega)
    rwa [List.reverse_cons, List.append_assoc] at this

theorem arguments_none {argument : Parse Expr} {rp : Token} {xs : List Token}
    (hrp : rp.kind = .rightParen) (b : Nat) :
    Reads false (arguments b argument) [] (rp :: xs) [] := by
  rw [arguments_eq]
  exact (reads_optionally_none hrp).last

theorem Listed.arguments {vs : List Token} {rp : Token} {xs : List Token} {es : List Expr}
    (h : Listed vs es) (hargs : Arguments vs es) (hlen : es.length ≤ 255)
    (hrp : rp.kind = .rightParen) {f b : Nat} (hf : 2 * vs.length + 2 ≤ f) (hb : vs.length ≤ b) :
    Reads false (arguments b (expression f)) vs (rp :: xs) es := by
  rw [arguments_eq]
  have hnot : Lacks .rightParen (vs ++ rp :: xs) := by
    obtain ⟨x, ws, rfl, hx⟩ := hargs.head
    refine lacks_cons fun hk => ?_
    rw [hk] at hx
    cases hx
  have hcomma : Lacks .comma (rp :: xs) := lacks_cons (by rw [hrp]; decide)
  have hstop : Stops 0 (rp :: xs) := stops_ends (by rw [hrp]; rfl)
  have hread := h f b (rp :: xs) [] hf hb hcomma hstop (by simpa using hlen)
  exact (reads_optionally_some hnot hread).last

theorem calls_stops {argument : Parse Expr} {e : Expr} {t : Tape} (h : Lacks .leftParen t.rest)
    (b : Nat) : calls argument b e t = (some e, t) := by
  cases b with
  | zero => rfl
  | succ b =>
    unfold calls
    rw [bind_some (accept_lacks h)]
    rfl

theorem calls_turn {argument : Parse Expr} {b : Nat} {callee : Expr} {lp rp : Token}
    {vs rest : List Token} {args : List Expr} {t : Tape} (hlp : lp.kind = .leftParen)
    (hrp : rp.kind = .rightParen) (hargs : Reads false (arguments b argument) vs (rp :: rest) args)
    (ht : t.rest = lp :: vs ++ rp :: rest) :
    calls argument (b + 1) callee t =
      calls argument b (.call callee rp args) (t.after (lp :: vs ++ [rp])) := by
  have hrest : (t.after (lp :: vs)).rest = rp :: rest := Tape.rest_after ht
  have hparen := expect_cons (k := .rightParen) (c := .expectedParenAfterArguments) hrest
  rw [if_pos hrp, Tape.skip_eq hrest, Tape.after_after] at hparen
  have hread := hargs.after_token ht (by simp)
  exact (bind_some (accept_cons ht hlp)).trans ((bind_some hread).trans (bind_some hparen))

theorem Small.called {ts : List Token} {e : Expr} (h : Small ts e) : Called ts e := by
  intro f hf
  refine ⟨0, Nat.zero_le _, fun b rest t _ ht => ?_⟩
  exact bind_some (h f rest hf t ht (by simp))

theorem Called.call {us vs : List Token} {lp rp : Token} {callee : Expr} {args : List Expr}
    (h : Called us callee) (hlp : lp.kind = .leftParen) (hrp : rp.kind = .rightParen)
    (hargs : ∀ f b xs, 2 * vs.length + 2 ≤ f → vs.length ≤ b →
      Reads false (arguments b (expression f)) vs (rp :: xs) args) :
    Called (us ++ lp :: vs ++ [rp]) (.call callee rp args) := by
  intro f hf
  simp only [List.length_append, List.length_cons, List.length_nil] at hf ⊢
  obtain ⟨k, hk, hloop⟩ := h f (by omega)
  refine ⟨k + 1, by omega, fun b rest t hb ht => ?_⟩
  rw [List.append_assoc, List.append_assoc] at ht
  rw [show b + (k + 1) = b + 1 + k by omega, hloop (b + 1) _ t (by omega) ht,
    calls_turn hlp hrp (hargs f b rest (by omega) (by omega)) (by simpa using Tape.rest_after ht),
    Tape.after_after, List.append_assoc]

theorem full_ten {ts : List Token} {e : Expr} (h : ∀ f rest, 2 * ts.length ≤ f →
    Stops 10 rest → Reads false (operand (f + 1)) ts rest e) : Full 10 ts e := by
  intro f levels rest hg hf
  cases levels with
  | nil =>
    cases f with
    | zero => omega
    | succ f => exact h f rest (by omega)
  | cons ops tighter => exact absurd hg.1 (Nat.lt_irrefl 10)

theorem Called.full {ts : List Token} {e : Expr} (h : Called ts e) (hp : Phrase 11 ts e) :
    Full 10 ts e := by
  refine full_ten fun f rest hf hstop t ht _ => ?_
  obtain ⟨k, hk, hloop⟩ := h f hf
  -- a call starts as its callee does, and that is no sign
  have hsign : ∀ x, t.rest.head? = some x → x.kind ∉ signs := by
    obtain ⟨y, ys, rfl, _, hy⟩ := hp.head
    intro x hx hmem
    rw [ht] at hx
    cases hx
    rw [signs_isSign, hy (by decide)] at hmem
    cases hmem
  have hb : f = f - k + k := by omega
  have hread := hloop (f - k) rest t (by omega) ht
  rw [← hb, calls_stops (by rw [Tape.rest_after ht]; exact hstop.call)] at hread
  unfold operand
  exact (bind_some (acceptAny_none hsign)).trans hread

theorem Full.sign {op : Token} {ts : List Token} {e : Expr} (hop : op.kind.isSign = true)
    (h : Full 10 ts e) : Full 10 (op :: ts) (.unary op e) := by
  refine full_ten fun f rest hf hstop => ?_
  simp only [List.length_cons] at hf
  unfold operand
  refine reads_acceptAny (signs_isSign.2 hop) ?_
  exact (h f [] rest rfl (by omega) hstop).last

theorem Full.whole {ts : List Token} {e : Expr} (h : Full 1 ts e) : Whole ts e := by
  intro f rest hf hstop
  obtain ⟨f, rfl⟩ : ∃ c, f = c + 1 := ⟨f - 1, by omega⟩
  unfold expression
  rw [← List.append_nil ts]
  refine (h f _ rest precedence_graded (by omega) (hstop.mono (Nat.zero_le 1))).bind ?_
  exact reads_accept_not (hstop.assign rfl) (reads_pure e)

theorem Whole.assign {name mark : Token} {ts : List Token} {value : Expr}
    (hname : Full 1 [name] (.reference name)) (hmark : mark.kind = .assign) (h : Whole ts value) :
    Whole (name :: mark :: ts) (.assign name value) := by
  intro f rest hf hstop
  simp only [List.length_cons] at hf
  obtain ⟨f, rfl⟩ : ∃ c, f = c + 1 := ⟨f - 1, by omega⟩
  unfold expression
  have htarget := hname f _ (mark :: ts ++ rest) precedence_graded (by simp; omega)
    (stops_assign hmark)
  show Reads false _ ([name] ++ mark :: ts) rest _
  refine htarget.bind (reads_accept hmark ?_)
  exact (h f rest (by omega) hstop).last

/-! ## All levels -/

/-- How the tokens of an expression of level `n` are read. -/
def Good : Nat → List Token → Expr → Prop
  | 0 => Whole
  | 10 => Full 10
  | 11 => Called
  | 12 => Small
  | n => Joined n

theorem good_joined {n : Nat} (hn : 0 < n) (hn' : n < 10) : Good n = Joined n := by
  unfold Good
  split <;> first | rfl | omega

theorem Good.full {n : Nat} {ts : List Token} {e : Expr} (h : Good n ts e) (hn : 0 < n)
    (hn' : n ≤ 10) : Full n ts e := by
  rcases Nat.lt_or_eq_of_le hn' with hlt | rfl
  · rw [good_joined hn hlt] at h
    exact h.full hlt
  · exact h

theorem Good.tighter {n : Nat} {ts : List Token} {e : Expr} (hn : n < 12)
    (hp : Phrase (n + 1) ts e) (h : Good (n + 1) ts e) : Good n ts e := by
  by_cases h0 : n = 0
  · subst h0
    exact (h.full (by decide) (by decide)).whole
  · by_cases h9 : n < 10
    · rw [good_joined (by omega) h9]
      exact (h.full (by omega) (by omega)).joined
    · by_cases h10 : n = 10
      · subst h10
        exact Called.full h hp
      · obtain rfl : n = 11 := by omega
        exact Small.called h

/-- An expression is read at every looser level. -/
theorem Good.loosen {ts : List Token} {e : Expr} : ∀ {n : Nat} (d : Nat), n + d ≤ 12 →
    Phrase (n + d) ts e → Good (n + d) ts e → Good n ts e
  | _, 0, _, _, h => h
  | _, d + 1, hd, hp, h =>
    Good.loosen d (by omega) (.tighter (by omega) hp) (h.tighter (by omega) hp)

theorem Whole.group {lp rp : Token} {ts : List Token} {e : Expr} (hlp : lp.kind = .leftParen)
    (h : Whole ts e) (hrp : rp.kind = .rightParen) : Small (lp :: ts ++ [rp]) (.group e) := by
  intro f rest hf
  simp only [List.length_append, List.length_cons, List.length_nil] at hf
  unfold primary
  refine reads_peek rfl ?_
  simp only [hlp]
  refine reads_skip ((h f _ (by omega) (stops_ends (by rw [hrp]; rfl))).bind ?_)
  exact reads_expect hrp (reads_pure _)

theorem small_reference {name : Token} (hk : name.kind = .name) :
    Small [name] (.reference name) := by
  intro f rest _
  unfold primary
  refine reads_peek rfl ?_
  simp only [hk]
  exact reads_skip (reads_pure _)

theorem Good.join {n : Nat} {us vs : List Token} {op : Token} {left right : Expr}
    (hl : Good n us left) (hop : op.kind.level = some n) (hr : Good (n + 1) vs right) :
    Good n (us ++ op :: vs) (join left op right) := by
  obtain ⟨hn, hn'⟩ := Kind.level_bounds hop
  rw [good_joined hn hn'] at hl ⊢
  exact hl.join hop (hr.full (by omega) (by omega))

mutual

theorem phrase_good {n : Nat} {ts : List Token} {e : Expr} : Phrase n ts e → Good n ts e
  | .tighter hn h => (phrase_good h).tighter hn h
  | .assign hname hmark h => by
    have htarget : Good 1 [_] _ :=
      Good.loosen 11 (by decide) (.reference hname) (small_reference hname)
    exact Whole.assign (htarget.full (by decide) (by decide)) hmark (phrase_good h)
  | .logical hop hlog hl hr => by
    rw [← join_logical hlog]
    exact (phrase_good hl).join hop (phrase_good hr)
  | .binary hop hlog hl hr => by
    rw [← join_binary hlog]
    exact (phrase_good hl).join hop (phrase_good hr)
  | .sign hop h => Full.sign hop (phrase_good h)
  | .callNone h hlp hrp => by
    have := Called.call (phrase_good h) hlp hrp fun f b xs _ _ => arguments_none hrp b
    rwa [List.append_assoc] at this
  | .call h hlp hargs hlen hrp =>
    Called.call (phrase_good h) hlp hrp fun f b xs hf hb =>
      (arguments_listed hargs).arguments hargs hlen hrp hf hb
  | .reference hk => small_reference hk
  | .falseWord hk | .trueWord hk | .nilWord hk => by
    intro f rest _
    unfold primary
    refine reads_peek rfl ?_
    simp only [hk]
    exact reads_skip (reads_pure _)
  | .literal hk hv => by
    intro f rest _
    unfold primary
    refine reads_peek rfl ?_
    rcases hk with hk | hk <;> simp only [hk, hv] <;> exact reads_skip (reads_pure _)
  | .group hlp h hrp => Whole.group hlp (phrase_good h) hrp

theorem arguments_listed {ts : List Token} {es : List Expr} : Arguments ts es → Listed ts es
  | .one h => Whole.listed (phrase_good h)
  | .more h hc hs => Whole.listed_cons (phrase_good h) hc (arguments_listed hs) hs.ne_nil

end

theorem expression_reads {ts xs : List Token} {x : Token} {e : Expr} {f : Nat}
    (h : Phrase 0 ts e) (hf : 2 * ts.length + 2 ≤ f) (hx : endsPhrase x.kind = true) :
    Reads inLoop (expression f) ts (x :: xs) e :=
  Reads.weaken ((phrase_good h : Whole ts e) f (x :: xs) hf (stops_ends hx))

end Parse

end Script
