import Script.Proofs.ExaminedSound
import Script.Proofs.ParseMoves
import Script.Proofs.ScanOrder

/-!
# Objections are made in the order of the text

A parser objects to the token that it is about to read or to one that it has just read, and it may
object to one token several times. When it gives up it goes on further down. So no objection is ever
to a token behind the next one, and an objection to a token that was read comes after some token was
read since the last objection was made: objections never go back in the text.
-/

namespace Script

namespace Position

theorem le_refl (p : Position) : p.le p = true := le_iff.mpr (.inl rfl)

theorem le_trans {p q r : Position} (h : p.le q = true) (h' : q.le r = true) : p.le r = true := by
  rw [le_iff] at *
  rcases h with rfl | h
  · exact h'
  · exact .inr (h.trans_le h')

theorem le_total (p q : Position) : (p.le q || q.le p) = true := by
  simp only [le, Bool.or_eq_true, Bool.and_eq_true, decide_eq_true_eq, beq_iff_eq]
  omega

end Position

/-- The tokens stand in order, and so do the objections, which are latest first; none of them is to
a token behind `limit`, and `limit` is not behind the next token. -/
structure Tape.InOrder (limit : Position) (t : Tape) : Prop where
  stop : t.stop.kind = .finish
  tokens : (t.rest ++ [t.stop]).Pairwise fun x y => x.start.le y.start = true
  made : t.objections.Pairwise fun o o' => o'.token.start.le o.token.start = true
  past : ∀ o ∈ t.objections, o.token.start.le limit = true
  next : limit.le t.peek.start = true

/-- No objection so far is to a token behind the next one. -/
def Tape.Ready (t : Tape) : Prop := t.InOrder t.peek.start

/-- No objection so far is to a token behind the one read last. -/
def Tape.Behind (t : Tape) : Prop := t.InOrder t.last.start

/-- No objection so far is to a token behind `token`, which comes next. -/
def Tape.AboutTo (token : Token) (t : Tape) : Prop :=
  t.InOrder token.start ∧ (token.kind ≠ .finish → ∃ xs, t.rest = token :: xs)

/-- No objection so far is to a token behind `token`, which was read last. -/
def Tape.HasRead (token : Token) (t : Tape) : Prop := t.InOrder token.start ∧ t.last = token

namespace Tape

variable {t u : Tape} {p : Position}

theorem peek_eq_head (t : Tape) : (t.rest ++ [t.stop]).head? = some t.peek := by
  unfold peek
  cases t.rest <;> rfl

theorem InOrder.ready (h : t.InOrder p) : t.Ready :=
  ⟨h.stop, h.tokens, h.made, fun o ho => Position.le_trans (h.past o ho) h.next, Position.le_refl _⟩

theorem Behind.ready (h : t.Behind) : t.Ready := InOrder.ready h

theorem HasRead.behind {token : Token} (h : t.HasRead token) : t.Behind := by
  rw [Behind, h.2]
  exact h.1

theorem Ready.aboutTo (h : t.Ready) : t.AboutTo t.peek := by
  refine ⟨h, fun hk => ?_⟩
  cases hrest : t.rest with
  | nil =>
    rw [peek, hrest] at hk
    exact absurd h.stop hk
  | cons x xs => exact ⟨xs, by rw [peek, hrest]; rfl⟩

theorem peek_le_of_suffix (h : (t.rest ++ [t.stop]).Pairwise fun x y => x.start.le y.start = true)
    (hrest : u.rest <:+ t.rest) (hstop : u.stop = t.stop) :
    t.peek.start.le u.peek.start = true := by
  obtain ⟨read, hread⟩ := hrest
  have ht := t.peek_eq_head
  have hu := u.peek_eq_head
  rw [hstop] at hu
  rw [← hread, List.append_assoc] at h ht
  cases read with
  | nil =>
    rw [List.nil_append, hu] at ht
    rw [Option.some.inj ht]
    exact Position.le_refl _
  | cons x xs =>
    cases ht
    rw [List.cons_append, List.pairwise_cons] at h
    exact h.1 _ (List.mem_append_right _ (List.mem_of_mem_head? hu))

theorem InOrder.of_suffix (h : t.InOrder p) (hrest : u.rest <:+ t.rest) (hstop : u.stop = t.stop)
    (hobjections : u.objections = t.objections) : u.InOrder p where
  stop := by rw [hstop]; exact h.stop
  tokens := by
    rw [hstop]
    exact h.tokens.sublist (hrest.sublist.append_right _)
  made := by rw [hobjections]; exact h.made
  past := by rw [hobjections]; exact h.past
  next := Position.le_trans h.next (peek_le_of_suffix h.tokens hrest hstop)

theorem InOrder.skip (h : t.InOrder p) : t.skip.InOrder p := by
  have hleads := Leads.skip t
  refine h.of_suffix hleads.rest hleads.stop ?_
  unfold Tape.skip
  split <;> rfl

theorem InOrder.recover (h : t.InOrder p) : t.recover.InOrder p := by
  have hleads := Leads.recover t
  exact h.of_suffix hleads.rest hleads.stop t.objections_recover

theorem InOrder.object {token : Token} (h : t.InOrder token.start) (c : Complaint) :
    (t.object token c).InOrder token.start where
  stop := h.stop
  tokens := h.tokens
  made := List.pairwise_cons.mpr ⟨h.past, h.made⟩
  past := List.forall_mem_cons.mpr ⟨Position.le_refl _, h.past⟩
  next := h.next

theorem Ready.read {x : Token} {xs : List Token} (h : t.Ready) (hrest : t.rest = x :: xs) :
    t.skip.HasRead x := by
  have hpeek : t.peek = x := by rw [peek, hrest]; rfl
  constructor
  · have hskip := InOrder.skip h
    rwa [hpeek] at hskip
  · rw [Tape.skip, hrest]

theorem AboutTo.read {token : Token} (h : t.AboutTo token) (hk : token.kind ≠ .finish) :
    t.skip.HasRead token := by
  obtain ⟨xs, hrest⟩ := h.2 hk
  exact h.1.ready.read hrest

theorem InOrder.withLoops (h : t.InOrder p) (n : Nat) : { t with loops := n }.InOrder p :=
  ⟨h.stop, h.tokens, h.made, h.past, h.next⟩

end Tape

namespace Parse

open Tape

variable {α β : Type}

/-- Started on a tape in `S`, the parser comes to a tree and a tape as `T` says, or it gives up; in
both cases the objections are in order. -/
def Orderly (S : Tape → Prop) (p : Parse α) (T : α → Tape → Prop) : Prop :=
  ∀ t, S t → match p t with
    | (some a, u) => T a u
    | (none, u) => u.Ready

/-! ## Rules -/

section
variable {S : Tape → Prop} {T : α → Tape → Prop} {U : β → Tape → Prop}

theorem orderly_pure {a : α} (h : ∀ t, S t → T a t) : Orderly S (pure a) T := h

theorem Orderly.bind {p : Parse α} {f : α → Parse β} (hp : Orderly S p T)
    (hf : ∀ a, Orderly (T a) (f a) U) : Orderly S (p >>= f) U := by
  intro t ht
  have h := hp t ht
  rcases hpt : p t with ⟨_ | a, u⟩ <;> rw [hpt] at h
  · rw [bind_none hpt]
    exact h
  · rw [bind_some hpt]
    exact hf a u h

theorem Orderly.mono {S' : Tape → Prop} {T' : α → Tape → Prop} {p : Parse α} (hp : Orderly S p T)
    (hS : ∀ t, S' t → S t) (hT : ∀ a t, T a t → T' a t) : Orderly S' p T' := by
  intro t ht
  have h := hp t (hS t ht)
  rcases hpt : p t with ⟨_ | a, u⟩ <;> rw [hpt] at h
  · exact h
  · exact hT a u h

theorem Orderly.on {S' : Tape → Prop} {p : Parse α} (hp : Orderly S p T) (hS : ∀ t, S' t → S t) :
    Orderly S' p T :=
  hp.mono hS fun _ _ h => h

theorem Orderly.map {p : Parse α} {g : α → β} (hp : Orderly S p fun a => U (g a)) :
    Orderly S (g <$> p) U := by
  rw [← bind_pure_comp]
  exact hp.bind fun a => orderly_pure fun t h => h

theorem Orderly.ite {c : Prop} [Decidable c] {p q : Parse α} (hp : Orderly S p T)
    (hq : Orderly S q T) : Orderly S (if c then p else q) T := by
  split
  · exact hp
  · exact hq

theorem orderly_peek {f : Token → Parse α} (hf : ∀ token, Orderly (AboutTo token) (f token) T) :
    Orderly Ready (peek >>= f) T :=
  fun t ht => hf t.peek t ht.aboutTo

theorem orderly_skip {token : Token} {k : Kind} (hk : token.kind = k) (hne : k ≠ .finish)
    {p : Parse α} (hp : Orderly (HasRead token) p T) :
    Orderly (AboutTo token) (skip >>= fun _ => p) T :=
  fun t ht => hp t.skip (ht.read (hk ▸ hne))

theorem orderly_loops : Orderly S loops fun _ => S := fun _ h => h

theorem orderly_sees (k : Kind) : Orderly S (sees k) fun _ => S := fun _ h => h

theorem orderly_object (token : Token) (c : Complaint) :
    Orderly (InOrder token.start) (object token c) fun _ => InOrder token.start :=
  fun _ h => h.object c

theorem orderly_refuse {token : Token} (c : Complaint) (hS : ∀ t, S t → t.InOrder token.start) :
    Orderly S (refuse token c) T :=
  fun t h => ((hS t h).object c).ready

theorem Orderly.after_objectIf {c : Prop} [Decidable c] {token : Token} {complaint : Complaint}
    {p : Parse α} (hp : Orderly Ready p T) (hS : ∀ t, S t → t.InOrder token.start) :
    Orderly S (objectIf c token complaint >>= fun _ => p) T := by
  have hobject : Orderly (InOrder token.start) (objectIf c token complaint)
      fun _ => InOrder token.start :=
    (orderly_object token complaint).ite (orderly_pure fun _ h => h)
  exact (hobject.on hS).bind fun _ => hp.on fun _ h => h.ready

theorem orderly_refuseNext (c : Complaint) : Orderly Ready (refuseNext c) T :=
  fun _ h => (InOrder.object h c).ready

theorem orderly_expect (k : Kind) (c : Complaint) :
    Orderly Ready (expect k c) HasRead := by
  intro t ht
  cases hrest : t.rest with
  | nil =>
    rw [expect_nil hrest]
    have hpeek : t.peek = t.stop := by rw [Tape.peek, hrest]; rfl
    have h : t.InOrder t.stop.start := hpeek ▸ ht
    exact (h.object c).ready
  | cons x xs =>
    rw [expect_cons hrest]
    have hpeek : t.peek = x := by rw [Tape.peek, hrest]; rfl
    by_cases hk : x.kind = k
    · rw [if_pos hk]
      exact ht.read hrest
    · rw [if_neg hk]
      have h : t.InOrder x.start := hpeek ▸ ht
      exact (h.object c).ready

theorem Orderly.after_expect {k : Kind} {c : Complaint} {p : Parse α} (hp : Orderly Ready p T) :
    Orderly Ready (expect k c >>= fun _ => p) T :=
  (orderly_expect k c).bind fun _ => hp.on fun _ h => h.1.ready

variable (hS : ∀ t, S t → t.Ready)
include hS

theorem orderly_acceptAny {ks : List Kind} {f : Option Token → Parse α}
    (hsome : ∀ x, Orderly Ready (f (some x)) T) (hnone : Orderly S (f none) T) :
    Orderly S (acceptAny ks >>= f) T := by
  intro t ht
  cases hrest : t.rest with
  | nil =>
    rw [bind_some (acceptAny_nil hrest)]
    exact hnone t ht
  | cons x xs =>
    have hx := acceptAny_cons (k := ks) hrest
    by_cases hk : x.kind ∈ ks
    · rw [if_pos hk] at hx
      rw [bind_some hx]
      exact hsome x _ ((hS t ht).read hrest).1.ready
    · rw [if_neg hk] at hx
      rw [bind_some hx]
      exact hnone t ht

theorem orderly_accept {k : Kind} {p q : Parse α} (hp : Orderly Ready p T) (hq : Orderly S q T) :
    Orderly S (accept k >>= fun b => if b = true then p else q) T := by
  intro t ht
  by_cases hk : Lacks k t.rest
  · rw [bind_some (accept_lacks hk)]
    exact hq t ht
  · obtain ⟨x, xs, hrest, hx⟩ := not_lacks hk
    rw [bind_some (accept_cons hrest hx)]
    exact hp _ ((hS t ht).read hrest).1.ready

end

abbrev StaysInOrder (p : Parse α) : Prop := Orderly Ready p fun _ => Ready

/-- A parser that keeps the objections in order, and has read a token after the last of them when it
comes to a tree. -/
abbrev ReadsInOrder (p : Parse α) : Prop := Orderly Ready p fun _ => Behind

theorem Orderly.stays {p : Parse α} (hp : ReadsInOrder p) : StaysInOrder p :=
  hp.mono (fun _ h => h) fun _ _ h => h.ready

theorem stays_pure (a : α) : StaysInOrder (pure a) := orderly_pure fun _ h => h

theorem stays_accept {k : Kind} {p q : Parse α} (hp : StaysInOrder p) (hq : StaysInOrder q) :
    StaysInOrder (accept k >>= fun b => if b = true then p else q) :=
  orderly_accept (fun _ h => h) hp hq

theorem Orderly.optionally {p : Parse α} (hp : StaysInOrder p) (k : Kind) :
    StaysInOrder (optionally k p) :=
  (orderly_sees k).bind fun _ => (stays_pure none).ite (Orderly.map hp)

theorem Orderly.withLoops {p : Parse α} (hp : StaysInOrder p) (change : Nat → Nat) :
    StaysInOrder (withLoops change p) := by
  intro t ht
  have h := hp { t with loops := change t.loops } (InOrder.withLoops ht _)
  unfold Parse.withLoops
  rcases hpt : p { t with loops := change t.loops } with ⟨_ | a, u⟩ <;> rw [hpt] at h
  · exact InOrder.withLoops h _
  · exact InOrder.withLoops h _

/-! ## Expressions -/

theorem chain_orderly {ops : List Kind} {operand : Parse Expr} (ho : ReadsInOrder operand) :
    ∀ (n : Nat) (left : Expr), Orderly Behind (chain ops operand n left) fun _ => Behind
  | 0, left => orderly_pure fun _ h => h
  | n + 1, left => by
    apply orderly_acceptAny fun _ h => Behind.ready h
    · intro op
      exact ho.bind fun right => chain_orderly ho n _
    · exact orderly_pure fun _ h => h

theorem operation_orderly (bound : Nat) {operand : Parse Expr} (ho : ReadsInOrder operand) :
    ∀ levels : List (List Kind), ReadsInOrder (operation bound operand levels)
  | [] => ho
  | _ :: tighter => by
    have htight := operation_orderly bound ho tighter
    exact htight.bind fun left => chain_orderly htight bound left

section
variable {argument : Parse Expr} (ha : ReadsInOrder argument)
include ha

theorem moreArguments_orderly : ∀ (n : Nat) (args : List Expr),
    Orderly Behind (moreArguments argument n args) fun _ => Behind
  | 0, args => orderly_pure fun _ h => h
  | n + 1, args => by
    rw [moreArguments_succ]
    apply orderly_accept fun _ h => Behind.ready h
    · apply orderly_peek
      intro next
      -- what is objected to is the start of an argument, so a token of it is read afterwards
      apply Orderly.after_objectIf _ fun _ h => h.1
      exact ha.bind fun e => moreArguments_orderly n _
    · exact orderly_pure fun _ h => h

theorem arguments_orderly (bound : Nat) : StaysInOrder (arguments bound argument) := by
  rw [arguments_eq]
  have hargs : ReadsInOrder (do moreArguments argument bound [← argument]) :=
    ha.bind fun e => moreArguments_orderly ha bound [e]
  exact (Orderly.optionally hargs.stays _).bind fun args => stays_pure _

theorem calls_orderly : ∀ (n : Nat) (callee : Expr),
    Orderly Behind (calls argument n callee) fun _ => Behind
  | 0, callee => orderly_pure fun _ h => h
  | n + 1, callee => by
    apply orderly_accept fun _ h => Behind.ready h
    · refine (arguments_orderly ha n).bind fun args => (orderly_expect _ _).bind fun paren => ?_
      exact (calls_orderly n _).on fun _ h => HasRead.behind h
    · exact orderly_pure fun _ h => h

end

theorem behind_pure (token : Token) (a : α) :
    Orderly (HasRead token) (pure a) fun _ => Behind := orderly_pure fun _ h => h.behind

theorem literal_orderly (token : Token) :
    Orderly (HasRead token) (match token.literal with
      | some value => pure (Expr.constant value.toConstant)
      | none => refuse token .literalWithoutValue) fun _ => Behind := by
  split
  · exact behind_pure token _
  · exact orderly_refuse _ fun _ h => h.1

theorem primary_orderly {inner : Parse Expr} (hi : ReadsInOrder inner) :
    ReadsInOrder (primary inner) := by
  apply orderly_peek
  intro token
  split
  case h_1 hk | h_2 hk | h_3 hk | h_6 hk => exact orderly_skip hk (by decide) (behind_pure token _)
  case h_4 hk | h_5 hk => exact orderly_skip hk (by decide) (literal_orderly token)
  case h_7 hk =>
    apply orderly_skip hk (by decide)
    refine (hi.stays.on fun _ h => h.1.ready).bind fun e => ?_
    exact (orderly_expect _ _).bind fun paren => behind_pure paren _
  case h_8 hk | h_9 hk | h_10 hk =>
    apply orderly_skip hk (by decide)
    exact orderly_refuse _ fun _ h => h.1
  · exact orderly_refuse _ fun _ h => h.1

theorem assignment_orderly (target value : Expr) :
    Orderly Behind (assignment target value) fun _ => Behind := by
  unfold assignment
  split
  · exact orderly_pure fun _ h => h
  · -- the objection is to the last token of the value, after all objections to the value
    intro t ht
    have hobject : (t.object t.last .badTarget).InOrder t.last.start := InOrder.object ht _
    exact hobject

mutual

theorem operand_orderly : ∀ n, ReadsInOrder (operand n)
  | 0 => by
    unfold operand
    exact orderly_refuseNext _
  | n + 1 => by
    unfold operand
    apply orderly_acceptAny fun _ h => h
    · intro op
      exact (operand_orderly n).bind fun e => orderly_pure fun _ h => h
    · refine (primary_orderly (expression_orderly n)).bind fun e => ?_
      exact calls_orderly (expression_orderly n) n e

theorem expression_orderly : ∀ n, ReadsInOrder (expression n)
  | 0 => by
    unfold expression
    exact orderly_refuseNext _
  | n + 1 => by
    unfold expression
    refine (operation_orderly n (operand_orderly n) precedence).bind fun target => ?_
    apply orderly_accept fun _ h => Behind.ready h
    · exact (expression_orderly n).bind fun value => assignment_orderly target value
    · exact orderly_pure fun _ h => h

end

/-! ## Statements -/

theorem parameters_orderly : ∀ (n : Nat) (params : List Token), StaysInOrder (parameters n params)
  | 0, _ => by
    unfold parameters
    exact orderly_refuseNext _
  | n + 1, params => by
    rw [parameters_succ]
    apply orderly_peek
    intro next
    apply Orderly.after_objectIf _ fun _ h => h.1
    refine (orderly_expect _ _).bind fun param => ?_
    apply Orderly.after_objectIf _ fun _ h => h.1
    exact stays_accept (parameters_orderly n _) (stays_pure _)

theorem functionDeclaration_orderly (bound : Nat) {block : Parse (List Stmt)}
    (hb : StaysInOrder block) : StaysInOrder (functionDeclaration bound block) := by
  rw [functionDeclaration_eq]
  refine (orderly_expect _ _).bind fun name => ?_
  apply Orderly.on _ fun _ h => h.1.ready
  apply Orderly.after_expect
  refine (Orderly.optionally (parameters_orderly bound []) _).bind fun params => ?_
  apply Orderly.after_expect
  apply Orderly.after_expect
  exact (Orderly.withLoops hb _).bind fun body => stays_pure _

theorem loopControl_orderly (keyword : Token) :
    Orderly (HasRead keyword) (loopControl keyword) fun _ => Ready := by
  rw [loopControl_eq]
  refine orderly_loops.bind fun n => ?_
  apply Orderly.after_objectIf _ fun _ h => h.1
  exact Orderly.after_expect (stays_pure _)

section
variable {expr : Parse Expr} (he : StaysInOrder expr)
include he

theorem variableDeclaration_orderly : StaysInOrder (variableDeclaration expr) := by
  rw [variableDeclaration_eq]
  have hvalue : StaysInOrder (initialiser expr) := stays_accept (Orderly.map he) (stays_pure none)
  refine (orderly_expect _ _).bind fun name => ?_
  refine (hvalue.on fun _ h => h.1.ready).bind fun value => ?_
  exact Orderly.after_expect (stays_pure _)

theorem expressionStatement_orderly : StaysInOrder (expressionStatement expr) :=
  he.bind fun _ => Orderly.after_expect (stays_pure _)

theorem returnStatement_orderly (keyword : Token) :
    StaysInOrder (returnStatement expr keyword) := by
  rw [returnStatement_eq]
  exact (Orderly.optionally he _).bind fun value => Orderly.after_expect (stays_pure _)

theorem firstClause_orderly : StaysInOrder (firstClause expr) := by
  apply stays_accept (stays_pure none)
  apply stays_accept
  · exact Orderly.map (variableDeclaration_orderly he)
  · exact Orderly.map (expressionStatement_orderly he)

variable {stmt : Parse Stmt} (hs : StaysInOrder stmt)
include hs

theorem forStatement_orderly : StaysInOrder (forStatement expr stmt) := by
  rw [forStatement_eq]
  apply Orderly.after_expect
  refine (firstClause_orderly he).bind fun first => ?_
  refine (Orderly.optionally he _).bind fun c => Orderly.after_expect ?_
  refine (Orderly.optionally he _).bind fun i => Orderly.after_expect ?_
  exact (Orderly.withLoops hs _).bind fun body => stays_pure _

theorem whileStatement_orderly : StaysInOrder (whileStatement expr stmt) := by
  apply Orderly.after_expect
  refine he.bind fun c => Orderly.after_expect ?_
  exact (Orderly.withLoops hs _).bind fun body => stays_pure _

theorem ifStatement_orderly : StaysInOrder (ifStatement expr stmt) := by
  apply Orderly.after_expect
  refine he.bind fun c => Orderly.after_expect ?_
  refine hs.bind fun body => stays_accept ?_ (stays_pure _)
  exact hs.bind fun otherwise => stays_pure _

end

theorem declarations_ready {declaration : Parse Stmt} (hd : StaysInOrder declaration)
    (closing : Option Kind) : ∀ (n : Nat) (body : List Stmt) (t : Tape), t.Ready →
      (declarations declaration closing n body t).2.Ready
  | 0, _, _, ht => ht
  | n + 1, body, t, ht => by
    unfold declarations
    split
    · exact ht
    · have h := hd t ht
      rcases hdt : declaration t with ⟨_ | s, u⟩ <;> rw [hdt] at h
      · exact declarations_ready hd closing n body _ (InOrder.recover h).ready
      · exact declarations_ready hd closing n (s :: body) u h

theorem declared_orderly {declaration : Parse Stmt} (hd : StaysInOrder declaration)
    (closing : Option Kind) (n : Nat) (body : List Stmt) :
    StaysInOrder (declared declaration closing n body) :=
  declarations_ready hd closing n body

theorem orderly_word {token : Token} {k : Kind} (hk : token.kind = k) (hne : k ≠ .finish)
    {p : Parse α} (hp : StaysInOrder p) :
    Orderly (AboutTo token) (skip >>= fun _ => p) fun _ => Ready :=
  orderly_skip hk hne (hp.on fun _ h => h.1.ready)

mutual

theorem declaration_orderly : ∀ n, StaysInOrder (declaration n)
  | 0 => by
    unfold declaration
    exact orderly_refuseNext _
  | n + 1 => by
    unfold declaration
    apply orderly_peek
    intro token
    split
    case h_1 hk =>
      exact orderly_word hk (by decide) (functionDeclaration_orderly n (block_orderly n))
    case h_2 hk =>
      exact orderly_word hk (by decide) (variableDeclaration_orderly (expression_orderly n).stays)
    · exact (statement_orderly n).on fun _ h => h.1.ready

theorem statement_orderly : ∀ n, StaysInOrder (statement n)
  | 0 => by
    unfold statement
    exact orderly_refuseNext _
  | n + 1 => by
    unfold statement
    have he := (expression_orderly n).stays
    have hs := statement_orderly n
    apply orderly_peek
    intro token
    split
    case h_1 hk => exact orderly_word hk (by decide) (returnStatement_orderly he token)
    case h_2 hk => exact orderly_word hk (by decide) (forStatement_orderly he hs)
    case h_3 hk => exact orderly_word hk (by decide) (whileStatement_orderly he hs)
    case h_4 hk | h_5 hk => exact orderly_skip hk (by decide) (loopControl_orderly token)
    case h_6 hk => exact orderly_word hk (by decide) (ifStatement_orderly he hs)
    case h_7 hk => exact orderly_word hk (by decide) (Orderly.map (block_orderly n))
    · exact (expressionStatement_orderly he).on fun _ h => h.1.ready

theorem block_orderly : ∀ n, StaysInOrder (block n)
  | 0 => by
    unfold block
    exact orderly_refuseNext _
  | n + 1 => by
    rw [block_succ]
    refine (declared_orderly (declaration_orderly n) _ n []).bind fun body => ?_
    exact Orderly.after_expect (stays_pure body)

end

end Parse

/-! ## Whole texts -/

/-- Objections each of which is to the token of the one before it or to a later one. -/
abbrev InTextOrder (os : List Objection) : Prop :=
  os.Pairwise fun o o' => o.token.start.le o'.token.start = true

theorem Tape.Ready.inTextOrder {t : Tape} (h : t.Ready) : InTextOrder t.objections.reverse :=
  List.pairwise_reverse.mpr h.made

theorem Tape.Ready.finish {t : Tape} (h : t.Ready) (n : Nat) (body : List Stmt) :
    InTextOrder (t.finish n body).objections :=
  (Parse.declarations_ready (Parse.declaration_orderly n) none n body t h).inTextOrder

theorem Tape.Ready.finishLine {t : Tape} (h : t.Ready) (n : Nat) (body : List Stmt) :
    InTextOrder (t.finishLine n body).objections := h.finish n body

variable {source : String}

end Script
