import Script.Proofs.ReaderPlaces

/-!
# Readers follow tapes

At the place of a tape, a parser of readers does what the parser of the tape does. It finds every token
that it looks for, counts the loops that it enters and leaves right, and does not touch the notes about
bare expressions. This holds as soon as the numbers that bound the recursion are large enough for the
tokens that are left, so a program and a line are read as from a tape.
-/

namespace Script

namespace Read

variable {α β : Type} {ts : List Token} {found : Bool} {t : Tape} {L : Nat}

theorem bind_some {q : Read α} {g : α → Read β} {r r' : Reader} {a : α}
    (h : q r = some (some a, r')) : (q >>= g) r = g a r' := by
  show Read.bind q g r = g a r'
  simp only [Read.bind, h]

theorem bind_none {q : Read α} {g : α → Read β} {r r' : Reader} (h : q r = some (none, r')) :
    (q >>= g) r = some (none, r') := by
  show Read.bind q g r = some (none, r')
  simp only [Read.bind, h]

/-! ## Tokens -/

section
variable (h : t.Among ts)
include h

theorem peek_reader : peek (t.reader ts found) = some (some t.peek, t.reader ts found) := by
  simp [peek, Tape.reader, h.get_peek]

theorem previous_reader : previous (t.reader ts found) = some (some t.last, t.reader ts found) := by
  simp [previous, Tape.reader, h.get_last]

theorem atEnd_reader : atEnd (t.reader ts found) = some (some t.atEnd, t.reader ts found) := by
  rw [atEnd, bind_some (peek_reader h), h.isFinish_peek]
  rfl

theorem advance_reader (hrest : t.rest ≠ []) :
    advance (t.reader ts found) = some (some (), t.skip.reader ts found) := by
  have hplace := h.place_add
  have hplace' := (h.leads (.skip t)).place_add
  unfold Tape.skip at hplace' ⊢
  cases hx : t.rest with
  | nil => exact absurd hx hrest
  | cons x xs =>
    rw [hx] at hplace hplace'
    simp only [List.length_cons] at hplace hplace'
    simp only [advance, Tape.reader]
    congr 3
    omega

theorem skip_reader :
    skip (t.reader ts found) = some (some t.skip.last, t.skip.reader ts found) := by
  rw [skip, bind_some (atEnd_reader h)]
  by_cases hrest : t.rest = []
  · have hskip : t.skip = t := by rw [Tape.skip, hrest]
    rw [hskip, if_pos (by rw [Tape.atEnd, hrest]; rfl)]
    exact previous_reader h
  · rw [if_neg (by simpa [Tape.atEnd] using hrest), bind_some (advance_reader h hrest)]
    exact previous_reader (h.leads (.skip t))

theorem sees_reader (k : Kind) : sees k (t.reader ts found) =
    some (some (t.rest.head?.any (·.kind == k)), t.reader ts found) := by
  rw [sees, bind_some (atEnd_reader h)]
  cases hrest : t.rest with
  | nil =>
    rw [if_pos (by rw [Tape.atEnd, hrest]; rfl)]
    rfl
  | cons x xs =>
    rw [if_neg (by simp [Tape.atEnd, hrest]), bind_some (peek_reader h), Tape.peek, hrest]
    rfl

theorem accept_reader (found : Bool) (k : Kind) : accept k (t.reader ts found) =
    if t.rest.head?.any (·.kind == k) then some (some true, t.skip.reader ts found)
    else some (some false, t.reader ts found) := by
  rw [accept, bind_some (sees_reader h k)]
  split
  · rw [bind_some (skip_reader h)]
    rfl
  · rfl

theorem acceptAny_reader (found : Bool) (ks : List Kind) : acceptAny ks (t.reader ts found) =
    if t.rest.head?.any (ks.contains ·.kind) then some (some true, t.skip.reader ts found)
    else some (some false, t.reader ts found) := by
  induction ks with
  | nil =>
    have hnone : t.rest.head?.any (fun x => [].contains x.kind) = false := by
      cases t.rest <;> rfl
    rw [hnone]
    rfl
  | cons k ks ih =>
    have hor : t.rest.head?.any (fun x => (k :: ks).contains x.kind) =
        (t.rest.head?.any (·.kind == k) || t.rest.head?.any (ks.contains ·.kind)) := by
      cases t.rest with
      | nil => rfl
      | cons x xs => exact List.contains_cons
    have haccept := accept_reader h found k
    rw [acceptAny, hor]
    cases hk : t.rest.head?.any (·.kind == k) with
    | true =>
      rw [hk, if_pos rfl] at haccept
      rw [bind_some haccept]
      rfl
    | false =>
      rw [hk, if_neg (by decide)] at haccept
      rw [bind_some haccept, Bool.false_or]
      exact ih

/-- A kind that ends no text is not that of a token which is not there. -/
theorem seenAny_eq (ks : List Kind) (hks : .finish ∉ ks) :
    t.rest.head?.any (ks.contains ·.kind) = ks.contains t.peek.kind := by
  have hend := h.ended
  unfold Tape.peek
  cases hrest : t.rest with
  | nil =>
    rw [Parse.Ended] at hend
    simpa [hend] using hks
  | cons x xs => rfl

theorem seen_eq {k : Kind} (hk : k ≠ .finish) :
    t.rest.head?.any (·.kind == k) = (t.peek.kind == k) := by
  have hany := seenAny_eq h [k] (by simpa using hk.symm)
  simpa only [List.contains_cons, List.contains_nil, Bool.or_false] using hany

end

theorem accept_bind (h : t.Among ts) {k : Kind} (hk : k ≠ .finish) (q q' : Read α) :
    (accept k >>= fun b => if b then q else q') (t.reader ts found) =
      if t.peek.kind = k then q (t.skip.reader ts found) else q' (t.reader ts found) := by
  have haccept := accept_reader h found k
  rw [seen_eq h hk] at haccept
  by_cases hx : t.peek.kind = k
  · rw [if_pos (by simpa using hx)] at haccept
    rw [bind_some haccept, if_pos hx, if_pos rfl]
  · rw [if_neg (by simpa using hx)] at haccept
    rw [bind_some haccept, if_neg hx, if_neg (by decide)]

theorem acceptAny_bind (h : t.Among ts) {ks : List Kind} (hks : .finish ∉ ks) (q q' : Read α) :
    (acceptAny ks >>= fun b => if b then q else q') (t.reader ts found) =
      if t.peek.kind ∈ ks then q (t.skip.reader ts found) else q' (t.reader ts found) := by
  have haccept := acceptAny_reader h found ks
  rw [seenAny_eq h ks hks] at haccept
  by_cases hx : t.peek.kind ∈ ks
  · rw [if_pos (by simpa using hx)] at haccept
    rw [bind_some haccept, if_pos hx, if_pos rfl]
  · rw [if_neg (by simpa using hx)] at haccept
    rw [bind_some haccept, if_neg hx, if_neg (by decide)]

/-! ## Rules -/

/-- At the places of the tapes in `S`, `q` does what `p` does on the tapes. -/
def Follows (S : Tape → Prop) (q : Read α) (p : Parse α) : Prop :=
  ∀ (ts : List Token) (found : Bool) (t : Tape), t.Among ts → S t →
    q (t.reader ts found) = some ((p t).1, (p t).2.reader ts found)

/-- Tapes with fewer than `L` tokens left. -/
def Under (L : Nat) (t : Tape) : Prop := t.rest.length < L

theorem Under.skip (h : Under (L + 1) t) (hrest : t.rest ≠ []) : Under L t.skip := by
  have hlt := Tape.length_skip hrest
  unfold Under at h ⊢
  omega

section
variable {S S' : Tape → Prop} {q q' : Read α} {p p' : Parse α} {g : α → Read β} {f : α → Parse β}

theorem follows_zero : Follows (Under 0) q p := fun _ _ _ _ h => absurd h (Nat.not_lt_zero _)

theorem Follows.imp (h : Follows S' q p) (hS : ∀ t, S t → S' t) : Follows S q p :=
  fun ts found t ht hL => h ts found t ht (hS t hL)

theorem Follows.mono {K : Nat} (h : Follows (Under L) q p) (hK : K ≤ L) : Follows (Under K) q p :=
  h.imp fun _ hlt => Nat.lt_of_lt_of_le hlt hK

theorem follows_pure (a : α) : Follows S (pure a) (pure a) := fun _ _ _ _ _ => rfl

/-- The second parser starts where the first one stops, on a tape in `S'`. -/
theorem Follows.bind_to (hq : Follows S q p) (hm : Parse.Moves p)
    (hto : ∀ t a, Parse.Ended t → S t → (p t).1 = some a → S' (p t).2)
    (hf : ∀ a, Follows S' (g a) (f a)) : Follows S (q >>= g) (p >>= f) := by
  intro ts found t ht hS
  have hread := hq ts found t ht hS
  have hleads := hm t
  have hnext := hto t
  rcases hpt : p t with ⟨_ | a, u⟩ <;> rw [hpt] at hread hleads hnext
  · rw [bind_none hread, Parse.bind_none hpt]
  · rw [bind_some hread, Parse.bind_some hpt]
    exact hf a ts found u (ht.leads hleads) (hnext a ht.ended hS rfl)

theorem Follows.bind (hq : Follows (Under L) q p) (hm : Parse.Moves p)
    (hf : ∀ a, Follows (Under L) (g a) (f a)) : Follows (Under L) (q >>= g) (p >>= f) :=
  hq.bind_to hm (fun t _ _ hL _ => Nat.lt_of_le_of_lt (hm t).length_le hL) hf

/-- A token less is left for the second parser. -/
theorem Follows.bind_takes (hq : Follows (Under (L + 1)) q p) (hm : Parse.Moves p)
    (ht : Parse.Takes Parse.Ended p) (hf : ∀ a, Follows (Under L) (g a) (f a)) :
    Follows (Under (L + 1)) (q >>= g) (p >>= f) := by
  refine hq.bind_to hm (fun t a hend hL ha => ?_) hf
  have hlt := ht t a hend ha
  unfold Under at hL ⊢
  omega

theorem Follows.map {k : α → β} (hq : Follows (Under L) q p) (hm : Parse.Moves p) :
    Follows (Under L) (k <$> q) (k <$> p) := by
  rw [← bind_pure_comp k p]
  exact hq.bind hm fun a => follows_pure (k a)

theorem Follows.ite {c : Prop} [Decidable c] (hq : Follows S q p) (hq' : Follows S q' p') :
    Follows S (if c then q else q') (if c then p else p') := by
  split
  · exact hq
  · exact hq'

theorem follows_loops : Follows S loops Parse.loops := fun _ _ _ _ _ => rfl

theorem follows_sees (k : Kind) : Follows S (sees k) (Parse.sees k) :=
  fun _ _ _ ht _ => sees_reader ht k

theorem follows_accept (k : Kind) : Follows S (accept k) (Parse.accept k) := by
  intro ts found t ht _
  rw [accept_reader ht]
  unfold Parse.accept
  cases t.rest with
  | nil => rfl
  | cons x xs =>
    rw [List.head?_cons, Option.any_some]
    by_cases hk : (x.kind == k) = true
    · simp only [if_pos hk]
    · simp only [if_neg hk]

/-- Behind the token there is one less. -/
theorem follows_accept_takes {k : Kind} (hq : Follows (Under L) q p)
    (hq' : Follows (Under (L + 1)) q' p') :
    Follows (Under (L + 1)) (accept k >>= fun b => if b then q else q')
      (Parse.accept k >>= fun b => if b then p else p') := by
  intro ts found t ht hL
  have hread := follows_accept k ts found t ht hL
  by_cases hk : Parse.Lacks k t.rest
  · rw [Parse.accept_lacks hk] at hread
    rw [bind_some hread, Parse.bind_some (Parse.accept_lacks hk)]
    exact hq' ts found t ht hL
  · obtain ⟨x, xs, hrest, hx⟩ := Parse.not_lacks hk
    rw [Parse.accept_cons hrest hx] at hread
    rw [bind_some hread, Parse.bind_some (Parse.accept_cons hrest hx)]
    exact hq ts found t.skip (ht.leads (.skip t)) (hL.skip (by simp [hrest]))

/-- Behind an operator, which is the token read last, there is one less. -/
theorem follows_acceptAny {ks : List Kind} {g : Token → Read α} {f : Option Token → Parse α}
    (hsome : ∀ op, Follows (Under L) (g op) (f (some op)))
    (hnone : Follows (Under (L + 1)) q' (f none)) :
    Follows (Under (L + 1)) (acceptAny ks >>= fun b => if b then previous >>= g else q')
      (Parse.acceptAny ks >>= f) := by
  intro ts found t ht hL
  have hread := acceptAny_reader ht found ks
  cases hrest : t.rest with
  | nil =>
    rw [hrest] at hread
    rw [bind_some hread, Parse.bind_some (Parse.acceptAny_nil hrest)]
    exact hnone ts found t ht hL
  | cons x xs =>
    have hx := Parse.acceptAny_cons (k := ks) hrest
    rw [hrest, List.head?_cons, Option.any_some] at hread
    by_cases hk : x.kind ∈ ks
    · rw [if_pos (by simpa using hk)] at hread
      rw [if_pos hk] at hx
      have hlast : t.skip.last = x := by rw [Tape.skip, hrest]
      have ht' := ht.leads (.skip t)
      rw [bind_some hread, Parse.bind_some hx, if_pos rfl, bind_some (previous_reader ht'), hlast]
      exact hsome x ts found t.skip ht' (hL.skip (by simp [hrest]))
    · rw [if_neg (by simpa using hk)] at hread
      rw [if_neg hk] at hx
      rw [bind_some hread, Parse.bind_some hx]
      exact hnone ts found t ht hL

theorem follows_refuseNext (c : Complaint) :
    Follows S (refuseNext c : Read α) (Parse.refuseNext c) := by
  intro ts found t ht _
  have hobject : objectNext c (t.reader ts found) =
      some (some (), (t.object t.peek c).reader ts found) := by
    rw [objectNext, bind_some (peek_reader ht)]
    rfl
  rw [refuseNext, bind_some hobject]
  rfl

theorem follows_expect (k : Kind) (c : Complaint) : Follows S (expect k c) (Parse.expect k c) := by
  intro ts found t ht hS
  rw [expect, bind_some (sees_reader ht k)]
  cases hrest : t.rest with
  | nil =>
    have hpeek : t.peek = t.stop := by rw [Tape.peek, hrest]; rfl
    rw [Parse.expect_nil hrest, ← hpeek]
    exact follows_refuseNext c ts found t ht hS
  | cons x xs =>
    have hpeek : t.peek = x := by rw [Tape.peek, hrest]; rfl
    have hlast : t.skip.last = x := by rw [Tape.skip, hrest]
    rw [Parse.expect_cons hrest, List.head?_cons, Option.any_some]
    by_cases hk : x.kind = k
    · rw [if_pos (by simpa using hk), if_pos hk, skip_reader ht, hlast]
    · rw [if_neg (by simpa using hk), if_neg hk, ← hpeek]
      exact follows_refuseNext c ts found t ht hS

theorem Follows.optionally {k : Kind} (hq : Follows (Under L) q p) (hm : Parse.Moves p) :
    Follows (Under L) (optionally k q) (Parse.optionally k p) :=
  (follows_sees k).bind (Parse.moves_sees k) fun _ => (follows_pure none).ite (hq.map hm)

/-! ### The token read last -/

/-- Tapes of `S` on which `token` was read last. -/
def Behind (token : Token) (S : Tape → Prop) (t : Tape) : Prop := S t ∧ t.last = token

theorem Follows.behind (h : Follows S q p) (token : Token) : Follows (Behind token S) q p :=
  h.imp fun _ ht => ht.1

theorem Follows.bind_behind {token : Token} (hq : Follows (Behind token (Under L)) q p)
    (hm : Parse.Moves p) (hf : ∀ a, Follows (Under L) (g a) (f a)) :
    Follows (Behind token (Under L)) (q >>= g) (p >>= f) :=
  hq.bind_to hm (fun t _ _ hS _ => Nat.lt_of_le_of_lt (hm t).length_le hS.1) hf

/-- Behind the token that was expected there is one less. -/
theorem follows_expect_behind {k : Kind} {c : Complaint} {g : Token → Read α}
    {f : Token → Parse α} (hf : ∀ x, Follows (Behind x (Under L)) (g x) (f x)) :
    Follows (Under (L + 1)) (expect k c >>= g) (Parse.expect k c >>= f) := by
  intro ts found t ht hL
  have hread := follows_expect k c ts found t ht hL
  cases hrest : t.rest with
  | nil =>
    have hx := Parse.expect_nil (k := k) (c := c) hrest
    rw [hx] at hread
    rw [bind_none hread, Parse.bind_none hx]
  | cons x xs =>
    have hx := Parse.expect_cons (k := k) (c := c) hrest
    by_cases hk : x.kind = k
    · rw [if_pos hk] at hx
      rw [hx] at hread
      rw [bind_some hread, Parse.bind_some hx]
      refine hf x ts found t.skip (ht.leads (.skip t)) ⟨hL.skip (by simp [hrest]), ?_⟩
      rw [Tape.skip, hrest]
    · rw [if_neg hk] at hx
      rw [hx] at hread
      rw [bind_none hread, Parse.bind_none hx]

theorem follows_previous {token : Token} {g : Token → Read α}
    (h : Follows (Behind token S) (g token) p) : Follows (Behind token S) (previous >>= g) p := by
  intro ts found t ht hS
  rw [bind_some (previous_reader ht), hS.2]
  exact h ts found t ht hS

theorem follows_object {token : Token} (c : Complaint) :
    Follows (Behind token S) (object c) (Parse.object token c) := by
  intro ts found t ht hS
  rw [object, bind_some (previous_reader ht), hS.2]
  rfl

theorem follows_refuse {token : Token} (c : Complaint) :
    Follows (Behind token S) (refuse c : Read α) (Parse.refuse token c) := by
  intro ts found t ht hS
  rw [refuse, bind_some (follows_object c ts found t ht hS)]
  rfl

theorem follows_objectIf {token : Token} {c : Prop} [Decidable c] (complaint : Complaint) :
    Follows (Behind token S) (onlyIf c (object complaint)) (Parse.objectIf c token complaint) :=
  (follows_object complaint).ite (follows_pure ())

theorem follows_objectNextIf {c : Prop} [Decidable c] (complaint : Complaint) {g : Unit → Read α}
    {f : Unit → Parse α} (hf : Follows (Under L) (g ()) (f ())) :
    Follows (Under L) (onlyIf c (objectNext complaint) >>= g)
      (Parse.peek >>= fun next => Parse.objectIf c next complaint >>= f) := by
  have hobject : Follows (Under L) (onlyIf c (objectNext complaint))
      (Parse.peek >>= fun next => Parse.objectIf c next complaint) := by
    intro ts found t ht _
    show onlyIf c (objectNext complaint) _ =
      some ((Parse.objectIf c t.peek complaint t).1, _)
    unfold onlyIf Parse.objectIf
    split
    · rw [objectNext, bind_some (peek_reader ht)]
      rfl
    · rfl
  rw [← bind_assoc]
  exact hobject.bind (Parse.moves_peek.bind fun next => Parse.moves_objectIf _ next _) fun _ => hf

/-! ### Loops -/

/-- A loop is left from where it was entered, so it is counted off again. -/
theorem Follows.inLoop (hq : Follows (Under L) q p) (hm : Parse.Moves p) :
    Follows (Under L) (inLoop q) (Parse.withLoops (· + 1) p) := by
  intro ts found t ht hL
  have hread : q { t.reader ts found with loops := t.loops + 1 } = _ :=
    hq ts found { t with loops := t.loops + 1 } ⟨ht.read, ht.stop⟩ hL
  have hloops := (hm { t with loops := t.loops + 1 }).loops
  unfold Read.inLoop Parse.withLoops
  rw [show (t.reader ts found).loops = t.loops from rfl, hread]
  simp only [Tape.reader, hloops]
  rfl

theorem Follows.outsideLoops (hq : Follows (Under L) q p) :
    Follows (Under L) (outsideLoops q) (Parse.withLoops (fun _ => 0) p) := by
  intro ts found t ht hL
  have hread : q { t.reader ts found with loops := 0 } = _ :=
    hq ts found { t with loops := 0 } ⟨ht.read, ht.stop⟩ hL
  unfold Read.outsideLoops Parse.withLoops
  rw [hread]
  rfl

end

/-! ## Expressions -/

section
variable {q : Read Expr} {p : Parse Expr} (hm : Parse.Moves p) (hq : Follows (Under L) q p)
include hm hq

theorem chain_follows {ops : List Kind} {K n m : Nat} (hK : K ≤ L) (hn : K ≤ n) (hn' : K ≤ m)
    (left : Expr) : Follows (Under K) (chain ops q m left) (Parse.chain ops p n left) := by
  induction K generalizing n m left with
  | zero => exact follows_zero
  | succ K ih =>
    obtain ⟨n, rfl⟩ := Nat.exists_eq_add_one.mpr (Nat.zero_lt_of_lt hn)
    obtain ⟨m, rfl⟩ := Nat.exists_eq_add_one.mpr (Nat.zero_lt_of_lt hn')
    refine follows_acceptAny (fun op => ?_) (follows_pure left)
    exact (hq.mono (by omega)).bind hm fun right => ih (by omega) (by omega) (by omega) _

theorem operation_follows {n m : Nat} (hn : L ≤ n) (hn' : L ≤ m) : ∀ levels : List (List Kind),
    Follows (Under L) (operation m q levels) (Parse.operation n p levels)
  | [] => hq
  | _ :: tighter => by
    have htight := operation_follows hn hn' tighter
    have hmoves := Parse.operation_moves n hm tighter
    exact htight.bind hmoves fun left => chain_follows hmoves htight (Nat.le_refl L) hn hn' left

theorem moreArguments_follows {K n m : Nat} (hK : K ≤ L) (hn : K ≤ n) (hn' : K ≤ m)
    (args : List Expr) :
    Follows (Under K) (moreArguments q m args) (Parse.moreArguments p n args) := by
  induction K generalizing n m args with
  | zero => exact follows_zero
  | succ K ih =>
    obtain ⟨n, rfl⟩ := Nat.exists_eq_add_one.mpr (Nat.zero_lt_of_lt hn)
    obtain ⟨m, rfl⟩ := Nat.exists_eq_add_one.mpr (Nat.zero_lt_of_lt hn')
    rw [Parse.moreArguments_succ]
    refine follows_accept_takes (follows_objectNextIf _ ?_) (follows_pure args.reverse)
    exact (hq.mono (by omega)).bind hm fun e => ih (by omega) (by omega) (by omega) (e :: args)

theorem arguments_follows {n m : Nat} (hn : L ≤ n) (hn' : L ≤ m) :
    Follows (Under L) (arguments m q) (Parse.arguments n p) := by
  rw [Parse.arguments_eq]
  have hargs : Follows (Under L) (do moreArguments q m [← q]) (do Parse.moreArguments p n [← p]) :=
    hq.bind hm fun e => moreArguments_follows hm hq (Nat.le_refl L) hn hn' [e]
  have hmoves : Parse.Moves (do Parse.moreArguments p n [← p]) :=
    hm.bind fun e => Parse.moreArguments_moves hm n [e]
  exact (hargs.optionally hmoves).bind (hmoves.optionally _) fun args => follows_pure _

theorem calls_follows {K n m : Nat} (hK : K ≤ L + 1) (hn : K ≤ n) (hn' : K ≤ m) (callee : Expr) :
    Follows (Under K) (calls q m callee) (Parse.calls p n callee) := by
  induction K generalizing n m callee with
  | zero => exact follows_zero
  | succ K ih =>
    obtain ⟨n, rfl⟩ := Nat.exists_eq_add_one.mpr (Nat.zero_lt_of_lt hn)
    obtain ⟨m, rfl⟩ := Nat.exists_eq_add_one.mpr (Nat.zero_lt_of_lt hn')
    refine follows_accept_takes ?_ (follows_pure callee)
    have hargs := arguments_follows hm (hq.mono (K := K) (by omega)) (n := n) (m := m) (by omega)
      (by omega)
    refine hargs.bind (Parse.arguments_moves hm n) fun args => ?_
    refine (follows_expect _ _).bind (Parse.moves_expect _ _) fun paren => ?_
    exact ih (by omega) (by omega) (by omega) (.call callee paren args)

end

/-- What is read behind the next token, which was read last then. -/
theorem Follows.next {k : Kind} {q : Read α} {p : Parse α} (hne : k ≠ .finish)
    (ht : t.Among ts) (hL : Under (L + 1) t) (hk : t.peek.kind = k)
    (h : Follows (Behind t.peek (Under L)) q p) :
    q (t.skip.reader ts found) = some ((p t.skip).1, (p t.skip).2.reader ts found) := by
  have hrest : t.rest ≠ [] := by
    intro hnil
    have hend := ht.ended
    rw [Parse.Ended] at hend
    rw [Tape.peek, hnil] at hk
    exact hne (hk.symm.trans hend)
  have hlast : t.skip.last = t.peek := by
    obtain ⟨x, xs, hx⟩ := List.exists_cons_of_ne_nil hrest
    rw [Tape.skip, Tape.peek, hx]
    rfl
  exact h ts found t.skip (ht.leads (.skip t)) ⟨hL.skip hrest, hlast⟩

theorem primary_follows {q : Read Expr} {p : Parse Expr} (hm : Parse.Moves p)
    (hq : Follows (Under L) q p) : Follows (Under (L + 1)) (primary q) (Parse.primary p) := by
  intro ts found t ht hL
  have hinner : Follows (Under L)
      (do
        let e ← q
        let _ ← expect .rightParen .expectedParenAfterExpression
        pure (Expr.group e))
      (do
        let e ← p
        let _ ← Parse.expect .rightParen .expectedParenAfterExpression
        pure (Expr.group e)) :=
    hq.bind hm fun e => (follows_expect _ _).bind (Parse.moves_expect _ _) fun _ => follows_pure _
  have hreserved : Follows (Behind t.peek (Under L))
      (previous >>= fun token => (refuse (.reserved token.source) : Read Expr))
      (Parse.refuse t.peek (.reserved t.peek.source)) := follows_previous (follows_refuse _)
  have hname : Follows (Behind t.peek (Under L))
      (previous >>= fun token => pure (Expr.reference token)) (pure (Expr.reference t.peek)) :=
    follows_previous (follows_pure _)
  rw [primary, accept_bind ht (by decide), accept_bind ht (by decide), accept_bind ht (by decide),
    acceptAny_bind ht (by decide), accept_bind ht (by decide), accept_bind ht (by decide),
    acceptAny_bind ht (by decide)]
  rw [Parse.primary, Parse.bind_some (rfl : Parse.peek t = (some t.peek, t))]
  cases hk : t.peek.kind with
  | falseWord => exact Follows.next (by decide) ht hL hk (follows_pure _)
  | trueWord => exact Follows.next (by decide) ht hL hk (follows_pure _)
  | nilWord => exact Follows.next (by decide) ht hL hk (follows_pure _)
  | number | text =>
    refine Follows.next (by decide) ht hL hk (follows_previous ?_)
    cases t.peek.literal with
    | some value => exact follows_pure _
    | none => exact follows_refuse _
  | name => exact Follows.next (by decide) ht hL hk hname
  | leftParen => exact Follows.next (by decide) ht hL hk (hinner.behind _)
  | classWord => exact Follows.next (by decide) ht hL hk hreserved
  | thisWord => exact Follows.next (by decide) ht hL hk hreserved
  | superWord => exact Follows.next (by decide) ht hL hk hreserved
  | _ => exact follows_refuseNext _ ts found t ht hL

theorem assignment_follows {S : Tape → Prop} (target value : Expr) :
    Follows S (assignment target value) (Parse.assignment target value) := by
  have hobject : Follows S (object .badTarget >>= fun _ => pure target)
      (Parse.last >>= fun token => Parse.object token .badTarget >>= fun _ => pure target) := by
    intro ts found t ht hS
    rw [bind_some (follows_object .badTarget ts found t ht ⟨hS, rfl⟩)]
    rfl
  cases target with
  | reference name => exact follows_pure _
  | _ => exact hobject

mutual

theorem operand_follows {n m : Nat} : ∀ {L : Nat}, 2 * L ≤ n + 1 → 2 * L ≤ m + 1 →
    Follows (Under L) (operand m) (Parse.operand n)
  | 0, _, _ => follows_zero
  | L + 1, hn, hm => by
    obtain ⟨n, rfl⟩ : ∃ k, n = k + 1 := ⟨n - 1, by omega⟩
    obtain ⟨m, rfl⟩ : ∃ k, m = k + 1 := ⟨m - 1, by omega⟩
    unfold operand Parse.operand
    refine follows_acceptAny (fun op => ?_) ?_
    · refine (operand_follows (by omega) (by omega)).bind (Parse.operand_moves n) fun e => ?_
      exact follows_pure _
    · have he : Follows (Under L) (expression m) (Parse.expression n) :=
        expression_follows (by omega) (by omega)
      have hmoves := Parse.expression_moves n
      -- The callee has taken a token, so that the bounds are large enough for the calls behind it.
      refine (primary_follows hmoves he).bind_takes (Parse.primary_moves hmoves)
        (Parse.primary_takes hmoves) fun callee => ?_
      exact calls_follows hmoves he (by omega) (by omega) (by omega) callee
termination_by L => (L, 0)

theorem expression_follows {n m : Nat} : ∀ {L : Nat}, 2 * L ≤ n → 2 * L ≤ m →
    Follows (Under L) (expression m) (Parse.expression n)
  | 0, _, _ => follows_zero
  | L + 1, hn, hm => by
    obtain ⟨n, rfl⟩ : ∃ k, n = k + 1 := ⟨n - 1, by omega⟩
    obtain ⟨m, rfl⟩ : ∃ k, m = k + 1 := ⟨m - 1, by omega⟩
    unfold expression Parse.expression
    have ho : Follows (Under (L + 1)) (operand m) (Parse.operand n) :=
      operand_follows (by omega) (by omega)
    have hop := operation_follows (Parse.operand_moves n) ho (n := n) (m := m) (by omega) (by omega)
    refine (hop Parse.precedence).bind (Parse.operation_moves n (Parse.operand_moves n) _)
      fun target => ?_
    refine follows_accept_takes ?_ (follows_pure target)
    refine (expression_follows (by omega) (by omega)).bind (Parse.expression_moves n) fun value => ?_
    exact assignment_follows target value
termination_by L => (L, 1)

end

/-! ## Statements -/

theorem parameters_follows {n m : Nat} (hn : L ≤ n) (hm : L ≤ m) (params : List Token) :
    Follows (Under L) (parameters m params) (Parse.parameters n params) := by
  induction L generalizing n m params with
  | zero => exact follows_zero
  | succ L ih =>
    obtain ⟨n, rfl⟩ := Nat.exists_eq_add_one.mpr (Nat.zero_lt_of_lt hn)
    obtain ⟨m, rfl⟩ := Nat.exists_eq_add_one.mpr (Nat.zero_lt_of_lt hm)
    rw [Parse.parameters_succ]
    refine follows_objectNextIf _ ?_
    refine follows_expect_behind fun param => ?_
    refine (follows_objectIf _).bind_behind (Parse.moves_objectIf _ param _) fun _ => ?_
    refine (follows_accept _).bind (Parse.moves_accept _) fun _ => Follows.ite ?_ (follows_pure _)
    exact ih (by omega) (by omega) (param :: params)

theorem functionDeclaration_follows {n m : Nat} {block' : Read (List Stmt)}
    {block : Parse (List Stmt)} (hn : L ≤ n) (hm : L ≤ m) (hmoves : Parse.Moves block)
    (hb : Follows (Under L) block' block) :
    Follows (Under L) (functionDeclaration m block') (Parse.functionDeclaration n block) := by
  rw [Parse.functionDeclaration_eq]
  refine (follows_expect _ _).bind (Parse.moves_expect _ _) fun name => ?_
  refine (follows_expect _ _).bind (Parse.moves_expect _ _) fun _ => ?_
  have hparams := Parse.parameters_moves n []
  refine ((parameters_follows hn hm []).optionally hparams).bind (hparams.optionally _)
    fun params => ?_
  refine (follows_expect _ _).bind (Parse.moves_expect _ _) fun _ => ?_
  refine (follows_expect _ _).bind (Parse.moves_expect _ _) fun _ => ?_
  exact hb.outsideLoops.bind (hmoves.withLoops _) fun body => follows_pure _

theorem loopControl_follows (keyword : Token) :
    Follows (Behind keyword (Under L)) loopControl (Parse.loopControl keyword) := by
  rw [Parse.loopControl_eq]
  refine follows_previous ?_
  refine follows_loops.bind_to Parse.moves_loops (fun _ _ _ hS _ => hS) fun n => ?_
  refine (follows_objectIf _).bind_behind (Parse.moves_objectIf _ keyword _) fun _ => ?_
  exact (follows_expect _ _).bind (Parse.moves_expect _ _) fun _ => follows_pure _

section
variable {expr' : Read Expr} {expr : Parse Expr} (hme : Parse.Moves expr)
  (he : Follows (Under L) expr' expr)
include hme he

theorem variableDeclaration_follows :
    Follows (Under L) (variableDeclaration expr') (Parse.variableDeclaration expr) := by
  rw [Parse.variableDeclaration_eq]
  have hvalue : Follows (Under L) (initialiser expr') (Parse.initialiser expr) := by
    refine (follows_accept _).bind (Parse.moves_accept _) fun _ => Follows.ite ?_ (follows_pure _)
    exact he.map hme
  have hmoves : Parse.Moves (Parse.initialiser expr) :=
    (Parse.moves_accept _).bind fun _ => (hme.map some).ite (Parse.moves_pure none)
  refine (follows_expect _ _).bind (Parse.moves_expect _ _) fun name => ?_
  refine hvalue.bind hmoves fun value => ?_
  exact (follows_expect _ _).bind (Parse.moves_expect _ _) fun _ => follows_pure _

theorem expressionStatement_follows :
    Follows (Under L) (expressionStatement expr' false) (Parse.expressionStatement expr) := by
  refine he.bind hme fun e => ?_
  exact (follows_expect _ _).bind (Parse.moves_expect _ _) fun _ => follows_pure _

theorem returnStatement_follows (keyword : Token) :
    Follows (Behind keyword (Under L)) (returnStatement expr')
      (Parse.returnStatement expr keyword) := by
  rw [Parse.returnStatement_eq]
  refine follows_previous (Follows.behind ?_ keyword)
  refine (he.optionally hme).bind (hme.optionally _) fun value => ?_
  exact (follows_expect _ _).bind (Parse.moves_expect _ _) fun _ => follows_pure _

theorem firstClause_follows :
    Follows (Under L) (firstClause expr') (Parse.firstClause expr) := by
  refine (follows_accept _).bind (Parse.moves_accept _) fun _ => (follows_pure _).ite ?_
  refine (follows_accept _).bind (Parse.moves_accept _) fun _ => Follows.ite ?_ ?_
  · exact (variableDeclaration_follows hme he).map (Parse.variableDeclaration_moves hme)
  · exact (expressionStatement_follows hme he).map (Parse.expressionStatement_moves hme)

variable {stmt' : Read Stmt} {stmt : Parse Stmt} (hms : Parse.Moves stmt)
  (hs : Follows (Under L) stmt' stmt)
include hms hs

theorem forStatement_follows :
    Follows (Under L) (forStatement expr' stmt') (Parse.forStatement expr stmt) := by
  rw [Parse.forStatement_eq]
  refine (follows_expect _ _).bind (Parse.moves_expect _ _) fun _ => ?_
  refine (firstClause_follows hme he).bind (Parse.firstClause_moves hme) fun first => ?_
  refine (he.optionally hme).bind (hme.optionally _) fun c => ?_
  refine (follows_expect _ _).bind (Parse.moves_expect _ _) fun _ => ?_
  refine (he.optionally hme).bind (hme.optionally _) fun i => ?_
  refine (follows_expect _ _).bind (Parse.moves_expect _ _) fun _ => ?_
  exact (hs.inLoop hms).bind (hms.withLoops _) fun body => follows_pure _

theorem whileStatement_follows :
    Follows (Under L) (whileStatement expr' stmt') (Parse.whileStatement expr stmt) := by
  refine (follows_expect _ _).bind (Parse.moves_expect _ _) fun _ => he.bind hme fun c => ?_
  refine (follows_expect _ _).bind (Parse.moves_expect _ _) fun _ => ?_
  exact (hs.inLoop hms).bind (hms.withLoops _) fun body => follows_pure _

theorem ifStatement_follows :
    Follows (Under L) (ifStatement expr' stmt') (Parse.ifStatement expr stmt) := by
  refine (follows_expect _ _).bind (Parse.moves_expect _ _) fun _ => he.bind hme fun c => ?_
  refine (follows_expect _ _).bind (Parse.moves_expect _ _) fun _ => hs.bind hms fun body => ?_
  refine (follows_accept _).bind (Parse.moves_accept _) fun _ => Follows.ite ?_ (follows_pure _)
  exact hs.bind hms fun otherwise => follows_pure _

end

end Read

end Script
