import Script.Proofs.ReaderFollows

/-!
# Programs and lines are read as from a tape

A declaration that cannot be read is given up on by readers and tapes alike, and with it the tokens up
to the next landmark. So the declarations of a program are read as from a tape. In a line, only the
first declaration may be a bare expression, and nothing read inside of it or behind it can tell.
-/

namespace Script

namespace Read

variable {ts : List Token} {found : Bool} {t : Tape} {L : Nat}

/-! ## Giving up -/

theorem landmark_reader {m : Nat} (ht : t.Among ts) (found : Bool) (hm : t.rest.length < m) :
    landmark m (t.reader ts found) = some (some (),
      Tape.reader ts found { t with
        last := (Tape.landmark t.last t.rest).1, rest := (Tape.landmark t.last t.rest).2 }) := by
  induction m generalizing t with
  | zero => exact absurd hm (Nat.not_lt_zero _)
  | succ m ih =>
    rw [landmark, bind_some (atEnd_reader ht)]
    obtain ⟨last, rest, stop, loops, objections⟩ := t
    cases rest with
    | nil => rfl
    | cons x xs =>
      have hpeek : Tape.peek ⟨last, x :: xs, stop, loops, objections⟩ = x := rfl
      rw [if_neg (by simp [Tape.atEnd]), bind_some (previous_reader ht), Tape.landmark]
      by_cases hlast : (last.kind == .semicolon) = true
      · rw [if_pos hlast, if_pos (by rw [hlast, Bool.true_or])]
        rfl
      · rw [if_neg hlast, bind_some (peek_reader ht), hpeek]
        by_cases hx : x.kind.isLandmark = true
        · rw [if_pos hx, if_pos (by rw [hx, Bool.or_true])]
          rfl
        · rw [if_neg hx, if_neg (by simp [hlast, hx]), bind_some (skip_reader ht)]
          exact ih (ht.leads (.skip _)) (Nat.lt_of_succ_lt_succ hm)

theorem recover_reader {m : Nat} (ht : t.Among ts) (found : Bool) (hm : t.rest.length < m) :
    recover m (t.reader ts found) = some (some (), t.recover.reader ts found) := by
  have hlandmark := landmark_reader (ht.leads (.skip t)) found
    (Nat.lt_of_le_of_lt (Tape.Leads.skip t).length_le hm)
  rw [recover, bind_some (skip_reader ht), hlandmark]
  obtain ⟨last, rest, stop, loops, objections⟩ := t
  cases rest <;> rfl

theorem attempt_reader {q : Read Stmt} {p : Parse Stmt} {m : Nat} (hp : Parse.Moves p)
    (ht : t.Among ts) (hm : t.rest.length < m)
    (hread : q (t.reader ts found) = some ((p t).1, (p t).2.reader ts found)) :
    attempt m q (t.reader ts found) =
      some (some (Parse.attempt p t).1, (Parse.attempt p t).2.reader ts found) := by
  have hleads := hp t
  unfold attempt Parse.attempt
  rcases hpt : p t with ⟨_ | s, u⟩ <;> rw [hpt] at hread hleads
  · have hrecover := recover_reader (ht.leads hleads) found
      (Nat.lt_of_le_of_lt hleads.length_le hm)
    rw [hread]
    exact bind_some hrecover
  · rw [hread]

/-! ## Declarations -/

/-- An attempt as a parser: it never gives up. -/
def attempted (p : Parse Stmt) : Parse (Option Stmt) := fun t =>
  (some (Parse.attempt p t).1, (Parse.attempt p t).2)

theorem Follows.attempt {q : Read Stmt} {p : Parse Stmt} {m : Nat} (hp : Parse.Moves p)
    (hq : Follows (Under L) q p) (hm : L ≤ m) :
    Follows (Under L) (attempt m q) (attempted p) := fun ts found t ht hL =>
  attempt_reader hp ht (Nat.lt_of_lt_of_le hL hm) (hq ts found t ht hL)

theorem closes_reader (closing : Option Kind) (ht : t.Among ts) : closes closing (t.reader ts found) =
    some (some (t.atEnd || closing == some t.peek.kind), t.reader ts found) := by
  cases closing with
  | none =>
    rw [closes, atEnd_reader ht, show (none == some t.peek.kind) = false from rfl, Bool.or_false]
  | some k =>
    rw [closes, bind_some (sees_reader ht k)]
    cases hrest : t.rest with
    | nil =>
      rw [if_neg (by simp), atEnd_reader ht, show t.atEnd = true by rw [Tape.atEnd, hrest]; rfl]
      rfl
    | cons x xs =>
      have hend : t.atEnd = false := by rw [Tape.atEnd, hrest]; rfl
      rw [List.head?_cons, Option.any_some, Tape.peek, hrest, hend, Bool.false_or]
      by_cases hk : x.kind = k
      · rw [if_pos (by simpa using hk)]
        simp [hk]
        rfl
      · rw [if_neg (by simpa using hk), atEnd_reader ht, hend]
        simpa using Ne.symm hk

/-- An attempt leaves fewer tokens for those that follow. -/
theorem declarations_follows {declaration' : Read (Option Stmt)} {declaration : Parse Stmt}
    (closing : Option Kind) (hm : Parse.Moves declaration)
    (ht : Parse.Takes Parse.Ended declaration)
    (hd : Follows (Under L) declaration' (attempted declaration)) {K n m : Nat} (hK : K ≤ L)
    (hn : K ≤ n) (hn' : K ≤ m) (body : List Stmt) :
    Follows (Under K) (declarations declaration' closing m body)
      (Parse.declared declaration closing n body) := by
  induction K generalizing n m body with
  | zero => exact follows_zero
  | succ K ih =>
    obtain ⟨n, rfl⟩ := Nat.exists_eq_add_one.mpr (Nat.zero_lt_of_lt hn)
    obtain ⟨m, rfl⟩ := Nat.exists_eq_add_one.mpr (Nat.zero_lt_of_lt hn')
    intro ts found t hamong hL
    rw [declarations, bind_some (closes_reader closing hamong), Parse.declared,
      Parse.declarations_succ]
    by_cases hend : (t.atEnd || closing == some t.peek.kind) = true
    · rw [if_pos hend, if_pos hend]
      rfl
    · rw [if_neg hend, if_neg hend]
      have hrest : t.rest ≠ [] := by
        intro hnil
        simp [Tape.atEnd, hnil] at hend
      have hlt := Parse.attempt_length hm ht hamong.ended hrest
      have hnext : Under K (Parse.attempt declaration t).2 := by
        unfold Under at hL ⊢
        omega
      rw [bind_some (hd ts found t hamong (Nat.lt_of_lt_of_le hL hK))]
      exact ih (by omega) (by omega) (by omega) _ ts found _
        (hamong.leads (Parse.attempt_leads hm t)) hnext

mutual

theorem statement_follows {n m : Nat} : ∀ {L : Nat}, 3 * L ≤ n → 3 * L ≤ m →
    Follows (Under L) (statement m false) (Parse.statement n)
  | 0, _, _ => follows_zero
  | L + 1, hn, hm => by
    obtain ⟨n, rfl⟩ : ∃ k, n = k + 1 := ⟨n - 1, by omega⟩
    obtain ⟨m, rfl⟩ : ∃ k, m = k + 1 := ⟨m - 1, by omega⟩
    have hme := Parse.expression_moves n
    have hms := Parse.statement_moves n
    have he : Follows (Under L) (expression m) (Parse.expression n) :=
      expression_follows (by omega) (by omega)
    have hs : Follows (Under L) (statement m false) (Parse.statement n) :=
      statement_follows (by omega) (by omega)
    have hb : Follows (Under L) (block m) (Parse.block n) := block_follows (by omega) (by omega)
    have hdefault := expressionStatement_follows hme
      (expression_follows (L := L + 1) (n := n) (m := m) (by omega) (by omega))
    intro ts found t ht hL
    unfold statement Parse.statement
    rw [accept_bind ht (by decide), accept_bind ht (by decide), accept_bind ht (by decide),
      acceptAny_bind ht (by decide), accept_bind ht (by decide), accept_bind ht (by decide),
      Parse.bind_some (rfl : Parse.peek t = (some t.peek, t))]
    cases hk : t.peek.kind with
    | returnWord =>
      exact Follows.next (by decide) ht hL hk (returnStatement_follows hme he t.peek)
    | forWord => exact Follows.next (by decide) ht hL hk ((forStatement_follows hme he hms hs).behind _)
    | whileWord =>
      exact Follows.next (by decide) ht hL hk ((whileStatement_follows hme he hms hs).behind _)
    | breakWord => exact Follows.next (by decide) ht hL hk (loopControl_follows t.peek)
    | continueWord => exact Follows.next (by decide) ht hL hk (loopControl_follows t.peek)
    | ifWord => exact Follows.next (by decide) ht hL hk ((ifStatement_follows hme he hms hs).behind _)
    | leftBrace =>
      exact Follows.next (by decide) ht hL hk ((hb.map (Parse.block_moves n)).behind _)
    | _ => exact hdefault ts found t ht hL
termination_by L => (L, 0)

theorem declaration_follows {n m : Nat} : ∀ {L : Nat}, 3 * L + 1 ≤ n → 3 * L + 1 ≤ m →
    Follows (Under L) (declaration m) (attempted (Parse.declaration n))
  | 0, _, _ => follows_zero
  | L + 1, hn, hm => by
    obtain ⟨n, rfl⟩ : ∃ k, n = k + 1 := ⟨n - 1, by omega⟩
    obtain ⟨m, rfl⟩ : ∃ k, m = k + 1 := ⟨m - 1, by omega⟩
    have he : Follows (Under L) (expression m) (Parse.expression n) :=
      expression_follows (by omega) (by omega)
    have hs : Follows (Under (L + 1)) (statement m false) (Parse.statement n) :=
      statement_follows (by omega) (by omega)
    have hb : Follows (Under L) (block m) (Parse.block n) := block_follows (by omega) (by omega)
    have hbody : Follows (Under (L + 1)) (byKeyword (functionDeclaration m (block m))
        (variableDeclaration (expression m)) (statement m false)) (Parse.declaration (n + 1)) := by
      intro ts found t ht hL
      unfold byKeyword Parse.declaration
      rw [accept_bind ht (by decide), accept_bind ht (by decide),
        Parse.bind_some (rfl : Parse.peek t = (some t.peek, t))]
      cases hk : t.peek.kind with
      | funcWord =>
        exact Follows.next (by decide) ht hL hk
          ((functionDeclaration_follows (by omega) (by omega) (Parse.block_moves n) hb).behind _)
      | letWord =>
        exact Follows.next (by decide) ht hL hk
          ((variableDeclaration_follows (Parse.expression_moves n) he).behind _)
      | _ => exact hs ts found t ht hL
    intro ts found t ht hL
    unfold declaration
    exact hbody.attempt (Parse.declaration_moves (n + 1)) (by omega) ts found t ht hL
termination_by L => (L, 1)

theorem block_follows {n m L : Nat} (hn : 3 * L + 2 ≤ n) (hm : 3 * L + 2 ≤ m) :
    Follows (Under L) (block m) (Parse.block n) := by
  obtain ⟨n, rfl⟩ : ∃ k, n = k + 1 := ⟨n - 1, by omega⟩
  obtain ⟨m, rfl⟩ : ∃ k, m = k + 1 := ⟨m - 1, by omega⟩
  rw [Parse.block_succ, block]
  have hmoves := Parse.declaration_moves n
  have hd : Follows (Under L) (declaration m) (attempted (Parse.declaration n)) :=
    declaration_follows (by omega) (by omega)
  refine (declarations_follows _ hmoves (Parse.declaration_takes n) hd (Nat.le_refl L) (by omega)
    (by omega) []).bind (Parse.declared_moves hmoves _ n []) fun body => ?_
  exact (follows_expect _ _).bind (Parse.moves_expect _ _) fun _ => follows_pure _
termination_by (L, 2)

end

/-! ## Programs -/

theorem length_le_nestingOf (ts : List Token) : (Tape.ofTokens ts).nesting ≤ nestingOf ts := by
  have hlength : (Tape.ofTokens ts).rest.length ≤ ts.length := (List.takeWhile_sublist _).length_le
  simp only [Tape.nesting, nestingOf]
  omega

section
variable {d n : Nat} (hd : 3 * t.rest.length + 4 ≤ d) (hn : 3 * t.rest.length + 4 ≤ n)
include hd hn

theorem declaration_reader (ht : t.Among ts) (found : Bool) : declaration d (t.reader ts found) =
    some (some (Parse.attempt (Parse.declaration n) t).1,
      (Parse.attempt (Parse.declaration n) t).2.reader ts found) :=
  declaration_follows (L := t.rest.length + 1) (by omega) (by omega) ts found t ht
    (Nat.lt_succ_self _)

theorem declarations_reader (ht : t.Among ts) (body : List Stmt) :
    declarations (declaration d) none d body (t.reader ts found) =
      some (some (Parse.declarations (Parse.declaration n) none n body t).1,
        (Parse.declarations (Parse.declaration n) none n body t).2.reader ts found) :=
  declarations_follows none (Parse.declaration_moves n) (Parse.declaration_takes n)
    (declaration_follows (L := t.rest.length + 1) (by omega) (by omega)) (Nat.le_refl _) (by omega)
    (by omega) body ts found t ht (Nat.lt_succ_self _)

end

/-! ## Lines -/

/-- Behind the first declaration, those of a line are read like those of a program. -/
theorem items_reader {d n k m : Nat} (ht : t.Among ts) (hd : 3 * t.rest.length + 4 ≤ d)
    (hn : 3 * t.rest.length + 4 ≤ n) (hk : t.rest.length < k) (hm : t.rest.length < m)
    (body : List Stmt) :
    items (declaration d) m body (t.reader ts false) =
      some (some (.statements (Parse.declarations (Parse.declaration n) none k body t).1),
        (Parse.declarations (Parse.declaration n) none k body t).2.reader ts false) := by
  induction m generalizing k t body with
  | zero => exact absurd hm (Nat.not_lt_zero _)
  | succ m ih =>
    obtain ⟨k, rfl⟩ := Nat.exists_eq_add_one.mpr (Nat.zero_lt_of_lt hk)
    rw [items, bind_some (atEnd_reader ht), Parse.declarations_succ,
      show (none == some t.peek.kind) = false from rfl, Bool.or_false]
    by_cases hend : t.atEnd = true
    · rw [if_pos hend, if_pos hend]
      rfl
    · rw [if_neg hend, if_neg hend, bind_some (declaration_reader hd hn ht false)]
      have hrest : t.rest ≠ [] := by simpa [Tape.atEnd] using hend
      have hleads := Parse.attempt_leads (Parse.declaration_moves n) t
      have hlt := Parse.attempt_length (Parse.declaration_moves n) (Parse.declaration_takes n)
        ht.ended hrest
      have hnext := ih (k := k) (ht.leads hleads) (by omega) (by omega) (by omega) (by omega)
        ((Parse.attempt (Parse.declaration n) t).1.toList ++ body)
      rw [← hnext]
      generalize (Parse.attempt (Parse.declaration n) t).1 = s
      rcases s with _ | s
      · rfl
      · cases s <;> rfl

/-- The reader at the place of a tape, if a bare expression may follow. -/
def bareReader (ts : List Token) (found : Bool) (t : Tape) : Reader :=
  { t.reader ts found with allowed := true }

theorem atEnd_bareReader (ht : t.Among ts) :
    atEnd (bareReader ts found t) = some (some t.atEnd, bareReader ts found t) := by
  have hpeek : peek (bareReader ts found t) = some (some t.peek, bareReader ts found t) := by
    simp [peek, bareReader, Tape.reader, ht.get_peek]
  rw [atEnd, bind_some hpeek, ht.isFinish_peek]
  rfl

theorem bind_congr_reader {α β : Type} {q : Read α} {r r' : Reader} (h : q r = q r')
    (g : α → Read β) : (q >>= g) r = (q >>= g) r' := by
  show Read.bind q g r = Read.bind q g r'
  simp only [Read.bind, h]

theorem attempt_congr {q q' : Read Stmt} {r : Reader} (h : q r = q' r) (m : Nat) :
    attempt m q r = attempt m q' r := by
  simp only [attempt, h]

/-- A statement that is not an expression is not a bare one. -/
theorem declaration_opens (ht : t.Among ts) (hopens : t.peek.kind.opensStatement = true) (d : Nat) :
    declaration d (bareReader ts found t) = declaration d (t.reader ts found) := by
  have hstatement : ∀ m, t.peek.kind ≠ .funcWord → t.peek.kind ≠ .letWord →
      statement m true (t.reader ts found) = statement m false (t.reader ts found) := by
    intro m hfunc hlet
    cases m with
    | zero => rfl
    | succ m =>
      unfold statement
      repeat first | rw [accept_bind ht (by decide)] | rw [acceptAny_bind ht (by decide)]
      cases hk : t.peek.kind <;> rw [hk] at hopens hfunc hlet <;>
        first | rfl | exact absurd rfl hfunc | exact absurd rfl hlet | cases hopens
  cases d with
  | zero => rfl
  | succ d =>
    unfold declaration
    refine attempt_congr (?_ : byKeyword _ _ _ (t.reader ts found) = _) d
    unfold byKeyword
    rw [accept_bind ht (by decide), accept_bind ht (by decide), accept_bind ht (by decide),
      accept_bind ht (by decide)]
    split
    · rfl
    · split
      · rfl
      · rename_i hfunc hlet
        exact hstatement d hfunc hlet

theorem expressionStatement_bare {q : Read Expr} {n : Nat}
    (he : Follows (Under L) q (Parse.expression n)) (ht : t.Among ts) (hL : Under L t)
    (found : Bool) : expressionStatement q true (t.reader ts found) =
      match Parse.expressionItem n t with
      | (some (e, bare), u) => some (some (.expr e), u.reader ts (found || bare))
      | (none, u) => some (none, u.reader ts found) := by
  have hread := he ts found t ht hL
  have hleads := Parse.expression_moves n t
  unfold expressionStatement Parse.expressionItem
  rcases hpt : Parse.expression n t with ⟨_ | e, u⟩ <;> rw [hpt] at hread hleads
  · rw [bind_none hread, Parse.bind_none hpt]
  · have hu : u.Among ts := ht.leads hleads
    have hends : endsBare true (u.reader ts found) = some (some u.atEnd, u.reader ts found) :=
      atEnd_reader hu
    rw [bind_some hread, Parse.bind_some hpt, bind_some hends,
      Parse.bind_some (rfl : Parse.atEnd u = (some u.atEnd, u))]
    cases u.atEnd with
    | true =>
      show some (some (Stmt.expr e), u.reader ts true) = some (_, u.reader ts (found || true))
      rw [Bool.or_true]
    | false =>
      have hsemi := follows_expect (S := fun _ => True) .semicolon
        .expectedSemicolonAfterExpression ts found u hu trivial
      rw [if_neg (by decide), if_neg (by decide)]
      rcases hv : Parse.expect .semicolon .expectedSemicolonAfterExpression u with ⟨_ | x, v⟩ <;>
        rw [hv] at hsemi
      · rw [bind_none hsemi, Parse.bind_none hv]
      · rw [bind_some hsemi, Parse.bind_some hv]
        show some (some (Stmt.expr e), v.reader ts found) = some (_, v.reader ts (found || false))
        rw [Bool.or_false]

theorem declaration_bare {d n : Nat} (ht : t.Among ts) (found : Bool)
    (hopens : t.peek.kind.opensStatement = false) (hd : 3 * t.rest.length + 4 ≤ d)
    (hn : 2 * t.rest.length + 2 ≤ n) :
    declaration d (bareReader ts found t) =
      match Parse.expressionItem n t with
      | (some (e, bare), u) => some (some (some (.expr e)), u.reader ts (found || bare))
      | (none, u) => some (some none, u.recover.reader ts found) := by
  obtain ⟨d, rfl⟩ : ∃ k, d = k + 1 := ⟨d - 1, by omega⟩
  obtain ⟨d, rfl⟩ : ∃ k, d = k + 1 := ⟨d - 1, by omega⟩
  have hstatement : byKeyword (functionDeclaration (d + 1) (block (d + 1)))
      (variableDeclaration (expression (d + 1))) (statement (d + 1) true) (t.reader ts found) =
      expressionStatement (expression d) true (t.reader ts found) := by
    unfold byKeyword statement
    repeat first | rw [accept_bind ht (by decide)] | rw [acceptAny_bind ht (by decide)]
    cases hk : t.peek.kind <;> rw [hk] at hopens <;> first | rfl | cases hopens
  have he : Follows (Under (t.rest.length + 1)) (expression d) (Parse.expression n) :=
    expression_follows (by omega) (by omega)
  have hread := expressionStatement_bare he ht (Nat.lt_succ_self _) found
  have hleads := Parse.expressionItem_moves n t
  unfold declaration
  show attempt (d + 1) (byKeyword (functionDeclaration (d + 1) (block (d + 1)))
    (variableDeclaration (expression (d + 1))) (statement (d + 1) true)) (t.reader ts found) = _
  rw [attempt, hstatement, hread]
  rcases hitem : Parse.expressionItem n t with ⟨_ | ⟨e, bare⟩, u⟩ <;> rw [hitem] at hleads
  replace hleads : t.Leads u := hleads
  have hle := hleads.length_le
  exact bind_some (recover_reader (ht.leads hleads) found (by omega))

/-- A declaration, with leave for a bare expression or without. -/
theorem declaration_outcome {d : Nat} (ht : t.Among ts) (hd : 3 * t.rest.length + 4 ≤ d)
    (allowed found : Bool) : ∃ s u found',
    declaration d { t.reader ts found with allowed } = some (some s, u.reader ts found') ∧
    t.Leads u ∧ (t.rest ≠ [] → u.rest.length < t.rest.length) ∧
    (found' = found ∨ allowed = true ∧ u.rest = [] ∧ ∃ e, s = some (.expr e)) := by
  have hread := declaration_reader hd hd ht found
  have hleads := Parse.attempt_leads (Parse.declaration_moves d) t
  have hlt := Parse.attempt_length (Parse.declaration_moves d) (Parse.declaration_takes d) ht.ended
  cases allowed with
  | false => exact ⟨_, _, found, hread, hleads, hlt, .inl rfl⟩
  | true =>
    by_cases hopens : t.peek.kind.opensStatement = true
    · exact ⟨_, _, found, (declaration_opens ht hopens d).trans hread, hleads, hlt, .inl rfl⟩
    · have hbare := declaration_bare ht found (by simpa using hopens) hd
        (n := d) (by omega)
      have hleads := Parse.attempt_leads (Parse.expressionItem_moves d) t
      have hlt := Parse.attempt_length (Parse.expressionItem_moves d) (Parse.expressionItem_takes d)
        ht.ended
      unfold Parse.attempt at hleads hlt
      rcases hitem : Parse.expressionItem d t with ⟨_ | ⟨e, bare⟩, u⟩ <;>
        rw [hitem] at hbare hleads hlt
      · exact ⟨_, _, found, hbare, hleads, hlt, .inl rfl⟩
      · refine ⟨_, _, found || bare, hbare, hleads, hlt, ?_⟩
        obtain ⟨_, ⟨⟩, _, hrest⟩ | ⟨_, ⟨⟩, _⟩ | ⟨⟨⟩, _⟩ := Parse.expressionItem_cases hitem
        · exact .inr ⟨rfl, hrest, e, rfl⟩
        · exact .inl (Bool.or_false found)

end Read

theorem Tape.place_end {ts : List Token} {t : Tape} (h : t.rest = []) :
    t.place ts = firstEnd ts := by
  rw [Tape.place, h]
  rfl

/-- What is left of a line behind its first declaration is read to its end. -/
theorem Read.items_finishLine {ts : List Token} {t : Tape} {d n m : Nat} (ht : t.Among ts)
    (hd : 3 * t.rest.length + 4 ≤ d) (hn : 3 * t.rest.length + 4 ≤ n) (hm : t.rest.length < m)
    (body : List Stmt) : ∃ r,
    items (declaration d) m body (t.reader ts false) = some (some (t.finishLine n body).tree, r) ∧
    r.index = firstEnd ts ∧ r.objections.reverse = (t.finishLine n body).objections := by
  have hread := items_reader (k := n) ht hd hn (by omega) hm body
  exact ⟨_, hread, Tape.place_end (Parse.declarations_rest n n body ht.ended (by omega)), rfl⟩

namespace Reader.Inside

variable {ts : List Token} {r : Reader} (h : r.Inside ts)
include h

/-- A parser that follows one of tapes is not stuck, and leads on. -/
theorem follow {α : Type} {q : Read α} {p : Parse α} (hr : r.allowed = false) (hp : Parse.Moves p)
    (hq : Read.Follows (Read.Under (firstEnd ts + 1)) q p) :
    ∃ result r', q r = some (result, r') ∧ r.Leads ts r' := by
  obtain ⟨t, ht, -, hreader⟩ := h.tape
  rw [hr] at hreader
  rw [hreader]
  exact ⟨_, _, hq ts r.found t ht (Nat.lt_succ_of_le ht.length_le),
    Tape.leads_reader (hp t) false fun _ => rfl⟩

/-- What a declaration leaves behind. It goes on unless the text ends, and comes upon a bare
expression only with leave, where the text ends behind it. -/
theorem declaration {d : Nat} (hd : nestingOf ts ≤ d) : ∃ s r',
    Read.declaration d r = some (some s, r') ∧ r.Leads ts r' ∧
    (r.index < firstEnd ts → r.index < r'.index) ∧
    (r'.found = r.found ∨ r.allowed = true ∧ r'.index = firstEnd ts ∧ ∃ e, s = some (.expr e)) := by
  obtain ⟨t, ht, hplace, hreader⟩ := h.tape
  have hnesting := Read.length_le_nestingOf ts
  have hle := ht.length_le
  rw [firstEnd_eq] at hle
  simp only [Tape.nesting] at hnesting
  obtain ⟨s, u, found, hread, hleads, hlt, hfound⟩ :=
    Read.declaration_outcome ht (d := d) (by omega) r.allowed r.found
  refine ⟨s, u.reader ts found, hreader ▸ hread, ?_, fun hindex => ?_, ?_⟩
  · rw [hreader]
    refine Tape.leads_reader hleads r.allowed fun hallowed => ?_
    rcases hfound with hfound | ⟨htrue, -⟩
    · exact hfound
    · rw [hallowed] at htrue
      cases htrue
  · rw [← hplace] at hindex ⊢
    refine ht.place_lt (hlt fun hnil => ?_)
    rw [Tape.place_end hnil] at hindex
    exact absurd hindex (Nat.lt_irrefl _)
  · exact hfound.imp_right fun ⟨hallowed, hend, he⟩ => ⟨hallowed, Tape.place_end hend, he⟩

end Reader.Inside

section
variable (ts : List Token) {d : Nat} (hd : nestingOf ts ≤ d)
include hd

/-- A program is read to its end, and there are no loops around then. -/
theorem Read.program_reader : Read.program d (.ofTokens ts) =
    some (some ((Tape.ofTokens ts).finish (Tape.ofTokens ts).nesting []).tree,
      (Tape.afterProgram ts).reader ts false) := by
  have hnesting := length_le_nestingOf ts
  simp only [Tape.nesting] at hnesting
  rw [← Tape.reader_ofTokens]
  exact declarations_reader (n := (Tape.ofTokens ts).nesting) (by omega) (Nat.le_succ _)
    (Tape.among_ofTokens ts) []

/-- A line is read to its end. -/
theorem Read.line_reader : ∃ r, Read.line d (.ofTokens ts) =
      some (some ((Tape.ofTokens ts).line (Tape.ofTokens ts).nesting).tree, r) ∧
    r.index = firstEnd ts ∧
    r.objections.reverse = ((Tape.ofTokens ts).line (Tape.ofTokens ts).nesting).objections := by
  have hnesting := length_le_nestingOf ts
  have ht := Tape.among_ofTokens ts
  have hstart : Read.line d (.ofTokens ts) =
      items (declaration d) d [] (bareReader ts false (Tape.ofTokens ts)) := by
    rw [← Tape.reader_ofTokens]
    rfl
  rw [hstart]
  generalize Tape.ofTokens ts = t at ht hnesting ⊢
  simp only [Tape.nesting] at hnesting
  have hn : 3 * t.rest.length + 4 ≤ t.nesting := Nat.le_succ _
  obtain ⟨m, hm⟩ : ∃ m, d = m + 1 := ⟨d - 1, by omega⟩
  have hturn : items (declaration d) d [] = items (declaration d) (m + 1) [] :=
    congrArg (fun k => items (declaration d) k []) hm
  rw [hturn, items, bind_some (atEnd_bareReader ht), Tape.line]
  by_cases hend : t.atEnd = true
  · have hrest : t.rest = [] := by simpa [Tape.atEnd] using hend
    obtain ⟨r, hread, hplace, hobjections⟩ :=
      items_finishLine (d := d) (m := 1) ht (by omega) hn (by simp [hrest]) []
    rw [items, bind_some (atEnd_reader ht), if_pos hend] at hread
    rw [if_pos hend, if_pos (by rw [hend, Bool.true_or])]
    obtain ⟨htree, rfl⟩ := Prod.mk.inj (Option.some.inj hread)
    exact ⟨_, congrArg (fun tree => some (tree, bareReader ts false t)) htree, hplace, hobjections⟩
  · rw [if_neg hend]
    by_cases hopens : t.peek.kind.opensStatement = true
    · obtain ⟨r, hread, hr⟩ :=
        items_finishLine (d := d) (m := m + 1) ht (by omega) hn (by omega) []
      rw [items, bind_some (atEnd_reader ht), if_neg hend] at hread
      rw [if_pos (by rw [hopens, Bool.or_true])]
      refine ⟨r, ?_, hr⟩
      rw [← hread]
      exact bind_congr_reader (declaration_opens ht hopens d) _
    · have hleads := Parse.expressionItem_moves t.nesting t
      have hread := declaration_bare (d := d) (n := t.nesting) ht false
        (by simpa using hopens) (by omega) (by omega)
      rw [if_neg (by simp [hend, hopens])]
      rcases hitem : Parse.expressionItem t.nesting t with ⟨_ | ⟨e, _ | _⟩, u⟩ <;>
        rw [hitem] at hread hleads <;> rw [bind_some hread]
      · have hrecover := hleads.trans (.recover u)
        have hle := hrecover.length_le
        exact items_finishLine (ht.leads hrecover) (by omega) (by omega) (by omega) []
      · replace hleads : t.Leads u := hleads
        have hle := hleads.length_le
        exact items_finishLine (ht.leads hleads) (by omega) (by omega) (by omega) [.expr e]
      · obtain ⟨_, _, _, hrest⟩ | ⟨_, ⟨⟩, _⟩ | ⟨⟨⟩, _⟩ := Parse.expressionItem_cases hitem
        exact ⟨_, rfl, Tape.place_end hrest, rfl⟩

end

theorem parseProgram_eq (ts : List Token) :
    parseProgram ts = (Tape.ofTokens ts).finish (Tape.ofTokens ts).nesting [] := by
  rw [parseProgram, Read.run?, Read.program_reader ts (Nat.le_refl _)]
  rfl

theorem parseLine_eq (ts : List Token) :
    parseLine ts = (Tape.ofTokens ts).line (Tape.ofTokens ts).nesting := by
  obtain ⟨r, hread, -, hobjections⟩ := Read.line_reader ts (Nat.le_refl _)
  rw [parseLine, Read.run?, hread]
  exact congrArg (Parsed.mk _) hobjections

end Script
