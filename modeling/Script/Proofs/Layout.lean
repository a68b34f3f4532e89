import Mathlib.Data.List.Forall2
import Script.Proofs.ParseRelocation
import Script.Proofs.ProgramInPieces
import Script.Proofs.ScanOrder

/-!
# Layout does not matter

Two texts of the same words, laid out in different ways, are read alike, and a session in which the
one is asked for instead of the other goes the same way; only the errors are reported elsewhere,
each at the corresponding token. To see this, the tokens are numbered: what is done with the numbers
for positions is what is done in both texts, and every position that then comes up is the number of
a token.
-/

namespace Script

/-! ## The same words -/

/-- Tokens that differ in nothing but their positions. -/
structure Token.Alike (t u : Token) : Prop where
  kind : t.kind = u.kind
  source : t.source = u.source
  literal : t.literal = u.literal

/-- Two texts with nothing wrong in their words, which are the same. -/
structure SameWords (s s' : String) : Prop where
  errors : (Scanned.ofText s).errors = []
  errors' : (Scanned.ofText s').errors = []
  tokens : List.Forall₂ Token.Alike (Scanned.ofText s).tokens (Scanned.ofText s').tokens

deriving instance DecidableEq for Literal

instance (t u : Token) : Decidable (t.Alike u) :=
  decidable_of_iff (t.kind = u.kind ∧ t.source = u.source ∧ t.literal = u.literal)
    ⟨fun ⟨hk, hs, hl⟩ => ⟨hk, hs, hl⟩, fun h => ⟨h.kind, h.source, h.literal⟩⟩

/-- Positions at which tokens of the same number start. -/
def Counterparts (ts us : List Token) (p q : Position) : Prop :=
  ∃ i : Nat, ts[i]?.map Token.start = some p ∧ us[i]?.map Token.start = some q

structure Objection.Alike (ts us : List Token) (o o' : Objection) : Prop where
  complaint : o.complaint = o'.complaint
  token : o.token.Alike o'.token
  place : Counterparts ts us o.token.start o'.token.start

/-- What two texts are read as: the trees are the same when `erase` has taken the positions out of
them, and the objections are the same at corresponding tokens. -/
structure Parsed.Alike {α : Type} (erase : α → α) (ts us : List Token) (x y : Parsed α) : Prop where
  tree : erase x.tree = erase y.tree
  objections : List.Forall₂ (Objection.Alike ts us) x.objections y.objections

theorem Token.alike_relocate (f g : Position → Position) (t : Token) :
    (t.relocate f).Alike (t.relocate g) := ⟨rfl, rfl, rfl⟩

/-! ## Numbered tokens -/

/-- The tokens with their numbers for positions, all on line `k`. -/
def numbered (k : Nat) (ts : List Token) : List Token :=
  ts.mapIdx fun i t => { t with start := ⟨k, i⟩ }

/-- `p` is the number of one of the tokens. -/
def Numbers (k : Nat) (ts : List Token) (p : Position) : Prop :=
  ∃ i : Nat, i < ts.length ∧ p = ⟨k, i⟩

section
variable {k : Nat} {ts us : List Token}

theorem numbered_alike (h : List.Forall₂ Token.Alike ts us) : numbered k ts = numbered k us := by
  refine List.ext_getElem (by simp [numbered, h.length_eq]) fun i hi hi' => ?_
  simp only [numbered, List.length_mapIdx] at hi hi'
  have hi := h.get hi hi'
  simp only [numbered, List.getElem_mapIdx]
  exact Token.mk.injEq .. ▸ ⟨hi.kind, hi.source, hi.literal, rfl⟩

/-- Every token goes to its place. -/
theorem numbered_relocate {g : Position → Position}
    (h : ∀ (i : Nat) (t : Token), ts[i]? = some t → g ⟨k, i⟩ = t.start) :
    (numbered k ts).map (Token.relocate g) = ts := by
  refine List.ext_getElem (by simp [numbered]) fun i hi hi' => ?_
  simp only [numbered, List.getElem_map, List.getElem_mapIdx, Token.relocate]
  rw [h i _ (List.getElem?_eq_getElem hi')]

theorem numbered_fixed {f : Position → Position} (hf : ∀ p, Numbers k ts p → f p = p) :
    (numbered k ts).map (Token.relocate f) = numbered k ts := by
  refine List.ext_getElem (by simp [numbered]) fun i hi hi' => ?_
  simp only [numbered, List.length_mapIdx] at hi'
  simp only [numbered, List.getElem_map, List.getElem_mapIdx, Token.relocate]
  rw [hf _ ⟨i, hi', rfl⟩]

theorem numbered_ne_nil (h : ts ≠ []) : numbered k ts ≠ [] := by
  simpa [numbered] using h

end

/-- A position that is left alone by everything that leaves the positions in `S` alone is one of
them. -/
theorem position_of_fixed {S : Position → Prop} {p : Position}
    (h : ∀ f : Position → Position, (∀ q, S q → f q = q) → f p = p) : S p := by
  classical
  by_contra hp
  have hmoved := h (fun q => if S q then q else ⟨q.line + 1, q.column⟩) fun q hq => if_pos hq
  simp only [if_neg hp] at hmoved
  have hline : p.line + 1 = p.line := congrArg Position.line hmoved
  omega

/-! ## Parsing -/

variable {g : Position → Position}

namespace Parse

theorem expressionItem_mirrors {L n m : Nat} (hn : 2 * L ≤ n) (hm : 2 * L ≤ m) :
    Mirrors g (Within L) (Prod.map (Expr.relocate g) id) (expressionItem n) (expressionItem m) := by
  refine (expression_mirrors hn hm).bind (expression_moves n) fun e => ?_
  refine mirrors_atEnd.bind moves_atEnd fun _ => (mirrors_pure rfl).ite ?_
  exact mirrors_expect.bind (moves_expect _ _) fun _ => mirrors_pure rfl

end Parse

theorem Tape.finishLine_relocate {n m : Nat} {t : Tape} (ht : Parse.Ended t)
    (hn : 3 * t.rest.length + 4 ≤ n) (hm : 3 * t.rest.length + 4 ≤ m) (body : List Stmt) :
    (t.relocate g).finishLine m (body.map (Stmt.relocate g)) =
      (t.finishLine n body).relocate g (Line.relocate g) := by
  simp only [finishLine, finish_relocate ht hn hm, Parsed.relocate, Line.relocate,
    Stmt.relocateAll_eq]

theorem parseLine_relocate {ts : List Token} (h : ts ≠ []) :
    parseLine (ts.map (Token.relocate g)) = (parseLine ts).relocate g (Line.relocate g) := by
  have ht := Tape.ended_ofTokens ts
  rw [parseLine_eq, parseLine_eq, Tape.ofTokens_relocate h, Tape.line, Tape.line,
    Tape.atEnd_relocate, Tape.peek_relocate, Token.kind_relocate, Tape.nesting_relocate]
  generalize Tape.ofTokens ts = t at *
  have hn : 3 * t.rest.length + 4 ≤ t.nesting := Nat.le_succ _
  by_cases hfirst : (t.atEnd || t.peek.kind.opensStatement) = true
  · rw [if_pos hfirst, if_pos hfirst]
    exact Tape.finishLine_relocate ht hn hn []
  · rw [if_neg hfirst, if_neg hfirst]
    have hw : Parse.Within (t.rest.length + 1) t := ⟨ht, Nat.lt_succ_self _⟩
    have hitem := Parse.expressionItem_mirrors (g := g) (L := t.rest.length + 1) (n := t.nesting)
      (m := t.nesting) (by omega) (by omega) t hw
    have hleads := Parse.expressionItem_moves t.nesting t
    rw [hitem]
    rcases hread : Parse.expressionItem t.nesting t with ⟨_ | ⟨e, _ | _⟩, u⟩ <;> rw [hread] at hleads
    · have hu : t.Leads u.recover := hleads.trans (.recover u)
      have hle := hu.length_le
      show (u.relocate g).recover.finishLine t.nesting [] = _
      rw [Tape.recover_relocate]
      exact Tape.finishLine_relocate (hw.leads hu).1 (by omega) (by omega) []
    · have hu : t.Leads u := hleads
      have hle := hu.length_le
      exact Tape.finishLine_relocate (hw.leads hu).1 (by omega) (by omega) [.expr e]
    · exact congrArg (Parsed.mk _) List.map_reverse.symm

/-! ## Requests -/

namespace Request

def source : Request → String
  | program s => s
  | line s => s

def tokens (r : Request) : List Token := (Scanned.ofText r.source).tokens

def parse : Request → List Token → Parsed Line
  | program _, ts => ⟨.statements (parseProgram ts).tree, (parseProgram ts).objections⟩
  | line _, ts => parseLine ts

/-- Requests that are the same, or that ask for the same words in another layout. -/
inductive Alike : Request → Request → Prop
  | refl (r : Request) : Alike r r
  | program {s s' : String} (h : SameWords s s') : Alike (.program s) (.program s')
  | line {s s' : String} (h : SameWords s s') : Alike (.line s) (.line s')

variable {r r' : Request}

theorem examined_eq (r : Request) : r.examined =
    ⟨(r.parse r.tokens).tree, (Scanned.ofText r.source).errors.map .word ++
      (r.parse r.tokens).objections.map .ofObjection⟩ := by
  cases r <;> rfl

theorem parse_relocate (r : Request) {ts : List Token} (h : ts ≠ []) :
    r.parse (ts.map (Token.relocate g)) = (r.parse ts).relocate g (Line.relocate g) := by
  cases r with
  | program =>
    simp only [parse, parseProgram_relocate h, Parsed.relocate, Line.relocate, Stmt.relocateAll_eq]
  | line => simp only [parse, parseLine_relocate h]

theorem tokens_ne_nil (r : Request) : r.tokens ≠ [] := by
  obtain ⟨ts, hts, -⟩ := Scanned.ofText_tape r.source
  rw [tokens, hts]
  simp

theorem Alike.tokens (h : Alike r r') : List.Forall₂ Token.Alike r.tokens r'.tokens := by
  cases h with
  | refl => exact List.forall₂_same.mpr fun t _ => ⟨rfl, rfl, rfl⟩
  | program h => exact h.tokens
  | line h => exact h.tokens

theorem Alike.parse (h : Alike r r') (ts : List Token) : r.parse ts = r'.parse ts := by
  cases h <;> rfl

/-- What is read of a request, with numbers on line `k` for positions. -/
def read (k : Nat) (r : Request) : Parsed Line := r.parse (numbered k r.tokens)

theorem Alike.read (h : Alike r r') (k : Nat) : r.read k = r'.read k := by
  unfold Request.read
  rw [numbered_alike h.tokens, h.parse]

/-- What is read of a request, with every token in its place. -/
theorem read_placed {k : Nat}
    (h : ∀ (i : Nat) (t : Token), r.tokens[i]? = some t → g ⟨k, i⟩ = t.start) :
    r.parse r.tokens = (r.read k).relocate g (Line.relocate g) := by
  rw [Request.read, ← parse_relocate r (numbered_ne_nil r.tokens_ne_nil), numbered_relocate h]

theorem read_fixed {k : Nat} {f : Position → Position}
    (hf : ∀ p, Numbers k r.tokens p → f p = p) :
    (r.read k).relocate f (Line.relocate f) = r.read k := by
  rw [Request.read, ← parse_relocate r (numbered_ne_nil r.tokens_ne_nil), numbered_fixed hf]

/-- Every objection is to a token of the request. -/
theorem read_objections {k : Nat} {o : Objection} (ho : o ∈ (r.read k).objections) :
    Numbers k r.tokens o.token.start := by
  refine position_of_fixed fun f hf => ?_
  have hfixed : (r.read k).objections.map (Objection.relocate f) = (r.read k).objections.map id := by
    rw [List.map_id]
    exact congrArg Parsed.objections (read_fixed hf)
  exact congrArg (fun o => o.token.start) (List.map_inj_left.mp hfixed o ho)

end Request

/-- The position of the token with number `p`. -/
def placeIn (rs : List Request) (p : Position) : Position :=
  ((rs[p.line.toNat]?.bind fun r => r.tokens[p.column.toNat]?).map Token.start).getD p

section
variable {rs rs' : List Request} {k : Nat} {r r' : Request} (hr : rs[k]? = some r)
include hr

theorem placeIn_number (i : Nat) (t : Token) (ht : r.tokens[i]? = some t) :
    placeIn rs ⟨k, i⟩ = t.start := by
  simp [placeIn, hr, ht]

theorem Request.parse_placed :
    r.parse r.tokens = (r.read k).relocate (placeIn rs) (Line.relocate (placeIn rs)) :=
  read_placed (placeIn_number hr)

variable (hr' : rs'[k]? = some r') (h : r.Alike r')
include hr' h

theorem Numbers.counterparts {p : Position} (hp : Numbers k r.tokens p) :
    Counterparts r.tokens r'.tokens (placeIn rs p) (placeIn rs' p) := by
  obtain ⟨i, hi, rfl⟩ := hp
  have hi' : i < r'.tokens.length := h.tokens.length_eq ▸ hi
  have ht := List.getElem?_eq_getElem hi
  have ht' := List.getElem?_eq_getElem hi'
  refine ⟨i, ?_, ?_⟩
  · rw [placeIn_number hr i _ ht, ht]
    rfl
  · rw [placeIn_number hr' i _ ht', ht']
    rfl

/-- The trees are the same but for positions, and the objections are the same at corresponding
tokens. -/
theorem Request.Alike.parsed : Parsed.Alike (Line.relocate fun _ => .start) r.tokens r'.tokens
    (r.parse r.tokens) (r'.parse r'.tokens) := by
  have herase : ∀ (f : Position → Position) (l : Line),
      (l.relocate f).relocate (fun _ => .start) = l.relocate (fun _ => .start) := fun f l =>
    congrArg Examined.tree (Examined.relocate_relocate (g := f) ⟨l, []⟩)
  rw [Request.parse_placed hr, Request.parse_placed hr', ← h.read]
  refine ⟨(herase _ _).trans (herase _ _).symm, ?_⟩
  refine List.forall₂_map_left_iff.mpr (List.forall₂_map_right_iff.mpr ?_)
  refine List.forall₂_same.mpr fun o ho => ⟨rfl, Token.alike_relocate _ _ _, ?_⟩
  exact Numbers.counterparts hr hr' h (Request.read_objections ho)

end

/-! ## What is found wrong -/

inductive Diagnostic.Alike (ts us : List Token) : Diagnostic → Diagnostic → Prop
  | word (e : ScanError) : Diagnostic.Alike ts us (.word e) (.word e)
  | shape {p p' : Position} (place message : String) (h : Counterparts ts us p p') :
      Diagnostic.Alike ts us (.shape p place message) (.shape p' place message)

/-- Tokens that stand one behind the other are in the order of their numbers. -/
theorem le_of_ordered {ts : List Token} (h : ts.Pairwise fun t u => t.start.Before u.start)
    {i j : Nat} {t u : Token} (ht : ts[i]? = some t) (hu : ts[j]? = some u) :
    t.start.le u.start = decide (i ≤ j) := by
  obtain ⟨hi, rfl⟩ := List.getElem?_eq_some_iff.mp ht
  obtain ⟨hj, rfl⟩ := List.getElem?_eq_some_iff.mp hu
  have hbefore := List.pairwise_iff_getElem.mp h
  rw [Bool.eq_iff_iff, Position.le_iff, decide_eq_true_iff]
  rcases Nat.lt_trichotomy i j with hlt | rfl | hlt
  · exact iff_of_true (.inr (hbefore i j hi hj hlt)) (Nat.le_of_lt hlt)
  · exact iff_of_true (.inl rfl) (Nat.le_refl _)
  · refine iff_of_false ?_ (Nat.not_le.mpr hlt)
    have hback := hbefore j i hj hi hlt
    rintro (heq | hforth)
    · rw [heq] at hback
      exact Position.Before.irrefl _ hback
    · exact Position.Before.irrefl _ (hback.trans hforth)

/-- What is wrong with one request and with the other, at corresponding tokens. It is reported in the
same order if the requests are the same, or if no position in them is too large to be exact. -/
structure Request.WrongAlike (r r' : Request) (ds ds' : List Diagnostic) : Prop where
  same : ∃ es, es.Perm ds' ∧ List.Forall₂ (Diagnostic.Alike r.tokens r'.tokens) ds es
  inOrder : r = r' ∨ Short r.source ∧ Short r'.source →
    List.Forall₂ (Diagnostic.Alike r.tokens r'.tokens) ds ds'

/-- Objections are sorted by the numbers of their tokens. -/
theorem Request.sort_placed {rs : List Request} {k : Nat} {r : Request} (hr : rs[k]? = some r)
    (herrors : (Scanned.ofText r.source).errors = []) (hshort : Short r.source) :
    Diagnostic.sort r.examined.found =
      ((r.read k).objections.mergeSort fun o o' => o.token.start.le o'.token.start).map
        fun o => .ofObjection (o.relocate (placeIn rs)) := by
  rw [examined_eq, herrors, Request.parse_placed hr]
  simp only [List.map_nil, List.nil_append, Parsed.relocate, List.map_map]
  refine (List.map_mergeSort fun o ho o' ho' => ?_).symm
  obtain ⟨i, hi, hp⟩ := read_objections ho
  obtain ⟨j, hj, hq⟩ := read_objections ho'
  have ht := List.getElem?_eq_getElem hi
  have hu := List.getElem?_eq_getElem hj
  have hordered := le_of_ordered (Scanned.tokens_ordered hshort) ht hu
  show _ = (placeIn rs o.token.start).le (placeIn rs o'.token.start)
  rw [hp, hq, placeIn_number hr i _ ht, placeIn_number hr j _ hu, hordered]
  simp [Position.le]

section
variable {rs rs' : List Request} {k : Nat} {r r' : Request} (hr : rs[k]? = some r)
  (hr' : rs'[k]? = some r') (h : r.Alike r')
include hr hr' h

/-- What is found wrong, as it was recorded. -/
theorem Request.Alike.found : List.Forall₂ (Diagnostic.Alike r.tokens r'.tokens)
    r.examined.found r'.examined.found := by
  have hobjections : List.Forall₂ (Diagnostic.Alike r.tokens r'.tokens)
      ((r.parse r.tokens).objections.map .ofObjection)
      ((r'.parse r'.tokens).objections.map .ofObjection) := by
    refine List.forall₂_map_left_iff.mpr (List.forall₂_map_right_iff.mpr ?_)
    refine (h.parsed hr hr').objections.imp fun o o' ho => ?_
    have hplace : o.place = o'.place := by
      rw [Objection.place, Objection.place, Token.isFinish, Token.isFinish, ho.token.kind,
        ho.token.source]
    unfold Diagnostic.ofObjection
    rw [ho.complaint, hplace]
    exact .shape _ _ ho.place
  rw [examined_eq, examined_eq]
  refine List.rel_append ?_ hobjections
  cases h with
  | refl =>
    refine List.forall₂_same.mpr fun d hd => ?_
    obtain ⟨e, -, rfl⟩ := List.mem_map.mp hd
    exact .word e
  | program h | line h =>
    simp only [Request.source, h.errors, h.errors']
    exact .nil

theorem Request.Alike.found_nil : r.examined.found = [] ↔ r'.examined.found = [] := by
  rw [← List.length_eq_zero_iff, (h.found hr hr').length_eq, List.length_eq_zero_iff]

theorem Request.Alike.sorted : r.WrongAlike r' (Diagnostic.sort r.examined.found)
    (Diagnostic.sort r'.examined.found) := by
  have hfound := h.found hr hr'
  have hwords : ∀ herrors : (Scanned.ofText r.source).errors = [],
      ∀ herrors' : (Scanned.ofText r'.source).errors = [],
      Short r.source ∧ Short r'.source → List.Forall₂ (Diagnostic.Alike r.tokens r'.tokens)
        (Diagnostic.sort r.examined.found) (Diagnostic.sort r'.examined.found) := by
    rintro herrors herrors' ⟨hshort, hshort'⟩
    rw [Request.sort_placed hr herrors hshort, Request.sort_placed hr' herrors' hshort', ← h.read]
    refine List.forall₂_map_left_iff.mpr (List.forall₂_map_right_iff.mpr ?_)
    refine List.forall₂_same.mpr fun o ho => .shape _ _ ?_
    exact Numbers.counterparts hr hr' h (read_objections (List.mem_mergeSort.mp ho))
  have hself : r = r' → List.Forall₂ (Diagnostic.Alike r.tokens r'.tokens)
      (Diagnostic.sort r.examined.found) (Diagnostic.sort r'.examined.found) := by
    rintro rfl
    refine List.forall₂_same.mpr fun d hd => ?_
    exact List.forall₂_same.mp hfound d (List.mem_mergeSort.mp hd)
  constructor
  · obtain ⟨es, hes, hperm⟩ := List.perm_comp_forall₂ (List.mergeSort_perm _ _) hfound
    exact ⟨es, hperm.trans (List.mergeSort_perm _ _).symm, hes⟩
  · cases h with
    | refl => exact fun _ => hself rfl
    | program h | line h => exact Or.rec hself (hwords h.errors h.errors')

end

/-! ## Answers -/

/-- Failures of the `k`-th request: an error is reported at corresponding tokens, of that request or
of an earlier one. -/
inductive Failure.Alike (rs rs' : List Request) (k : Nat) : Failure → Failure → Prop
  | rejected {r r' : Request} {ds ds' : List Diagnostic} (hr : rs[k]? = some r)
      (hr' : rs'[k]? = some r') (h : r.WrongAlike r' ds ds') :
      Failure.Alike rs rs' k (.rejected ds) (.rejected ds')
  | runtime {j : Nat} {r r' : Request} {e e' : RuntimeError} (hj : j ≤ k) (hr : rs[j]? = some r)
      (hr' : rs'[j]? = some r') (hfault : e.fault = e'.fault) (htoken : e.token.Alike e'.token)
      (h : Counterparts r.tokens r'.tokens e.token.start e'.token.start) :
      Failure.Alike rs rs' k (.runtime e) (.runtime e')
  | output (message : String) : Failure.Alike rs rs' k (.output message) (.output message)

inductive Reply.Alike (rs rs' : List Request) (k : Nat) :
    Reply (Option String) → Reply (Option String) → Prop
  | ok (v : Option String) : Reply.Alike rs rs' k (.ok v) (.ok v)
  | failed {f f' : Failure} (h : f.Alike rs rs' k f') : Reply.Alike rs rs' k (.failed f) (.failed f')
  | exited : Reply.Alike rs rs' k .exited .exited

structure Answer.Alike (rs rs' : List Request) (k : Nat) (a a' : Answer) : Prop where
  reply : Reply.Alike rs rs' k a.reply a'.reply
  sink : a.sink = a'.sink
  input : a.input = a'.input

/-- The answers from the `k`-th one on. -/
inductive AnswersAlike (rs rs' : List Request) : Nat → List Answer → List Answer → Prop
  | nil {k : Nat} : AnswersAlike rs rs' k [] []
  | cons {k : Nat} {a a' : Answer} {as as' : List Answer} (h : a.Alike rs rs' k a')
      (hs : AnswersAlike rs rs' (k + 1) as as') : AnswersAlike rs rs' k (a :: as) (a' :: as')

theorem Answer.Alike.cons_map {rs rs' : List Request} {k : Nat} {a a' : Answer}
    (h : a.Alike rs rs' k a') {x y : Option (List Answer)}
    (hs : Option.Rel (AnswersAlike rs rs' (k + 1)) x y) :
    Option.Rel (AnswersAlike rs rs' k) (x.map (a :: ·)) (y.map (a' :: ·)) := by
  cases hs with
  | some hs => exact .some (.cons h hs)
  | none => exact .none

/-! ## Sessions -/

theorem Scopes.register_relocate (s : Scopes) (identity : Nat) (natives : List Native) :
    (s.register identity natives).relocate g = (s.relocate g).register identity natives := by
  induction natives generalizing s identity with
  | nil => rfl
  | cons n natives ih =>
    have hdefine : ((s.relocate g).define .global n.name
        (some (.callable identity (.native n)))).2 =
        (s.define .global n.name (some (.callable identity (.native n)))).2.relocate g :=
      congrArg Prod.snd (define_relocate s .global n.name (some (.callable identity (.native n))))
    rw [register, ih, register, hdefine]

theorem Scopes.initial_relocate : initial.relocate g = initial := by
  have hempty : empty.relocate g = empty := by
    simp [empty, relocate, Scope.relocate, Bindings.relocate, Bindings.onValues]
  rw [initial, register_relocate, hempty]

/-- `p` is the number of a token of one of the first `k` requests. -/
def NumbersBefore (rs : List Request) (k : Nat) (p : Position) : Prop :=
  ∃ j r, j < k ∧ rs[j]? = some r ∧ Numbers j r.tokens p

theorem alike_at {rs rs' : List Request} (h : List.Forall₂ Request.Alike rs rs') {k : Nat}
    {r : Request} (hr : rs[k]? = some r) : ∃ r', rs'[k]? = some r' ∧ r.Alike r' := by
  obtain ⟨hk, rfl⟩ := List.getElem?_eq_some_iff.mp hr
  have hk' : k < rs'.length := h.length_eq ▸ hk
  exact ⟨_, List.getElem?_eq_getElem hk', h.get hk hk'⟩

/-- A reply in which all positions are numbers, seen in both places. -/
theorem Reply.alike_placed {rs rs' : List Request} (h : List.Forall₂ Request.Alike rs rs') {k : Nat}
    {reply : Reply (Option String)}
    (hfixed : ∀ f, (∀ p, NumbersBefore rs (k + 1) p → f p = p) → reply.relocate f = reply)
    (hrejected : ∀ ds, reply ≠ .failed (.rejected ds)) :
    Reply.Alike rs rs' k (reply.relocate (placeIn rs)) (reply.relocate (placeIn rs')) := by
  cases reply with
  | ok v => exact .ok v
  | exited => exact .exited
  | failed failure =>
    cases failure with
    | rejected ds => exact absurd rfl (hrejected ds)
    | output e => exact .failed (.output e)
    | runtime e =>
      have hnumber : NumbersBefore rs (k + 1) e.token.start := by
        refine position_of_fixed fun f hf => ?_
        have hreply := hfixed f hf
        simp only [Reply.relocate, Failure.relocate, Reply.failed.injEq, Failure.runtime.injEq]
          at hreply
        exact congrArg (fun e => e.token.start) hreply
      obtain ⟨j, r, hj, hr, hp⟩ := hnumber
      obtain ⟨r', hr', halike⟩ := alike_at h hr
      exact .failed (.runtime (Nat.le_of_lt_succ hj) hr hr' rfl (Token.alike_relocate _ _ _)
        (hp.counterparts hr hr' halike))

namespace Session

variable {n : Nat} {S : Position → Prop}

/-- All positions in the session are in `S`. -/
def Settled (S : Position → Prop) (s : Session) : Prop :=
  ∀ f : Position → Position, (∀ p, S p → f p = p) → s.relocate f = s

theorem Settled.mono {S' : Position → Prop} {s : Session} (hs : s.Settled S)
    (h : ∀ p, S p → S' p) : s.Settled S' :=
  fun f hf => hs f fun p hp => hf p (h p hp)

theorem settled_fresh (sink : Sink) (input : Input) (clock : Nat → Float) (debug : Bool) :
    Settled S ⟨{ sink, input, clock }, debug⟩ := by
  intro f _
  simp only [relocate, World.relocate, Scopes.initial_relocate]

/-- No positions come up that are neither in the session nor in what it is asked for. -/
theorem Settled.obey {s s' : Session} {x : Examined Line} {reply : Reply (Option String)}
    (hs : s.Settled S) (hx : ∀ f, (∀ p, S p → f p = p) → x.relocate f = x)
    (h : s.obey (State.run n) x = some (reply, s')) :
    s'.Settled S ∧ ∀ f, (∀ p, S p → f p = p) → reply.relocate f = reply := by
  have hmoved : ∀ f, (∀ p, S p → f p = p) →
      (reply, s') = (reply.relocate f, s'.relocate f) := by
    intro f hf
    have hobey := obey_relocate (g := f) (s := s) (n := n) x
    rw [hs f hf, hx f hf, h] at hobey
    exact Option.some.inj hobey
  exact ⟨fun f hf => (Prod.mk.inj (hmoved f hf)).2.symm,
    fun f hf => (Prod.mk.inj (hmoved f hf)).1.symm⟩

theorem obey_rejected {s : Session} {x : Examined Line} (h : x.found ≠ []) :
    s.obey (State.run n) x = some (.failed (.rejected (Diagnostic.sort x.found)), s) := by
  obtain ⟨tree, _ | ⟨d, ds⟩⟩ := x
  · exact absurd rfl h
  · rfl

/-- Nothing that nothing is wrong with is rejected. -/
theorem obey_accepted {s s' : Session} {tree : Line} {reply : Reply (Option String)}
    (h : s.obey (State.run n) ⟨tree, []⟩ = some (reply, s')) (ds : List Diagnostic) :
    reply ≠ .failed (.rejected ds) := by
  have hannounce : ∀ {α : Type} {outlines : List String} {go : World → Option (Ending α × World)}
      {r : Reply α} {s' : Session}, s.announce outlines go = some (r, s') →
      r ≠ .failed (.rejected ds) := by
    intro α outlines go r s' h
    unfold announce at h
    rcases hd : display (if s.debug then outlines else []) s.world with ⟨_ | _, w⟩ <;> rw [hd] at h
    · cases h
      simp
    · obtain ⟨⟨ending, w'⟩, -, he⟩ := Option.bind_eq_some_iff.mp h
      cases he
      cases ending <;> simp [Ending.toReply]
  cases tree with
  | statements body =>
    obtain ⟨⟨r, s''⟩, hr, he⟩ := Option.map_eq_some_iff.mp h
    have hne := hannounce hr
    cases he
    cases r <;> simp_all [Reply.map]
  | expression e =>
    obtain ⟨⟨r, s''⟩, hr, he⟩ := Option.map_eq_some_iff.mp h
    have hne := hannounce hr
    cases he
    cases r <;> simp_all [Reply.map]

theorem converse_exited {s s' : Session} {r : Request}
    (h : s.obey (State.run n) r.examined = some (.exited, s')) (rs : List Request) :
    s.converse (serve (State.run n)) (r :: rs) =
      some [⟨.exited, s'.world.sink, s'.world.input⟩] := by
  simp only [converse, serve_eq, h]
  rfl

/-- The answer to one request, and then those to the others. -/
theorem converse_answered {s s' : Session} {r : Request} {reply : Reply (Option String)}
    (h : s.obey (State.run n) r.examined = some (reply, s')) (hreply : reply ≠ .exited)
    (rs : List Request) :
    s.converse (serve (State.run n)) (r :: rs) = (s'.converse (serve (State.run n)) rs).map
      (⟨reply, s'.world.sink, s'.world.input⟩ :: ·) := by
  simp only [converse, serve_eq, h]
  cases reply with
  | exited => exact absurd rfl hreply
  | ok | failed => rfl

section
variable {rs rs' : List Request} (h : List.Forall₂ Request.Alike rs rs') {k : Nat} {r r' : Request}
  (hr : rs[k]? = some r) (hr' : rs'[k]? = some r') (halike : r.Alike r')
include h hr hr' halike

/-- One step: the two sessions, which are the same but for positions, both have no answer, or they
give like answers and are the same again. -/
theorem obey_alike {s : Session} (hs : s.Settled (NumbersBefore rs k)) :
    ((s.relocate (placeIn rs)).obey (State.run n) r.examined = none ∧
      (s.relocate (placeIn rs')).obey (State.run n) r'.examined = none) ∨
    ∃ (reply reply' : Reply (Option String)) (s' : Session),
      s'.Settled (NumbersBefore rs (k + 1)) ∧ Reply.Alike rs rs' k reply reply' ∧
      (s.relocate (placeIn rs)).obey (State.run n) r.examined =
        some (reply, s'.relocate (placeIn rs)) ∧
      (s.relocate (placeIn rs')).obey (State.run n) r'.examined =
        some (reply', s'.relocate (placeIn rs')) := by
  have hlater : s.Settled (NumbersBefore rs (k + 1)) :=
    hs.mono fun p ⟨j, r, hj, hr, hp⟩ => ⟨j, r, Nat.lt_succ_of_lt hj, hr, hp⟩
  by_cases hfound : r.examined.found = []
  · have hfound' := (halike.found_nil hr hr').mp hfound
    have hx : r.examined = Examined.relocate (placeIn rs) ⟨(r.read k).tree, []⟩ := by
      rw [← hfound, Request.examined_eq, Request.parse_placed hr]
      rfl
    have hx' : r'.examined = Examined.relocate (placeIn rs') ⟨(r.read k).tree, []⟩ := by
      rw [← hfound', Request.examined_eq, Request.parse_placed hr', ← halike.read]
      rfl
    rw [hx, hx', obey_relocate, obey_relocate]
    cases hobey : s.obey (State.run n) ⟨(r.read k).tree, []⟩ with
    | none => exact .inl ⟨rfl, rfl⟩
    | some result =>
      obtain ⟨reply, s'⟩ := result
      have hfixed : ∀ f, (∀ p, NumbersBefore rs (k + 1) p → f p = p) →
          Examined.relocate f ⟨(r.read k).tree, []⟩ = ⟨(r.read k).tree, []⟩ := by
        intro f hf
        have hread := Request.read_fixed (r := r) (k := k) fun p hp =>
          hf p ⟨k, r, Nat.lt_succ_self k, hr, hp⟩
        exact congrArg (fun tree => (⟨tree, []⟩ : Examined Line)) (congrArg Parsed.tree hread)
      obtain ⟨hs', hreply⟩ := hlater.obey hfixed hobey
      exact .inr ⟨_, _, s', hs', Reply.alike_placed h hreply (obey_accepted hobey), rfl, rfl⟩
  · have hfound' := mt (halike.found_nil hr hr').mpr hfound
    refine .inr ⟨_, _, s, hlater, ?_, obey_rejected hfound, obey_rejected hfound'⟩
    exact .failed (.rejected hr hr' (halike.sorted hr hr'))

end

theorem sink_relocate (s : Session) : (s.relocate g).world.sink = s.world.sink := rfl

theorem input_relocate (s : Session) : (s.relocate g).world.input = s.world.input := rfl

/-- The positions in a session are not part of its answers. -/
theorem answer_alike {rs rs' : List Request} {k : Nat} {reply reply' : Reply (Option String)}
    (h : Reply.Alike rs rs' k reply reply') (s : Session) (f f' : Position → Position) :
    Answer.Alike rs rs' k ⟨reply, (s.relocate f).world.sink, (s.relocate f).world.input⟩
      ⟨reply', (s.relocate f').world.sink, (s.relocate f').world.input⟩ := by
  simp only [sink_relocate, input_relocate]
  exact ⟨h, rfl, rfl⟩

/-- The answers from the `k`-th request on. -/
theorem converse_alike {rs rs' : List Request} (h : List.Forall₂ Request.Alike rs rs')
    {us vs : List Request} {k : Nat} (hus : rs.drop k = us) (hvs : rs'.drop k = vs) {s : Session}
    (hs : s.Settled (NumbersBefore rs k)) :
    Option.Rel (AnswersAlike rs rs' k)
      ((s.relocate (placeIn rs)).converse (serve (State.run n)) us)
      ((s.relocate (placeIn rs')).converse (serve (State.run n)) vs) := by
  induction us generalizing vs k s with
  | nil =>
    have hlen : vs.length = 0 := by
      rw [← hvs, List.length_drop, ← h.length_eq, ← List.length_drop, hus, List.length_nil]
    rw [List.eq_nil_of_length_eq_zero hlen]
    exact .some .nil
  | cons r us ih =>
    have hr : rs[k]? = some r := by
      rw [← List.head?_drop, hus]
      rfl
    obtain ⟨r', hr', halike⟩ := alike_at h hr
    have htail : rs.drop (k + 1) = us := by rw [← List.tail_drop, hus, List.tail_cons]
    have hvs' : vs = r' :: rs'.drop (k + 1) := by
      obtain ⟨hk, hget⟩ := List.getElem?_eq_some_iff.mp hr'
      rw [← hvs, List.drop_eq_getElem_cons hk, hget]
    subst hvs'
    rcases obey_alike (n := n) h hr hr' halike hs with ⟨hnone, hnone'⟩ |
      ⟨reply, reply', s', hs', hreply, hobey, hobey'⟩
    · simp only [converse, serve_eq, hnone, hnone']
      exact .none
    · have hrest := ih htail rfl hs'
      have hanswer := answer_alike hreply s' (placeIn rs) (placeIn rs')
      cases hreply with
      | exited =>
        rw [converse_exited hobey, converse_exited hobey']
        exact .some (.cons hanswer .nil)
      | ok | failed =>
        rw [converse_answered hobey (by simp), converse_answered hobey' (by simp)]
        exact hanswer.cons_map hrest

/-- Layout does not matter: texts of the same words are read as the same trees with the same
objections, and a session gives the same answers when some of its requests are laid out in another
way. All that differs is where errors are reported, and that is at corresponding tokens. -/
theorem layout_unseen :
    (∀ s s', SameWords s s' →
      Parsed.Alike (Stmt.relocateAll fun _ => .start) (Scanned.ofText s).tokens
        (Scanned.ofText s').tokens (parseProgram (Scanned.ofText s).tokens)
        (parseProgram (Scanned.ofText s').tokens) ∧
      Parsed.Alike (Line.relocate fun _ => .start) (Scanned.ofText s).tokens
        (Scanned.ofText s').tokens (parseLine (Scanned.ofText s).tokens)
        (parseLine (Scanned.ofText s').tokens)) ∧
    ∀ rs rs', List.Forall₂ Request.Alike rs rs' →
      ∀ (sink : Sink) (input : Input) (clock : Nat → Float) (debug : Bool) (n : Nat),
      Option.Rel (AnswersAlike rs rs' 0)
        (converse (serve (State.run n)) ⟨{ sink, input, clock }, debug⟩ rs)
        (converse (serve (State.run n)) ⟨{ sink, input, clock }, debug⟩ rs') := by
  refine ⟨fun s s' h => ⟨?_, ?_⟩, fun rs rs' h sink input clock debug n => ?_⟩
  · have hfirst : [Request.program s][0]? = some (.program s) := rfl
    have hfirst' : [Request.program s'][0]? = some (.program s') := rfl
    obtain ⟨htree, hobjections⟩ := (Request.Alike.program h).parsed hfirst hfirst'
    exact ⟨Line.statements.inj htree, hobjections⟩
  · have hfirst : [Request.line s][0]? = some (.line s) := rfl
    have hfirst' : [Request.line s'][0]? = some (.line s') := rfl
    obtain ⟨htree, hobjections⟩ := (Request.Alike.line h).parsed hfirst hfirst'
    exact ⟨htree, hobjections⟩
  · have hfresh := settled_fresh (S := fun _ => False) sink input clock debug
    have halike := converse_alike (n := n) h (k := 0) rfl rfl (hfresh.mono nofun)
    rw [hfresh _ nofun, hfresh _ nofun] at halike
    exact halike

theorem layout_unseen_called :
    SameWords "nil(1);" "nil // no function\n( 1 )\n;" ∧
      (converse (serve (State.run 9)) {} [.program "nil(1);"]).isSome = true ∧
      Option.Rel (AnswersAlike [.program "nil(1);"] [.program "nil // no function\n( 1 )\n;"] 0)
        (converse (serve (State.run 9)) {} [.program "nil(1);"])
        (converse (serve (State.run 9)) {} [.program "nil // no function\n( 1 )\n;"]) := by
  have hwords : SameWords "nil(1);" "nil // no function\n( 1 )\n;" :=
    ⟨by decide +kernel, by decide +kernel, by decide +kernel⟩
  exact ⟨hwords, by decide +kernel,
    layout_unseen.2 _ _ (.cons (.program hwords) .nil) {} {} (fun _ => 0) false 9⟩

end Session

end Script
