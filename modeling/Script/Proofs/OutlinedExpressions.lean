import Script.Proofs.BracketedTexts
import Script.Proofs.ExaminedSound
import Script.Proofs.NumbersWritten
import Script.Syntax.Outline

/-!
# Expressions are read back from their outlines

An outline is a bracketed text, and from the bracketed text the tree is put together again: the
heads of the brackets and the number of their parts tell the nodes apart, and the words tell the
leaves apart. Positions are lost, and so is the difference between an infinite number and the name
`inf`.
-/

namespace Script

open Bracketed (Written WrittenAll isGap isPlain)

/-! ## Trees without positions -/

/-- The token without its position. -/
def Token.bare (t : Token) : Token := { t with start := .start }

/-- A constant; the name `inf` in place of an infinite number. -/
def Constant.bare : Constant → Expr
  | number x =>
    if Number.parts x = .infinite false then .reference ⟨.name, "inf", none, .start⟩
    else .constant (.number x)
  | c => .constant c

mutual

/-- The expression without the positions of its tokens, and with the name `inf` in place of infinite
numbers. -/
def Expr.bare : Expr → Expr
  | .assign name value => .assign name.bare value.bare
  | .binary left op right => .binary left.bare op.bare right.bare
  | .logical left op right => .logical left.bare op.bare right.bare
  | .unary op operand => .unary op.bare operand.bare
  | .call callee paren args => .call callee.bare paren.bare (Expr.bareAll args)
  | .group inner => .group inner.bare
  | .constant value => value.bare
  | .reference name => .reference name.bare

def Expr.bareAll : List Expr → List Expr
  | [] => []
  | e :: es => e.bare :: Expr.bareAll es

end

mutual

/-- The statement without the positions of its tokens, and with the name `inf` in place of infinite
numbers. -/
def Stmt.bare : Stmt → Stmt
  | .block body => .block (Stmt.bareAll body)
  | .breakLoop keyword => .breakLoop keyword.bare
  | .continueLoop keyword => .continueLoop keyword.bare
  | .expr e => .expr e.bare
  | .forLoop condition increment body =>
    .forLoop condition.bare (increment.map Expr.bare) body.bare
  | .func name params body => .func name.bare (params.map Token.bare) (Stmt.bareAll body)
  | .ifThen condition body => .ifThen condition.bare body.bare
  | .ifElse condition body otherwise => .ifElse condition.bare body.bare otherwise.bare
  | .ret keyword value => .ret keyword.bare (value.map Expr.bare)
  | .declare name value => .declare name.bare (value.map Expr.bare)
  | .whileLoop condition body => .whileLoop condition.bare body.bare

def Stmt.bareAll : List Stmt → List Stmt
  | [] => []
  | s :: ss => s.bare :: Stmt.bareAll ss

end

/-! ## Reading outlines -/

/-- The mark, keyword or name with the given characters. -/
def tokenOf (s : String) : Token := ⟨(marks.lookup s).getD (nameKind s), s, none, .start⟩

namespace Bracketed

/-- A word is a keyword for a constant, a name or a number. -/
noncomputable def leaf (s : String) : Expr :=
  match s with
  | "nil" => .constant .nil
  | "true" => .constant (.bool true)
  | "false" => .constant (.bool false)
  | s =>
    if s.toList.head?.any isNameStart then .reference (tokenOf s)
    else .constant (.number (Function.invFun Number.text s))

/-- The expression with the given head and parts. -/
def joined (head : String) (es : List Expr) : Expr :=
  match head, es with
  | "=", [.reference name, value] => .assign name value
  | "call", callee :: args => .call callee (tokenOf ")") args
  | "group", [inner] => .group inner
  | op, [operand] => .unary (tokenOf op) operand
  | op, [left, right] =>
    if (tokenOf op).kind.isLogical then .logical left (tokenOf op) right
    else .binary left (tokenOf op) right
  | _, _ => .constant .nil

mutual

noncomputable def toExpr : Bracketed → Expr
  | .word s => leaf s
  | .quoted s => .constant (.text s)
  | .node head parts => joined head (toExprs parts)

noncomputable def toExprs : List Bracketed → List Expr
  | [] => []
  | x :: xs => x.toExpr :: toExprs xs

end

def toName? : Bracketed → Option Token
  | .word s => some (tokenOf s)
  | _ => none

/-- The parameters of a function; the first one stands where a head does. -/
def toNames : Bracketed → List Token
  | .node head parts => if head = "" then [] else tokenOf head :: parts.filterMap toName?
  | _ => []

/-- The statement with the given head and parts, each of them read in all ways. -/
def stated (head : String) (parts : List Bracketed) (es : List Expr) (ss : List Stmt) : Stmt :=
  match head with
  | "block" => .block ss
  | "break" => .breakLoop (tokenOf "break")
  | "continue" => .continueLoop (tokenOf "continue")
  | ";" =>
    match es with
    | [e] => .expr e
    | _ => .block []
  | "for" =>
    match es, ss with
    | [c, _], [_, body] => .forLoop c none body
    | [c, i, _], [_, _, body] => .forLoop c (some i) body
    | _, _ => .block []
  | "func" =>
    match parts, es, ss with
    | _ :: params :: _, .reference name :: _, _ :: _ :: body => .func name params.toNames body
    | _, _, _ => .block []
  | "if" =>
    match es, ss with
    | [c, _], [_, body] => .ifThen c body
    | _, _ => .block []
  | "if-else" =>
    match es, ss with
    | [c, _, _], [_, body, otherwise] => .ifElse c body otherwise
    | _, _ => .block []
  | "return" =>
    match es with
    | [] => .ret (tokenOf "return") none
    | [e] => .ret (tokenOf "return") (some e)
    | _ => .block []
  | "let" =>
    match es with
    | [.reference name] => .declare name none
    | [.reference name, e] => .declare name (some e)
    | _ => .block []
  | "while" =>
    match es, ss with
    | [c, _], [_, body] => .whileLoop c body
    | _, _ => .block []
  | _ => .block []

mutual

noncomputable def toStmt : Bracketed → Stmt
  | .node head parts => stated head parts (toExprs parts) (toStmts parts)
  | _ => .block []

noncomputable def toStmts : List Bracketed → List Stmt
  | [] => []
  | x :: xs => x.toStmt :: toStmts xs

end

end Bracketed

/-! ## Words -/

theorem isPlain_of_isNamePart {c : Char} (h : isNamePart c = true) : isPlain c = true := by
  simp only [isPlain, isGap, Bool.and_eq_true, Bool.not_eq_true', Bool.or_eq_false_iff,
    beq_eq_false_iff_ne, bne_iff_ne]
  refine ⟨⟨⟨⟨⟨?_, ?_⟩, ?_⟩, ?_⟩, ?_⟩, ?_⟩ <;> rintro rfl <;> exact absurd h (by decide)

theorem isPlain_of_isDigit {c : Char} (h : c.isDigit = true) : isPlain c = true :=
  isPlain_of_isNamePart (by simp [isNamePart, h])

theorem isNameStart_of_isDigit {c : Char} (h : c.isDigit = true) : isNameStart c = false := by
  have hne : c ≠ '_' := by
    rintro rfl
    cases h
  have hdigit : ('0'.val ≤ c.val && c.val ≤ '9'.val) = true := h
  have halpha : (decide ('A'.val ≤ c.val ∧ c.val ≤ 'Z'.val) ||
      ('a'.val ≤ c.val && c.val ≤ 'z'.val)) = false := by
    simp only [Bool.and_eq_true, decide_eq_true_eq] at hdigit
    simp only [Bool.or_eq_false_iff, Bool.and_eq_false_iff, decide_eq_false_iff_not]
    grind
  simp [isNameStart, hne, show c.isAlpha = false from halpha]

theorem nameKind_cases (s : String) : nameKind s = .name ∨ (s, nameKind s) ∈ keywords := by
  unfold nameKind
  cases h : keywords.lookup s with
  | none => exact .inl rfl
  | some k =>
    obtain ⟨us, vs, hk, _⟩ := List.lookup_eq_some_iff.mp h
    right
    rw [hk]
    simp

section
variable {k : Kind} {s : String} {value : Option Literal}

/-- Marks and names are told apart by their first characters. -/
theorem Spelled.kind_eq (h : Spelled k s.toList value) (hnumber : k ≠ .number) (htext : k ≠ .text) :
    value = none ∧ (marks.lookup s).getD (nameKind s) = k := by
  generalize hcs : s.toList = cs at h
  cases h with
  | @mark s' _ h =>
    have hall : ∀ p ∈ marks, marks.lookup p.1 = some p.2 := by decide
    rw [String.toList_inj.mp hcs, hall _ h]
    exact ⟨rfl, rfl⟩
  | @name c cs hc =>
    have hall : ∀ p ∈ marks, p.1.toList.head?.any isNameStart = false := by decide
    have hnone : marks.lookup s = none := by
      rw [List.lookup_eq_none_iff]
      intro p hp
      rw [bne_iff_ne]
      rintro rfl
      have := hall p hp
      simp [hcs, hc] at this
    rw [hnone, ← hcs, String.ofList_toList]
    exact ⟨rfl, rfl⟩
  | whole | decimal => exact absurd rfl hnumber
  | text => exact absurd rfl htext

theorem Spelled.bare_eq {t : Token} (h : Spelled t.kind t.source.toList t.literal)
    (hnumber : t.kind ≠ .number) (htext : t.kind ≠ .text) : t.bare = tokenOf t.source := by
  obtain ⟨hvalue, hkind⟩ := h.kind_eq hnumber htext
  simp [Token.bare, tokenOf, hvalue, hkind]

theorem Spelled.name_source (h : Spelled .name s.toList value) : ∃ c cs, s.toList = c :: cs ∧
    isNameStart c = true ∧ (∀ d ∈ cs, isNamePart d = true) ∧ nameKind s = .name := by
  generalize hcs : s.toList = cs at h
  generalize hk : Kind.name = k at h
  cases h with
  | mark h =>
    have hall : ∀ p ∈ marks, Kind.name ≠ p.2 := by decide
    exact absurd hk (hall _ h)
  | name hc hcs' =>
    exact ⟨_, _, rfl, hc, hcs', by rw [← hcs, String.ofList_toList]⟩
  | whole | decimal | text => cases hk

/-- Marks and keywords are spelled in one way. -/
theorem Spelled.source_eq (h : Spelled k s.toList value) {w : String}
    (hw : (w, k) ∈ marks ++ keywords) : s = w := by
  have hall : ∀ p ∈ marks ++ keywords, ∀ q ∈ marks ++ keywords, p.2 = q.2 → p.1 = q.1 := by
    decide +kernel
  generalize hcs : s.toList = cs at h
  cases h with
  | mark h =>
    rw [String.toList_inj.mp hcs]
    exact hall _ (List.mem_append_left _ h) _ hw rfl
  | name =>
    rw [← hcs, String.ofList_toList] at hw
    rcases nameKind_cases s with hname | hword
    · rw [hname] at hw
      have hnone : ∀ p ∈ marks ++ keywords, p.2 ≠ .name := by decide
      exact absurd rfl (hnone _ hw)
    · exact hall _ (List.mem_append_right _ hword) _ hw rfl
  | whole | decimal | text =>
    have hnone : ∀ p ∈ marks ++ keywords, p.2 ≠ .number ∧ p.2 ≠ .text := by decide
    have := hnone _ hw
    simp at this

theorem Spelled.word_bare {t : Token} (h : Spelled t.kind t.source.toList t.literal) {w : String}
    (hw : (w, t.kind) ∈ marks ++ keywords) : t.bare = tokenOf w := by
  have hall : ∀ p ∈ marks ++ keywords, p.2 ≠ .number ∧ p.2 ≠ .text := by decide
  obtain ⟨hnumber, htext⟩ := hall _ hw
  rw [← h.source_eq hw]
  exact h.bare_eq hnumber htext

/-- Operators are marks. -/
theorem Spelled.operator_mark (h : Spelled k s.toList value)
    (hk : k.level.isSome = true ∨ k.isSign = true) : (s, k) ∈ marks := by
  generalize hcs : s.toList = cs at h
  cases h with
  | mark h => rwa [String.toList_inj.mp hcs]
  | @name c cs hc =>
    have hall : ∀ p ∈ keywords, ¬ (p.2.level.isSome = true ∨ p.2.isSign = true) := by decide
    rcases nameKind_cases (String.ofList (c :: cs)) with hname | hword
    · rw [hname] at hk
      exact absurd hk (by decide)
    · exact absurd hk (hall _ hword)
  | whole | decimal | text => exact absurd hk (by decide)

end

/-! ## Leaves -/

/-- Tokens that are all spelled as their kinds are. -/
def AllSpelled (ts : List Token) : Prop := ∀ t ∈ ts, Spelled t.kind t.source.toList t.literal

@[simp] theorem allSpelled_nil : AllSpelled [] := by
  simp [AllSpelled]

@[simp] theorem allSpelled_cons {t : Token} {ts : List Token} :
    AllSpelled (t :: ts) ↔ Spelled t.kind t.source.toList t.literal ∧ AllSpelled ts := by
  simp [AllSpelled]

@[simp] theorem allSpelled_append {ts us : List Token} :
    AllSpelled (ts ++ us) ↔ AllSpelled ts ∧ AllSpelled us := by
  simp [AllSpelled, or_imp, forall_and]

/-- Some bracketed text with the characters `cs` is the expression `e`. -/
def ReadsAs (cs : List Char) (e : Expr) : Prop := ∃ x, Written x cs ∧ x.toExpr = e

theorem leaf_of_not_mem {s : String} (hs : s ∉ ["nil", "true", "false"]) : Bracketed.leaf s =
    if s.toList.head?.any isNameStart then .reference (tokenOf s)
    else .constant (.number (Function.invFun Number.text s)) := by
  unfold Bracketed.leaf
  split
  · exact absurd (by decide) hs
  · exact absurd (by decide) hs
  · exact absurd (by decide) hs
  · rfl

/-- A name is a word that is read as the name. -/
theorem name_word {name : Token} (h : Spelled name.kind name.source.toList name.literal)
    (hk : name.kind = .name) : Written (.word name.source) name.source.toList ∧
      Bracketed.leaf name.source = .reference name.bare := by
  rw [h.bare_eq (by rw [hk]; decide) (by rw [hk]; decide)]
  rw [hk] at h
  obtain ⟨c, cs, hcs, hc, hcs', hname⟩ := h.name_source
  constructor
  · refine .word (by simp [hcs]) (List.all_eq_true.mpr fun d hd => isPlain_of_isNamePart ?_)
    rw [hcs] at hd
    cases hd with
    | head => simp [isNamePart, hc]
    | tail _ hd => exact hcs' d hd
  · have hwords : ∀ w ∈ ["nil", "true", "false"], nameKind w ≠ .name := by decide
    rw [leaf_of_not_mem fun hmem => hwords _ hmem hname]
    simp [hcs, hc]

theorem name_reads {name : Token} (h : Spelled name.kind name.source.toList name.literal)
    (hk : name.kind = .name) : ReadsAs name.source.toList (.reference name.bare) :=
  ⟨_, name_word h hk⟩

theorem leaf_text {x : Float} (h : (Number.text x).toList.head?.any isNameStart = false) :
    Bracketed.leaf (Number.text x) = .constant (.number x) := by
  have hwords : ∀ w ∈ ["nil", "true", "false"], w.toList.head?.any isNameStart = true := by decide
  have hne : Number.text x ∉ ["nil", "true", "false"] := by
    intro hmem
    rw [hwords _ hmem] at h
    cases h
  rw [leaf_of_not_mem hne, h, Function.leftInverse_invFun Number.text_injective x]
  rfl

theorem Number.Numeral.plain {cs : List Char} {v : ℚ} (h : Number.Numeral cs v) :
    cs.all isPlain = true := by
  rw [List.all_eq_true]
  intro c hc
  cases h with
  | whole _ hds => exact isPlain_of_isDigit (hds c hc)
  | point _ hds hes =>
    rcases List.mem_append.mp hc with hc | hc
    · exact isPlain_of_isDigit (hds c hc)
    · cases hc with
      | head => rfl
      | tail _ hc => exact isPlain_of_isDigit (hes c hc)

theorem sign_plain (negative : Bool) : (Number.sign negative).all isPlain = true := by
  cases negative <;> rfl

/-- The text of a number is a word that is read as the number, or as the name `inf`. -/
theorem number_reads {x : Float} (h : Number.parts x ≠ .nan) :
    ReadsAs (Number.text x).toList (Constant.number x).bare := by
  obtain ⟨negative, cs, htext, hwritten⟩ := Number.text_written x
  have hplain : cs.all isPlain = true → (Number.text x).toList.all isPlain = true := by
    intro hcs
    rw [htext, List.all_append, sign_plain, hcs]
    rfl
  have hne : (Number.text x).toList ≠ [] := by
    obtain ⟨c, rest, rfl, -⟩ := hwritten.head
    simp [htext]
  generalize hp : Number.parts x = p at hwritten
  simp only [Constant.bare]
  cases hwritten with
  | nan => exact absurd hp h
  | infinite =>
    refine ⟨.word _, .word hne (hplain (by decide)), ?_⟩
    rw [Bracketed.toExpr]
    cases negative with
    | false =>
      have hinf : Number.text x = "inf" := String.toList_inj.mp htext
      rw [if_pos hp, hinf]
      rfl
    | true =>
      -- no name starts with the sign, so this infinity is told apart
      rw [if_neg (by simp [hp]), leaf_text]
      rw [htext]
      rfl
  | finite _ _ hnumeral =>
    refine ⟨.word _, .word hne (hplain hnumeral.plain), ?_⟩
    rw [Bracketed.toExpr]
    rw [if_neg (by simp [hp]), leaf_text]
    obtain ⟨c, rest, rfl, hc⟩ := hnumeral.head
    rw [htext]
    cases negative with
    | false => simp [Number.sign, isNameStart_of_isDigit hc]
    | true => rfl

/-- A literal, if it is spelled as its kind is. -/
theorem literal_reads {word : Token} {value : Literal}
    (h : Spelled word.kind word.source.toList word.literal)
    (hv : word.literal = some value) :
    ReadsAs value.toConstant.outline.toList value.toConstant.bare := by
  rw [hv] at h
  generalize word.source.toList = cs at h
  generalize word.kind = k at h
  generalize hvalue : some value = v at h
  cases h with
  | mark | name => cases hvalue
  | whole | decimal =>
    cases hvalue
    exact number_reads (Number.ofDecimal_number _ _)
  | @text body hbody =>
    cases hvalue
    have hw : Written (.quoted (String.ofList body)) _ := .quoted (by simpa using hbody)
    refine ⟨.quoted (String.ofList body), ?_, rfl⟩
    simpa [Constant.outline, Literal.toConstant] using hw

/-! ## Expressions -/

/-- Bracketed texts with the characters `cs` are the expressions `es`. -/
def ReadAll (cs : List Char) (es : List Expr) : Prop :=
  ∃ xs, WrittenAll xs cs ∧ Bracketed.toExprs xs = es

theorem readAll_nil : ReadAll [] [] := ⟨[], .nil, rfl⟩

theorem WrittenAll.spaced {x : Bracketed} {xs : List Bracketed} {cs ds : List Char}
    (h : Written x cs) (hs : WrittenAll xs ds) : WrittenAll (x :: xs) (' ' :: cs ++ ds) := by
  have hgap : [' '].all isGap = true := by decide
  exact .cons (List.cons_ne_nil _ _) hgap h hs

theorem ReadsAs.cons {cs ds : List Char} {e : Expr} {es : List Expr} (h : ReadsAs cs e)
    (hs : ReadAll ds es) : ReadAll (' ' :: cs ++ ds) (e :: es) := by
  obtain ⟨x, hx, rfl⟩ := h
  obtain ⟨xs, hxs, rfl⟩ := hs
  exact ⟨x :: xs, WrittenAll.spaced hx hxs, rfl⟩

theorem ReadAll.node {cs : List Char} {es : List Expr} (h : ReadAll cs es) (head : String)
    (hhead : head.toList.all isPlain = true) :
    ReadsAs ('(' :: head.toList ++ cs ++ [')']) (Bracketed.joined head es) := by
  obtain ⟨xs, hxs, rfl⟩ := h
  exact ⟨.node head xs, .node hhead hxs, rfl⟩

/-- Operators are no heads of other expressions. -/
theorem operator_head : ∀ p ∈ marks, p.2.level.isSome = true ∨ p.2.isSign = true →
    p.1 ≠ "=" ∧ p.1 ≠ "call" ∧ p.1 ≠ "group" ∧ p.1.toList.all isPlain = true := by
  decide

theorem unary_reads {op : Token} {e : Expr} (hop : Spelled op.kind op.source.toList op.literal)
    (hk : op.kind.isSign = true) (h : ReadsAs e.outline.toList e.bare) :
    ReadsAs (Expr.unary op e).outline.toList (Expr.unary op e).bare := by
  have hmark := hop.operator_mark (.inr hk)
  have hbare := hop.word_bare (List.mem_append_left _ hmark)
  obtain ⟨hassign, hcall, hgroup, hplain⟩ := operator_head _ hmark (.inr hk)
  have := (h.cons readAll_nil).node op.source hplain
  rw [Expr.bare, hbare]
  simpa [Bracketed.joined, hassign, hcall, hgroup] using this

theorem binary_reads {left right : Expr} {op : Token} {n : Nat}
    (hop : Spelled op.kind op.source.toList op.literal) (hk : op.kind.level = some n)
    (hl : ReadsAs left.outline.toList left.bare) (hr : ReadsAs right.outline.toList right.bare) :
    ReadsAs ("(" ++ op.source ++ " " ++ left.outline ++ " " ++ right.outline ++ ")").toList
      (if op.kind.isLogical then .logical left.bare op.bare right.bare
        else .binary left.bare op.bare right.bare) := by
  have hlevel : op.kind.level.isSome = true ∨ op.kind.isSign = true := .inl (by rw [hk]; rfl)
  have hmark := hop.operator_mark hlevel
  have hbare := hop.word_bare (List.mem_append_left _ hmark)
  obtain ⟨hassign, hcall, hgroup, hplain⟩ := operator_head _ hmark hlevel
  have hkind : (tokenOf op.source).kind = op.kind := by rw [← hbare]; rfl
  have := (hl.cons (hr.cons readAll_nil)).node op.source hplain
  rw [hbare, ← hkind]
  simpa [Bracketed.joined, hassign, hcall, hgroup] using this

mutual

theorem Phrase.reads {n : Nat} {ts : List Token} {e : Expr} : Phrase n ts e → AllSpelled ts →
    ReadsAs e.outline.toList e.bare
  | .tighter _ h, hts => h.reads hts
  | .assign hname _ h, hts => by
    simp only [allSpelled_cons] at hts
    have := ((name_reads hts.1 hname).cons ((h.reads hts.2.2).cons readAll_nil)).node
      "=" (by decide)
    simpa [Expr.bare, Bracketed.joined] using this
  | .logical hop hlog hl hr, hts => by
    simp only [allSpelled_append, allSpelled_cons] at hts
    have := binary_reads hts.2.1 hop (hl.reads hts.1) (hr.reads hts.2.2)
    simpa [Expr.bare, hlog] using this
  | .binary hop hlog hl hr, hts => by
    simp only [allSpelled_append, allSpelled_cons] at hts
    have := binary_reads hts.2.1 hop (hl.reads hts.1) (hr.reads hts.2.2)
    simpa [Expr.bare, hlog] using this
  | .sign hop h, hts => by
    simp only [allSpelled_cons] at hts
    exact unary_reads hts.1 hop (h.reads hts.2)
  | .callNone h _ hrp, hts => by
    simp only [allSpelled_append, allSpelled_cons] at hts
    have hparen := hts.2.2.1.word_bare (w := ")") (by rw [hrp]; decide)
    have := ((h.reads hts.1).cons readAll_nil).node "call" (by decide)
    simpa [Expr.bare, Expr.bareAll, Bracketed.joined, hparen] using this
  | .call h _ hargs _ hrp, hts => by
    simp only [allSpelled_append, allSpelled_cons] at hts
    have hparen := hts.2.1.word_bare (w := ")") (by rw [hrp]; decide)
    have := ((h.reads hts.1.1).cons (hargs.reads hts.1.2.2)).node "call" (by decide)
    simpa [Expr.bare, Bracketed.joined, hparen] using this
  | .falseWord _, _ => ⟨.word "false", .word (by decide) (by decide), rfl⟩
  | .trueWord _, _ => ⟨.word "true", .word (by decide) (by decide), rfl⟩
  | .nilWord _, _ => ⟨.word "nil", .word (by decide) (by decide), rfl⟩
  | .literal hk hv, hts => by
    simp only [allSpelled_cons] at hts
    exact literal_reads hts.1 hv
  | .reference hk, hts => by
    simp only [allSpelled_cons] at hts
    exact name_reads hts.1 hk
  | .group _ h _, hts => by
    simp only [allSpelled_append, allSpelled_cons, List.cons_append] at hts
    have := ((h.reads hts.2.1).cons readAll_nil).node "group" (by decide)
    simpa [Expr.bare, Bracketed.joined] using this

theorem Arguments.reads {ts : List Token} {es : List Expr} : Arguments ts es → AllSpelled ts →
    ReadAll (Expr.outlines es).toList (Expr.bareAll es)
  | .one h, hts => by
    simpa [Expr.bareAll] using (h.reads hts).cons readAll_nil
  | .more h _ hs, hts => by
    simp only [allSpelled_append, allSpelled_cons] at hts
    simpa [Expr.bareAll] using (h.reads hts.1).cons (hs.reads hts.2.2)

end

theorem optional_reads {ts : List Token} {value : Option Expr}
    (h : Optional (Phrase 0) ts value) (hts : AllSpelled ts) :
    ReadAll (Expr.outlineOption value).toList (value.map Expr.bare).toList := by
  cases h with
  | none => exact readAll_nil
  | some h => simpa [Expr.outlineOption] using (h.reads hts).cons readAll_nil

/-- A condition that is left out is one that holds. -/
theorem condition_reads {ts : List Token} {c : Option Expr} (h : Optional (Phrase 0) ts c)
    (hts : AllSpelled ts) : ReadsAs (c.getD (.constant (.bool true))).outline.toList
      (c.getD (.constant (.bool true))).bare := by
  cases h with
  | none => exact ⟨.word "true", .word (by decide) (by decide), rfl⟩
  | some h => exact h.reads hts

end Script
