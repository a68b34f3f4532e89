import Script.Proofs.OutlinedExpressions

/-!
# Outlines identify programs

The outline of a statement is a bracketed text whatever the line it starts on, and the statement can
be read back from it. A bracketed text has one reading, so statements with the same outlines are the
same, up to positions and to the name `inf` for an infinite number.
-/

namespace Script

open Bracketed (Written WrittenAll isGap isPlain)

/-! ## Statements -/

theorem toList_intercalate_cons (sep s : String) (ss : List String) :
    (sep.intercalate (s :: ss)).toList =
      s.toList ++ ss.flatMap fun t => sep.toList ++ t.toList := by
  induction ss generalizing s with
  | nil => simp
  | cons t ss ih => simp [String.intercalate_cons_cons, ih]

/-- A token that is spelled as a name is. -/
def IsName (t : Token) : Prop := t.kind = .name ∧ Spelled t.kind t.source.toList t.literal

theorem IsName.word {t : Token} (h : IsName t) :
    Written (.word t.source) t.source.toList ∧ Bracketed.leaf t.source = .reference t.bare :=
  name_word h.2 h.1

/-- The parameters of a function, in parentheses. -/
theorem names_written {ps : List Token} (h : ∀ p ∈ ps, IsName p) : ∃ y,
    Written y ('(' :: (String.intercalate " " (ps.map Token.source)).toList ++ [')']) ∧
      y.toNames = ps.map Token.bare := by
  have hbare : ∀ {p : Token}, IsName p → tokenOf p.source = p.bare := fun hp =>
    (hp.2.bare_eq (by rw [hp.1]; decide) (by rw [hp.1]; decide)).symm
  cases ps with
  | nil =>
    have hempty : "".toList.all isPlain = true := by decide
    exact ⟨.node "" [], .node hempty .nil, rfl⟩
  | cons p ps =>
    obtain ⟨hp, hps⟩ := List.forall_mem_cons.mp h
    have hhead : p.source.toList ≠ [] ∧ p.source.toList.all isPlain = true := by
      cases hp.word.1 with
      | word hne hs => exact ⟨hne, hs⟩
    have hparts : WrittenAll (ps.map fun p => .word p.source)
        (ps.flatMap fun p => ' ' :: p.source.toList) := by
      clear hp h hhead
      induction ps with
      | nil => exact .nil
      | cons q ps ih =>
        obtain ⟨hq, hps⟩ := List.forall_mem_cons.mp hps
        exact WrittenAll.spaced hq.word.1 (ih hps)
    refine ⟨.node p.source (ps.map fun p => .word p.source), ?_, ?_⟩
    · rw [List.map_cons, toList_intercalate_cons, List.flatMap_map]
      simpa using Written.node hhead.2 hparts
    · have hne : p.source ≠ "" := fun hempty => hhead.1 (by rw [hempty]; rfl)
      have hrest : (ps.map fun p => Bracketed.word p.source).filterMap Bracketed.toName? =
          ps.map Token.bare := by
        rw [List.filterMap_map, ← List.filterMap_eq_map]
        exact List.filterMap_congr fun q hq => congrArg some (hbare (hps q hq))
      rw [Bracketed.toNames, if_neg hne, hbare hp, hrest]
      rfl

theorem toExprs_eq_map (xs : List Bracketed) : Bracketed.toExprs xs = xs.map Bracketed.toExpr := by
  induction xs with
  | nil => rfl
  | cons x xs ih => simp [Bracketed.toExprs, ih]

theorem toStmts_eq_map (xs : List Bracketed) : Bracketed.toStmts xs = xs.map Bracketed.toStmt := by
  induction xs with
  | nil => rfl
  | cons x xs ih => simp [Bracketed.toStmts, ih]

theorem length_bareAll (ss : List Stmt) : (Stmt.bareAll ss).length = ss.length := by
  induction ss with
  | nil => rfl
  | cons s ss ih => simp [Stmt.bareAll, ih]

section
variable {unit : String}

/-- Whatever the line that it starts on, the outline of the statement is the same bracketed text,
and that is read as the statement. -/
def Stmt.Stands (unit : String) (s : Stmt) : Prop :=
  ∃ x, (∀ level, Written x (s.outline unit level).toList) ∧ x.toStmt = s.bare

variable (hunit : ∀ c ∈ unit.toList, c = ' ' ∨ c = '\t')
include hunit

theorem newLine_gap (level : Nat) : (newLine unit level).toList.all isGap = true := by
  have hstep : unit.toList.all isGap = true := by
    rw [List.all_eq_true]
    intro c hc
    rcases hunit c hc with rfl | rfl <;> rfl
  rw [newLine, String.toList_append, String.toList_join, List.all_append, List.all_flatMap,
    List.all_replicate, hstep]
  split <;> rfl

theorem WrittenAll.lined {x : Bracketed} {xs : List Bracketed} {cs ds : List Char} (level : Nat)
    (h : Written x cs) (hs : WrittenAll xs ds) :
    WrittenAll (x :: xs) ((newLine unit level).toList ++ cs ++ ds) := by
  refine .cons ?_ (newLine_gap hunit level) h hs
  simp [newLine]

theorem stands_all {ss : List Stmt} (h : ∀ s ∈ ss, s.Stands unit) :
    ∃ xs, (∀ level, WrittenAll xs (Stmt.outlines unit level ss).toList) ∧
      Bracketed.toStmts xs = Stmt.bareAll ss := by
  induction ss with
  | nil => exact ⟨[], fun _ => .nil, rfl⟩
  | cons s ss ih =>
    obtain ⟨x, hx, hread⟩ := h s (.head ss)
    obtain ⟨xs, hxs, hreads⟩ := ih fun s hs => h s (.tail _ hs)
    refine ⟨x :: xs, fun level => ?_, ?_⟩
    · simpa using WrittenAll.lined hunit level (hx level) (hxs level)
    · simp [Bracketed.toStmts, Stmt.bareAll, hread, hreads]

/-- A statement stands if its outline has expressions and then statements behind its head. -/
theorem stands_of_parts {s : Stmt} {ss : List Stmt} {cs : List Char} {es : List Expr}
    (head : String) (hhead : head.toList.all isPlain = true) (h : ReadAll cs es)
    (hs : ∀ s ∈ ss, s.Stands unit)
    (htext : ∀ level, (s.outline unit level).toList =
      '(' :: head.toList ++ (cs ++ (Stmt.outlines unit (level + 1) ss).toList) ++ [')'])
    (hread : ∀ xs as ts, as.length = ss.length → ts.length = es.length →
      Bracketed.stated head xs (es ++ as) (ts ++ Stmt.bareAll ss) = s.bare) :
    s.Stands unit := by
  obtain ⟨xs, hxs, rfl⟩ := h
  obtain ⟨ys, hys, hbodies⟩ := stands_all hunit hs
  have hlength := congrArg List.length hbodies
  rw [toStmts_eq_map, List.length_map, length_bareAll] at hlength
  refine ⟨.node head (xs ++ ys), fun level => ?_, ?_⟩
  · rw [htext level]
    exact .node hhead (hxs.append (hys (level + 1)))
  -- every part is read as an expression and as a statement; `as` and `ts` are the idle readings
  · rw [Bracketed.toStmt, toExprs_eq_map, toStmts_eq_map, List.map_append, List.map_append,
      ← toExprs_eq_map xs, ← toStmts_eq_map ys, hbodies]
    exact hread _ _ _ (by simpa using hlength) (by simp [toExprs_eq_map])

theorem block_stands {body : List Stmt} (h : ∀ s ∈ body, s.Stands unit) :
    (Stmt.block body).Stands unit := by
  refine stands_of_parts hunit "block" (by decide) readAll_nil h
    (fun level => ?_) fun xs as ts _ hts => ?_
  · simp
  · rw [List.length_eq_zero_iff.mp hts]
    rfl

theorem whileLoop_stands {condition : Expr} {body : Stmt}
    (hc : ReadsAs condition.outline.toList condition.bare) (h : body.Stands unit) :
    (Stmt.whileLoop condition body).Stands unit := by
  refine stands_of_parts hunit "while" (by decide) (hc.cons readAll_nil)
    (List.forall_mem_singleton.mpr h) (fun level => ?_) fun xs as ts has hts => ?_
  · simp
  · obtain ⟨a, rfl⟩ := List.length_eq_one_iff.mp has
    obtain ⟨t, rfl⟩ := List.length_eq_one_iff.mp hts
    rfl

theorem ifThen_stands {condition : Expr} {body : Stmt}
    (hc : ReadsAs condition.outline.toList condition.bare) (h : body.Stands unit) :
    (Stmt.ifThen condition body).Stands unit := by
  refine stands_of_parts hunit "if" (by decide) (hc.cons readAll_nil)
    (List.forall_mem_singleton.mpr h) (fun level => ?_) fun xs as ts has hts => ?_
  · simp
  · obtain ⟨a, rfl⟩ := List.length_eq_one_iff.mp has
    obtain ⟨t, rfl⟩ := List.length_eq_one_iff.mp hts
    rfl

theorem ifElse_stands {condition : Expr} {body otherwise : Stmt}
    (hc : ReadsAs condition.outline.toList condition.bare) (h : body.Stands unit)
    (h' : otherwise.Stands unit) : (Stmt.ifElse condition body otherwise).Stands unit := by
  refine stands_of_parts hunit "if-else" (by decide) (hc.cons readAll_nil)
    (List.forall_mem_cons.mpr ⟨h, List.forall_mem_singleton.mpr h'⟩)
    (fun level => ?_) fun xs as ts has hts => ?_
  · simp
  · obtain ⟨a, b, rfl⟩ := List.length_eq_two.mp has
    obtain ⟨t, rfl⟩ := List.length_eq_one_iff.mp hts
    rfl

/-- An increment is there if one part more is. -/
theorem forLoop_stands {condition : Expr} {increment : Option Expr} {body : Stmt}
    (hc : ReadsAs condition.outline.toList condition.bare)
    (hi : ReadAll (Expr.outlineOption increment).toList (increment.map Expr.bare).toList)
    (h : body.Stands unit) : (Stmt.forLoop condition increment body).Stands unit := by
  refine stands_of_parts hunit "for" (by decide) (hc.cons hi)
    (List.forall_mem_singleton.mpr h) (fun level => ?_) fun xs as ts has hts => ?_
  · simp
  · obtain ⟨a, rfl⟩ := List.length_eq_one_iff.mp has
    cases increment with
    | none =>
      obtain ⟨t, rfl⟩ := List.length_eq_one_iff.mp hts
      rfl
    | some i =>
      obtain ⟨t, u, rfl⟩ := List.length_eq_two.mp hts
      rfl

theorem expr_stands {e : Expr} (h : ReadsAs e.outline.toList e.bare) :
    (Stmt.expr e).Stands unit := by
  refine stands_of_parts hunit ";" (by decide) (h.cons readAll_nil)
    (List.forall_mem_nil _) (fun level => ?_) fun xs as ts has hts => ?_
  · simp
  · rw [List.length_eq_zero_iff.mp has]
    rfl

theorem ret_stands {keyword : Token} {value : Option Expr} (hk : keyword.bare = tokenOf "return")
    (h : ReadAll (Expr.outlineOption value).toList (value.map Expr.bare).toList) :
    (Stmt.ret keyword value).Stands unit := by
  refine stands_of_parts hunit "return" (by decide) h
    (List.forall_mem_nil _) (fun level => ?_) fun xs as ts has hts => ?_
  · simp
  · rw [List.length_eq_zero_iff.mp has, Stmt.bare, hk]
    cases value <;> rfl

theorem declare_stands {name : Token} {value : Option Expr}
    (hn : ReadsAs name.source.toList (.reference name.bare))
    (h : ReadAll (Expr.outlineOption value).toList (value.map Expr.bare).toList) :
    (Stmt.declare name value).Stands unit := by
  refine stands_of_parts hunit "let" (by decide) (hn.cons h)
    (List.forall_mem_nil _) (fun level => ?_) fun xs as ts has hts => ?_
  · simp
  · rw [List.length_eq_zero_iff.mp has, Stmt.bare]
    cases value <;> rfl

theorem breakLoop_stands {keyword : Token} (hk : keyword.bare = tokenOf "break") :
    (Stmt.breakLoop keyword).Stands unit := by
  refine stands_of_parts hunit "break" (by decide) readAll_nil
    (List.forall_mem_nil _) (fun level => ?_) fun xs as ts has hts => ?_
  · simp
  · rw [Stmt.bare, hk]
    rfl

theorem continueLoop_stands {keyword : Token} (hk : keyword.bare = tokenOf "continue") :
    (Stmt.continueLoop keyword).Stands unit := by
  refine stands_of_parts hunit "continue" (by decide) readAll_nil
    (List.forall_mem_nil _) (fun level => ?_) fun xs as ts has hts => ?_
  · simp
  · rw [Stmt.bare, hk]
    rfl

theorem func_stands {name : Token} {params : List Token} {body : List Stmt} (hn : IsName name)
    (hparams : ∀ p ∈ params, IsName p) (h : ∀ s ∈ body, s.Stands unit) :
    (Stmt.func name params body).Stands unit := by
  obtain ⟨y, hy, hnames⟩ := names_written hparams
  obtain ⟨ys, hys, hbodies⟩ := stands_all hunit h
  refine ⟨.node "func" (.word name.source :: y :: ys), fun level => ?_, ?_⟩
  · have hfunc : "func".toList.all isPlain = true := by decide
    have hparts := WrittenAll.spaced hn.word.1 (WrittenAll.spaced hy (hys (level + 1)))
    simpa using Written.node hfunc hparts
  · rw [Bracketed.toStmt, Bracketed.toExprs, Bracketed.toExpr, Bracketed.toStmts, Bracketed.toStmts,
      hn.word.2, hbodies, Stmt.bare, ← hnames]
    rfl

theorem variableDeclaration_stands {ts : List Token} {s : Stmt} (h : VariableDeclaration ts s)
    (hts : AllSpelled ts) : s.Stands unit := by
  cases h with
  | plain _ hname =>
    simp only [allSpelled_cons] at hts
    exact declare_stands hunit (name_reads hts.2.1 hname) readAll_nil
  | valued _ hname _ h =>
    simp only [allSpelled_append, allSpelled_cons, List.cons_append] at hts
    exact declare_stands hunit (name_reads hts.2.1 hname) (optional_reads (.some h) hts.2.2.2.1)

theorem firstClause_stands {ts : List Token} {first : Option Stmt} (h : FirstClause ts first)
    (hts : AllSpelled ts) : ∀ s ∈ first.toList, s.Stands unit := by
  cases h with
  | none => exact List.forall_mem_nil _
  | binding h => exact List.forall_mem_singleton.mpr (variableDeclaration_stands hunit h hts)
  | expression h =>
    simp only [allSpelled_append] at hts
    exact List.forall_mem_singleton.mpr (expr_stands hunit (h.reads hts.1))

omit hunit in
theorem parameters_names {ts ps : List Token} (h : Parameters ts ps) (hts : AllSpelled ts) :
    ∀ p ∈ ps, IsName p := by
  induction h with
  | one hp =>
    simp only [allSpelled_cons] at hts
    exact List.forall_mem_singleton.mpr ⟨hp, hts.1⟩
  | more hp _ _ ih =>
    simp only [allSpelled_cons] at hts
    exact List.forall_mem_cons.mpr ⟨⟨hp, hts.1⟩, ih hts.2.2⟩

end

mutual

theorem Sentence.stands {unit : String} (hunit : ∀ c ∈ unit.toList, c = ' ' ∨ c = '\t')
    {inLoop dangling : Bool} {ts : List Token} {s : Stmt} :
    Sentence inLoop dangling ts s → AllSpelled ts → s.Stands unit
  | .expression h _, hts => by
    simp only [allSpelled_append] at hts
    exact expr_stands hunit (h.reads hts.1)
  | .ret hword h _, hts => by
    simp only [allSpelled_append, allSpelled_cons, List.cons_append] at hts
    exact ret_stands hunit (hts.1.word_bare (by rw [hword]; decide)) (optional_reads h hts.2.1)
  | .breakLoop hword _, hts => by
    simp only [allSpelled_cons] at hts
    exact breakLoop_stands hunit (hts.1.word_bare (by rw [hword]; decide))
  | .continueLoop hword _, hts => by
    simp only [allSpelled_cons] at hts
    exact continueLoop_stands hunit (hts.1.word_bare (by rw [hword]; decide))
  | .block _ h _, hts => by
    simp only [allSpelled_append, allSpelled_cons, List.cons_append] at hts
    exact block_stands hunit (h.stands hunit hts.2.1)
  | .whileLoop _ _ hc _ h, hts => by
    simp only [allSpelled_append, allSpelled_cons, List.cons_append] at hts
    exact whileLoop_stands hunit (hc.reads hts.2.2.1) (h.stands hunit hts.2.2.2.2)
  | .forLoop _ _ hfirst hc _ hi _ h, hts => by
    simp only [List.append_assoc, List.cons_append, allSpelled_append, allSpelled_cons] at hts
    obtain ⟨-, -, hus, hvs, -, hws, -, hxs⟩ := hts
    have hloop := forLoop_stands hunit (condition_reads hc hvs) (optional_reads hi hws)
      (h.stands hunit hxs)
    exact block_stands hunit (List.forall_mem_append.mpr
      ⟨firstClause_stands hunit hfirst hus, List.forall_mem_singleton.mpr hloop⟩)
  | .ifThen _ _ hc _ h, hts => by
    simp only [allSpelled_append, allSpelled_cons, List.cons_append] at hts
    exact ifThen_stands hunit (hc.reads hts.2.2.1) (h.stands hunit hts.2.2.2.2)
  | .ifElse _ _ hc _ h _ h', hts => by
    simp only [List.append_assoc, List.cons_append, allSpelled_append, allSpelled_cons] at hts
    obtain ⟨-, -, hus, -, hvs, -, hws⟩ := hts
    exact ifElse_stands hunit (hc.reads hus) (h.stands hunit hvs) (h'.stands hunit hws)

theorem Declaration.stands {unit : String} (hunit : ∀ c ∈ unit.toList, c = ' ' ∨ c = '\t')
    {inLoop : Bool} {ts : List Token} {s : Stmt} :
    Declaration inLoop ts s → AllSpelled ts → s.Stands unit
  | .binding h, hts => variableDeclaration_stands hunit h hts
  | .function _ hname _ hparams _ _ _ _ h _, hts => by
    simp only [List.append_assoc, List.cons_append, allSpelled_append, allSpelled_cons] at hts
    obtain ⟨-, hn, -, hus, -, -, hvs, -⟩ := hts
    refine func_stands hunit ⟨hname, hn⟩ ?_ (h.stands hunit hvs)
    cases hparams with
    | none => exact List.forall_mem_nil _
    | some h => exact parameters_names h hus
  | .sentence h, hts => h.stands hunit hts

theorem Body.stands {unit : String} (hunit : ∀ c ∈ unit.toList, c = ' ' ∨ c = '\t')
    {inLoop : Bool} {ts : List Token} {body : List Stmt} :
    Body inLoop ts body → AllSpelled ts → ∀ s ∈ body, s.Stands unit
  | .nil, _ => List.forall_mem_nil _
  | .cons h hs, hts => by
    simp only [allSpelled_append] at hts
    exact List.forall_mem_cons.mpr ⟨h.stands hunit hts.1, hs.stands hunit hts.2⟩

end

/-! ## Texts -/

/-- The statements that a text is read as, if nothing is objected to. -/
inductive TextOf (source : String) : List Stmt → Prop
  | program (h : (parseProgram (Scanned.ofText source).tokens).objections = []) :
      TextOf source (parseProgram (Scanned.ofText source).tokens).tree
  | line {p : List Stmt} (h : (parseLine (Scanned.ofText source).tokens).objections = [])
      (hp : (parseLine (Scanned.ofText source).tokens).tree = .statements p) : TextOf source p

theorem tokens_ofList (cs : List Char) : (Scanned.ofText (String.ofList cs)).tokens =
    (Cursor.scan ⟨cs, .start⟩).filterMap Except.toOption := by
  rw [Scanned.ofText_tokens, Cursor.ofText, String.toList_ofList]

theorem TextOf.derived {source : String} {p : List Stmt} (h : TextOf source p) :
    ∃ ts, AllSpelled ts ∧ Program ts p := by
  obtain ⟨ts, hts, hwords⟩ := Scanned.ofText_spelled source
  have hfinish : ∀ t ∈ ts, t.isFinish = false := fun t ht => by
    simpa [Token.isFinish] using (hwords t ht).ne_finish
  refine ⟨ts, hwords, ?_⟩
  cases h with
  | program h =>
    rw [hts] at h ⊢
    rw [parseProgram_eq, Tape.ofTokens_append hfinish rfl] at h ⊢
    refine Tape.finish_body rfl ?_ h
    simp only [Tape.nesting]
    omega
  | line h hp =>
    rw [hts] at h hp
    have hderived := parseLine_derived hfinish rfl h
    rw [hp] at hderived
    exact hderived

/-- The outlines of statements, one below the other. -/
def outlineText (unit : String) (p : List Stmt) : String :=
  "\n".intercalate (p.map (Stmt.outline unit 0))

theorem outlines_zero (unit : String) (s : Stmt) (ss : List Stmt) :
    (Stmt.outlines unit 0 (s :: ss)).toList = '\n' :: (outlineText unit (s :: ss)).toList := by
  have hlines : ∀ ss : List Stmt, (Stmt.outlines unit 0 ss).toList =
      ss.flatMap fun s => '\n' :: (s.outline unit 0).toList := by
    intro ss
    induction ss with
    | nil => rfl
    | cons s ss ih => simp [newLine, ih]
  rw [hlines, outlineText, List.map_cons, toList_intercalate_cons, List.flatMap_map]
  rfl

theorem outlineText_ne_empty {unit : String} {s : Stmt} (h : s.Stands unit) (ss : List Stmt) :
    outlineText unit (s :: ss) ≠ "" := by
  obtain ⟨x, hx, _⟩ := h
  obtain ⟨c, rest, hcs, _⟩ := (hx 0).head
  intro hempty
  have htext := congrArg String.toList hempty
  rw [outlineText, List.map_cons, toList_intercalate_cons, hcs] at htext
  cases htext

/-- Statements that texts are read as are the same if their outlines are, up to the positions of
tokens and to an infinite number in place of the name `inf`. -/
theorem outlines_identify {unit : String} (hunit : ∀ c ∈ unit.toList, c = ' ' ∨ c = '\t')
    {source source' : String} {p q : List Stmt} (hp : TextOf source p) (hq : TextOf source' q)
    (h : outlineText unit p = outlineText unit q) : Stmt.bareAll p = Stmt.bareAll q := by
  obtain ⟨ts, hts, hprogram⟩ := hp.derived
  obtain ⟨us, hus, hprogram'⟩ := hq.derived
  have hstands := Body.stands hunit hprogram hts
  have hstands' := Body.stands hunit hprogram' hus
  cases p with
  | nil =>
    cases q with
    | nil => rfl
    | cons s ss => exact absurd h.symm (outlineText_ne_empty (hstands' s (.head ss)) ss)
  | cons s ss =>
    cases q with
    | nil => exact absurd h (outlineText_ne_empty (hstands s (.head ss)) ss)
    | cons s' ss' =>
      -- with a line end in front, the lines are the parts of a node
      obtain ⟨xs, hxs, hread⟩ := stands_all hunit hstands
      obtain ⟨ys, hys, hread'⟩ := stands_all hunit hstands'
      have hline := hxs 0
      have hline' := hys 0
      rw [outlines_zero, h] at hline
      rw [outlines_zero] at hline'
      have hend : Bracketed.Closes [] := nofun
      obtain ⟨hsame, -⟩ := hline.unique hline' hend hend rfl
      rw [← hread, ← hread', hsame]

/-- The number in this text is too large, and there are brackets and a line end in its string. -/
def overflowing : List Char :=
  "while (a) \x7b f(-b - ".toList ++ List.replicate 310 '9' ++
    ", \"(if\n\"); \x7d\nfor (;; i = i + 1) x = 1.50;".toList

def withName : String := "while(a)\x7bf(- b-inf,\"(if\n\");\x7dfor(;;i=i+1)x=1.5;"

theorem outlines_identify_overflowing :
    outlineText "\t" (parseProgram (Scanned.ofText (String.ofList overflowing)).tokens).tree =
        outlineText "\t" (parseProgram (Scanned.ofText withName).tokens).tree ∧
      Stmt.bareAll (parseProgram (Scanned.ofText (String.ofList overflowing)).tokens).tree =
        Stmt.bareAll (parseProgram (Scanned.ofText withName).tokens).tree := by
  have hclean :
      (parseProgram (Scanned.ofText (String.ofList overflowing)).tokens).objections = [] := by
    rw [tokens_ofList]
    decide +kernel
  have hsame :
      outlineText "\t" (parseProgram (Scanned.ofText (String.ofList overflowing)).tokens).tree =
        outlineText "\t" (parseProgram (Scanned.ofText withName).tokens).tree := by
    rw [tokens_ofList]
    decide +kernel
  exact ⟨hsame, outlines_identify (by simp) (.program hclean) (.program (by decide +kernel)) hsame⟩

end Script
