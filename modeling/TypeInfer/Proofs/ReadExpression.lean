/-
What the rules for expressions read. Each rule reads the nodes of what it gives and at
least one token, if the rules it turns to for what stands inside do so (`Rules.Good`).
A rule turns to these only after it has taken a token, so one more round is enough:
`good_rules`.
-/
import TypeInfer.Proofs.RuleLogic

namespace TypeInfer.Grammar

open List

section

variable {r inner : Rules} {c₀ c : Cursor} {ns : List Node} {bound rounds : Nat} {kind : TokenKind}
  {operator : TokenKind → Option Operator} {operand : Rule Expr}

/-- The expression has been read, from one token at least. -/
def Cursor.ReadsExpr (c₀ : Cursor) (e : Expr) (c : Cursor) : Prop := c₀.Reads true [.expr e] c ∧ c.left < c₀.left

abbrev ExprReader (bound : Nat) (rule : Rule Expr) : Prop := Reader true (fun e => [.expr e]) bound rule

/-- The rules read every expression of fewer tokens than they have rounds. -/
structure Rules.Good (r : Rules) : Prop where
  expression : ExprReader r.rounds r.expression
  orTest : ExprReader r.rounds r.orTest
  notTest : ExprReader r.rounds r.notTest
  bitOr : ExprReader r.rounds r.bitOr
  factor : ExprReader r.rounds r.factor

theorem Cursor.Reads.expr {e : Expr} (h : c₀.Reads true ns c) (hlt : c.left < c₀.left)
    (hspan : e.span = c₀.current.span.merge c.last) (hns : ns = Node.belowExpr e) : c₀.ReadsExpr e c :=
  ⟨h.plainNode hlt hns (congrArg some hspan) rfl nofun rfl, hlt⟩

theorem meets_expr {e : Span → Expr} (h : c₀.Reads true ns c) (hlt : c.left < c₀.left)
    (hspan : ∀ s, (e s).span = s) (hns : ∀ s, ns = Node.belowExpr (e s)) :
    Meets true c₀ (finish c₀.current.span >>= fun s => pure (e s)) c c₀.ReadsExpr :=
  meets_finish (meets_pure (h.expr hlt (hspan _) (hns _)))

/-- An expression that is one token. -/
theorem meets_exprToken {e : Expr} (hkind : Cursor.mayTake true c.kind = true) (hspan : e.span = c.current.span)
    (hbelow : Node.belowExpr e = []) : Meets true c (discard advance >>= fun _ => pure e) c c.ReadsExpr :=
  meets_advance (.refl true c) hkind fun _ hlt =>
    meets_pure ⟨Cursor.reads_token hkind hbelow (congrArg some hspan) rfl nofun rfl, hlt⟩

/-! ### Expressions in lists -/

theorem looks_atExpression : Looks atExpression := fun _ => ⟨_, rfl⟩

theorem looks_atIdentifier : Looks atIdentifier := fun _ => ⟨_, rfl⟩

theorem reader_named (hr : r.Good) : ExprReader r.rounds (named r) := by
  intro c hc
  refine meets_look looks_atIdentifier fun b _ => meets_peekNext ?_
  by_cases hnamed : (b && c.nextKind == Symbol.colonEq) = true
  · rw [if_pos hnamed]
    rw [Bool.and_eq_true, beq_iff_eq] at hnamed
    refine meets_here (meets_identifier (.refl true c) fun target h hlt => ?_)
    refine meets_advance h (by rw [c.kind_advance, hnamed.2]; rfl) fun h hlt' => ?_
    refine hr.expression.bind h (by omega) fun value c' h hlt'' => ?_
    exact meets_expr h (by omega) (fun _ => rfl) fun _ => rfl
  · rw [if_neg hnamed]
    exact hr.expression c hc

theorem reader_starred {rule : Rule Expr} (hr : r.Good) (hrule : ExprReader r.rounds rule) :
    ExprReader r.rounds (starred r rule) := by
  intro c hc
  refine meets_here (meets_eat (.refl true c) rfl (fun c₁ _ h hlt => ?_) fun _ => hrule c hc)
  refine hr.bitOr.bind h (by omega) fun value c' h hlt' => ?_
  exact meets_expr h (by omega) (fun _ => rfl) fun _ => rfl

theorem reader_starredOrNamed (hr : r.Good) : ExprReader r.rounds (starredOrNamed r) :=
  reader_starred hr (reader_named hr)

theorem meets_tuple {atEnd : Rule Bool} {item : Rule Expr} {rounds : Nat} {first : Expr} (hend : Looks atEnd)
    (hitem : ExprReader bound item) (h : c₀.ReadsExpr first c) (hbound : c.left < bound) (hrounds : c.left < rounds) :
    Meets true c₀ (commaList rounds atEnd item >>= fun more =>
      finish c₀.current.span >>= fun s => pure (.tuple s (first :: more))) c c₀.ReadsExpr := by
  refine (readsAt_commaList hend hitem hbound hrounds).bind h.1 fun more c' hmore hle => ?_
  refine meets_expr hmore (Nat.lt_of_le_of_lt hle h.2) (fun _ => rfl) fun _ => ?_
  simp [Node.belowExpr, Node.ofExprs, ← map_eq_flatMap]

theorem reader_expressionList (hr : r.Good) : ExprReader r.rounds (expressionList r) := by
  intro c hc
  refine meets_here ((reader_starredOrNamed hr).bind (.refl true c) hc fun first c₁ h hlt => ?_)
  refine meets_check (fun _ => ?_) fun _ => meets_pure ⟨h, hlt⟩
  exact meets_tuple looks_atExpression.not (reader_starredOrNamed hr) ⟨h, hlt⟩ (by omega) (by omega)

theorem reader_yieldExpression (hr : r.Good) : ExprReader r.rounds (yieldExpression r) := by
  intro c hc
  refine meets_here (meets_expect (.refl true c) rfl fun c₁ _ h hlt => ?_)
  refine meets_eat h rfl (fun c₂ _ h hlt' => ?_) fun _ => ?_
  · refine hr.expression.bind h (by omega) fun value c₃ h hlt'' => ?_
    exact meets_expr h (by omega) (fun _ => rfl) fun _ => rfl
  · have hlist := maybeReader_optional looks_atExpression.asks (reader_expressionList hr)
    refine hlist.bind h (by omega) fun value c₂ h hle => ?_
    refine meets_expr h (by omega) (fun _ => rfl) fun _ => ?_
    simp [Node.belowExpr, Node.ofExpr?, Node.ofExprs, ← map_eq_flatMap]

theorem reader_yieldOrList (hr : r.Good) : ExprReader r.rounds (yieldOrList r) := fun c hc =>
  meets_check (fun _ => reader_yieldExpression hr c hc) fun _ => reader_expressionList hr c hc

/-! ### Targets -/

theorem reader_starTarget (hr : r.Good) : ExprReader r.rounds (starTarget r) := reader_starred hr hr.bitOr

theorem meets_targetList (hr : r.Good) (hc : c.left < r.rounds) :
    Meets true c (targetList r) c fun e c' => c.ReadsExpr e c' ∧ e.isAssignable := by
  refine meets_here ((reader_starTarget hr).bind (.refl true c) hc fun first c₁ h hlt => ?_)
  refine meets_check (fun _ => ?_) fun _ => ?_
  · have hend : Looks (do return (← check Keyword.inKw) || (← check Symbol.eq)) := fun _ => ⟨_, rfl⟩
    refine (readsAt_commaList hend (reader_starTarget hr) (by omega) (by omega)).bind h fun more c₂ h hle => ?_
    have htuple : c.ReadsExpr (.tuple (c.current.span.merge c₂.last) (first :: more)) c₂ :=
      h.expr (by omega) rfl (by simp [Node.belowExpr, Node.ofExprs, ← map_eq_flatMap])
    exact meets_finish (meets_checkTarget h fun hassignable => meets_pure ⟨htuple, hassignable⟩)
  · exact meets_checkTarget h fun hassignable => meets_pure ⟨⟨h, hlt⟩, hassignable⟩

/-! ### Comprehensions -/

theorem looks_atComprehension : Looks atComprehension := by
  intro c
  refine ⟨c.kind == Keyword.forKw || (c.kind == Keyword.asyncKw && c.nextKind == Keyword.forKw), ?_⟩
  show (if (c.kind == Keyword.forKw) = true then _ else _ : Rule Bool) c = _
  cases c.kind == (Keyword.forKw : TokenKind) <;> rfl

theorem reader_clause (hr : r.Good) : Reader true (fun k => [.clause k]) r.rounds (clause r) := by
  intro c hc
  refine (asks_eat _ rfl).bind (.refl true c) fun isAsync c₁ h hle => ?_
  refine meets_expect h rfl fun c₂ _ h hlt => ?_
  refine ((meets_targetList hr (by omega)).within h).bind fun target c₃ ⟨⟨htarget, hlt'⟩, hassignable⟩ => ?_
  refine meets_expect (h.trans htarget) rfl fun c₄ _ h hlt'' => ?_
  refine hr.orTest.bind h (by omega) fun iter c₅ h hlt₅ => ?_
  have hconditions := maybeReader_optional (asks_eat Keyword.ifKw rfl) hr.orTest
  refine (readsAt_many hconditions (by omega) (by omega)).bind h fun conditions c₆ h hle₆ => meets_pure ⟨?_, by omega⟩
  refine h.bareNode ?_ rfl (by simpa [Node.targets] using hassignable)
  simp [Node.children, Node.ofExprs, ← map_eq_flatMap]

theorem readsAt_clauses (hr : r.Good) (hc : c.left < r.rounds) : ReadsAt true Node.ofClauses c (clauses r) := by
  have hclause := maybeReader_optional looks_atComprehension.asks (reader_clause hr)
  refine Meets.mono (readsAt_many hclause hc (by omega)) fun clauses c' h => ?_
  simpa [Node.ofClauses, ← map_eq_flatMap] using h

/-! ### Parameters -/

theorem maybeReader_note (hr : r.Good) (allowed : Bool) :
    MaybeReader true (fun e => [.expr e]) r.rounds ( annotation r allowed) :=
  maybeReader_optional (asks_eat_if allowed _ rfl) hr.expression

/-- The nodes of an item of a parameter list. -/
def ParamItem.nodes : ParamItem → List Node
  | .slash | .star => []
  | .param p => [.param p]

/-- A parameter after its star or stars. -/
theorem meets_starParam {annotations kind} (hr : r.Good) (h : c₀.Reads true [] c)
    (hc : c.left < r.rounds) (hlt : c.left < c₀.left) :
    Meets true c₀ (identifier >>= fun name => annotation r annotations >>= fun note =>
      pure (ParamItem.param ⟨name, kind, none, note⟩)) c fun i c' => c₀.Reads true i.nodes c' ∧ c'.left < c₀.left := by
  refine meets_identifier h fun name h hlt' => ?_
  refine (maybeReader_note hr annotations).bind h (by omega) fun note c' h hle => ?_
  refine meets_pure ⟨h.bareNode ?_ rfl (by simp [Node.targets]), by omega⟩
  simp [Node.children, Node.ofExpr?, Node.ofExprs, ← map_eq_flatMap]

theorem reader_paramItem (hr : r.Good) (annotations : Bool) :
    Reader true ParamItem.nodes r.rounds (paramItem r annotations) := by
  intro c hc
  refine meets_eat (.refl true c) rfl (fun c₁ _ h hlt => meets_pure ⟨h, hlt⟩) fun _ => ?_
  refine meets_eat (.refl true c) rfl (fun c₁ _ h hlt => meets_starParam hr h (by omega) hlt) fun _ => ?_
  refine meets_eat (.refl true c) rfl (fun c₁ _ h hlt => ?_) fun _ => ?_
  · refine meets_look looks_atIdentifier fun b _ => ?_
    cases b with
    | true => exact meets_starParam hr h (by omega) hlt
    | false => exact meets_pure ⟨h, hlt⟩
  · refine meets_identifier (.refl true c) fun name h hlt => ?_
    refine (maybeReader_note hr annotations).bind h (by omega) fun note c₁ h hle => ?_
    refine (maybeReader_optional (asks_eat _ rfl) hr.expression).bind h (by omega) fun default c₂ h hle' => ?_
    refine meets_pure ⟨(h.perm ?_).bareNode rfl rfl (by simp [Node.targets]), by omega⟩
    simpa [Node.children, Node.ofExpr?, Node.ofExprs, ← map_eq_flatMap] using perm_append_comm

theorem derives_paramsOf {ts} (before : List Node) {keywordOnly items}
    (h : Derives ts (before ++ items.flatMap ParamItem.nodes)) :
    Derives ts (before ++ (paramsOf keywordOnly items).map .param) := by
  induction items generalizing before keywordOnly with
  | nil => exact h
  | cons i items ih =>
    cases i with
    | slash => exact ih before h
    | star => exact ih before h
    | param p =>
      obtain ⟨name, kind, default, note⟩ := p
      have hkind (kind' : ParamKind) (rest : Bool) :
          Derives ts (before ++ ((⟨name, kind', default, note⟩ :: paramsOf rest items).map .param)) := by
        have hparam {us} (hus : Derives us [.param ⟨name, kind, default, note⟩]) :
            Derives us [.param ⟨name, kind', default, note⟩] :=
          hus.alike rfl fun own _ => ⟨by simp [Node.span?], by simp [Node.targets]⟩
        simpa using ih _ (Derives.replace h fun _ => hparam)
      cases kind with
      | positional => exact hkind _ keywordOnly
      | varArgs => exact hkind .varArgs true
      | keywordOnly => exact hkind .keywordOnly keywordOnly
      | kwArgs => exact hkind .kwArgs keywordOnly

theorem readsAt_params {close annotations} (hr : r.Good) (hc : c.left < r.rounds) :
    ReadsAt true (fun ps => ps.map .param) c (params r close annotations) := by
  have hitems := readsAt_separated (looks_check close) (reader_paramItem hr annotations) hc (Nat.lt_succ_of_lt hc)
  exact hitems.bind (.refl true c) fun items c' h _ => meets_pure (h.map fun ts => derives_paramsOf [])

/-! ### Calls and subscripts -/

theorem reader_argument (hr : r.Good) : Reader true (fun a => [.arg a]) r.rounds (argument r) := by
  intro c hc
  refine meets_eat (.refl true c) rfl (fun c₁ _ h hlt => ?_) fun _ => ?_
  · refine hr.expression.bind h (by omega) fun value c₂ h hlt' => ?_
    exact meets_pure ⟨h.bareNode rfl rfl (by simp [Node.targets]), by omega⟩
  refine meets_eat (.refl true c) rfl (fun c₁ _ h hlt => ?_) fun _ => ?_
  · refine hr.expression.bind h (by omega) fun value c₂ h hlt' => ?_
    exact meets_pure ⟨h.bareNode rfl rfl (by simp [Node.targets]), by omega⟩
  refine meets_look looks_atIdentifier fun b _ => meets_peekNext ?_
  by_cases hkeyword : (b && c.nextKind == Symbol.eq) = true
  · rw [if_pos hkeyword]
    rw [Bool.and_eq_true, beq_iff_eq] at hkeyword
    refine meets_identifier (.refl true c) fun name h hlt => ?_
    refine meets_advance h (by rw [c.kind_advance, hkeyword.2]; rfl) fun h hlt' => ?_
    refine hr.expression.bind h (by omega) fun value c₂ h hlt'' => ?_
    exact meets_pure ⟨h.bareNode rfl rfl (by simp [Node.targets]), by omega⟩
  rw [if_neg hkeyword]
  refine meets_here ((reader_named hr).bind (.refl true c) hc fun value c₁ h hlt => ?_)
  refine meets_look looks_atComprehension fun b _ => ?_
  cases b with
  | false => exact meets_pure ⟨h.bareNode rfl rfl (by simp [Node.targets]), hlt⟩
  | true =>
    refine (readsAt_clauses hr (by omega)).bind h fun clauses c₂ h hle => meets_finish (meets_pure ⟨?_, by omega⟩)
    have hgenerator : c.ReadsExpr (.generator (c.current.span.merge c₂.last) value clauses) c₂ :=
      h.expr (by omega) rfl rfl
    exact hgenerator.1.bareNode rfl rfl (by simp [Node.targets])

theorem reader_arguments (hr : r.Good) : Reader true (fun args => args.map .arg) r.rounds (arguments r) := by
  intro c hc
  have hargs := readsAt_separated (looks_check Symbol.rightParen) (reader_argument hr) hc (Nat.lt_succ_of_lt hc)
  refine hargs.bind (.refl true c) fun args c₁ h hle => ?_
  refine meets_expect h rfl fun c₂ _ h hlt => meets_pure ⟨?_, by omega⟩
  simpa [← map_eq_flatMap] using h

theorem looks_atSliceEnd : Looks atSliceEnd := fun _ => ⟨_, rfl⟩

theorem meets_sliceRest {lower : Option Expr} (hr : r.Good) (h : c₀.Reads true (Node.ofExpr? lower) c)
    (hc : c.left < r.rounds) : Meets true c₀ (sliceRest r c₀.current.span lower) c c₀.ReadsExpr := by
  have hbound := maybeReader_optional looks_atSliceEnd.not.asks hr.expression
  have hle := h.left_le
  refine meets_expect h rfl fun c₁ _ h hlt => ?_
  refine hbound.bind h (by omega) fun upper c₂ h hle' => ?_
  have hslice {step : Option Expr} {c' : Cursor}
      (h : c₀.Reads true (Node.ofExpr? lower ++ Node.ofExpr? upper ++ Node.ofExpr? step) c')
      (hlt : c'.left < c₀.left) : Meets true c₀ (finish c₀.current.span >>= fun s =>
        pure (Expr.slice s lower upper step)) c' c₀.ReadsExpr :=
    meets_expr h hlt (fun _ => rfl) fun _ => rfl
  refine meets_eat h rfl (fun c₃ _ h hlt' => ?_) fun _ => ?_
  · refine hbound.bind h (by omega) fun step c₄ h hle'' => ?_
    exact hslice (by simpa [Node.ofExpr?, Node.ofExprs, ← map_eq_flatMap] using h) (by omega)
  · exact meets_pure_bind (hslice (by simpa [Node.ofExpr?, Node.ofExprs, ← map_eq_flatMap] using h) (by omega))

theorem reader_sliceItem (hr : r.Good) : ExprReader r.rounds (sliceItem r) := by
  intro c hc
  refine meets_here (meets_check (fun _ => meets_sliceRest hr (.refl true c) hc) fun _ => ?_)
  refine (reader_starredOrNamed hr).bind (.refl true c) hc fun e c₁ h hlt => ?_
  exact meets_check (fun _ => meets_sliceRest hr h (by omega)) fun _ => meets_pure ⟨h, hlt⟩

theorem reader_subscript (hr : r.Good) : ExprReader r.rounds (subscript r) := by
  intro c hc
  refine meets_here ((reader_sliceItem hr).bind (.refl true c) hc fun first c₁ h hlt => ?_)
  refine meets_check (fun _ => ?_) fun _ => meets_pure ⟨h, hlt⟩
  exact meets_tuple (looks_check _) (reader_sliceItem hr) ⟨h, hlt⟩ (by omega) (by omega)

/-! ### Brackets -/

section

variable (hr : r.Good)
include hr

theorem meets_elements {α : Type} {f : List Expr → Rule α} {Q : α → Cursor → Prop} {first : Expr} {close : Symbol}
    {what : String} (h : c₀.Reads true [.expr first] c) (hc : c.left < r.rounds)
    (next : ∀ elts c', c₀.Reads true (Node.ofExprs elts) c' → c'.left < c.left → Meets true c₀ (f elts) c' Q) :
    Meets true c₀ (elements r first close what >>= f) c Q := by
  refine Meets.bind (P := fun elts c' => c₀.Reads true (Node.ofExprs elts) c' ∧ c'.left < c.left) ?_
    fun elts c' ⟨h, hlt⟩ => next elts c' h hlt
  refine (readsAt_commaList (looks_check _) (reader_starredOrNamed hr) hc (by omega)).bind h fun more c₁ h hle => ?_
  refine meets_expect h rfl fun c₂ _ h hlt => meets_pure ⟨?_, by omega⟩
  simpa [Node.ofExprs, ← map_eq_flatMap] using h

theorem meets_parenthesized (hkind : c.kind = Symbol.leftParen) (hc : c.left < r.rounds + 1) :
    Meets true c (parenthesized r) c c.ReadsExpr := by
  refine meets_here (meets_advance (.refl true c) (by rw [hkind]; rfl) fun h hlt => ?_)
  refine meets_eat h rfl (fun c₁ _ h hlt' => meets_expr h (by omega) (fun _ => rfl) fun _ => rfl) fun _ => ?_
  refine meets_check (fun _ => ?_) fun _ => ?_
  · refine (reader_yieldExpression hr).bind h (by omega) fun value c₁ h hlt' => ?_
    exact meets_expect h rfl fun c₂ _ h hlt'' => meets_pure ⟨h, by omega⟩
  refine (reader_starredOrNamed hr).bind h (by omega) fun first c₁ h hlt' => ?_
  refine meets_look looks_atComprehension fun b _ => ?_
  cases b with
  | true =>
    refine (readsAt_clauses hr (by omega)).bind h fun clauses c₂ h hle => ?_
    exact meets_expect h rfl fun c₃ _ h hlt'' => meets_expr h (by omega) (fun _ => rfl) fun _ => rfl
  | false =>
    refine meets_check (fun _ => ?_) fun _ => meets_expect h rfl fun c₂ _ h hlt'' => meets_pure ⟨h, by omega⟩
    refine meets_elements hr h (by omega) fun elts c₂ h hlt'' => ?_
    exact meets_expr h (by omega) (fun _ => rfl) fun _ => rfl

theorem meets_listDisplay (hkind : c.kind = Symbol.leftBracket) (hc : c.left < r.rounds + 1) :
    Meets true c (listDisplay r) c c.ReadsExpr := by
  refine meets_here (meets_advance (.refl true c) (by rw [hkind]; rfl) fun h hlt => ?_)
  refine meets_eat h rfl (fun c₁ _ h hlt' => meets_expr h (by omega) (fun _ => rfl) fun _ => rfl) fun _ => ?_
  refine (reader_starredOrNamed hr).bind h (by omega) fun first c₁ h hlt' => ?_
  refine meets_look looks_atComprehension fun b _ => ?_
  cases b with
  | true =>
    refine (readsAt_clauses hr (by omega)).bind h fun clauses c₂ h hle => ?_
    exact meets_expect h rfl fun c₃ _ h hlt'' => meets_expr h (by omega) (fun _ => rfl) fun _ => rfl
  | false =>
    refine meets_elements hr h (by omega) fun elts c₂ h hlt'' => ?_
    exact meets_expr h (by omega) (fun _ => rfl) fun _ => rfl

theorem reader_dictItem : Reader true (fun i => [.item i]) r.rounds (dictItem r) := by
  intro c hc
  refine meets_eat (.refl true c) rfl (fun c₁ _ h hlt => ?_) fun _ => ?_
  · refine hr.bitOr.bind h (by omega) fun value c₂ h hlt' => ?_
    exact meets_pure ⟨h.bareNode rfl rfl (by simp [Node.targets]), by omega⟩
  · refine hr.expression.bind (.refl true c) hc fun key c₁ h hlt => ?_
    refine meets_expect h rfl fun c₂ _ h hlt' => ?_
    refine hr.expression.bind h (by omega) fun value c₃ h hlt'' => ?_
    exact meets_pure ⟨h.bareNode rfl rfl (by simp [Node.targets]), by omega⟩

theorem meets_dictRest {first : DictItem} (h : c₀.Reads true (Node.item first).children c) (hc : c.left < r.rounds)
    (hlt : c.left < c₀.left) : Meets true c₀ (dictRest r c₀.current.span first) c c₀.ReadsExpr := by
  have hitem : c₀.Reads true [.item first] c := h.bareNode rfl rfl (by simp [Node.targets])
  refine (readsAt_commaList (looks_check _) (reader_dictItem hr) hc (by omega)).bind hitem fun more c₁ h hle => ?_
  refine meets_expect h rfl fun c₂ _ h hlt' => meets_expr h (by omega) (fun _ => rfl) fun _ => ?_
  simp [Node.belowExpr, ← map_eq_flatMap]

theorem meets_braceDisplay (hkind : c.kind = Symbol.leftBrace) (hc : c.left < r.rounds + 1) :
    Meets true c (braceDisplay r) c c.ReadsExpr := by
  refine meets_here (meets_advance (.refl true c) (by rw [hkind]; rfl) fun h hlt => ?_)
  refine meets_eat h rfl (fun c₁ _ h hlt' => meets_expr h (by omega) (fun _ => rfl) fun _ => rfl) fun _ => ?_
  refine meets_eat h rfl (fun c₁ _ h hlt' => ?_) fun _ => ?_
  · refine hr.bitOr.bind h (by omega) fun value c₂ h hlt'' => ?_
    exact meets_dictRest hr h (by omega) (by omega)
  refine (reader_starredOrNamed hr).bind h (by omega) fun first c₁ h hlt' => ?_
  refine meets_eat h rfl (fun c₂ _ h hlt'' => ?_) fun _ => ?_
  · refine hr.expression.bind h (by omega) fun value c₃ h hlt₃ => ?_
    refine meets_look looks_atComprehension fun b _ => ?_
    cases b with
    | true =>
      refine (readsAt_clauses hr (by omega)).bind h fun clauses c₄ h hle => ?_
      exact meets_expect h rfl fun c₅ _ h hlt₅ => meets_expr h (by omega) (fun _ => rfl) fun _ => rfl
    | false => exact meets_dictRest hr h (by omega) (by omega)
  refine meets_look looks_atComprehension fun b _ => ?_
  cases b with
  | true =>
    refine (readsAt_clauses hr (by omega)).bind h fun clauses c₂ h hle => ?_
    exact meets_expect h rfl fun c₃ _ h hlt'' => meets_expr h (by omega) (fun _ => rfl) fun _ => rfl
  | false =>
    refine meets_elements hr h (by omega) fun elts c₂ h hlt'' => ?_
    exact meets_expr h (by omega) (fun _ => rfl) fun _ => rfl

end

/-! ### The ladder -/

theorem maybeReader_stringPiece (bound : Nat) : MaybeReader true (fun _ => []) bound stringPiece := by
  intro c _
  refine meets_peek ?_
  cases hkind : c.kind with
  | str value isBytes =>
    refine meets_advance (.refl true c) (by rw [hkind]; rfl) fun h hlt => meets_pure ⟨h, fun _ => hlt⟩
  | _ => exact meets_pure ⟨.refl true c, by simp⟩

section

variable (hr : inner.Good)
include hr

theorem reader_atom : ExprReader (inner.rounds + 1) (atom inner) := by
  intro c hc
  refine meets_here (meets_peek ?_)
  cases hkind : c.kind with
  | ident | int | float | imaginary => exact meets_exprToken (by rw [hkind]; rfl) rfl rfl
  | str value isBytes =>
    refine meets_advance (.refl true c) (by rw [hkind]; rfl) fun h hlt => ?_
    refine (readsAt_many (maybeReader_stringPiece _) hlt (by omega)).bind h fun pieces c' h hle => ?_
    refine meets_expr h (by omega) (fun _ => ?_) fun _ => ?_
    · cases isBytes <;> rfl
    · cases isBytes <;> simp [Node.belowExpr]
  | keyword word =>
    cases word with
    | trueKw | falseKw | noneKw => exact meets_exprToken (by rw [hkind]; rfl) rfl rfl
    | _ => exact meets_unexpected (.refl true c)
  | symbol mark =>
    cases mark with
    | ellipsis => exact meets_exprToken (by rw [hkind]; rfl) rfl rfl
    | leftParen => exact meets_parenthesized hr hkind hc
    | leftBracket => exact meets_listDisplay hr hkind hc
    | leftBrace => exact meets_braceDisplay hr hkind hc
    | _ => exact meets_unexpected (.refl true c)
  | _ => exact meets_unexpected (.refl true c)

theorem meets_trailer {e} (hc₀ : c₀.left < inner.rounds + 1) (he : c₀.ReadsExpr e c) :
    Meets true c₀ (trailer inner c₀.current.span e) c fun o c' =>
      o.elim (c₀.ReadsExpr e c') fun e' => c₀.ReadsExpr e' c' ∧ c'.left < c.left := by
  obtain ⟨h, hlt⟩ := he
  refine meets_eat h rfl (fun c₁ _ h hlt₁ => ?_) fun _ => ?_
  · refine meets_identifier h fun attr h hlt₂ => meets_finish (meets_pure ⟨?_, by omega⟩)
    exact h.expr (by omega) rfl rfl
  refine meets_eat h rfl (fun c₁ _ h hlt₁ => ?_) fun _ => ?_
  · refine (reader_arguments hr).bind h (by omega) fun args c₂ h hlt₂ => meets_finish (meets_pure ⟨?_, by omega⟩)
    exact h.expr (by omega) rfl rfl
  refine meets_eat h rfl (fun c₁ _ h hlt₁ => ?_) fun _ => meets_pure ⟨h, hlt⟩
  refine (reader_subscript hr).bind h (by omega) fun index c₂ h hlt₂ => ?_
  refine meets_expect h rfl fun c₃ _ h hlt₃ => meets_finish (meets_pure ⟨?_, by omega⟩)
  exact h.expr (by omega) rfl rfl

theorem reader_primary : ExprReader (inner.rounds + 1) (primary inner) := by
  intro c hc
  refine meets_here ((reader_atom hr).bind (.refl true c) hc fun e c₁ h hlt => ?_)
  exact meets_iterate (Q := c.ReadsExpr) (fun e c' => meets_trailer hr hc) ⟨h, hlt⟩ (by omega)

theorem reader_awaited : ExprReader (inner.rounds + 1) (awaited inner) := by
  intro c hc
  refine meets_here (meets_eat (.refl true c) rfl (fun c₁ _ h hlt => ?_) fun _ => reader_primary hr c hc)
  refine (reader_primary hr).bind h (by omega) fun value c₂ h hlt' => ?_
  exact meets_expr h (by omega) (fun _ => rfl) fun _ => rfl

theorem reader_power : ExprReader (inner.rounds + 1) (power inner) := by
  intro c hc
  refine meets_here ((reader_awaited hr).bind (.refl true c) hc fun base c₁ h hlt => ?_)
  refine meets_eat h rfl (fun c₂ _ h hlt' => ?_) fun _ => meets_pure ⟨h, hlt⟩
  refine hr.factor.bind h (by omega) fun exponent c₃ h hlt'' => ?_
  exact meets_expr h (by omega) (fun _ => rfl) fun _ => rfl

end

theorem mayTake_of_signOf {kind : TokenKind} {op : UnaryOperator} (h : signOf kind = some op) :
    Cursor.mayTake true kind = true := by
  cases kind with
  | newline | indent | dedent | eof => cases h
  | _ => rfl

theorem reader_factor (hr : inner.Good) : ExprReader (inner.rounds + 1) (factor inner) := by
  intro c hc
  refine meets_here (meets_peek ?_)
  cases hsign : signOf c.kind with
  | none => exact reader_power hr c hc
  | some op =>
    refine meets_advance (.refl true c) (mayTake_of_signOf hsign) fun h hlt => ?_
    refine hr.factor.bind h (by omega) fun operand c₁ h hlt' => ?_
    exact meets_expr h (by omega) (fun _ => rfl) fun _ => rfl

/-- The table has operators for no layout token. -/
def NoLayout (operator : TokenKind → Option Operator) : Prop := ∀ kind, kind.isLayout = true → operator kind = none

theorem NoLayout.mayTake (h : NoLayout operator) {op} (hop : operator kind = some op) :
    Cursor.mayTake true kind = true := by
  cases hlayout : kind.isLayout with
  | true =>
    rw [h kind hlayout] at hop
    cases hop
  | false => simp [Cursor.mayTake, hlayout]

/-- A rung reads what its operand reads. -/
theorem reader_leftAssoc {rounds operator operand} (hoperator : NoLayout operator)
    (hoperand : ExprReader (rounds + 1) operand) :
    ExprReader (rounds + 1) (leftAssoc rounds operator operand) := by
  intro c hc
  refine meets_here (hoperand.bind (.refl true c) hc fun first c₁ h hlt => ?_)
  refine meets_iterate (Q := c.ReadsExpr) (fun left c' ⟨h, hlt⟩ => meets_peek ?_) ⟨h, hlt⟩ (by omega)
  cases hop : operator c'.kind with
  | none => exact meets_pure ⟨h, hlt⟩
  | some op =>
    refine meets_advance h (hoperator.mayTake hop) fun h hlt₁ => ?_
    refine hoperand.bind h (by omega) fun right c₂ h hlt₂ => meets_finish (meets_pure ⟨?_, by omega⟩)
    exact h.expr (by omega) rfl rfl

theorem noLayout_rungs : NoLayout termOperator ∧ NoLayout arithOperator ∧ NoLayout shiftOperator ∧
    NoLayout bitAndOperator ∧ NoLayout bitXorOperator ∧ NoLayout bitOrOperator := by
  refine ⟨?_, ?_, ?_, ?_, ?_, ?_⟩ <;> intro kind h <;> cases kind <;> first | rfl | cases h

theorem reader_bitOr (hr : inner.Good) : ExprReader (inner.rounds + 1) (bitOr inner) := by
  obtain ⟨hterm, harith, hshift, hbitAnd, hbitXor, hbitOr⟩ := noLayout_rungs
  have hterms := reader_leftAssoc hterm (reader_factor hr)
  have hshifts := reader_leftAssoc hshift (reader_leftAssoc harith hterms)
  exact reader_leftAssoc hbitOr (reader_leftAssoc hbitXor (reader_leftAssoc hbitAnd hshifts))

/-- The tokens of a comparison are no layout tokens. -/
theorem mayTake_of_comparisonOf {kind next : TokenKind} {op : CmpOperator} {two : Bool}
    (h : comparisonOf kind next = some (op, two)) :
    Cursor.mayTake true kind = true ∧ (two = true → Cursor.mayTake true next = true) := by
  revert h
  fun_cases comparisonOf kind next <;> intro h <;> cases h <;>
    exact ⟨rfl, by simp [Cursor.mayTake, TokenKind.isLayout]⟩

theorem reader_comparison (hr : inner.Good) : ExprReader (inner.rounds + 1) (comparison inner) := by
  intro c hc
  refine meets_here ((reader_bitOr hr).bind (.refl true c) hc fun left c₁ h hlt => ?_)
  have hlt₁ : c₁.left < inner.rounds + 1 := by omega
  refine (readsAt_many (show MaybeReader true (fun p => [.expr p.2]) _ _ from ?_) hlt₁ hlt₁).bind h
    fun more c₂ h hle => ?_
  · intro c hc
    refine meets_peek (meets_peekNext ?_)
    cases hop : comparisonOf c.kind c.nextKind with
    | none => exact meets_pure ⟨.refl true c, by simp⟩
    | some found =>
      obtain ⟨op, two⟩ := found
      obtain ⟨hkind, hnext⟩ := mayTake_of_comparisonOf hop
      refine meets_advance (.refl true c) hkind fun h hlt => ?_
      cases two with
      | false =>
        refine (reader_bitOr hr).bind h (by omega) fun right c₁ h hlt' => ?_
        exact meets_pure ⟨h, fun _ => by omega⟩
      | true =>
        refine meets_advance h (by simpa using hnext rfl) fun h hlt' => ?_
        refine (reader_bitOr hr).bind h (by omega) fun right c₁ h hlt'' => ?_
        exact meets_pure ⟨h, fun _ => by omega⟩
  · cases more with
    | nil => exact meets_pure ⟨by simpa using h, by omega⟩
    | cons p more =>
      refine meets_expr h (by omega) (fun _ => rfl) fun _ => ?_
      simp [Node.belowExpr, Node.ofExprs, ← map_eq_flatMap]

theorem reader_notTest (hr : inner.Good) : ExprReader (inner.rounds + 1) (notTest inner) := by
  intro c hc
  refine meets_here (meets_eat (.refl true c) rfl (fun c₁ _ h hlt => ?_) fun _ => reader_comparison hr c hc)
  refine hr.notTest.bind h (by omega) fun operand c₂ h hlt' => ?_
  exact meets_expr h (by omega) (fun _ => rfl) fun _ => rfl

theorem reader_booleanChain {word : Keyword} {op : BoolOperator}
    (hoperand : ExprReader (rounds + 1) operand) :
    ExprReader (rounds + 1) (booleanChain rounds word op operand) := by
  intro c hc
  refine meets_here (hoperand.bind (.refl true c) hc fun first c₁ h hlt => ?_)
  refine meets_check (fun _ => ?_) fun _ => meets_pure ⟨h, hlt⟩
  have hmore := maybeReader_optional (asks_eat word rfl) hoperand
  refine (readsAt_many hmore (by omega) (by omega)).bind h fun more c₂ h hle => ?_
  refine meets_expr h (by omega) (fun _ => rfl) fun _ => ?_
  simp [Node.belowExpr, Node.ofExprs, ← map_eq_flatMap]

theorem reader_orTest (hr : inner.Good) : ExprReader (inner.rounds + 1) (orTest inner) :=
  reader_booleanChain (reader_booleanChain (reader_notTest hr))

theorem meets_lambda (hr : inner.Good) (hkind : c.kind = Keyword.lambdaKw) (hc : c.left < inner.rounds + 1) :
    Meets true c (lambda inner) c c.ReadsExpr := by
  have hmay : Cursor.mayTake true c.kind = true := by rw [hkind]; rfl
  have hword : c.Reads true [.ident ⟨FunctionDef.lambdaName, c.current.span⟩] c.advance :=
    Cursor.reads_token hmay rfl rfl rfl nofun rfl
  have hlt := Cursor.left_advance hmay
  refine meets_here (meets_take ((readsAt_params hr (by omega)).bind hword fun params c₁ h hle => ?_))
  refine meets_expect h rfl fun c₂ _ h hlt₂ => ?_
  refine hr.expression.bind h (by omega) fun body c₃ h hlt₃ => meets_finish (meets_pure ?_)
  -- the body is a `return` of what has been read
  have hreturn {us} (hus : Derives us [.expr body]) : Derives us [.stmt (.return body.span (some body))] :=
    hus.wrap rfl fun own hown => hown.over rfl rfl rfl rfl rfl rfl rfl rfl
  have hbody := h.map fun ts hts => Derives.replace hts fun _ => hreturn
  -- the name of a lambda is the word it begins with
  have hname : c.Names ⟨FunctionDef.lambdaName, c.current.span⟩ c₃ :=
    ((Cursor.Opens.refl c).names _ (by rw [hkind]; rfl) (by rw [hkind]; rfl)).later h (by omega)
  refine Cursor.Reads.expr (hbody.plainNode (by omega) ?_ rfl rfl (fun i hi => ?_) rfl) (by omega) rfl rfl
  · simp [Node.children, Node.ofStmts, Node.ofExprs, Node.ofExpr?]
  · obtain rfl := Option.some.inj hi
    exact hname

theorem reader_expression (hr : inner.Good) : ExprReader (inner.rounds + 1) (expression inner) := by
  intro c hc
  refine meets_check (fun hkind => meets_lambda hr hkind hc) fun _ => ?_
  refine meets_here ((reader_orTest hr).bind (.refl true c) hc fun body c₁ h hlt => ?_)
  refine meets_eat h rfl (fun c₂ _ h hlt₂ => ?_) fun _ => meets_pure ⟨h, hlt⟩
  refine hr.orTest.bind h (by omega) fun test c₃ h hlt₃ => ?_
  refine meets_expect h rfl fun c₄ _ h hlt₄ => ?_
  refine hr.expression.bind h (by omega) fun orElse c₅ h hlt₅ => ?_
  exact meets_expr (h.perm (.swap _ _ _)) (by omega) (fun _ => rfl) fun _ => rfl

/-! ### The knot -/

theorem good_rulesAround (hr : inner.Good) : (rulesAround inner).Good where
  expression := reader_expression hr
  orTest := reader_orTest hr
  notTest := reader_notTest hr
  bitOr := reader_bitOr hr
  factor := reader_factor hr

theorem good_rules (n : Nat) : (rules n).Good := by
  induction n with
  | zero => constructor <;> exact fun c hc => absurd hc (Nat.not_lt_zero _)
  | succ n ih => exact good_rulesAround ih

theorem rounds_rules (n : Nat) : (rules n).rounds = n := by
  induction n with
  | zero => rfl
  | succ n ih => exact congrArg (· + 1) ih

end

end TypeInfer.Grammar
