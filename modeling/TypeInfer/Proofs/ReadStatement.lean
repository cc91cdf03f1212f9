/-
What the rules for statements and blocks read. The span of a definition is that of its header, so
its node is put together from what was read before, in and after the header. What is read with a
fault on record need not be said, since no tree comes of it.
-/
import TypeInfer.Proofs.ReadExpression

namespace TypeInfer.Grammar

open List

section

variable {r : Rules} {inner : BlockRules} {plain : Bool} {c₀ c c' : Cursor} {ns : List Node}
  {bound : Nat} (inParens : Bool) {ts : List Token}

/-- The statement has been read, from one token at least. -/
def Cursor.ReadsStmt (plain : Bool) (c₀ : Cursor) (s : Stmt) (c : Cursor) : Prop :=
  c₀.Reads plain [.stmt s] c ∧ c.left < c₀.left

/-- A statement whose span ends with the last token taken. -/
theorem meets_stmt {s : Span → Stmt} (h : c₀.Reads plain ns c) (hlt : c.left < c₀.left)
    (hfirst : c₀.kind.isLayout = false) (hspan : ∀ span, (s span).span = span)
    (hns : ∀ span, ns = Node.belowStmt (s span))
    (htargets : ∀ span, ∀ e ∈ (Node.stmt (s span)).targets, e.isAssignable)
    (hwhole : ∀ span, (Node.stmt (s span)).isWhole = true) :
    Meets plain c₀ (finish c₀.current.span >>= fun span => pure (s span)) c (c₀.ReadsStmt plain) :=
  meets_finish (meets_pure ⟨h.node hlt hfirst (hns _) (congrArg some (hspan _)) (htargets _) nofun (hwhole _), hlt⟩)

/-! ### Small statements -/

theorem meets_stmtToken {s : Stmt} (hkind : Cursor.mayTake true c.kind = true) (hspan : s.span = c.current.span)
    (hbelow : Node.belowStmt s = []) (htargets : (Node.stmt s).targets = [])
    (hwhole : (Node.stmt s).isWhole = true) :
    Meets true c (discard advance >>= fun _ => pure s) c (c.ReadsStmt true) :=
  meets_advance (.refl true c) hkind fun _ hlt =>
    meets_pure ⟨Cursor.reads_token hkind hbelow (congrArg some hspan) htargets nofun hwhole, hlt⟩

theorem looks_atLineEnd : Looks atLineEnd := fun _ => ⟨_, rfl⟩

theorem looks_never : Looks (return false) := fun _ => ⟨_, rfl⟩

theorem reader_dottedIdents (r : Rules) : Reader true Node.ofIdents r.rounds (dottedIdents r) := by
  intro c hc
  have hmore : MaybeReader true _ r.rounds _ := maybeReader_optional (asks_eat Symbol.dot rfl) (reader_identifier _)
  refine meets_identifier (.refl true c) fun first h hlt => ?_
  refine (readsAt_many hmore (by omega) (by omega)).bind h fun more c₁ h hle => meets_pure ⟨?_, by omega⟩
  simpa [Node.ofIdents, ← map_eq_flatMap] using h

theorem maybeReader_localName (bound : Nat) : MaybeReader plain (fun i => [.ident i]) bound localName :=
  maybeReader_optional (asks_eat _ (Cursor.mayTake_of_not_layout rfl)) (reader_identifier bound)

theorem reader_moduleAlias (r : Rules) : Reader true (fun a => [.imported a]) r.rounds (moduleAlias r) := by
  intro c hc
  refine meets_here ((reader_dottedIdents r).bind (.refl true c) hc fun name c₁ h hlt => ?_)
  refine (maybeReader_localName r.rounds).bind h (by omega) fun asName c₂ h hle => ?_
  refine meets_finish (meets_pure ⟨h.plainNode (by omega) ?_ rfl rfl nofun rfl, by omega⟩)
  simp [Node.children, Node.ofIdents, ← map_eq_flatMap]

theorem meets_importStatement (r : Rules) (hkind : c.kind = Keyword.importKw) (hc : c.left < r.rounds) :
    Meets true c (importStatement r) c (c.ReadsStmt true) := by
  refine meets_here (meets_advance (.refl true c) (by rw [hkind]; rfl) fun h hlt => ?_)
  refine (readsAt_separated looks_never (reader_moduleAlias r) (by omega) (by omega)).bind h fun names c₁ h hle => ?_
  refine meets_stmt h (by omega) (by rw [hkind]; rfl) (fun _ => rfl) (fun _ => ?_) (by simp [Node.targets]) fun _ => rfl
  simp [Node.belowStmt, ← map_eq_flatMap]

theorem maybeReader_importDots (bound : Nat) : MaybeReader true (fun _ => []) bound importDots := by
  intro c _
  refine meets_eat (.refl true c) rfl (fun c₁ _ h hlt => meets_pure ⟨h, fun _ => hlt⟩) fun _ => ?_
  refine meets_eat (.refl true c) rfl (fun c₁ _ h hlt => meets_pure ⟨h, fun _ => hlt⟩) fun _ => ?_
  exact meets_pure ⟨.refl true c, by simp⟩

theorem reader_nameAlias (bound : Nat) : Reader true (fun a => [.imported a]) bound nameAlias := by
  intro c hc
  refine meets_here (meets_identifier (.refl true c) fun name h hlt => ?_)
  refine (maybeReader_localName bound).bind h (by omega) fun asName c₂ h hle => ?_
  refine meets_finish (meets_pure ⟨h.plainNode (by omega) ?_ rfl rfl nofun rfl, by omega⟩)
  simp [Node.children, Node.ofIdents, ← map_eq_flatMap]

theorem looks_closing : Looks (if inParens then check Symbol.rightParen else return false) := by
  cases inParens with
  | true => exact looks_check _
  | false => exact looks_never

theorem readsAt_importedNames (hc : c.left < r.rounds) : ReadsAt true (fun n => [.names n]) c (importedNames r) := by
  refine meets_check (fun hkind => ?_) fun _ => ?_
  · exact meets_take (meets_pure (Cursor.reads_token (by rw [hkind]; rfl) rfl rfl rfl nofun rfl))
  refine (asks_eat _ rfl).bind (.refl true c) fun inParens c₁ h hle => ?_
  refine (readsAt_separated (looks_closing inParens) (reader_nameAlias r.rounds) (by omega) (by omega)).bind h
    fun aliases c₂ h hle' => ?_
  have hend {c₃ : Cursor} (h : c.Reads true ([] ++ aliases.flatMap fun a => [.imported a]) c₃) :
      Meets true c (if aliases.isEmpty = true then unexpected "imported name" else pure (ImportNames.names aliases)) c₃
        fun n c' => c.Reads true [.names n] c' := by
    cases aliases with
    | nil => exact meets_unexpected h
    | cons a aliases =>
      refine meets_pure (h.bareNode ?_ rfl (by simp [Node.targets]))
      simp [Node.children, ← map_eq_flatMap]
  cases inParens with
  | true => exact meets_expect h rfl fun c₃ _ h _ => hend h
  | false => exact hend h

theorem meets_fromImport (r : Rules) (hkind : c.kind = Keyword.fromKw) (hc : c.left < r.rounds) :
    Meets true c (fromImport r) c (c.ReadsStmt true) := by
  refine meets_here (meets_advance (.refl true c) (by rw [hkind]; rfl) fun h hlt => ?_)
  refine (readsAt_many (maybeReader_importDots r.rounds) (by omega) (by omega)).bind h fun dots c₁ h hle => ?_
  have hdots : c.Reads true [] c₁ := h.forget
  refine meets_look (looks_check _) fun b _ => ?_
  have hend {level : Nat} {module : List Ident} {c₂ : Cursor} (h : c.Reads true (Node.ofIdents module) c₂)
      (hle₂ : c₂.left ≤ c₁.left) : Meets true c (discard (expect Keyword.importKw "'import'") >>= fun _ =>
        importedNames r >>= fun names => finish c.current.span >>= fun span =>
          pure (Stmt.importFrom span module level names)) c₂ (c.ReadsStmt true) := by
    refine meets_expect h rfl fun c₃ _ h hlt₃ => ?_
    refine (readsAt_importedNames (by omega)).bind h fun names c₄ h hle₄ => ?_
    exact meets_stmt h (by omega) (by rw [hkind]; rfl) (fun _ => rfl) (fun _ => rfl) (by simp [Node.targets]) fun _ => rfl
  refine meets_ite (fun _ => meets_pure_bind (hend hdots (Nat.le_refl _))) fun _ => ?_
  refine (reader_dottedIdents r).bind hdots (by omega) fun module c₂ h hlt₂ => ?_
  exact hend h (Nat.le_of_lt hlt₂)

/-! ### Assignments and other small statements -/

/-- A chain of targets and what stands after them has been read. -/
structure Cursor.ReadsChain (c₀ : Cursor) (chain : List Expr × Expr) (c : Cursor) : Prop where
  reads : c₀.Reads true (Node.ofExprs chain.1 ++ [.expr chain.2]) c
  lt : c.left < c₀.left
  targets : ∀ e ∈ chain.1, e.isAssignable

theorem meets_assignment {first : Expr} (hr : r.Good) (hc₀ : c₀.left < r.rounds) (hfirst : c₀.ReadsExpr first c) :
    Meets true c₀ (assignment r c₀.current.span first) c (c₀.ReadsStmt true) := by
  have hlt := hfirst.2
  refine Meets.bind (P := c₀.ReadsChain)
    (meets_iterate (fun chain c h => ?_) ⟨hfirst.1, hfirst.2, by simp⟩ (by omega)) fun chain c' h => ?_
  · have hlt := h.lt
    refine meets_eat h.reads rfl (fun c₁ _ hreads hlt₁ => ?_) fun _ => meets_pure h
    refine meets_checkTarget hreads fun hassignable => ?_
    refine (reader_yieldOrList hr).bind hreads (by omega) fun value c₂ hreads hlt₂ => ?_
    refine meets_pure ⟨⟨by simpa [Node.ofExprs] using hreads, by omega, ?_⟩, by omega⟩
    simpa [or_imp, forall_and] using ⟨h.targets, hassignable⟩
  · obtain ⟨targets, value⟩ := chain
    exact meets_stmt h.reads h.lt (h.reads.first h.lt) (fun _ => rfl) (fun _ => rfl) (fun _ => h.targets) fun _ => rfl

theorem reader_expressionStatement (hr : r.Good) :
    Reader true (fun s => [.stmt s]) r.rounds (expressionStatement r) := by
  intro c hc
  refine meets_here ((reader_yieldOrList hr).bind (.refl true c) hc fun first c₁ h hlt => meets_peek ?_)
  have hlayout := h.first hlt
  have hexpr : Meets true c (finish c.current.span >>= fun span => pure (.expr span first)) c₁ (c.ReadsStmt true) :=
    meets_stmt h hlt hlayout (fun _ => rfl) (fun _ => rfl) (by simp [Node.targets]) fun _ => rfl
  cases hkind : c₁.kind with
  | augAssign op =>
    refine meets_advance h (by rw [hkind]; rfl) fun h hlt₂ => meets_checkTarget h fun hassignable => ?_
    refine (reader_yieldOrList hr).bind h (by omega) fun value c₃ h hlt₃ => ?_
    exact meets_stmt h (by omega) hlayout (fun _ => rfl) (fun _ => rfl) (by simpa [Node.targets] using hassignable) fun _ => rfl
  | symbol mark =>
    cases mark with
    | colon =>
      refine meets_advance h (by rw [hkind]; rfl) fun h hlt₂ => meets_checkTarget h fun hassignable => ?_
      refine hr.expression.bind h (by omega) fun annotation c₃ h hlt₃ => ?_
      have hvalue := maybeReader_optional (asks_eat Symbol.eq rfl) (reader_yieldOrList hr)
      refine hvalue.bind h (by omega) fun value c₄ h hle₄ => ?_
      refine meets_stmt h (by omega) hlayout (fun _ => rfl) (fun _ => ?_) (by simpa [Node.targets] using hassignable) fun _ => rfl
      simp [Node.belowStmt, Node.ofExpr?, Node.ofExprs, ← map_eq_flatMap]
    | eq => exact meets_assignment hr hc ⟨h, hlt⟩
    | _ => exact hexpr
  | _ => exact hexpr

theorem readsAt_identList (hc : c.left < r.rounds) : ReadsAt true Node.ofIdents c (identList r) := by
  refine Meets.mono (readsAt_separated looks_never (reader_identifier r.rounds) hc (by omega)) fun names c' h => ?_
  simpa [Node.ofIdents, ← map_eq_flatMap] using h

theorem derives_deletionTargets {e : Expr} (h : Derives ts [.expr e]) :
    Derives ts (Node.ofExprs (deletionTargets e)) := by
  cases e with
  | tuple span elts => exact h.flatten
  | _ => exact h

theorem meets_checkTargets {α : Type} {f : Unit → Rule α} {Q : α → Cursor → Prop} {targets : List Expr}
    (h : c₀.Reads true ns c) (next : (∀ e ∈ targets, e.isAssignable) → Meets true c₀ (f ()) c Q) :
    Meets true c₀ (targets.forM checkTarget >>= f) c Q := by
  refine Meets.bind (P := fun _ c' => c' = c ∧ ∀ e ∈ targets, e.isAssignable) ?_ fun _ c' ⟨heq, hall⟩ => heq ▸ next hall
  clear next
  induction targets with
  | nil => exact meets_pure ⟨rfl, by simp⟩
  | cons e targets ih =>
    refine meets_checkTarget h fun he => ih.mono fun _ c' ⟨heq, hall⟩ => ⟨heq, ?_⟩
    simpa using ⟨he, hall⟩

theorem reader_smallStatement (hr : r.Good) : Reader true (fun s => [.stmt s]) r.rounds (smallStatement r) := by
  intro c hc
  refine meets_here (meets_peek ?_)
  have hlist := maybeReader_optional looks_atExpression.asks (reader_expressionList hr)
  have hexpr := maybeReader_optional looks_atExpression.asks hr.expression
  cases hkind : c.kind with
  | keyword word =>
    have hmay : Cursor.mayTake true c.kind = true := by rw [hkind]; rfl
    have hlayout : c.kind.isLayout = false := by rw [hkind]; rfl
    cases word with
    | passKw | breakKw | continueKw => exact meets_stmtToken hmay rfl rfl rfl rfl
    | returnKw =>
      refine meets_advance (.refl true c) hmay fun h hlt => ?_
      refine hlist.bind h (by omega) fun value c₁ h hle => ?_
      refine meets_stmt h (by omega) hlayout (fun _ => rfl) (fun _ => ?_) (by simp [Node.targets]) fun _ => rfl
      simp [Node.belowStmt, Node.ofExpr?, Node.ofExprs, ← map_eq_flatMap]
    | raiseKw =>
      refine meets_advance (.refl true c) hmay fun h hlt => ?_
      refine hexpr.bind h (by omega) fun exception c₁ h hle => ?_
      have hcause := maybeReader_optional (asks_eat_if exception.isSome Keyword.fromKw rfl) hr.expression
      refine hcause.bind h (by omega) fun cause c₂ h hle₂ => ?_
      refine meets_stmt h (by omega) hlayout (fun _ => rfl) (fun _ => ?_) (by simp [Node.targets]) fun _ => rfl
      simp [Node.belowStmt, Node.ofExpr?, Node.ofExprs, ← map_eq_flatMap]
    | globalKw | nonlocalKw =>
      refine meets_advance (.refl true c) hmay fun h hlt => ?_
      refine (readsAt_identList (by omega)).bind h fun names c₁ h hle => ?_
      exact meets_stmt h (by omega) hlayout (fun _ => rfl) (fun _ => rfl) (by simp [Node.targets]) fun _ => rfl
    | delKw =>
      refine meets_advance (.refl true c) hmay fun h hlt => ?_
      refine (reader_expressionList hr).bind h (by omega) fun e c₁ h hlt₁ => ?_
      have htargets := h.map fun _ => derives_deletionTargets
      refine meets_checkTargets htargets fun hassignable => ?_
      exact meets_stmt htargets (by omega) hlayout (fun _ => rfl) (fun _ => rfl) (fun _ => hassignable) fun _ => rfl
    | assertKw =>
      refine meets_advance (.refl true c) hmay fun h hlt => ?_
      refine hr.expression.bind h (by omega) fun test c₁ h hlt₁ => ?_
      have hmessage := maybeReader_optional (asks_eat Symbol.comma rfl) hr.expression
      refine hmessage.bind h (by omega) fun message c₂ h hle => ?_
      refine meets_stmt h (by omega) hlayout (fun _ => rfl) (fun _ => ?_) (by simp [Node.targets]) fun _ => rfl
      simp [Node.belowStmt, Node.ofExpr?, Node.ofExprs, ← map_eq_flatMap]
    | importKw => exact meets_importStatement r hkind hc
    | fromKw => exact meets_fromImport r hkind hc
    | _ => exact reader_expressionStatement hr c hc
  | _ => exact reader_expressionStatement hr c hc

theorem reader_simpleStatements (hr : r.Good) : Reader false Node.ofStmts r.rounds (simpleStatements r) := by
  intro c hc
  have hsmall : Reader false _ r.rounds _ := (reader_smallStatement hr).loosen
  refine hsmall.bind (.refl false c) hc fun first c₁ h hlt => ?_
  refine (readsAt_many (show MaybeReader false (fun s => [.stmt s]) r.rounds _ from ?_) (by omega) (by omega)).bind h
    fun more c₂ h hle => ?_
  · intro c hc
    refine meets_eat (.refl false c) rfl (fun c₁ _ h hlt => ?_) fun _ => meets_pure ⟨.refl false c, by simp⟩
    refine meets_look looks_atLineEnd fun b _ => ?_
    cases b with
    | true => exact meets_pure ⟨h, by simp⟩
    | false => exact hsmall.bind h (by omega) fun s c₂ h hlt₂ => meets_pure ⟨h, fun _ => by omega⟩
  · have hline : c.Reads false (Node.ofStmts (first :: more)) c₂ := by
      simpa [Node.ofStmts, ← map_eq_flatMap] using h
    refine meets_check (fun _ => meets_pure ⟨hline, by omega⟩) fun _ => ?_
    exact meets_expect hline rfl fun c₃ _ h hlt₃ => meets_pure ⟨h, by omega⟩

/-! ### Parts of compound statements -/

/-- What a class takes from an argument. -/
def classNodes : Arg → List Node
  | .positional e | .star e => [.expr e]
  | .keyword name value => [.keyword ⟨name, value⟩]
  | .doubleStar _ => []

theorem derives_classNodes {a} (h : Derives ts [.arg a]) : Derives ts (classNodes a) := by
  cases a with
  | positional e => exact h.flatten
  | star e => exact h.flatten
  | keyword name value => exact h.alike rfl fun own _ => ⟨by simp [Node.span?], by simp [Node.targets]⟩
  | doubleStar e => exact .marks ts

theorem classNodes_perm (args : List Arg) :
    (args.flatMap classNodes).Perm (Node.ofExprs (basesOf args) ++ (classKeywordsOf args).map .keyword) := by
  induction args with
  | nil => exact .refl _
  | cons a args ih =>
    cases a with
    | positional e => exact ih.cons _
    | star e => exact ih.cons _
    | keyword name value => exact (ih.cons _).trans perm_middle.symm
    | doubleStar e => exact ih

theorem derives_classArgs {args} (before : List Node) (h : Derives ts (before ++ args.map .arg)) :
    Derives ts (before ++ (Node.ofExprs (basesOf args) ++ (classKeywordsOf args).map .keyword)) :=
  .perm (h.replaceAll fun _ _ => derives_classNodes) ((classNodes_perm args).append_left before)

theorem maybeReader_decorator (hr : r.Good) : MaybeReader false (fun e => [.expr e]) r.rounds (decorator r) := by
  intro c hc
  refine meets_eat (.refl false c) rfl (fun c₁ _ h hlt => ?_) fun _ => meets_pure ⟨.refl false c, by simp⟩
  refine (reader_named hr).loosen.bind h (by omega) fun e c₂ h hlt₂ => ?_
  exact meets_expect h rfl fun c₃ _ h hlt₃ => meets_pure ⟨h, fun _ => by omega⟩

theorem reader_withItem (hr : r.Good) : Reader true (fun i => [.withItem i]) r.rounds (withItem r) := by
  intro c hc
  refine hr.expression.bind (.refl true c) hc fun context c₁ h hlt => ?_
  have htarget {c' : Cursor} (h : c₁.Reads true [] c') (hle : c'.left ≤ c₁.left) :
      Meets true c₁ (starTarget r >>= fun target => checkTarget target >>= fun _ => pure target) c' fun e c'' =>
        c₁.Reads true [.expr e] c'' ∧ e.isAssignable := by
    refine (reader_starTarget hr).bind h (by omega) fun e c'' h _ => ?_
    exact meets_checkTarget h fun hassignable => meets_pure ⟨h, hassignable⟩
  refine ((meets_optional (asks_eat _ rfl) (.refl true c₁) fun c' => htarget).within h).bind fun target c₂ htarget => ?_
  cases target with
  | none =>
    obtain rfl : c₂ = c₁ := htarget
    exact meets_pure ⟨h.bareNode rfl rfl (by simp [Node.targets]), hlt⟩
  | some e =>
    obtain ⟨he, hassignable⟩ := htarget
    have hle := he.left_le
    exact meets_pure ⟨(h.trans he).bareNode rfl rfl (by simpa [Node.targets] using hassignable), by omega⟩

/-- The items of a `with`, and what comes after them. -/
theorem meets_withItems {α : Type} {rest : List WithItem → Rule α} {Q : α → Cursor → Prop} (hr : r.Good)
    (inParens : Bool) (h : c₀.Reads false [] c) (hc : c.left < r.rounds)
    (next : ∀ items c', c₀.Reads false (items.map .withItem) c' → c'.left ≤ c.left →
      Meets false c₀ (rest items) c' Q) :
    Meets false c₀ (do
      let items ← separated (if inParens then check Symbol.rightParen else return false) (withItem r) (r.rounds + 1)
      if inParens then
        discard <| expect Symbol.rightParen "')'"
        rest items
      else rest items) c Q := by
  have hitem : Reader false _ r.rounds _ := (reader_withItem hr).loosen
  refine (readsAt_separated (looks_closing inParens) hitem hc (by omega)).bind h fun items c₁ h hle => ?_
  have hitems : c₀.Reads false (items.map .withItem) c₁ := by simpa [← map_eq_flatMap] using h
  refine meets_ite (fun _ => ?_) fun _ => next items c₁ hitems hle
  exact meets_expect hitems rfl fun c₂ _ h hlt => next items c₂ h (by omega)

/-! ### Blocks -/

/-- The statements have been read, up to the given token or the end of the file. -/
def Cursor.ReadsBlock (stop : TokenKind) (c₀ : Cursor) (ss : List Stmt) (c : Cursor) : Prop :=
  c₀.Reads false (Node.ofStmts ss) c ∧ (c.kind = stop ∨ c.kind = .eof)

/-- The rules read every block of fewer tokens than they have rounds. -/
structure BlockRules.Good (inner : BlockRules) : Prop where
  statements : ∀ stop c, c.left < inner.rounds → Meets false c (inner.statements stop) c (c.ReadsBlock stop)
  ifStatement : ∀ c, c.kind.isLayout = false → c.left < inner.rounds →
    Meets false c inner.ifStatement c (c.ReadsStmt false)

section

variable (hr : r.Good) (hinner : inner.Good) (hrounds : inner.rounds < r.rounds)
include hr hinner hrounds

theorem reader_block : Reader false Node.ofStmts (inner.rounds + 1) (block r inner) := by
  intro c hc
  refine meets_expect (.refl false c) rfl fun c₁ _ h hlt₁ => ?_
  refine meets_eat h rfl (fun c₂ _ h hlt₂ => ?_) fun _ => ?_
  · refine meets_eat h rfl (fun c₃ _ h hlt₃ => ?_) fun _ => meets_unexpected h
    refine ((hinner.statements _ c₃ (by omega)).within h).bind fun body c₄ ⟨hbody, _⟩ => ?_
    have hle₄ := hbody.left_le
    exact (asks_eat _ rfl).discard_bind (h.trans hbody) fun c₅ h hle₅ => meets_pure ⟨h, by omega⟩
  · exact ((reader_simpleStatements hr).after h (by omega)).mono fun body c₂ ⟨h, hlt₂⟩ => ⟨h, by omega⟩

theorem readsAt_elseBlock (hc : c.left < inner.rounds + 1) : ReadsAt false Node.ofStmts c (elseBlock r inner) := by
  refine meets_eat (.refl false c) rfl (fun c₁ _ h hlt => ?_) fun _ => meets_pure (.refl false c)
  exact ((reader_block hr hinner hrounds).after h (by omega)).mono fun body c₂ ⟨h, _⟩ => h

/-! ### Definitions -/

theorem meets_functionDef {decorators} (hdecorators : c₀.Reads false (Node.ofExprs decorators) c)
    (hfirst : c.kind.isLayout = false) (hc : c.left < inner.rounds + 1) :
    Meets false c₀ (functionDef r inner decorators) c (c₀.ReadsStmt false) := by
  have hle := hdecorators.left_le
  refine Meets.within ?_ hdecorators
  obtain ⟨isAsync, c₁, hasync, h, hopens⟩ := opens_eat false c .asyncKw rfl
  have hle₁ := h.left_le
  refine meets_here (meets_of_eq (run_bind_ok hasync) (meets_demand h rfl fun hdef h hlt₂ => ?_))
  refine meets_name h fun name hkind h hlt₃ => ?_
  have hname := (hopens.advance (by rw [hdef]; rfl)).names name (by rw [hkind]; rfl) (by rw [hkind]; rfl)
  refine meets_expect h rfl fun c₄ _ h hlt₄ => ?_
  refine (readsAt_params hr (by omega)).loosen.bind h fun params c₅ h hle₅ => ?_
  refine meets_expect h rfl fun c₆ _ h hlt₆ => ?_
  have hreturns : MaybeReader false _ r.rounds _ :=
    maybeReader_optional (asks_eat Symbol.arrow rfl) hr.expression.loosen
  refine hreturns.bind h (by omega) fun returns c₇ h hle₇ => meets_finish ?_
  refine ((reader_block hr hinner hrounds c₇ (by omega)).within h).bind fun body c₈ ⟨hbody, hlt₈⟩ => ?_
  refine meets_pure ⟨?_, by omega⟩
  refine Cursor.Reads.definition (.function _) hdecorators ?_ (by omega) hfirst hbody rfl fun i hi => ?_
  · simpa [Node.header, Node.ofExpr?, Node.ofExprs, ← map_eq_flatMap] using h
  · obtain rfl := Option.some.inj hi
    exact hname.later h (by omega)

theorem meets_classDef {decorators} (hdecorators : c₀.Reads false (Node.ofExprs decorators) c)
    (hfirst : c.kind.isLayout = false) (hc : c.left < inner.rounds + 1) :
    Meets false c₀ (classDef r inner decorators) c (c₀.ReadsStmt false) := by
  have hle := hdecorators.left_le
  refine Meets.within ?_ hdecorators
  refine meets_here (meets_demand (.refl false c) rfl fun hclass h hlt₁ => ?_)
  refine meets_name h fun id hkind h hlt₂ => ?_
  have hname := ((Cursor.Opens.refl c).advance (by rw [hclass]; rfl)).names id (by rw [hkind]; rfl)
    (by rw [hkind]; rfl)
  generalize Ident.mk id c.advance.current.span = name at h hname ⊢
  have hbody {args : List Arg} {c₃ : Cursor} (h : c.Reads false (.ident name :: args.map .arg) c₃)
      (hle₃ : c₃.left ≤ c.advance.advance.left) :
      Meets false c (finish c.current.span >>= fun span => block r inner >>= fun body => pure (Stmt.classDef
        { span, name, bases := basesOf args, keywords := classKeywordsOf args, body, decorators })) c₃
          (c₀.ReadsStmt false) := by
    have hclass := h.map fun _ => derives_classArgs [.ident name]
    refine meets_finish (((reader_block hr hinner hrounds c₃ (by omega)).within h).bind fun body c₄ ⟨hbody, hlt₄⟩ => ?_)
    refine meets_pure ⟨?_, by omega⟩
    refine Cursor.Reads.definition (.cls _) hdecorators ?_ (by omega) hfirst hbody rfl fun i hi => ?_
    · simpa [Node.header] using hclass
    · obtain rfl := Option.some.inj hi
      exact hname.later h hle₃
  refine meets_eat h rfl (fun c₃ _ h hlt₃ => ?_) fun _ => ?_
  · refine (reader_arguments hr).loosen.bind h (by omega) fun args c₄ h hlt₄ => ?_
    exact hbody h (by omega)
  · exact meets_pure_bind (hbody h (by omega))

theorem meets_decorated (hc : c.left < inner.rounds + 1) : Meets false c (decorated r inner) c (c.ReadsStmt false) := by
  have hdecorator := maybeReader_decorator hr
  refine (readsAt_many hdecorator (by omega) (by omega)).bind (.refl false c) fun decorators c₁ h hle => ?_
  have hdecorators : c.Reads false (Node.ofExprs decorators) c₁ := by
    simpa [Node.ofExprs, ← map_eq_flatMap] using h
  refine meets_peek ?_
  cases hkind : c₁.kind with
  | keyword word =>
    have hlayout : c₁.kind.isLayout = false := by rw [hkind]; rfl
    cases word with
    | defKw | asyncKw => exact meets_functionDef hr hinner hrounds hdecorators hlayout (by omega)
    | classKw => exact meets_classDef hr hinner hrounds hdecorators hlayout (by omega)
    | _ => exact meets_unexpected h
  | _ => exact meets_unexpected h

/-! ### Other compound statements -/

section

variable (hfirst : c.kind.isLayout = false)
include hfirst

theorem meets_ifStatement (hc : c.left < inner.rounds + 1) :
    Meets false c (ifStatement r inner) c (c.ReadsStmt false) := by
  have hblock := reader_block hr hinner hrounds
  refine meets_here (meets_advance (.refl false c) (Cursor.mayTake_of_not_layout hfirst) fun h hlt => ?_)
  refine (reader_named hr).loosen.bind h (by omega) fun test c₁ h hlt₁ => ?_
  refine hblock.bind h (by omega) fun body c₂ h hlt₂ => meets_peek ?_
  have hend {orElse : List Stmt} {c₃ : Cursor}
      (h : c.Reads false (.expr test :: (Node.ofStmts body ++ Node.ofStmts orElse)) c₃)
      (hlt₃ : c₃.left < c.left) : Meets false c (finish c.current.span >>= fun span =>
        pure (Stmt.cond span test body orElse)) c₃ (c.ReadsStmt false) :=
    meets_stmt h hlt₃ hfirst (fun _ => rfl) (fun _ => rfl) (by simp [Node.targets]) fun _ => rfl
  have hnone : c.Reads false (.expr test :: (Node.ofStmts body ++ Node.ofStmts [])) c₂ := by
    simpa [Node.ofStmts] using h
  cases hkind : c₂.kind with
  | keyword word =>
    have hlayout : c₂.kind.isLayout = false := by rw [hkind]; rfl
    cases word with
    | elifKw =>
      refine ((hinner.ifStatement c₂ hlayout (by omega)).within h).bind fun s c₃ hs => ?_
      exact meets_pure_bind (hend (h.trans hs.1) (Nat.lt_trans hs.2 (by omega)))
    | elseKw =>
      refine meets_advance h (Cursor.mayTake_of_not_layout hlayout) fun h hlt₃ => ?_
      refine hblock.bind h (by omega) fun orElse c₄ h hlt₄ => hend h (by omega)
    | _ => exact meets_pure_bind (hend hnone (by omega))
  | _ => exact meets_pure_bind (hend hnone (by omega))

theorem meets_whileStatement (hc : c.left < inner.rounds + 1) :
    Meets false c (whileStatement r inner) c (c.ReadsStmt false) := by
  refine meets_here (meets_advance (.refl false c) (Cursor.mayTake_of_not_layout hfirst) fun h hlt => ?_)
  refine (reader_named hr).loosen.bind h (by omega) fun test c₁ h hlt₁ => ?_
  refine (reader_block hr hinner hrounds).bind h (by omega) fun body c₂ h hlt₂ => ?_
  refine (readsAt_elseBlock hr hinner hrounds (by omega)).bind h fun orElse c₃ h hle₃ => ?_
  exact meets_stmt h (by omega) hfirst (fun _ => rfl) (fun _ => rfl) (by simp [Node.targets]) fun _ => rfl

theorem meets_forStatement (hc : c.left < inner.rounds + 1) :
    Meets false c (forStatement r inner) c (c.ReadsStmt false) := by
  refine meets_here ((asks_eat _ rfl).bind (.refl false c) fun isAsync c₁ h hle₁ => ?_)
  refine meets_expect h rfl fun c₂ _ h hlt₂ => ?_
  refine ((meets_targetList hr (by omega)).loosen.within h).bind fun target c₃ ⟨⟨htarget, hlt₃⟩, hassignable⟩ => ?_
  refine meets_expect (h.trans htarget.loosen) rfl fun c₄ _ h hlt₄ => ?_
  refine (reader_expressionList hr).loosen.bind h (by omega) fun iter c₅ h hlt₅ => ?_
  refine (reader_block hr hinner hrounds).bind h (by omega) fun body c₆ h hlt₆ => ?_
  refine (readsAt_elseBlock hr hinner hrounds (by omega)).bind h fun orElse c₇ h hle₇ => ?_
  exact meets_stmt h (by omega) hfirst (fun _ => rfl) (fun _ => rfl) (by simpa [Node.targets] using hassignable) fun _ => rfl

end

theorem maybeReader_handler : MaybeReader false (fun h => [.handler h]) (inner.rounds + 1) (handler r inner) := by
  intro c hc
  refine meets_check (fun hkind => ?_) fun _ => meets_pure ⟨.refl false c, by simp⟩
  refine meets_here (meets_advance (.refl false c) (by rw [hkind]; rfl) fun h hlt => ?_)
  refine (asks_eat _ rfl).discard_bind h fun c₁ h hle₁ => ?_
  have htype : MaybeReader false _ r.rounds _ :=
    maybeReader_optional (looks_check Symbol.colon).not.asks hr.expression.loosen
  refine htype.bind h (by omega) fun type c₂ h hle₂ => ?_
  have hend {name : Option Ident} {c₃ : Cursor} (h : c.Reads false (Node.ofExpr? type ++ Node.ofIdents name.toList) c₃)
      (hlt₃ : c₃.left < c.left) : Meets false c (finish c.current.span >>= fun span => block r inner >>= fun body =>
        pure (some ⟨span, type, name, body⟩)) c₃ fun o c' =>
          c.Reads false (o.toList.flatMap fun h => [.handler h]) c' ∧ (o.isSome → c'.left < c.left) := by
    refine meets_finish (((reader_block hr hinner hrounds c₃ (by omega)).within h).bind fun body c₄ ⟨hbody, hlt₄⟩ => ?_)
    refine meets_pure ⟨?_, fun _ => by omega⟩
    exact Cursor.Reads.headed (.refl false c) h hlt₃ (by rw [hkind]; rfl) hbody (.refl _) rfl rfl rfl nofun
  refine meets_ite (fun _ => ?_) fun _ => meets_pure_bind (hend ?_ (by omega))
  · refine (maybeReader_localName (inner.rounds + 1)).bind h (by omega) fun name c₃ h hle₃ => hend ?_ (by omega)
    simpa [Node.ofExpr?, Node.ofExprs, Node.ofIdents, ← map_eq_flatMap] using h
  · simpa [Node.ofExpr?, Node.ofExprs, Node.ofIdents, ← map_eq_flatMap] using h

theorem meets_tryStatement (hfirst : c.kind.isLayout = false) (hc : c.left < inner.rounds + 1) :
    Meets false c (tryStatement r inner) c (c.ReadsStmt false) := by
  have hblock := reader_block hr hinner hrounds
  refine meets_here (meets_advance (.refl false c) (Cursor.mayTake_of_not_layout hfirst) fun h hlt => ?_)
  refine hblock.bind h (by omega) fun body c₁ h hlt₁ => ?_
  have hhandler := maybeReader_handler hr hinner hrounds
  refine (readsAt_many hhandler (by omega) (by omega)).bind h fun handlers c₂ h hle₂ => ?_
  refine (readsAt_elseBlock hr hinner hrounds (by omega)).bind h fun orElse c₃ h hle₃ => ?_
  have hend {finalBody : List Stmt} {c₄ : Cursor}
      (h : c.Reads false (Node.belowStmt (.try default body handlers orElse finalBody)) c₄)
      (hlt₄ : c₄.left < c.left) : Meets false c (if (handlers.isEmpty && finalBody.isEmpty) = true then
        unexpected "'except' or 'finally'" else finish c.current.span >>= fun span =>
          pure (Stmt.try span body handlers orElse finalBody)) c₄ (c.ReadsStmt false) :=
    meets_ite (fun _ => meets_unexpected h) fun _ =>
      meets_stmt h hlt₄ hfirst (fun _ => rfl) (fun _ => rfl) (by simp [Node.targets]) fun _ => rfl
  refine meets_eat h rfl (fun c₄ _ h hlt₄ => ?_) fun _ => meets_pure_bind (hend ?_ (by omega))
  · refine hblock.bind h (by omega) fun finalBody c₅ h hlt₅ => hend ?_ (by omega)
    simpa [Node.belowStmt, Node.ofStmts, ← map_eq_flatMap] using h
  · simpa [Node.belowStmt, Node.ofStmts, ← map_eq_flatMap] using h

theorem meets_withStatement (hfirst : c.kind.isLayout = false) (hc : c.left < inner.rounds + 1) :
    Meets false c (withStatement r inner) c (c.ReadsStmt false) := by
  refine meets_here ((asks_eat _ rfl).bind (.refl false c) fun isAsync c₁ h hle₁ => ?_)
  refine meets_expect h rfl fun c₂ _ h hlt₂ => ?_
  have hbody (items : List WithItem) (c₃ : Cursor) (h : c.Reads false (items.map .withItem) c₃)
      (hle₃ : c₃.left ≤ c₂.left) :
      Meets false c (block r inner >>= fun body => finish c.current.span >>= fun span =>
        pure (Stmt.with span items body isAsync)) c₃ (c.ReadsStmt false) := by
    refine (reader_block hr hinner hrounds).bind h (by omega) fun body c₄ h hlt₄ => ?_
    exact meets_stmt h (by omega) hfirst (fun _ => rfl) (fun _ => rfl) (by simp [Node.targets]) fun _ => rfl
  refine meets_check (fun hkind => meets_get ?_) fun _ => meets_get ?_
  · generalize (true && opensItems 0 c₂.rest) = inParens
    cases inParens with
    | true =>
      refine meets_advance h (by rw [hkind]; rfl) fun h hlt₃ => ?_
      exact meets_withItems hr true h (by omega) fun items c₄ h hle₄ => hbody items c₄ h (by omega)
    | false => exact meets_withItems hr false h (by omega) hbody
  · exact meets_withItems hr false h (by omega) hbody

/-! ### Statements -/

theorem reader_statement : Reader false Node.ofStmts (inner.rounds + 1) (statement r inner) := by
  intro c hc
  have hone {rule : Rule Stmt} (hrule : Meets false c rule c (c.ReadsStmt false)) :
      Meets false c (rule >>= fun s => pure [s]) c fun ss c' => c.Reads false (Node.ofStmts ss) c' ∧ c'.left < c.left :=
    hrule.bind fun s c' hs => meets_pure hs
  have hsimple := reader_simpleStatements hr c (by omega)
  refine meets_peek ?_
  cases hkind : c.kind with
  | keyword word =>
    have hfirst : c.kind.isLayout = false := by rw [hkind]; rfl
    have hdef : Meets false c (functionDef r inner []) c (c.ReadsStmt false) :=
      meets_functionDef hr hinner hrounds (.refl false c) hfirst hc
    have hclass : Meets false c (classDef r inner []) c (c.ReadsStmt false) :=
      meets_classDef hr hinner hrounds (.refl false c) hfirst hc
    have hfor := meets_forStatement hr hinner hrounds hfirst hc
    have hwith := meets_withStatement hr hinner hrounds hfirst hc
    cases word with
    | defKw => exact hone hdef
    | classKw => exact hone hclass
    | asyncKw =>
      have hother : Meets false c (discard advance >>= fun _ => unexpected "'def', 'for' or 'with' after 'async'") c
          fun ss c' => c.Reads false (Node.ofStmts ss) c' ∧ c'.left < c.left :=
        meets_advance (.refl false c) (Cursor.mayTake_of_not_layout hfirst) fun h _ => meets_unexpected h
      refine meets_peekNext ?_
      cases hnext : c.nextKind with
      | keyword word =>
        cases word with
        | defKw => exact hone hdef
        | forKw => exact hone hfor
        | withKw => exact hone hwith
        | _ => exact hother
      | _ => exact hother
    | ifKw => exact hone (meets_ifStatement hr hinner hrounds hfirst hc)
    | whileKw => exact hone (meets_whileStatement hr hinner hrounds hfirst hc)
    | forKw => exact hone hfor
    | tryKw => exact hone (meets_tryStatement hr hinner hrounds hfirst hc)
    | withKw => exact hone hwith
    | _ => exact hsimple
  | symbol mark =>
    cases mark with
    | «at» => exact hone (meets_decorated hr hinner hrounds hc)
    | _ => exact hsimple
  | indent => exact meets_here (meets_fail (.refl false c) (by simp [Diagnostic.IsFault, Diagnostic.error]))
  | _ => exact hsimple

end

end

end TypeInfer.Grammar
