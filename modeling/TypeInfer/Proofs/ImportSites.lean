/-
Where imports may fail. In the tree of a text, no two problems with imports have the same code and
place, since each has a token of its own; and each is met in one block only
(`countP_marks_le_one`), since the imports met at a node are those below it (`Node.perm_imports`).
-/
import TypeInfer.Proofs.DistinctSpans
import TypeInfer.Proofs.Targets
import TypeInfer.Proofs.Unused

namespace TypeInfer

open List
open Token (words mem_words)

variable {ts : List Token} (code : String) {source : Source} {m : Module}

namespace Mark

variable {l : List Mark} {es : List Expr}

def isProblem : Mark → Bool
  | .problem _ _ => true
  | _ => false

/-- The problems among the marks. -/
def problems (l : List Mark) : List Mark := l.filter isProblem

@[simp] theorem problems_append (l l' : List Mark) : problems (l ++ l') = problems l ++ problems l' := filter_append ..

@[simp] theorem problems_nil : problems [] = [] := rfl

@[simp] theorem flatMap_none {α : Type} (as : List α) : (as.flatMap fun _ => ([] : List Mark)) = [] := by simp

theorem problems_flatMap {α : Type} (as : List α) (f : α → List Mark) :
    problems (as.flatMap f) = as.flatMap fun a => problems (f a) := filter_flatMap ..

theorem problems_eq_nil_iff : problems l = [] ↔ ∀ m ∈ l, m.isProblem = false := by
  simp [problems, filter_eq_nil_iff]

theorem AllOf.problems_eq_nil (h : AllOf Code.assignable l) : problems l = [] := by
  refine problems_eq_nil_iff.2 fun m hm => ?_
  cases m with
  | problem code span => exact absurd Code.assignsRightly_assignable (h _ hm)
  | _ => rfl

theorem problems_ofExprs (h : ∀ e ∈ es, problems (ofExpr e) = []) : problems (ofExprs es) = [] := by
  simp only [problems_eq_nil_iff, mem_ofExprs] at h ⊢
  rintro m ⟨e, he, hm⟩
  exact h e he m hm

theorem problems_ofExpr? {e} (h : ∀ x ∈ e, problems (ofExpr x) = []) :
    problems (ofExpr? e) = [] := by
  simp_all [problems_eq_nil_iff]

theorem problems_ofTargets (h : ∀ e ∈ es, problems (ofTarget e) = []) :
    problems (ofTargets es) = [] := by
  simp only [problems_eq_nil_iff, mem_ofTargets] at h ⊢
  rintro m ⟨e, he, hm⟩
  exact h e he m hm

theorem problems_withItems {items : List WithItem} (h : ∀ i ∈ items, problems (ofWithItem i) = []) :
    problems (items.flatMap ofWithItem) = [] := by
  rw [problems_flatMap]
  exact flatMap_eq_nil_iff.2 h

theorem problems_ofBlock (body : List Stmt) : problems (ofBlock body) = (Node.ofStmts body).flatMap fun c => problems (ofNode c) := by
  induction body with
  | nil => rfl
  | cons st body ih => exact (problems_append ..).trans (congrArg (problems (ofStmt st) ++ ·) ih)

theorem problems_ofHandlers (handlers : List ExceptHandler) :
    problems (ofHandlers handlers) = (handlers.map Node.handler).flatMap fun c => problems (ofNode c) := by
  induction handlers with
  | nil => rfl
  | cons k handlers ih =>
    rw [map_cons, flatMap_cons, ← ih]
    cases k
    simp [ofNode, ofHandlers]

theorem problems_aliases (aliases : List Alias) :
    problems (aliases.map ofAlias) = (aliases.map Node.imported).flatMap fun c => problems (ofNode c) := by
  induction aliases with
  | nil => rfl
  | cons a aliases ih => exact congrArg (ofAlias a :: ·) ih

theorem problems_ofNode {n : Node} (h : Code.assignable.Has n) (himport : n.isImport = false) :
    problems (ofNode n) ++ problems (inBody n) = n.children.flatMap fun c => problems (ofNode c) := by
  have hbelow : ∀ c ∈ n.children, problems (ofEval c) = [] := fun c hc => (allOf_eval (Code.assignable.child h hc)).problems_eq_nil
  have htargets : ∀ e ∈ n.targets, problems (ofTarget e) = [] := fun e he => (allOf_target (Code.assignable.target h he)).problems_eq_nil
  have hexpr : ∀ e, ofNode (.expr e) = [] := fun _ => rfl
  have hident : ∀ i, ofNode (.ident i) = [] := fun _ => rfl
  have hitem : ∀ i, ofNode (.withItem i) = [] := fun _ => rfl
  have hkeyword : ∀ k, ofNode (.keyword k) = [] := fun _ => rfl
  have hparam : ∀ p, ofNode (.param p) = [] := fun _ => rfl
  have hfunction : ∀ d, ofNode (.function d) = [] := fun _ => rfl
  cases n with
  | stmt st =>
    rw [ofNode]
    cases st with
    | annAssign span target annotation value =>
      cases value <;>
        simp_all [ofStmt, inBody, Node.children, Node.belowStmt, Node.ofExprs, Node.ofExpr?, Node.targets, ofEval]
    | classDef d => exact (append_nil _).trans (append_nil _).symm
    | importFrom span module level taken => cases himport
    | importModules span aliases =>
      rw [ofStmt, problems_aliases]
      exact append_nil _
    | _ =>
      simp_all [ofStmt, inBody, Node.children, Node.belowStmt, Node.ofExprs, Node.ofExpr?, Node.ofIdents, Node.targets,
        problems_ofBlock, problems_ofHandlers, problems_ofExprs, problems_ofExpr?, problems_ofTargets, problems_withItems,
        flatMap_map, ofEval, or_imp, forall_and]
  | cls d =>
    cases d
    rw [ofNode, ofStmt]
    simp_all [inBody, Node.children, Node.ofExprs, problems_ofExprs, flatMap_map, ofEval, or_imp, forall_and]
    exact problems_ofBlock _
  | handler k =>
    cases k
    rw [ofNode]
    simp_all [inBody, Node.children, Node.ofExprs, Node.ofExpr?, Node.ofIdents, problems_ofBlock, problems_ofExpr?,
      flatMap_map, ofEval, or_imp, forall_and]
  | function d =>
    cases d
    simp_all [inBody, Node.children, Node.ofExprs, Node.ofExpr?, problems_ofBlock, flatMap_map]
  | imported a => cases himport
  | names taken => cases himport
  | expr e => cases e <;> simp [ofNode, inBody, Node.children, Node.belowExpr, Node.ofClauses, Node.ofExprs, Node.ofExpr?, flatMap_map]
  | _ a => cases a <;> simp [ofNode, inBody, Node.children, Node.ofExprs, Node.ofExpr?, flatMap_map]

theorem problems_ofMembers (taken : ImportNames) : problems (ofMembers taken) = ofMembers taken := by
  refine filter_eq_self.2 fun m hm => ?_
  obtain ⟨span, rfl⟩ := exists_of_mem_ofMembers hm
  rfl

end Mark

namespace Node

/-! ### Imports of a tree -/

/-- The problems of the imports in a tree. What an import takes has its problems from there. -/
def imports (n : Node) : List Mark :=
  if n.isImport then Mark.ofNode n else n.children.attach.flatMap fun c => imports c.1
termination_by sizeOf n
decreasing_by exact sizeOf_lt_of_mem_children c.2

theorem imports_eq (n : Node) : n.imports = if n.isImport then Mark.ofNode n else n.children.flatMap imports := by
  rw [imports]
  simp [flatMap_subtype]

theorem problems_of_isImport {n} (h : n.isImport) :
    Mark.problems (Mark.ofNode n) = Mark.ofNode n ∧ n.tree.flatMap Mark.inBody = [] := by
  have hidents : ∀ is : List Ident, (ofIdents is).flatMap (fun c => c.tree.flatMap Mark.inBody) = [] := by
    intro is
    simp [ofIdents, flatMap_map, tree_eq, children, Mark.inBody]
  have himported : ∀ a, (Node.imported a).tree.flatMap Mark.inBody = [] := by
    intro a
    rw [tree_eq, flatMap_cons, flatMap_assoc, children, hidents]
    rfl
  have hnames : ∀ taken, (Node.names taken).tree.flatMap Mark.inBody = [] := by
    intro taken
    rw [tree_eq, flatMap_cons, flatMap_assoc]
    cases taken with
    | star span => rfl
    | names aliases => simp [children, flatMap_map, himported, Mark.inBody]
  cases n with
  | stmt st =>
    cases st with
    | importFrom span module level taken =>
      refine ⟨congrArg (Mark.problem Diagnostic.Code.moduleNotFound span :: ·) (Mark.problems_ofMembers taken), ?_⟩
      rw [tree_eq, flatMap_cons, flatMap_assoc]
      simp [children, belowStmt, hidents, hnames, Mark.inBody]
    | _ => cases h
  | imported a => exact ⟨rfl, himported a⟩
  | names taken => exact ⟨rfl, hnames taken⟩
  | _ => cases h

/-- The problems met at a node and in the bodies below it are those of the imports below it. -/
theorem perm_imports {n} (h : Code.assignable.Has n) :
    (Mark.problems (Mark.ofNode n) ++ Mark.problems (n.tree.flatMap Mark.inBody)).Perm n.imports := by
  induction n using Node.induction with
  | step n ih =>
    rw [imports_eq]
    cases himport : n.isImport with
    | true =>
      obtain ⟨hhere, hbodies⟩ := problems_of_isImport himport
      rw [hhere, hbodies]
      simp [Mark.problems]
    | false =>
      have hhere := Mark.problems_ofNode h himport
      have hbelow : Mark.problems (n.tree.flatMap Mark.inBody) =
          Mark.problems (Mark.inBody n) ++ n.children.flatMap fun c => Mark.problems (c.tree.flatMap Mark.inBody) := by
        rw [tree_eq, flatMap_cons, flatMap_assoc, Mark.problems_append, Mark.problems_flatMap]
      rw [hbelow, ← append_assoc, hhere]
      refine (flatMap_append_perm ..).trans (List.Perm.flatMap_left _ fun c hc => ?_)
      exact ih c hc (Code.assignable.child h hc)

/-! ### Imports by where they start -/

end Node

/-- Where a problem with the given code may be found. -/
def Mark.problemAt? (code : String) : Mark → Option Span
  | .problem code' span => if code' = code then some span else none
  | _ => none

namespace Node

variable (code : String)

/-- Where the problems with the given code start. -/
def importStarts (code : String) (n : Node) : List Nat := (n.imports.filterMap (Mark.problemAt? code)).map Span.start

theorem importStarts_eq {n : Node} (h : n.isImport = false) :
    n.importStarts code = n.children.flatMap (importStarts code) := by
  rw [importStarts, imports_eq, h, if_neg Bool.false_ne_true, filterMap_flatMap, map_flatMap]
  rfl

theorem nameStarts_imported (a : Alias) :
    (Node.imported a).nameStarts = (a.name ++ a.asName.toList).map fun i => i.span.start := by
  have hident : ∀ i : Ident, (Node.ident i).nameStarts = [i.span.start] := fun i => by
    simp [nameStarts_eq, name?, children]
  rw [nameStarts_eq, children, ofIdents, flatMap_map, map_eq_flatMap]
  simp [hident, name?]

theorem members_sublist (taken : ImportNames) :
    (((Mark.ofMembers taken).filterMap (Mark.problemAt? code)).map Span.start).Sublist (Node.names taken).nameStarts := by
  have halias : ∀ a : Alias, (((Mark.ofMember a).filterMap (Mark.problemAt? code)).map Span.start).Sublist
      (Node.imported a).nameStarts := by
    intro a
    rw [nameStarts_imported, Mark.ofMember]
    cases hname : a.name with
    | nil => exact nil_sublist _
    | cons i rest =>
      by_cases hcode : Diagnostic.Code.importedNameNotFound = code
      · simp [Mark.problemAt?, hcode]
      · simp [Mark.problemAt?, hcode]
  rw [nameStarts_eq]
  cases taken with
  | star span => exact nil_sublist _
  | names aliases =>
    simp only [Mark.ofMembers, children, name?, Option.map_none, Option.toList_none, nil_append]
    induction aliases with
    | nil => exact nil_sublist _
    | cons a aliases ih =>
      rw [flatMap_cons, filterMap_append, map_append, map_cons, flatMap_cons]
      exact (halias a).append ih

end Node

theorem Node.FitsTokens.subperm_importStarts {n : Node} (h : n.FitsTokens ts)
    (below : Derives ts n.children) (himport : n.isImport) (hordered : Ascending ts) :
    (n.importStarts code).Subperm ((words ts).map fun t => t.span.start) := by
  rw [importStarts, imports_eq, if_pos himport]
  cases n with
  | stmt st =>
    cases st with
    | importFrom span module level taken =>
      by_cases hcode : Diagnostic.Code.moduleNotFound = code
      · -- only the statement has this code, not what it takes
        have hnone : (Mark.ofMembers taken).filterMap (Mark.problemAt? code) = [] := by
          refine filterMap_eq_nil_iff.2 fun m hm => ?_
          obtain ⟨member, rfl⟩ := Mark.exists_of_mem_ofMembers hm
          rw [← hcode]
          rfl
        have hstart := h.singleton_subperm (s := span) rfl rfl hordered
        simpa [Mark.ofNode, Mark.ofStmt, Mark.problemAt?, hcode, hnone] using hstart
      · have hmembers : (((Mark.ofMembers taken).filterMap (Mark.problemAt? code)).map Span.start).Sublist
            ((belowStmt (.importFrom span module level taken)).flatMap nameStarts) := by
          refine (members_sublist code taken).trans ?_
          simp [belowStmt]
        have hnames := hmembers.subperm.trans (below.subperm_nameStarts hordered)
        simpa [Mark.ofNode, Mark.ofStmt, Mark.problemAt?, hcode] using hnames
    | _ => cases himport
  | imported a =>
    by_cases hcode : Diagnostic.Code.moduleNotFound = code
    · have hstart := h.singleton_subperm (s := a.span) rfl rfl hordered
      simpa [Mark.ofNode, Mark.ofAlias, Mark.problemAt?, hcode] using hstart
    · simp [Mark.ofNode, Mark.ofAlias, Mark.problemAt?, hcode]
  | names taken => exact nil_subperm
  | _ => cases himport

/-- Every problem with an import has a token of its own, and starts there. -/
theorem Derives.subperm_importStarts {ns : List Node} (h : Derives ts ns) (hordered : Ascending ts) :
    (ns.flatMap (Node.importStarts code)).Subperm ((words ts).map fun t => t.span.start) := by
  refine h.subperm_starts (fun n ts below fits hts hbelow => ?_) hordered
  cases himport : n.isImport with
  | true => exact fits.subperm_importStarts code below himport hts
  | false => rwa [Node.importStarts_eq code himport]

/-! ### Blocks of a tree -/

namespace Node

/-- Problems of imports are that a module or a member is not found, at a node of the tree. -/
theorem exists_of_mem_imports {n : Node} {mark : Mark} (h : mark ∈ n.imports) :
    ∃ code span, mark = .problem code span ∧
      (code = Diagnostic.Code.moduleNotFound ∨ code = Diagnostic.Code.importedNameNotFound) ∧
      ∃ k ∈ n.tree, k.span? = some span := by
  induction n using Node.induction with
  | step n ih =>
    rw [imports_eq] at h
    cases himport : n.isImport with
    | false =>
      rw [himport, if_neg Bool.false_ne_true] at h
      obtain ⟨c, hc, h⟩ := mem_flatMap.1 h
      obtain ⟨code, span, hmark, hcode, k', hk', hspan⟩ := ih c hc h
      exact ⟨code, span, hmark, hcode, k', mem_tree.2 (.inr ⟨c, hc, hk'⟩), hspan⟩
    | true =>
      rw [himport, if_pos rfl] at h
      cases n with
      | stmt st =>
        cases st with
        | importFrom span module level taken =>
          rcases mem_cons.1 h with rfl | h
          · exact ⟨_, _, rfl, .inl rfl, _, mem_tree_self _, rfl⟩
          · cases taken with
            | star span => cases h
            | names aliases =>
              obtain ⟨a, ha, h⟩ := mem_flatMap.1 h
              simp only [Mark.ofMember, Option.mem_toList, Option.map_eq_some_iff] at h
              obtain ⟨name, hname, rfl⟩ := h
              refine ⟨_, _, rfl, .inr rfl, .ident name, ?_, rfl⟩
              have hident : Node.ident name ∈ (Node.imported a).children := by
                simp [children, ofIdents, mem_of_mem_head? hname]
              have himported : Node.imported a ∈ (Node.names (.names aliases)).children := mem_map_of_mem ha
              have hnames : Node.names (.names aliases) ∈ (Node.stmt (.importFrom span module level (.names aliases))).tree :=
                mem_tree.2 (.inr ⟨_, by simp [children, belowStmt], mem_tree_self _⟩)
              exact mem_tree_of_child (mem_tree_of_child hnames himported) hident
        | _ => cases himport
      | imported a =>
        obtain rfl := mem_singleton.1 h
        exact ⟨_, _, rfl, .inl rfl, _, mem_tree_self _, rfl⟩
      | names taken => cases h
      | _ => cases himport

/-- The function that the node is. -/
def function? : Node → Option FunctionDef
  | .function d => some d
  | _ => none

end Node

namespace Module

/-- The functions in a file, each as often as it occurs. -/
def functions (m : Module) : List FunctionDef := m.nodes.filterMap Node.function?

/-- What is met in the code of a file and in the bodies of its functions. -/
def marks (m : Module) : List Mark := Mark.ofBlock m.body ++ m.functions.flatMap fun d => Mark.ofBlock d.body

theorem marks_eq (m : Module) : m.marks = Mark.ofBlock m.body ++ m.nodes.flatMap Mark.inBody := by
  have hbody : ∀ n : Node, n.function?.toList.flatMap (fun d => Mark.ofBlock d.body) = Mark.inBody n := by
    intro n
    cases n <;> simp [Node.function?, Mark.inBody]
  rw [marks, functions, filterMap_eq_flatMap_toList, flatMap_assoc]
  simp only [hbody]

theorem perm_problems {source m} (h : parse source = .ok m) :
    (Mark.problems m.marks).Perm ((Node.ofStmts m.body).flatMap Node.imports) := by
  have hcode : ∀ n ∈ Node.ofStmts m.body, Code.assignable.Has n := by
    intro n hn
    obtain ⟨st, hst, rfl⟩ := mem_map.1 hn
    exact hasBlock_of_parse h st hst
  rw [marks_eq, Mark.problems_append, Mark.problems_ofBlock, nodes, flatMap_assoc, Mark.problems_flatMap]
  exact (flatMap_append_perm ..).trans (List.Perm.flatMap_left _ fun n hn => Node.perm_imports (hcode n hn))

end Module

/-- A problem with the given code may be found at the place. -/
def Mark.isAt (code : String) (span : Span) : Mark → Bool
  | .problem code' span' => code' == code && span'.same span
  | _ => false

theorem problem_of_mem_marks (h : parse source = .ok m) {code : String} {span : Span}
    (hmark : .problem code span ∈ m.marks) :
    (code = Diagnostic.Code.moduleNotFound ∨ code = Diagnostic.Code.importedNameNotFound) ∧ span.file = source.path := by
  have hproblem : Mark.problem code span ∈ Mark.problems m.marks := mem_filter.2 ⟨hmark, rfl⟩
  obtain ⟨n, hn, hmark⟩ := mem_flatMap.1 ((Module.perm_problems h).mem_iff.1 hproblem)
  obtain ⟨st, hst, rfl⟩ := mem_map.1 hn
  obtain ⟨code', span', heq, hcode, k, hk, hspan⟩ := Node.exists_of_mem_imports hmark
  obtain ⟨rfl, rfl⟩ := Mark.problem.inj heq
  obtain ⟨-, ⟨tokens, -, -, hspans⟩, -⟩ := node_spans_of_parse h
  obtain ⟨first, -, last, -, -, hfile, -⟩ := hspans st hst k hk span hspan
  exact ⟨hcode, (congrArg Span.file hfile).trans rfl⟩

theorem countP_marks_le_one (h : parse source = .ok m) (code : String) (span : Span) :
    m.marks.countP (Mark.isAt code span) ≤ 1 := by
  obtain ⟨tokens, ts, rest, htokens, rfl, hderives, -⟩ := Grammar.derives_of_parse h
  have hordered := (ascending_of_tokenize htokens).of_append.1
  have hnodup : ((Node.ofStmts m.body).flatMap (Node.importStarts code)).Nodup := by
    obtain ⟨l, hperm, hsub⟩ := hderives.subperm_importStarts code hordered
    rw [← hperm.nodup_iff]
    refine List.Nodup.sublist hsub ?_
    rw [List.Nodup, pairwise_map]
    exact hordered.imp fun hlt => Nat.ne_of_lt hlt
  have hproblems : m.marks.countP (Mark.isAt code span) = (Mark.problems m.marks).countP (Mark.isAt code span) := by
    rw [Mark.problems, countP_filter]
    refine countP_congr fun mark _ => ?_
    cases mark <;> simp [Mark.isAt, Mark.isProblem]
  have hstarts : (Node.ofStmts m.body).flatMap (Node.importStarts code) =
      (((Node.ofStmts m.body).flatMap Node.imports).filterMap (Mark.problemAt? code)).map Span.start := by
    rw [filterMap_flatMap, map_flatMap]
    rfl
  rw [hproblems, (Module.perm_problems h).countP_eq]
  rw [hstarts] at hnodup
  refine Nat.le_trans ?_ (nodup_iff_count_le_one.1 hnodup span.start)
  rw [List.count, countP_map, countP_filterMap]
  refine countP_mono_left fun mark _ hat => ?_
  cases mark with
  | problem code' span' =>
    simp only [Mark.isAt, Bool.and_eq_true, beq_iff_eq] at hat
    have hstart : span'.start = span.start := by
      have hplace := Span.same_iff.1 hat.2
      exact congrArg (·.2.1) hplace
    simp [Mark.problemAt?, hat.1, hstart]
  | _ => cases hat

end TypeInfer
