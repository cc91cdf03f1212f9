/-
What the interpreter meets in a piece of code: names to look up, functions and classes to define,
and places at which a problem may be found, in the order of the evaluation. The bodies of
functions are left out: they are run where a function is applied, not where it is defined.
-/
import TypeInfer.Diagnostic
import TypeInfer.Proofs.Node

namespace TypeInfer

open List

/-- What is met in the code. -/
inductive Mark where
  /-- A name that is looked up. -/
  | read (site : Span) (name : String)
  /-- A function that is defined. -/
  | define (d : FunctionDef)
  /-- A class that is defined. -/
  | cls (d : ClassDef)
  /-- A place at which a problem may be found. -/
  | problem (code : String) (span : Span)

theorem Expr.allAssignable_eq (es : List Expr) : allAssignable es = es.all isAssignable := by
  induction es with
  | nil => rfl
  | cons e es ih => rw [allAssignable, ih, all_cons]

namespace Mark

mutual

/-- What is met when an expression is evaluated. -/
def ofExpr : Expr → List Mark
  | .name site id => [.read site id]
  | .int _ _ | .float _ _ | .imaginary _ _ | .str _ _ | .bytes _ _ | .bool _ _ | .none _ | .ellipsis _ => []
  | .attribute _ value _ => ofExpr value
  | .subscript _ value index => ofExpr value ++ ofExpr index
  | .slice _ lower upper step => ofExpr? lower ++ (ofExpr? upper ++ ofExpr? step)
  | .call _ func args => ofExpr func ++ ofArgs args
  | .binary _ left _ right => ofExpr left ++ ofExpr right
  | .unary _ _ value | .yieldFrom _ value | .await _ value | .starred _ value | .named _ _ value => ofExpr value
  | .boolean _ _ elts | .list _ elts | .tuple _ elts | .set _ elts => ofExprs elts
  | .compare _ left _ comparators => ofExpr left ++ ofExprs comparators
  | .conditional _ test body orElse => ofExpr test ++ (ofExpr body ++ ofExpr orElse)
  | .lambda _ d => ofDefinition d
  | .dict _ items => ofItems items
  | .listComp _ elt clauses | .setComp _ elt clauses | .generator _ elt clauses => ofClauses clauses ++ ofExpr elt
  | .dictComp _ key value clauses => ofClauses clauses ++ (ofExpr key ++ ofExpr value)
  | .yield _ value => ofExpr? value

def ofExpr? : Option Expr → List Mark
  | none => []
  | some e => ofExpr e

def ofExprs : List Expr → List Mark
  | [] => []
  | e :: es => ofExpr e ++ ofExprs es

def ofArgs : List Arg → List Mark
  | [] => []
  | .positional value :: more | .keyword _ value :: more | .star value :: more | .doubleStar value :: more =>
    ofExpr value ++ ofArgs more

def ofItems : List DictItem → List Mark
  | [] => []
  | ⟨key, value⟩ :: more => ofExpr? key ++ (ofExpr value ++ ofItems more)

def ofClauses : List Comprehension → List Mark
  | [] => []
  | ⟨target, iter, conditions, _⟩ :: more => ofExpr iter ++ (ofTarget target ++ (ofExprs conditions ++ ofClauses more))

def ofParams : List Param → List Mark
  | [] => []
  | ⟨_, _, default, annotation⟩ :: more => ofExpr? annotation ++ (ofExpr? default ++ ofParams more)

/-- What is met when a function is defined. -/
def ofDefinition : FunctionDef → List Mark
  | ⟨span, name, params, body, decorators, returns, isAsync⟩ =>
    ofExprs decorators ++ (ofParams params ++ (ofExpr? returns ++
      [.define ⟨span, name, params, body, decorators, returns, isAsync⟩]))

/-- What is met when an expression is assigned to. -/
def ofTarget : Expr → List Mark
  | .name _ _ => []
  | .tuple _ elts | .list _ elts => ofTargets elts
  | .starred _ value => ofTarget value
  | .attribute _ value _ => ofExpr value
  | .subscript _ value index => ofExpr value ++ ofExpr index
  | target => [.problem Diagnostic.Code.malformedNode target.span]

def ofTargets : List Expr → List Mark
  | [] => []
  | target :: more => ofTarget target ++ ofTargets more

end

/-- What is met when a module is imported. -/
def ofAlias (a : Alias) : Mark := .problem Diagnostic.Code.moduleNotFound a.span

/-- What is met when a member of a module is imported. -/
def ofMember (a : Alias) : List Mark :=
  (a.name.head?.map fun name => .problem Diagnostic.Code.importedNameNotFound name.span).toList

def ofMembers : ImportNames → List Mark
  | .star _ => []
  | .names aliases => aliases.flatMap ofMember

def ofWithItem (item : WithItem) : List Mark := ofExpr item.context ++ (item.target.map ofTarget).getD []

mutual

/-- What is met when a statement is executed. -/
def ofStmt : Stmt → List Mark
  | .pass _ | .break _ | .continue _ | .global _ _ | .nonlocal _ _ => []
  | .expr _ value => ofExpr value
  | .assign _ targets value => ofExpr value ++ ofTargets targets
  | .augAssign _ target _ value => ofExpr target ++ (ofExpr value ++ ofTarget target)
  | .annAssign _ _ annotation none => ofExpr annotation
  | .annAssign _ target annotation (some value) => ofExpr annotation ++ (ofExpr value ++ ofTarget target)
  | .return _ value => ofExpr? value
  | .cond _ test body orElse | .while _ test body orElse => ofExpr test ++ (ofBlock body ++ ofBlock orElse)
  | .for _ target iter body orElse _ => ofExpr iter ++ (ofTarget target ++ (ofBlock body ++ ofBlock orElse))
  | .function d => ofDefinition d
  | .classDef ⟨span, name, bases, keywords, body, decorators⟩ =>
    ofExprs decorators ++ (ofExprs bases ++ (ofExprs (keywords.map ClassKeyword.value) ++
      .cls ⟨span, name, bases, keywords, body, decorators⟩ :: ofBlock body))
  | .importModules _ names => names.map ofAlias
  | .importFrom span _ _ names => .problem Diagnostic.Code.moduleNotFound span :: ofMembers names
  | .try _ body handlers orElse finalBody =>
    ofBlock body ++ (ofHandlers handlers ++ (ofBlock orElse ++ ofBlock finalBody))
  | .with _ items body _ => items.flatMap ofWithItem ++ ofBlock body
  | .raise _ exception cause => ofExpr? exception ++ ofExpr? cause
  | .assert _ test message => ofExpr test ++ ofExpr? message
  | .delete _ targets => ofExprs targets

def ofBlock : List Stmt → List Mark
  | [] => []
  | st :: more => ofStmt st ++ ofBlock more

def ofHandlers : List ExceptHandler → List Mark
  | [] => []
  | ⟨_, type, _, body⟩ :: more => ofExpr? type ++ (ofBlock body ++ ofHandlers more)

end

/-! ### Marks of the code -/

variable {code : Code}

/-- What the mark of an expression names is in the code. -/
def OfExpr (code : Code) : Mark → Prop
  | .read site name => code.Has (.expr (.name site name))
  | .define d => code.Has (.function d)
  | .cls d => code.Has (.cls d)
  | .problem _ _ => ¬ code.AssignsRightly

def AllOf (code : Code) (l : List Mark) : Prop := ∀ m ∈ l, m.OfExpr code

def ofArg : Arg → List Mark
  | .positional value | .keyword _ value | .star value | .doubleStar value => ofExpr value

def ofItem (i : DictItem) : List Mark := ofExpr? i.key ++ ofExpr i.value

def ofClause (k : Comprehension) : List Mark := ofExpr k.iter ++ (ofTarget k.target ++ ofExprs k.conditions)

def ofParam (p : Param) : List Mark := ofExpr? p.annotation ++ ofExpr? p.default

/-- What is met when the node is evaluated where it stands. -/
def ofEval : Node → List Mark
  | .expr e => ofExpr e
  | .arg a => ofArg a
  | .item i => ofItem i
  | .clause k => ofClause k
  | .param p => ofParam p
  | .function d => ofDefinition d
  | .keyword k => ofExpr k.value
  | .withItem item => ofWithItem item
  | _ => []

section
variable {m : Mark} {es : List Expr}

@[simp] theorem mem_ofExprs : m ∈ ofExprs es ↔ ∃ e ∈ es, m ∈ ofExpr e := by
  induction es with
  | nil => simp [ofExprs]
  | cons e es ih => simp [ofExprs, ih]

@[simp] theorem mem_ofExpr? {e} : m ∈ ofExpr? e ↔ ∃ x ∈ e, m ∈ ofExpr x := by
  cases e <;> simp [ofExpr?]

@[simp] theorem mem_ofArgs {args} : m ∈ ofArgs args ↔ ∃ a ∈ args, m ∈ ofArg a := by
  induction args with
  | nil => simp [ofArgs]
  | cons a args ih => cases a <;> simp [ofArgs, ofArg, ih]

@[simp] theorem mem_ofItems {items} : m ∈ ofItems items ↔ ∃ i ∈ items, m ∈ ofItem i := by
  induction items with
  | nil => simp [ofItems]
  | cons i items ih => cases i; simp [ofItems, ofItem, ih, or_assoc]

@[simp] theorem mem_ofClauses {clauses} :
    m ∈ ofClauses clauses ↔ ∃ k ∈ clauses, m ∈ ofClause k := by
  induction clauses with
  | nil => simp [ofClauses]
  | cons k clauses ih => cases k; simp [ofClauses, ofClause, ih, or_assoc]

@[simp] theorem mem_ofParams {params} : m ∈ ofParams params ↔ ∃ p ∈ params, m ∈ ofParam p := by
  induction params with
  | nil => simp [ofParams]
  | cons p params ih => cases p; simp [ofParams, ofParam, ih, or_assoc]

@[simp] theorem mem_ofTargets : m ∈ ofTargets es ↔ ∃ e ∈ es, m ∈ ofTarget e := by
  induction es with
  | nil => simp [ofTargets]
  | cons e es ih => simp [ofTargets, ih]

theorem mem_ofEval {n} (h : m ∈ ofEval n) :
    (∃ c ∈ n.children, m ∈ ofEval c) ∨ (∃ e ∈ n.targets, m ∈ ofTarget e) ∨
    (∃ site name, n = .expr (.name site name) ∧ m = .read site name) ∨ ∃ d, n = .function d ∧ m = .define d := by
  cases n with
  | expr e =>
    cases e <;> simp_all [ofEval, ofExpr, Node.children, Node.belowExpr, Node.ofExprs, Node.ofExpr?, Node.ofClauses, Node.targets] <;> grind
  | arg a => cases a <;> simp_all [ofEval, ofArg, Node.children]
  | function d => cases d; simp_all [ofEval, ofDefinition, Node.children, Node.ofExprs, Node.ofExpr?, Node.ofStmts]; grind
  | withItem i =>
    obtain ⟨context, target⟩ := i
    cases target <;> simp_all [ofEval, ofWithItem, Node.children, Node.targets, Node.ofExprs, Node.ofExpr?] <;> grind
  | ident i => simp [ofEval] at h
  | stmt st => simp [ofEval] at h
  | _ a =>
    cases a <;> simp_all [ofEval, ofItem, ofClause, ofParam, Node.children, Node.targets, Node.ofExprs, Node.ofExpr?] <;> grind

theorem mem_ofTarget {e} (h : m ∈ ofTarget e) : m ∈ ofExpr e ∨
    (∃ span, m = .problem Diagnostic.Code.malformedNode span) ∧ e.isAssignable = false := by
  induction hk : sizeOf e using Nat.strongRecOn generalizing e with
  | ind k ih =>
    have hlist : ∀ {es : List Expr}, sizeOf es < k → m ∈ ofTargets es → m ∈ ofExprs es ∨
        (∃ span, m = .problem Diagnostic.Code.malformedNode span) ∧ Expr.allAssignable es = false := by
      intro es hes hm
      obtain ⟨e, he, hm⟩ := mem_ofTargets.1 hm
      rcases ih _ (Nat.lt_trans (sizeOf_lt_of_mem he) hes) hm rfl with hm | ⟨hm, hbad⟩
      · exact .inl (mem_ofExprs.2 ⟨e, he, hm⟩)
      · exact .inr ⟨hm, by simpa [Expr.allAssignable_eq] using ⟨e, he, hbad⟩⟩
    cases e with
    | tuple span elts => exact hlist (by rw [← hk, Expr.tuple.sizeOf_spec]; omega) h
    | list span elts => exact hlist (by rw [← hk, Expr.list.sizeOf_spec]; omega) h
    | starred span value => exact ih (sizeOf value) (by rw [← hk, Expr.starred.sizeOf_spec]; omega) (e := value) h rfl
    | _ => simp_all [ofTarget, ofExpr, Expr.isAssignable]

end

/-- The marks of what the code evaluates are in the code. -/
theorem allOf_eval {n} (h : code.Has n) : AllOf code (ofEval n) := by
  induction n using Node.induction with
  | step n ih =>
    have hbelow : ∀ c ∈ n.children, AllOf code (ofEval c) := fun c hc => ih c hc (code.child h hc)
    intro m hm
    rcases mem_ofEval hm with ⟨c, hc, hm⟩ | ⟨e, he, hm⟩ | ⟨site, name, rfl, rfl⟩ | ⟨d, rfl, rfl⟩
    · exact hbelow c hc m hm
    · rcases mem_ofTarget hm with hm | ⟨⟨span, rfl⟩, hbad⟩
      · exact hbelow _ (Node.expr_mem_children he) m hm
      · exact fun hcode => Bool.false_ne_true (hbad.symm.trans (hcode n h e he))
    · exact h
    · exact h

theorem allOf_target {e} (h : code.HasTarget e) : AllOf code (ofTarget e) := by
  intro m hm
  rcases mem_ofTarget hm with hm | ⟨⟨span, rfl⟩, hbad⟩
  · exact allOf_eval h.1 m hm
  · exact fun hcode => Bool.false_ne_true (hbad.symm.trans (h.2 hcode))

/-- What the mark names is in the code. Where assignments are right, it is no malformed one. -/
def In (code : Code) : Mark → Prop
  | .read site name => code.Has (.expr (.name site name))
  | .define d => code.Has (.function d)
  | .cls d => code.Has (.cls d)
  | .problem error _ => code.AssignsRightly → error ≠ Diagnostic.Code.malformedNode

def AllIn (code : Code) (l : List Mark) : Prop := ∀ m ∈ l, m.In code

theorem AllOf.allIn {l} (h : AllOf code l) : AllIn code l := by
  intro m hm
  cases m with
  | read site name => exact h _ hm
  | define d => exact h _ hm
  | cls d => exact h _ hm
  | problem error span => exact fun hcode => absurd hcode (h _ hm)

@[simp] theorem allIn_nil : AllIn code [] := forall_mem_nil _

@[simp] theorem allIn_append {l l'} : AllIn code (l ++ l') ↔ AllIn code l ∧ AllIn code l' :=
  forall_mem_append

/-- Where a member is imported, it may not be found. -/
theorem exists_of_mem_ofMembers {taken m} (h : m ∈ ofMembers taken) :
    ∃ span, m = .problem Diagnostic.Code.importedNameNotFound span := by
  cases taken with
  | star span => cases h
  | names aliases =>
    obtain ⟨a, -, hm⟩ := mem_flatMap.1 h
    simp only [ofMember, Option.mem_toList, Option.map_eq_some_iff] at hm
    obtain ⟨name, -, rfl⟩ := hm
    exact ⟨_, rfl⟩

/-! ### Marks of nodes -/

end Mark

/-- Whether the node is an import, or what one takes. -/
def Node.isImport : Node → Bool
  | .imported _ | .names _ | .stmt (.importFrom _ _ _ _) => true
  | _ => false

namespace Mark

/-- What is met when the node is run where it stands. Expressions count where they are used. -/
def ofNode : Node → List Mark
  | .stmt st => ofStmt st
  | .cls d => ofStmt (.classDef d)
  | .handler ⟨_, type, _, body⟩ => ofExpr? type ++ ofBlock body
  | .imported a => [ofAlias a]
  | _ => []

/-- What is met when the node, a function, is applied. -/
def inBody : Node → List Mark
  | .function d => ofBlock d.body
  | _ => []

section
variable {m : Mark}

@[simp] theorem mem_ofBlock {body} : m ∈ ofBlock body ↔ ∃ st ∈ body, m ∈ ofNode (.stmt st) := by
  induction body with
  | nil => simp [ofBlock]
  | cons st body ih => simp [ofBlock, ofNode, ih]

@[simp] theorem mem_ofHandlers {handlers} :
    m ∈ ofHandlers handlers ↔ ∃ k ∈ handlers, m ∈ ofNode (.handler k) := by
  induction handlers with
  | nil => simp [ofHandlers]
  | cons k handlers ih => cases k; simp [ofHandlers, ofNode, ih, or_assoc]

theorem mem_ofNode {n} (h : m ∈ ofNode n) :
    (∃ c ∈ n.children, m ∈ ofNode c) ∨ (∃ c ∈ n.children, m ∈ ofEval c) ∨
    (∃ e ∈ n.targets, m ∈ ofTarget e) ∨ (∃ d, n = .cls d ∧ m = .cls d) ∨
    ∃ error span, m = .problem error span ∧ error ≠ Diagnostic.Code.malformedNode := by
  have hexpr : ∀ e, ofEval (.expr e) = ofExpr e := fun _ => rfl
  have hkeyword : ∀ k, ofEval (.keyword k) = ofExpr k.value := fun _ => rfl
  have hitem : ∀ i, ofEval (.withItem i) = ofWithItem i := fun _ => rfl
  cases n with
  | stmt st =>
    rw [ofNode] at h
    cases st with
    | importFrom span module level taken =>
      refine .inr (.inr (.inr (.inr ?_)))
      rcases mem_cons.1 h with rfl | hm
      · exact ⟨_, _, rfl, by decide⟩
      · obtain ⟨span, rfl⟩ := exists_of_mem_ofMembers hm
        exact ⟨_, span, rfl, by decide⟩
    | importModules span aliases =>
      obtain ⟨a, ha, rfl⟩ := mem_map.1 h
      exact .inl ⟨.imported a, mem_map_of_mem ha, mem_singleton_self _⟩
    | classDef d => exact .inl ⟨.cls d, mem_singleton_self _, h⟩
    | function d => exact .inr (.inl ⟨.function d, mem_singleton_self _, h⟩)
    | annAssign span target annotation value =>
      cases value <;> simp_all [ofStmt, Node.children, Node.belowStmt, Node.ofExprs, Node.ofExpr?, Node.targets] <;> grind
    | _ =>
      simp_all [ofStmt, Node.children, Node.belowStmt, Node.ofExprs, Node.ofExpr?, Node.ofStmts, Node.targets] <;> grind
  | cls d =>
    cases d
    rw [ofNode, ofStmt] at h
    simp_all [Node.children, Node.ofExprs, Node.ofStmts]
    grind
  | handler k =>
    cases k
    rw [ofNode] at h
    simp_all [Node.children, Node.ofExprs, Node.ofExpr?, Node.ofStmts]
    grind
  | imported a => exact .inr (.inr (.inr (.inr ⟨_, _, mem_singleton.1 h, by decide⟩)))
  | _ => cases h

end

/-- The marks of a node of the code are in the code. -/
theorem allIn_node {n} (h : code.Has n) : AllIn code (ofNode n) := by
  induction n using Node.induction with
  | step n ih =>
    intro m hm
    rcases mem_ofNode hm with ⟨c, hc, hm⟩ | ⟨c, hc, hm⟩ | ⟨e, he, hm⟩ | ⟨d, rfl, rfl⟩ |
      ⟨error, span, rfl, herror⟩
    · exact ih c hc (code.child h hc) m hm
    · exact (allOf_eval (code.child h hc)).allIn m hm
    · exact (allOf_target (code.target h he)).allIn m hm
    · exact h
    · exact fun _ => herror

theorem allIn_block {body} (h : code.HasBlock body) : AllIn code (ofBlock body) := by
  intro m hm
  obtain ⟨st, hst, hm⟩ := mem_ofBlock.1 hm
  exact allIn_node (h st hst) m hm

end Mark

end TypeInfer
