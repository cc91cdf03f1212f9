/-
The nodes of a syntax tree, whatever their kind, with the nodes right below each.
What holds of code is said of a set of nodes that has, with a node, all that
stands below it: `Code`. The nodes of finitely many trees form such a set.
-/
import TypeInfer.Syntax.Basic

namespace TypeInfer

open List

inductive Node where
  | expr (e : Expr)
  | stmt (s : Stmt)
  | arg (a : Arg)
  | item (i : DictItem)
  | clause (c : Comprehension)
  | param (p : Param)
  | function (d : FunctionDef)
  | cls (d : ClassDef)
  | keyword (k : ClassKeyword)
  | handler (h : ExceptHandler)
  | withItem (i : WithItem)
  | ident (i : Ident)
  | imported (a : Alias)
  | names (n : ImportNames)

namespace Node

def ofExprs (es : List Expr) : List Node := es.map expr

def ofExpr? (e : Option Expr) : List Node := ofExprs e.toList

def ofStmts (ss : List Stmt) : List Node := ss.map stmt

def ofIdents (is : List Ident) : List Node := is.map ident

def ofClauses (cs : List Comprehension) : List Node := cs.map clause

/-- The nodes right below an expression. -/
def belowExpr : Expr → List Node
  | .name _ _ | .int _ _ | .float _ _ | .imaginary _ _ | .str _ _ | .bytes _ _ | .bool _ _
  | .none _ | .ellipsis _ => []
  | .attribute _ value attr => [expr value, ident attr]
  | .subscript _ value index => ofExprs [value, index]
  | .slice _ lower upper step => ofExpr? lower ++ ofExpr? upper ++ ofExpr? step
  | .call _ func args => expr func :: args.map arg
  | .binary _ left _ right => ofExprs [left, right]
  | .unary _ _ value | .yieldFrom _ value | .await _ value | .starred _ value => [expr value]
  | .boolean _ _ elts | .list _ elts | .tuple _ elts | .set _ elts => ofExprs elts
  | .compare _ left _ comparators => ofExprs (left :: comparators)
  | .conditional _ test body orElse => ofExprs [test, body, orElse]
  | .lambda _ d => [function d]
  | .dict _ items => items.map item
  | .listComp _ elt clauses | .setComp _ elt clauses | .generator _ elt clauses =>
    expr elt :: ofClauses clauses
  | .dictComp _ key value clauses => ofExprs [key, value] ++ ofClauses clauses
  | .yield _ value => ofExpr? value
  | .named _ target value => [ident target, expr value]

/-- The nodes right below a statement. -/
def belowStmt : Stmt → List Node
  | .pass _ | .break _ | .continue _ => []
  | .expr _ value => [expr value]
  | .assign _ targets value => ofExprs targets ++ [expr value]
  | .augAssign _ target _ value => ofExprs [target, value]
  | .annAssign _ target annotation value => ofExprs [target, annotation] ++ ofExpr? value
  | .return _ value => ofExpr? value
  | .cond _ test body orElse | .while _ test body orElse =>
    expr test :: (ofStmts body ++ ofStmts orElse)
  | .for _ target iter body orElse _ => ofExprs [target, iter] ++ ofStmts body ++ ofStmts orElse
  | .function d => [function d]
  | .classDef d => [cls d]
  | .importModules _ aliases => aliases.map imported
  | .importFrom _ module _ taken => ofIdents module ++ [names taken]
  | .global _ idents | .nonlocal _ idents => ofIdents idents
  | .try _ body handlers orElse finalBody =>
    ofStmts body ++ handlers.map handler ++ ofStmts orElse ++ ofStmts finalBody
  | .with _ items body _ => items.map withItem ++ ofStmts body
  | .raise _ exception cause => ofExpr? exception ++ ofExpr? cause
  | .assert _ test message => expr test :: ofExpr? message
  | .delete _ targets => ofExprs targets

/-- The nodes right below a node. -/
def children : Node → List Node
  | .expr e => belowExpr e
  | .stmt s => belowStmt s
  | .arg (.positional value) | .arg (.star value) | .arg (.doubleStar value) => [expr value]
  | .arg (.keyword name value) => [ident name, expr value]
  | .item ⟨key, value⟩ => ofExpr? key ++ [expr value]
  | .clause ⟨target, iter, conditions, _⟩ => ofExprs (target :: iter :: conditions)
  | .param ⟨name, _, default, annotation⟩ => ident name :: (ofExpr? default ++ ofExpr? annotation)
  | .function ⟨_, name, params, body, decorators, returns, _⟩ =>
    ident name :: (params.map param ++ ofStmts body ++ ofExprs decorators ++ ofExpr? returns)
  | .cls ⟨_, name, bases, keywords, body, decorators⟩ =>
    ident name :: (ofExprs bases ++ keywords.map keyword ++ ofStmts body ++ ofExprs decorators)
  | .keyword ⟨name, value⟩ => [ident name, expr value]
  | .handler ⟨_, type, name, body⟩ => ofExpr? type ++ ofIdents name.toList ++ ofStmts body
  | .withItem ⟨context, target⟩ => expr context :: ofExpr? target
  | .ident _ => []
  | .imported a => ofIdents (a.name ++ a.asName.toList)
  | .names (.star _) => []
  | .names (.names aliases) => aliases.map imported

/-- What the node assigns to. -/
def targets : Node → List Expr
  | .stmt (.assign _ targets _) | .stmt (.delete _ targets) => targets
  | .stmt (.augAssign _ target _ _) | .stmt (.annAssign _ target _ _) | .stmt (.for _ target _ _ _ _) => [target]
  | .clause c => [c.target]
  | .withItem i => i.target.toList
  | _ => []

/-- What a node assigns to is right below it. -/
theorem expr_mem_children {n : Node} {e : Expr} (h : e ∈ n.targets) : expr e ∈ n.children := by
  cases n with
  | stmt s => cases s <;> simp_all [targets, children, belowStmt, ofExprs]
  | clause c =>
    cases c
    simp_all [targets, children, ofExprs]
  | withItem i =>
    cases i
    simp_all [targets, children, ofExprs, ofExpr?]
  | _ => cases h

/-! ### A child is smaller -/

theorem sizeOf_lt_of_mem_toList {α : Type} [SizeOf α] {o : Option α} {a : α} (h : a ∈ o.toList) :
    sizeOf a < sizeOf o := by
  cases o with
  | none => simp at h
  | some b =>
    simp only [Option.toList_some, mem_singleton] at h
    simp only [h, Option.some.sizeOf_spec]
    omega

theorem sizeOf_lt_of_mem_children {n c : Node} (h : c ∈ n.children) : sizeOf c < sizeOf n := by
  revert c
  cases n with
  | ident i => simp [children]
  | _ a =>
    cases a <;>
      simp only [children, belowExpr, belowStmt, ofClauses, ofIdents, ofStmts, ofExpr?, ofExprs, forall_mem_append,
        forall_mem_cons, not_mem_nil, forall_mem_map, map_cons, map_nil, map_append,
        false_imp_iff, implies_true, and_true, expr.sizeOf_spec, stmt.sizeOf_spec, ident.sizeOf_spec, arg.sizeOf_spec,
        item.sizeOf_spec, clause.sizeOf_spec, param.sizeOf_spec, function.sizeOf_spec, cls.sizeOf_spec, keyword.sizeOf_spec,
        handler.sizeOf_spec, withItem.sizeOf_spec, imported.sizeOf_spec, names.sizeOf_spec] <;>
      and_intros <;>
      first
      | (simp <;> omega)
      | (intro a ha; have := sizeOf_lt_of_mem ha; simp; omega)
      | (intro a ha; have := sizeOf_lt_of_mem_toList ha; simp; omega)

/-- From the nodes right below to the node. -/
theorem induction {P : Node → Prop} (step : ∀ n, (∀ c ∈ n.children, P c) → P n) (n : Node) : P n := by
  induction hk : sizeOf n using Nat.strongRecOn generalizing n with
  | ind k ih => exact step n fun c hc => ih _ (hk ▸ sizeOf_lt_of_mem_children hc) c rfl

/-- A node with all that stands below it. -/
def tree (n : Node) : List Node :=
  n :: n.children.attach.flatMap fun c => tree c.1
termination_by sizeOf n
decreasing_by exact sizeOf_lt_of_mem_children c.2

theorem mem_tree {n m : Node} : m ∈ n.tree ↔ m = n ∨ ∃ c ∈ n.children, m ∈ c.tree := by
  rw [tree]
  simp

theorem mem_tree_self (n : Node) : n ∈ n.tree := mem_tree.2 (.inl rfl)

theorem mem_tree_of_child {n m c : Node} (h : m ∈ n.tree) (hc : c ∈ m.children) : c ∈ n.tree := by
  induction n using Node.induction with
  | step n ih =>
    rcases mem_tree.1 h with rfl | ⟨c', hc', hm⟩
    · exact mem_tree.2 (.inr ⟨c, hc, mem_tree_self c⟩)
    · exact mem_tree.2 (.inr ⟨c', hc', ih c' hc' hm⟩)

end Node

/-- All nodes of a file, each as often as it occurs. -/
def Module.nodes (m : Module) : List Node := (Node.ofStmts m.body).flatMap Node.tree

/-- The code that may be run: with each node, all that stands below it. -/
structure Code where
  Has : Node → Prop
  child : ∀ {n c : Node}, Has n → c ∈ n.children → Has c

namespace Code

variable {es : List Expr}

/-- Any code. -/
def all : Code := ⟨fun _ => True, fun _ _ => trivial⟩

/-- The code of the given files. -/
def ofModules (ms : List Module) : Code where
  Has n := n ∈ ms.flatMap Module.nodes
  child := by
    intro n c hn hc
    simp only [Module.nodes, mem_flatMap] at hn ⊢
    obtain ⟨m, hm, s, hs, hn⟩ := hn
    exact ⟨m, hm, s, hs, Node.mem_tree_of_child hn hc⟩

variable {code : Code} {n : Node}

/-- The code has the whole of a list of statements. -/
def HasBlock (code : Code) (body : List Stmt) : Prop := ∀ s ∈ body, code.Has (.stmt s)

def HasExprs (code : Code) (es : List Expr) : Prop := ∀ e ∈ es, code.Has (.expr e)

/-- The code has all the given nodes. -/
def HasAll (code : Code) (ns : List Node) : Prop := ∀ n ∈ ns, code.Has n

theorem children (h : code.Has n) : code.HasAll n.children := fun _ hc => code.child h hc

/-- Whatever is assigned to in the code can be assigned to. -/
def AssignsRightly (code : Code) : Prop := ∀ n, code.Has n → ∀ e ∈ n.targets, e.isAssignable

/-- The code has the expression, which it may assign to. -/
def HasTarget (code : Code) (e : Expr) : Prop := code.Has (.expr e) ∧ (code.AssignsRightly → e.isAssignable)

theorem target (h : code.Has n) {e : Expr} (he : e ∈ n.targets) : code.HasTarget e :=
  ⟨code.child h (Node.expr_mem_children he), fun hcode => hcode n h e he⟩

@[simp] theorem hasAll_cons {ns} : code.HasAll (n :: ns) ↔ code.Has n ∧ code.HasAll ns :=
  forall_mem_cons

@[simp] theorem hasAll_append {ms ns} : code.HasAll (ms ++ ns) ↔ code.HasAll ms ∧ code.HasAll ns :=
  forall_mem_append

@[simp] theorem hasAll_map {α : Type} {f : α → Node} {as : List α} :
    code.HasAll (as.map f) ↔ ∀ a ∈ as, code.Has (f a) :=
  forall_mem_map

@[simp] theorem hasExprs_nil : code.HasExprs [] := nofun

@[simp] theorem hasExprs_cons {e} :
    code.HasExprs (e :: es) ↔ code.Has (.expr e) ∧ code.HasExprs es :=
  forall_mem_cons

@[simp] theorem hasAll_ofExprs : code.HasAll (Node.ofExprs es) ↔ code.HasExprs es :=
  forall_mem_map

@[simp] theorem hasAll_ofStmts {body} : code.HasAll (Node.ofStmts body) ↔ code.HasBlock body :=
  forall_mem_map

end Code

end TypeInfer
