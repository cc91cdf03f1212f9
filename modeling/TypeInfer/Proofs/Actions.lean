/-
What the interpreter does with a piece of code. Its actions are put together from single steps
(`Acts`), which place the binders of the code (`Binder.ofStmt`) and meet its marks. An action is
judged under what is known of the sizes of the tables, and what it gives is within them
(`Bounded`). This is shown once, by recursion over the syntax (`Infer.acts_exec`).
-/
import TypeInfer.Proofs.Follows
import TypeInfer.Proofs.Marks

namespace TypeInfer

open List

/-! ### Binders -/

/-- What a piece of code does to the names of scopes. -/
inductive Binder where
  /-- A name is bound where its declarations say. -/
  | bound (n : Ident)
  /-- A name is bound in the comprehension at hand. -/
  | clause (n : Ident)
  /-- A name is declared global. -/
  | global (n : Ident)
  /-- A name is declared nonlocal. -/
  | nonlocal (n : Ident)
  /-- A module is imported by its dotted path, without another name for it. -/
  | module (path : List Ident)
  /-- A segment of a dotted path is bound in the block itself. -/
  | here (n : Ident)
  /-- Names are bound that the code does not list. -/
  | unlisted
  /-- The body of a class is run in a block of its own. -/
  | cls (binders : List Binder)

namespace Binder

/-- How a target binds a name, within a comprehension and elsewhere. -/
def ofName (inner : Bool) (n : Ident) : Binder := if inner then .clause n else .bound n

mutual

/-- The binders of an expression. -/
def ofExpr : Expr → List Binder
  | .name _ _ | .int _ _ | .float _ _ | .imaginary _ _ | .str _ _ | .bytes _ _ | .bool _ _ | .none _ | .ellipsis _ => []
  | .attribute _ value _ => ofExpr value
  | .subscript _ value index => ofExpr value ++ ofExpr index
  | .slice _ lower upper step => ofExpr? lower ++ (ofExpr? upper ++ ofExpr? step)
  | .call _ func args => ofExpr func ++ ofArgs args
  | .binary _ left _ right => ofExpr left ++ ofExpr right
  | .unary _ _ value | .yieldFrom _ value | .await _ value | .starred _ value => ofExpr value
  | .named _ target value => ofExpr value ++ [.bound target]
  | .boolean _ _ elts | .list _ elts | .tuple _ elts | .set _ elts => ofExprs elts
  | .compare _ left _ comparators => ofExpr left ++ ofExprs comparators
  | .conditional _ test body orElse => ofExpr test ++ (ofExpr body ++ ofExpr orElse)
  | .lambda _ d => ofDefinition d
  | .dict _ items => ofItems items
  | .listComp _ elt clauses | .setComp _ elt clauses | .generator _ elt clauses => ofClauses clauses ++ ofExpr elt
  | .dictComp _ key value clauses => ofClauses clauses ++ (ofExpr key ++ ofExpr value)
  | .yield _ value => ofExpr? value

def ofExpr? : Option Expr → List Binder
  | none => []
  | some e => ofExpr e

def ofExprs : List Expr → List Binder
  | [] => []
  | e :: es => ofExpr e ++ ofExprs es

def ofArgs : List Arg → List Binder
  | [] => []
  | .positional value :: more | .keyword _ value :: more | .star value :: more | .doubleStar value :: more =>
    ofExpr value ++ ofArgs more

def ofItems : List DictItem → List Binder
  | [] => []
  | ⟨key, value⟩ :: more => ofExpr? key ++ (ofExpr value ++ ofItems more)

def ofClauses : List Comprehension → List Binder
  | [] => []
  | ⟨target, iter, conditions, _⟩ :: more =>
    ofExpr iter ++ (ofTarget true target ++ (ofExprs conditions ++ ofClauses more))

def ofParams : List Param → List Binder
  | [] => []
  | ⟨_, _, default, annotation⟩ :: more => ofExpr? annotation ++ (ofExpr? default ++ ofParams more)

/-- The binders of the definition of a function, without its name. -/
def ofDefinition : FunctionDef → List Binder
  | ⟨_, _, params, _, decorators, returns, _⟩ => ofExprs decorators ++ (ofParams params ++ ofExpr? returns)

/-- The binders of an expression that is assigned to. -/
def ofTarget (inner : Bool) : Expr → List Binder
  | .name span id => [ofName inner ⟨id, span⟩]
  | .tuple _ elts | .list _ elts => ofTargets inner elts
  | .starred _ value => ofTarget inner value
  | .attribute _ value _ => ofExpr value
  | .subscript _ value index => ofExpr value ++ ofExpr index
  | _ => []

def ofTargets (inner : Bool) : List Expr → List Binder
  | [] => []
  | target :: more => ofTarget inner target ++ ofTargets inner more

end

/-- The binders of `import a.b` and `import a.b as c`. -/
def ofAlias (a : Alias) : List Binder :=
  match a.asName with
  | some n => [.bound n]
  | none => if a.name.isEmpty then [] else [.module a.name]

/-- The binders of a name in `from m import name`. What has no name may go by another one. -/
def ofMember (a : Alias) : List Binder :=
  match a.name.head? with
  | some n => [.bound (a.asName.getD n)]
  | none => [.unlisted]

def ofMembers : ImportNames → List Binder
  | .star _ => [.unlisted]
  | .names aliases => aliases.flatMap ofMember

def ofWithItem (item : WithItem) : List Binder := ofExpr item.context ++ (item.target.map (ofTarget false)).getD []

mutual

/-- The binders of a statement. -/
def ofStmt : Stmt → List Binder
  | .pass _ | .break _ | .continue _ => []
  | .expr _ value => ofExpr value
  | .assign _ targets value => ofExpr value ++ ofTargets false targets
  | .augAssign _ target _ value => ofExpr target ++ (ofExpr value ++ ofTarget false target)
  | .annAssign _ _ annotation none => ofExpr annotation
  | .annAssign _ target annotation (some value) => ofExpr annotation ++ (ofExpr value ++ ofTarget false target)
  | .return _ value => ofExpr? value
  | .cond _ test body orElse | .while _ test body orElse => ofExpr test ++ (ofBlock body ++ ofBlock orElse)
  | .for _ target iter body orElse _ => ofExpr iter ++ (ofTarget false target ++ (ofBlock body ++ ofBlock orElse))
  | .function d => ofDefinition d ++ [.bound d.name]
  | .classDef ⟨_, name, bases, keywords, body, decorators⟩ =>
    ofExprs decorators ++ (ofExprs bases ++ (ofExprs (keywords.map ClassKeyword.value) ++
      [.bound name, .cls (ofBlock body)]))
  | .importModules _ names => names.flatMap ofAlias
  | .importFrom _ _ _ names => ofMembers names
  | .global _ names => names.map .global
  | .nonlocal _ names => names.map .nonlocal
  | .try _ body handlers orElse finalBody =>
    ofBlock body ++ (ofHandlers handlers ++ (ofBlock orElse ++ ofBlock finalBody))
  | .with _ items body _ => items.flatMap ofWithItem ++ ofBlock body
  | .raise _ exception cause => ofExpr? exception ++ ofExpr? cause
  | .assert _ test message => ofExpr test ++ ofExpr? message
  | .delete _ targets => ofExprs targets

def ofBlock : List Stmt → List Binder
  | [] => []
  | st :: more => ofStmt st ++ ofBlock more

def ofHandlers : List ExceptHandler → List Binder
  | [] => []
  | ⟨_, type, name, body⟩ :: more => ofExpr? type ++ (name.toList.map .bound ++ (ofBlock body ++ ofHandlers more))

end

end Binder

/-- Where code is run: in a block, or in a comprehension that lies in the block. -/
structure Spot where
  block : ScopeId
  scope : ScopeId
  inner : Bool

def Spot.ofBlock (b : ScopeId) : Spot := ⟨b, b, false⟩

/-! ### What is within the tables -/

/-- What an action gives may name entries of the tables. -/
class Bounded (α : Type) where
  Within : Sizes → α → Prop
  mono {y z : Sizes} {a : α} : Within y a → y ≤ z → Within z a

namespace Bounded

instance : Bounded Unit := ⟨fun _ _ => True, fun h _ => h⟩

instance : Bounded Ty := ⟨fun z t => t.Within z, Ty.Within.mono⟩

instance : Bounded CallArgs := ⟨fun z args => args.Within z, CallArgs.Within.mono⟩

instance : Bounded FunId := ⟨fun z f => f.index < z.funs, fun h hz => Nat.lt_of_lt_of_le h hz.funs⟩

instance : Bounded Loaded :=
  ⟨fun z r => ∀ m, r = .ok m → m.index < z.modules, fun h hz m hm => Nat.lt_of_lt_of_le (h m hm) hz.modules⟩

instance {α : Type} [Bounded α] : Bounded (Option α) := ⟨fun z => OptionAll (Within z), fun h hz => h.mono fun _ ha => mono ha hz⟩

instance {α : Type} [Bounded α] : Bounded (List α) := ⟨fun z l => ∀ a ∈ l, Within z a, fun h hz a ha => mono (h a ha) hz⟩

end Bounded

open Bounded (Within)

/-- What is known after a state was read: it was closed, and the tables have only grown. -/
structure Analysis.Seen (code : Code) (H : Sizes → Prop) (s : Analysis) (z : Sizes) : Prop where
  now : H z
  closed : s.Closed code
  before : H s.sizes
  le : s.sizes ≤ z

/-! ### Actions -/

/-- The action is put together from steps of the interpreter at the spot. It places the binders and meets
the marks, in their order. -/
inductive Acts (code : Code) : {α : Type} → [Bounded α] → Spot → (Sizes → Prop) → List Binder → List Mark →
    (Calls → Infer α) → Prop where
  | pure {p : Spot} {H : Sizes → Prop} {α : Type} [Bounded α] {a : α} (within : ∀ z, H z → Within z a) :
      Acts code p H [] [] fun _ => Pure.pure a
  | read {p : Spot} {H : Sizes → Prop} {α : Type} [Bounded α] {f : Analysis → Calls → Infer α} {b : List Binder}
      {l : List Mark} (rest : ∀ s, Acts code p (s.Seen code H) b l (f s)) : Acts code p H b l fun c => get >>= fun s => f s c
  | bind {p : Spot} {H : Sizes → Prop} {α β : Type} [Bounded α] [Bounded β] {m : Calls → Infer α}
      {f : α → Calls → Infer β} {b b' : List Binder} {l l' : List Mark} (first : Acts code p H b l m)
      (rest : ∀ a, Acts code p (fun z => H z ∧ Within z a) b' l' (f a)) :
      Acts code p H (b ++ b') (l ++ l') fun c => m c >>= fun a => f a c
  | assuming {p : Spot} {H H' : Sizes → Prop} {α : Type} [Bounded α] {m : Calls → Infer α} {b : List Binder} {l : List Mark}
      (run : Acts code p H b l m) (weaker : ∀ z, H' z → H z) : Acts code p H' b l m
  | refer {p : Spot} {H : Sizes → Prop} (node : Span) (ids : List BindingId) (within : ∀ z, H z → ∀ b ∈ ids, b.index < z.bindings) :
      Acts code p H [] [] fun _ => Infer.addReferences node ids
  | addReturn {p : Spot} {H : Sizes → Prop} (ty : Ty) (within : ∀ z, H z → ty.Within z) :
      Acts code p H [] [] fun _ => Infer.addReturn ty
  | addReceiver {p : Spot} {H : Sizes → Prop} (f : FunId) (cls : ClassId) (within : ∀ z, H z → cls.index < z.classes) :
      Acts code p H [] [] fun _ => modify (·.addReceiver f (.inst cls))
  | setAttribute {p : Spot} {H : Sizes → Prop} (receiver : Ty) (attr : Ident) (value : Ty) (within : ∀ z, H z → value.Within z) :
      Acts code p H [] [] fun _ => Infer.setAttribute receiver attr value
  | apply {p : Spot} {H : Sizes → Prop} (f : FunId) (receiver : Option Ty) (args : CallArgs)
      (function : ∀ z, H z → f.index < z.funs) (bound : ∀ z, H z → OptionAll (Ty.Within z) receiver)
      (within : ∀ z, H z → args.Within z) : Acts code p H [] [] fun c => c.apply f receiver args
  /-- Files are loaded by the statements of a block, not by expressions. -/
  | load {b : ScopeId} {H : Sizes → Prop} (path : Path) (source : path.isSourceFile) :
      Acts code (.ofBlock b) H [] [] fun c => c.load path
  /-- A dotted path is followed, and nothing is bound in the block. -/
  | search {b : ScopeId} {H : Sizes → Prop} (names : List Ident) (dir : Path) :
      Acts code (.ofBlock b) H [] [] fun c => Infer.loadSegments c.load none names dir none
  | lookup {p : Spot} {H : Sizes → Prop} (name : String) (site : Span) :
      Acts code p H [] [.read site name] fun _ => Infer.lookupName name site p.scope
  | define {p : Spot} {H : Sizes → Prop} (d : FunctionDef) (defaults : List (Option Ty))
      (within : ∀ z, H z → ∀ t ∈ defaults, OptionAll (Ty.Within z) t) :
      Acts code p H [] [.define d] fun _ => modifyGet fun s => (s.defineFunction d defaults p.scope).swap
  | report {p : Spot} {H : Sizes → Prop} (error message : String) (span : Span) (notFinal : Diagnostic.Code.isFinal error = false) :
      Acts code p H [] [.problem error span] fun _ => Infer.report (Diagnostic.error error message span)
  | skip {p : Spot} {H : Sizes → Prop} (error : String) (span : Span) : Acts code p H [] [.problem error span] fun _ => Pure.pure ()
  | name {p : Spot} {H : Sizes → Prop} (n : Ident) (ty : Ty) (kind : BindingKind) (within : ∀ z, H z → ty.Within z) :
      Acts code p H [.ofName p.inner n] [] fun _ => Infer.bindName p.scope n ty kind
  /-- A name that is assigned within an expression goes to the block around it. -/
  | named {p : Spot} {H : Sizes → Prop} (target : Ident) (ty : Ty) (within : ∀ z, H z → ty.Within z) :
      Acts code p H [.bound target] [] fun _ => (do
        Infer.bindName ((← get).scopes.enclosingBlock p.scope) target ty .variable
        return ty : Infer Ty)
  | comprehension {p : Spot} {H : Sizes → Prop} {α : Type} [Bounded α] {f : ScopeId → Calls → Infer α} {b : List Binder}
      {l : List Mark} (rest : ∀ id, Acts code ⟨p.block, id, true⟩ H b l (f id)) :
      Acts code p H b l fun c => Infer.comprehensionScope p.scope >>= fun id => f id c
  /-- A class is bound before its body is run. -/
  | cls {b : ScopeId} {H : Sizes → Prop} (d : ClassDef) (bases : List Ty) (name : Ident) {f : ScopeId → Calls → Infer Unit}
      {l : List Binder} {l' : List Mark} (has : code.Has (.cls d)) (within : ∀ z, H z → ∀ t ∈ bases, t.Within z)
      (rest : ∀ body, Acts code (.ofBlock body) H l l' (f body)) :
      Acts code (.ofBlock b) H [.bound name, .cls l] (.cls d :: l') fun c => (do
        let id ← modifyGet fun s => (s.defineClass d bases b).swap
        Infer.bindName b name (.cls id) .cls
        f ((← get).types.cls id).scope c : Infer Unit)
  | global {b : ScopeId} {H : Sizes → Prop} (n : Ident) :
      Acts code (.ofBlock b) H [.global n] [] fun _ => modify (·.declareGlobal b n.name)
  | nonlocal {b : ScopeId} {H : Sizes → Prop} (n : Ident) :
      Acts code (.ofBlock b) H [.nonlocal n] [] fun _ => modify (·.declareNonlocal b n.name)
  /-- A module is imported without another name for it. -/
  | path {b : ScopeId} {H : Sizes → Prop} {a : Alias} (unnamed : a.asName = none) :
      Acts code (.ofBlock b) H (Binder.ofAlias a) [Mark.ofAlias a] fun c => Infer.importModule c.load a b
  | star {b : ScopeId} {H : Sizes → Prop} (m : ModuleId) :
      Acts code (.ofBlock b) H [.unlisted] [] fun _ => Infer.importStar m b
  | unlisted {p : Spot} {H : Sizes → Prop} {α : Type} [Bounded α] {m : Calls → Infer α} {l : List Mark} (names : List Ident)
      (run : Acts code p H (names.map .bound) l m) : Acts code p H [.unlisted] l m

variable {code : Code} {H : Sizes → Prop} {p : Spot}

namespace Acts

variable {α β : Type} [Bounded α] [Bounded β] {m m' : Calls → Infer α} {b b' : List Binder} {l l' : List Mark}

/-- Nothing is bound or met in the last part. -/
theorem first {f : α → Calls → Infer β} (hm : Acts code p H b l m)
    (rest : ∀ a, Acts code p (fun z => H z ∧ Within z a) [] [] (f a)) : Acts code p H b l fun c => m c >>= fun a => f a c := by
  have h := hm.bind rest
  rwa [append_nil, append_nil] at h

/-- Nothing is bound or met in the first part. -/
theorem last {f : α → Calls → Infer β} (hm : Acts code p H [] [] m)
    (rest : ∀ a, Acts code p (fun z => H z ∧ Within z a) b l (f a)) : Acts code p H b l fun c => m c >>= fun a => f a c :=
  Acts.bind hm rest

section

variable (hm : Acts code p H b l m)
include hm

theorem binds {f : α → Calls → Infer β} (rest : ∀ a, Acts code p (fun z => H z ∧ Within z a) b' [] (f a)) :
    Acts code p H (b ++ b') l fun c => m c >>= fun a => f a c := by
  have h := hm.bind rest
  rwa [append_nil] at h

/-- Names are bound in the first part only. -/
theorem meets {f : α → Calls → Infer β} (rest : ∀ a, Acts code p (fun z => H z ∧ Within z a) [] l' (f a)) :
    Acts code p H b (l ++ l') fun c => m c >>= fun a => f a c := by
  have h := hm.bind rest
  rwa [append_nil] at h

/-- What follows does not take what the first part gives. -/
theorem next {r : Calls → Infer β} (hr : Acts code p H b' l' r) :
    Acts code p H (b ++ b') (l ++ l') fun c => m c >>= fun _ => r c :=
  hm.bind fun _ => hr.assuming fun _ h => h.1

theorem map {g : α → β} (hg : ∀ a z, H z → Within z a → Within z (g a)) : Acts code p H b l fun c => g <$> m c := by
  simp only [map_eq_pure_bind]
  exact hm.first fun a => .pure fun z h => hg a z h.1 h.2

theorem discard : Acts code p H b l fun c => discard (m c) := hm.map fun _ _ _ _ => trivial

end

theorem ite {q : Prop} [Decidable q] (hm : Acts code p H b l m) (hm' : Acts code p H b l m') :
    Acts code p H b l fun c => if q then m c else m' c := by
  split
  · exact hm
  · exact hm'

section

variable {γ : Type} {as : List γ}

theorem forM {binders : γ → List Binder} {marks : γ → List Mark} {f : γ → Calls → Infer Unit}
    (h : ∀ a ∈ as, Acts code p H (binders a) (marks a) (f a)) :
    Acts code p H (as.flatMap binders) (as.flatMap marks) fun c => as.forM fun a => f a c := by
  induction as with
  | nil => exact .pure fun _ _ => trivial
  | cons a as ih =>
    obtain ⟨ha, has⟩ := forall_mem_cons.1 h
    rw [flatMap_cons, flatMap_cons]
    exact ha.next (ih has)

theorem forM_binds {binders : γ → List Binder} {f : γ → Calls → Infer Unit}
    (h : ∀ a ∈ as, Acts code p H (binders a) [] (f a)) : Acts code p H (as.flatMap binders) [] fun c => as.forM fun a => f a c := by
  have hall : Acts code p H (as.flatMap binders) (as.flatMap fun _ => []) fun c => as.forM fun a => f a c := .forM h
  rwa [flatMap_eq_nil_iff.2 fun _ _ => rfl] at hall

theorem mapM {f : γ → Calls → Infer β} (h : ∀ a ∈ as, Acts code p H [] [] (f a)) :
    Acts code p H [] [] fun c => as.mapM fun a => f a c := by
  induction as with
  | nil => exact .pure fun _ _ => forall_mem_nil _
  | cons a as ih =>
    obtain ⟨ha, has⟩ := forall_mem_cons.1 h
    simp only [mapM_cons]
    refine .last ha fun b => .last ((ih has).assuming fun _ h => h.1) fun bs => .pure fun z h => ?_
    exact forall_mem_cons.2 ⟨h.1.2, h.2⟩

theorem filterMapM {f : γ → Calls → Infer (Option β)} (h : ∀ a ∈ as, Acts code p H [] [] (f a)) :
    Acts code p H [] [] fun c => as.filterMapM fun a => f a c := by
  induction as with
  | nil => exact .pure fun _ _ => forall_mem_nil _
  | cons a as ih =>
    obtain ⟨ha, has⟩ := forall_mem_cons.1 h
    simp only [filterMapM_cons]
    refine .last ha fun b => ?_
    cases b with
    | none => exact (ih has).assuming fun _ h => h.1
    | some b =>
      refine .last ((ih has).assuming fun _ h => h.1) fun bs => .pure fun z h => ?_
      exact forall_mem_cons.2 ⟨h.1.2 b rfl, h.2⟩

end

/-- No problem is found where one may be. -/
theorem spare (hm : Acts code p H b l m) (error : String) (span : Span) : Acts code p H b (.problem error span :: l) m := by
  have h := (Acts.skip error span).next hm
  simpa only [pure_bind, singleton_append, nil_append] using h

theorem spare_all (hm : Acts code p H b l m) (h : ∀ x ∈ l', ∃ error span, x = .problem error span) :
    Acts code p H b (l' ++ l) m := by
  induction l' with
  | nil => exact hm
  | cons x l' ih =>
    obtain ⟨⟨error, span, rfl⟩, hl'⟩ := forall_mem_cons.1 h
    exact (ih hl').spare error span

end Acts

namespace Infer

/-! ### Calls -/

theorem acts_instanceOf (c : Library → ClassId)
    (hc : ∀ {s : Analysis}, s.Closed code → (c s.library).index < s.types.classes.size) :
    Acts code p H [] [] fun _ => instanceOf c :=
  .read fun _ => .pure fun _ h => Ty.within_inst.2 (Nat.lt_of_lt_of_le (hc h.closed) h.le.classes)

theorem acts_unionOver {α : Type} {items : List α} {action : α → Calls → Infer Ty}
    (h : ∀ a ∈ items, Acts code p H [] [] (action a)) : Acts code p H [] [] fun c => unionOver items fun a => action a c :=
  .last (.mapM h) fun _ => .pure fun _ h => Ty.within_union h.2

theorem acts_callFunction {f : FunId} {found : Option Atom} {args : CallArgs} (hf : ∀ z, H z → f.index < z.funs)
    (hfound : ∀ z, H z → OptionAll (Atom.Within z) found) (hargs : ∀ z, H z → args.Within z) :
    Acts code p H [] [] fun c => callFunction c.apply f found args := by
  refine .read fun s => ?_
  have hreceiver : ∀ z, s.Seen code H z → OptionAll (Atom.Within z) ((s.types.function f).receiver? found) := fun z h =>
    (h.closed.receiver? f (hfound _ h.before)).mono fun _ ha => ha.mono h.le
  dsimp only
  generalize (s.types.function f).receiver? found = receiver at hreceiver
  have happly : Acts code p (s.Seen code H) [] [] fun c => c.apply f (receiver.map Ty.ofAtom) args := by
    refine .apply f _ args (fun z h => hf z h.now) (fun z h ty hty => ?_) fun z h => hargs z h.now
    obtain ⟨a, ha, rfl⟩ := Option.map_eq_some_iff.1 hty
    exact Ty.within_ofAtom.2 (hreceiver z h a ha)
  cases receiver with
  | none => exact happly
  | some a =>
    cases a with
    | inst c => exact (Acts.addReceiver f c fun z h => hreceiver z h _ rfl).next happly
    | _ => exact happly

theorem acts_callMethod? {a : Atom} (name : String) {args : CallArgs} (ha : ∀ z, H z → a.Within z)
    (hargs : ∀ z, H z → args.Within z) : Acts code p H [] [] fun c => callMethod? c.apply a name args := by
  refine .read fun s => .last (.filterMapM fun id _ => .read fun t => ?_) fun types => .pure fun z h => ?_
  · cases hf : t.boundFunction? id with
    | none => exact .pure fun _ _ => optionAll_none
    | some f =>
      have hcall : Acts code p (t.Seen code (s.Seen code H)) [] [] fun c => callFunction c.apply f (some a) args := by
        refine acts_callFunction (fun z h => ?_) (fun z h => optionAll_some.2 (ha z h.now.now)) fun z h => hargs z h.now.now
        exact Nat.lt_of_lt_of_le (h.closed.boundFunction? hf) h.le.funs
      exact hcall.map fun _ _ _ hty => optionAll_some.2 hty
  · split
    · exact optionAll_none
    · exact optionAll_some.2 (Ty.within_union h.2)

theorem acts_callMethodOr {a : Atom} (name : String) {args : CallArgs} {other : Ty} (ha : ∀ z, H z → a.Within z)
    (hargs : ∀ z, H z → args.Within z) (hother : ∀ z, H z → other.Within z) :
    Acts code p H [] [] fun c => do return (← callMethod? c.apply a name args).getD other :=
  .last (acts_callMethod? name ha hargs) fun _ => .pure fun z h => OptionAll.getD h.2 (hother z h.1)

theorem acts_instantiate {cls : ClassId} {args : CallArgs} (hcls : ∀ z, H z → cls.index < z.classes)
    (hargs : ∀ z, H z → args.Within z) : Acts code p H [] [] fun c => instantiate c.apply cls args := by
  refine .read fun s => ?_
  cases (s.types.cls cls).prim with
  | some q => exact .pure fun _ _ => Ty.within_prim
  | none =>
    refine .read fun t => .last ?_ fun _ => .pure fun z h => Ty.within_inst.2 (hcls z h.1.now.now)
    induction (t.classAttribute cls "__init__").getD [] with
    | nil => exact .pure fun _ _ => trivial
    | cons id ids ih =>
      refine .last (.read fun u => ?_) fun _ => ih.assuming fun _ h => h.1
      cases hinit : u.boundFunction? id with
      | none => exact .pure fun _ _ => trivial
      | some init =>
        refine Acts.discard (.apply init _ args (fun z h => ?_) (fun z h => optionAll_some.2 ?_) fun z h => ?_)
        · exact Nat.lt_of_lt_of_le (h.closed.boundFunction? hinit) h.le.funs
        · exact Ty.within_inst.2 (hcls z h.now.now.now)
        · exact hargs z h.now.now.now

theorem acts_callType {callee : Ty} {args : CallArgs} (hcallee : ∀ z, H z → callee.Within z)
    (hargs : ∀ z, H z → args.Within z) : Acts code p H [] [] fun c => callType c.apply callee args := by
  refine acts_unionOver fun a ha => ?_
  have ha : ∀ z, H z → a.Within z := fun z h => hcallee z h a ha
  have hother : Acts code p H [] [] fun c => do
      if (← get).hasMethods a then return (← callMethod? c.apply a "__call__" args).getD .unknown
      else return .unknown := by
    refine .read fun _ => .ite ?_ (.pure fun _ _ => Ty.within_unknown)
    exact acts_callMethodOr _ (fun z h => ha z h.now) (fun z h => hargs z h.now) fun _ _ => Ty.within_unknown
  cases a with
  | function f => exact acts_callFunction ha (fun _ _ => optionAll_none) hargs
  | cls cls => exact acts_instantiate ha hargs
  | _ => exact hother

theorem acts_overAttribute {receiver : Ty} (attr : Ident) {action : Atom → BindingId → Calls → Infer Ty}
    (h : ∀ a ∈ receiver.atoms, ∀ id, Acts code p H [] [] (action a id)) :
    Acts code p H [] [] fun c => overAttribute receiver attr fun a id => action a id c := by
  refine acts_unionOver fun a ha => .read fun s => ?_
  cases hids : s.attributeBindings a attr.name with
  | none => exact .pure fun _ _ => Ty.within_unknown
  | some ids =>
    refine .last (.refer attr.span ids fun z h b hb => ?_) fun _ => acts_unionOver fun id _ => ?_
    · exact Nat.lt_of_lt_of_le (h.closed.attributeBindings hids b hb) h.le.bindings
    · exact (h a ha id).assuming fun _ h => h.1.now

theorem acts_getAttribute {receiver : Ty} (attr : Ident) (hreceiver : ∀ z, H z → receiver.Within z) :
    Acts code p H [] [] fun c => getAttribute c.apply receiver attr := by
  refine acts_overAttribute attr fun a ha id => .read fun s => ?_
  have hty : ∀ z, s.Seen code H z → (s.scopes.binding id).ty.Within z := fun z h => (h.closed.tables.binding id).mono h.le
  dsimp only
  generalize (s.scopes.binding id).ty = ty at hty
  cases hf : ty.function? with
  | none => cases a <;> exact .pure hty
  | some f =>
    cases a with
    | inst cls =>
      refine .ite (acts_callFunction (fun z h => (hty z h).function hf) (fun z h => ?_) fun _ _ => CallArgs.within_empty) (.pure hty)
      exact optionAll_some.2 (hreceiver z h.now _ ha)
    | _ => exact .pure hty

theorem acts_callAttribute {receiver : Ty} (attr : Ident) {args : CallArgs} (hreceiver : ∀ z, H z → receiver.Within z)
    (hargs : ∀ z, H z → args.Within z) : Acts code p H [] [] fun c => callAttribute c.apply receiver attr args := by
  refine acts_overAttribute attr fun a ha id => .read fun s => ?_
  have hty : ∀ z, s.Seen code H z → (s.scopes.binding id).ty.Within z := fun z h => (h.closed.tables.binding id).mono h.le
  have hargs : ∀ z, s.Seen code H z → args.Within z := fun z h => hargs z h.now
  dsimp only
  generalize s.scopes.binding id = b at hty
  cases hf : b.ty.function? with
  | none => exact acts_callType hty hargs
  | some f =>
    cases hkind : b.kind with
    | function =>
      exact acts_callFunction (fun z h => (hty z h).function hf) (fun z h => optionAll_some.2 (hreceiver z h.now a ha)) hargs
    | _ => exact acts_callType hty hargs

theorem acts_subscript {container key : Ty} (isSlice : Bool) (hcontainer : ∀ z, H z → container.Within z)
    (hkey : ∀ z, H z → key.Within z) : Acts code p H [] [] fun c => subscript c.apply container key isSlice := by
  refine acts_unionOver fun a ha => .read fun s => ?_
  have ha : ∀ z, s.Seen code H z → a.Within z := fun z h => hcontainer z h.now a ha
  have hunknown : ∀ z, s.Seen code H z → Ty.unknown.Within z := fun _ _ => Ty.within_unknown
  cases a with
  | prim q =>
    cases q
    case bytes => cases isSlice <;> exact .pure fun _ _ => Ty.within_prim
    case str => exact .pure fun _ _ => Ty.within_prim
    all_goals exact .pure hunknown
  | inst cls =>
    refine .ite (.pure fun z h => Ty.within_ofAtom.2 (ha z h)) (.ite ?_ (.pure hunknown))
    exact acts_callMethodOr _ ha (fun z h => ⟨forall_mem_singleton.2 (hkey z h.now), nofun⟩) hunknown
  | _ => exact .pure hunknown

theorem acts_enterType {context : Ty} (hcontext : ∀ z, H z → context.Within z) :
    Acts code p H [] [] fun c => enterType c.apply context := by
  refine acts_unionOver fun a ha => .read fun s => ?_
  have ha : ∀ z, s.Seen code H z → a.Within z := fun z h => hcontext z h.now a ha
  have hself : ∀ z, s.Seen code H z → (Ty.ofAtom a).Within z := fun z h => Ty.within_ofAtom.2 (ha z h)
  exact .ite (acts_callMethodOr _ ha (fun _ _ => CallArgs.within_empty) hself) (.pure hself)

/-! ### Imports -/

theorem acts_importFailed (failure : LoadFailure) (name : String) (span : Span) :
    Acts code p H [] [.problem Diagnostic.Code.moduleNotFound span] fun _ => importFailed failure name span :=
  .ite (.report _ _ span (by decide)) (.skip _ span)

section

variable {b : ScopeId}

theorem acts_loadModule (names : List Ident) : Acts code (.ofBlock b) H [] [] fun c => loadModule c.load names none := by
  cases names with
  | nil => exact .pure fun _ _ => nofun
  | cons first names =>
    refine .read fun s => ?_
    cases hid : s.library.module? (dottedName (first :: names)) with
    | some id =>
      refine .read fun _ => .last (.pure (a := ()) fun _ _ => trivial) fun _ => .pure fun z h m hm => ?_
      obtain rfl := Except.ok.inj hm
      exact Nat.lt_of_lt_of_le (h.1.now.closed.library.modules _ (mem_of_lookup hid)) h.1.now.le.modules
    | none =>
      dsimp only
      cases s.locate? first.name with
      | some dir => exact .search _ dir
      | none => exact .pure fun _ _ => nofun

theorem acts_loadSubmodule (dir : Path) (name : String) :
    Acts code (.ofBlock b) H [] [] fun c => loadSubmodule c.load dir name := by
  refine .read fun _ => .ite (.load (dir.child name).initFile (dir.child name).isSourceFile_initFile) ?_
  exact .ite (.load (dir.moduleFile name) (dir.isSourceFile_moduleFile name)) (.pure fun _ _ => nofun)

theorem acts_loadOrigin (module : List Ident) (level : Nat) :
    Acts code (.ofBlock b) H [] [] fun c => loadOrigin c.load module level := by
  refine .ite (acts_loadModule module) (.read fun s => ?_)
  cases s.relativeBase? level with
  | none => exact .pure fun _ _ => nofun
  | some dir =>
    refine .ite ?_ (.search module dir)
    exact .read fun _ => .ite (.load dir.initFile dir.isSourceFile_initFile) (.pure fun _ _ => nofun)

theorem acts_bindUnknown {a : Alias} {n : Ident} (hn : localName? a = some n) (kind : BindingKind) :
    Acts code (.ofBlock b) H [.bound n] [] fun _ => bindUnknown b a kind := by
  unfold bindUnknown
  rw [hn]
  exact .name n .unknown kind fun _ _ => Ty.within_unknown

/-- What has a name is bound by it, and what has none may be bound by another one. -/
theorem acts_bindUnknown_member (a : Alias) (kind : BindingKind) :
    Acts code (.ofBlock b) H (Binder.ofMember a) [] fun _ => bindUnknown b a kind := by
  unfold Binder.ofMember
  cases hhead : a.name.head? with
  | some n =>
    refine acts_bindUnknown ?_ kind
    rw [localName?, hhead]
    cases a.asName <;> rfl
  | none =>
    cases hn : localName? a with
    | some n => exact .unlisted [n] (acts_bindUnknown hn kind)
    | none =>
      unfold bindUnknown
      rw [hn]
      exact .unlisted [] (.pure fun _ _ => trivial)

theorem acts_importModule (a : Alias) :
    Acts code (.ofBlock b) H (Binder.ofAlias a) [Mark.ofAlias a] fun c => importModule c.load a b := by
  cases hname : a.asName with
  | none => exact .path hname
  | some n =>
    unfold importModule Binder.ofAlias
    rw [hname]
    refine .last (acts_loadModule a.name) fun r => ?_
    cases r with
    | ok m =>
      refine .binds (.skip _ a.span) fun _ => .first (.name n (.module m) .module fun z h => ?_) fun _ => .pure fun _ _ => trivial
      exact Ty.within_module.2 (h.1.2 m rfl)
    | error failure =>
      have hlocal : localName? a = some n := by rw [localName?, hname]; rfl
      exact .binds (acts_importFailed failure a.dotted a.span) fun _ => acts_bindUnknown hlocal .module

theorem acts_importMember (source : Option ModuleId) (dir : Option Path) (name binder : Ident) (origin : String) :
    Acts code (.ofBlock b) H [.bound binder] [.problem Diagnostic.Code.importedNameNotFound name.span] fun c =>
      importMember c.load source dir name binder origin b := by
  have hbind {H : Sizes → Prop} {ty : Ty} (kind : BindingKind) (hty : ∀ z, H z → ty.Within z) :
      Acts code (.ofBlock b) H [.bound binder] [] fun _ => bindName b binder ty kind :=
    .name binder ty kind hty
  have hskip {H : Sizes → Prop} {ty : Ty} (kind : BindingKind) (hty : ∀ z, H z → ty.Within z) :=
    (hbind kind hty).spare Diagnostic.Code.importedNameNotFound name.span
  unfold importMember
  cases dir
  case' none => refine .last (.pure (a := (.error .notFound : Loaded)) fun _ _ => nofun) fun r => ?_
  case' some dir => refine .last (acts_loadSubmodule dir name.name) fun r => ?_
  all_goals
    cases r with
    | ok m => exact hskip .module fun z h => Ty.within_module.2 (h.2 m rfl)
    | error failure =>
      cases failure with
      | notFound =>
        refine .ite (.binds (.report _ _ name.span (by decide)) fun _ => ?_) (hskip .variable fun _ _ => Ty.within_unknown)
        exact hbind .variable fun _ _ => Ty.within_unknown
      | cycle => exact hskip .module fun _ _ => Ty.within_unknown
      | unparsable => exact hskip .module fun _ _ => Ty.within_unknown

theorem acts_importName (source : Option ModuleId) (dir : Option Path) (origin : String) (a : Alias) :
    Acts code (.ofBlock b) H (Binder.ofMember a) (Mark.ofMember a) fun c => importName c.load source dir origin b a := by
  unfold importName Binder.ofMember Mark.ofMember
  cases a.name.head? with
  | none => exact .unlisted [] (.pure fun _ _ => trivial)
  | some name =>
    refine .read fun s => ?_
    cases hids : source.bind fun m => s.attributeBindings (.module m) name.name with
    | none => exact acts_importMember source dir name _ origin
    | some ids =>
      obtain ⟨m, -, hm⟩ := Option.bind_eq_some_iff.1 hids
      have hbindings : Acts code (.ofBlock b) (s.Seen code H) [.bound (a.asName.getD name)] [] fun _ =>
          importBindings ids name (a.asName.getD name) b := by
        refine .last (.refer name.span ids fun z h id hid => ?_) fun _ => .read fun t => .name _ _ _ fun z h => ?_
        · exact Nat.lt_of_lt_of_le (h.closed.attributeBindings hm id hid) h.le.bindings
        · exact (h.closed.tables.typeOf ids).mono h.le
      exact hbindings.spare _ name.span

theorem acts_importFrom (span : Span) (module : List Ident) (level : Nat) (names : ImportNames) :
    Acts code (.ofBlock b) H (Binder.ofMembers names) (.problem Diagnostic.Code.moduleNotFound span :: Mark.ofMembers names)
      fun c => importFrom c.load span module level names b := by
  refine .last (acts_loadOrigin module level) fun source => .read fun s => ?_
  cases names with
  | star =>
    cases source with
    | ok m => exact (Acts.star m).spare _ span
    | error failure => exact .unlisted [] (acts_importFailed failure _ span)
  | names aliases =>
    have hmembers {H : Sizes → Prop} (source : Option ModuleId) (dir : Option Path) (origin : String) :
        Acts code (.ofBlock b) H (aliases.flatMap Binder.ofMember)
          (.problem Diagnostic.Code.moduleNotFound span :: aliases.flatMap Mark.ofMember) fun c =>
          aliases.forM (importName c.load source dir origin b) :=
      (Acts.forM fun a _ => acts_importName source dir origin a).spare _ span
    cases source with
    | ok m => exact hmembers (some m) _ _
    | error failure =>
      refine .ite ?_ (hmembers none _ _)
      -- only the module is reported, not its members
      have hunknown {H : Sizes → Prop} : Acts code (.ofBlock b) H (aliases.flatMap Binder.ofMember) [] fun _ =>
          aliases.forM fun a => bindUnknown b a .variable :=
        .forM_binds fun a _ => acts_bindUnknown_member a .variable
      have hmember : ∀ x ∈ aliases.flatMap Mark.ofMember, ∃ error span, x = .problem error span := by
        intro x hx
        obtain ⟨span, rfl⟩ := Mark.exists_of_mem_ofMembers (show x ∈ Mark.ofMembers (.names aliases) from hx)
        exact ⟨_, _, rfl⟩
      have hall {H : Sizes → Prop} := (hunknown (H := H)).spare_all hmember
      simp only [append_nil] at hall
      exact Acts.bind (acts_importFailed failure _ span) fun _ => hall

end

/-! ### Expressions -/

mutual

theorem acts_eval : ∀ (e : Expr) (p : Spot) {H : Sizes → Prop},
    Acts code p H (Binder.ofExpr e) (Mark.ofExpr e) fun c => eval c e p.scope
  | .name site id, _, _ => .lookup id site
  | .int _ _, _, _ | .float _ _, _, _ | .imaginary _ _, _, _ | .str _ _, _, _ | .bytes _ _, _, _ | .bool _ _, _, _
  | .none _, _, _ => .pure fun _ _ => Ty.within_prim
  | .ellipsis _, _, _ => .pure fun _ _ => Ty.within_unknown
  | .attribute _ value attr, p, _ => (acts_eval value p).first fun _ => acts_getAttribute attr fun _ h => h.2
  | .subscript _ value index, p, _ =>
    .bind (acts_eval value p) fun _ => .first (acts_eval index p) fun _ => acts_subscript _ (fun _ h => h.1.2) fun _ h => h.2
  | .slice _ lower upper step, p, _ =>
    .bind (acts_evalOption lower p).discard fun _ => .bind (acts_evalOption upper p).discard fun _ =>
      .first (acts_evalOption step p).discard fun _ => .pure fun _ _ => Ty.within_unknown
  | .call _ func args, p, _ => by
    cases func with
    | «attribute» span value attr =>
      refine .bind (acts_eval value p) fun receiver => .first (acts_evalArgs args p) fun args => ?_
      exact acts_callAttribute attr (fun _ h => h.1.2) fun _ h => h.2
    | _ =>
      refine .bind (acts_eval _ p) fun callee => .first (acts_evalArgs args p) fun args => ?_
      exact acts_callType (fun _ h => h.1.2) fun _ h => h.2
  | .binary _ left op right, p, _ =>
    .bind (acts_eval left p) fun _ => .first (acts_eval right p) fun _ => .pure fun _ h => Ty.Within.binary h.1.2 h.2
  | .unary _ op operand, p, _ => .first (acts_eval operand p) fun _ => .pure fun _ _ => Ty.within_unary op _
  | .boolean _ _ values, p, _ => .first (acts_evalList values p) fun _ => .pure fun _ h => Ty.within_union h.2
  | .compare _ left _ comparators, p, _ =>
    .bind (acts_eval left p).discard fun _ => .first (acts_evalList comparators p).discard fun _ =>
      .pure fun _ _ => Ty.within_prim
  | .conditional _ test body orElse, p, _ =>
    .bind (acts_eval test p).discard fun _ => .bind (acts_eval body p) fun _ => .first (acts_eval orElse p) fun _ =>
      .pure fun _ h => Ty.Within.merge h.1.2 h.2
  | .lambda _ d, p, _ => .first (acts_define d p) fun _ => .pure fun _ h => Ty.within_function.2 h.2
  | .list _ elts, p, _ => .first (acts_evalList elts p).discard fun _ => acts_instanceOf _ fun hs => hs.library.list
  | .tuple _ elts, p, _ => .first (acts_evalList elts p).discard fun _ => acts_instanceOf _ fun hs => hs.library.tuple
  | .set _ elts, p, _ => .first (acts_evalList elts p).discard fun _ => acts_instanceOf _ fun hs => hs.library.set
  | .dict _ items, p, _ => .first (acts_evalItems items p) fun _ => acts_instanceOf _ fun hs => hs.library.dict
  | .listComp _ elt clauses, p, _ =>
    .comprehension fun inner => .bind (acts_evalClauses clauses p.block inner) fun _ =>
      .first (acts_eval elt ⟨p.block, inner, true⟩).discard fun _ => acts_instanceOf _ fun hs => hs.library.list
  | .setComp _ elt clauses, p, _ =>
    .comprehension fun inner => .bind (acts_evalClauses clauses p.block inner) fun _ =>
      .first (acts_eval elt ⟨p.block, inner, true⟩).discard fun _ => acts_instanceOf _ fun hs => hs.library.set
  | .generator _ elt clauses, p, _ =>
    .comprehension fun inner => .bind (acts_evalClauses clauses p.block inner) fun _ =>
      .first (acts_eval elt ⟨p.block, inner, true⟩).discard fun _ => acts_instanceOf _ fun hs => hs.library.generator
  | .dictComp _ key value clauses, p, _ =>
    .comprehension fun inner => .bind (acts_evalClauses clauses p.block inner) fun _ =>
      .bind (acts_eval key ⟨p.block, inner, true⟩).discard fun _ =>
        .first (acts_eval value ⟨p.block, inner, true⟩).discard fun _ => acts_instanceOf _ fun hs => hs.library.dict
  | .yield _ value, p, _ =>
    .first (acts_evalOption value p) fun _ => .last (.addReturn _ fun _ h => OptionAll.getD h.2 Ty.within_prim) fun _ =>
      .pure fun _ _ => Ty.within_unknown
  | .yieldFrom _ value, p, _ | .starred _ value, p, _ =>
    .first (acts_eval value p).discard fun _ => .pure fun _ _ => Ty.within_unknown
  | .await _ value, p, _ => acts_eval value p
  | .named _ target value, p, _ => .binds (acts_eval value p) fun ty => .named target ty fun _ h => h.2

theorem acts_evalOption : ∀ (e : Option Expr) (p : Spot) {H : Sizes → Prop},
    Acts code p H (Binder.ofExpr? e) (Mark.ofExpr? e) fun c => evalOption c e p.scope
  | none, _, _ => .pure fun _ _ => optionAll_none
  | some e, p, _ => (acts_eval e p).map fun _ _ _ hty => optionAll_some.2 hty

theorem acts_evalList : ∀ (es : List Expr) (p : Spot) {H : Sizes → Prop},
    Acts code p H (Binder.ofExprs es) (Mark.ofExprs es) fun c => evalList c es p.scope
  | [], _, _ => .pure fun _ _ => forall_mem_nil _
  | e :: es, p, _ =>
    .bind (acts_eval e p) fun _ => .first (acts_evalList es p) fun _ => .pure fun _ h => forall_mem_cons.2 ⟨h.1.2, h.2⟩

theorem acts_evalArgs : ∀ (args : List Arg) (p : Spot) {H : Sizes → Prop},
    Acts code p H (Binder.ofArgs args) (Mark.ofArgs args) fun c => evalArgs c args p.scope
  | [], _, _ => .pure fun _ _ => CallArgs.within_empty
  | .positional value :: more, p, _ =>
    .bind (acts_eval value p) fun _ => .first (acts_evalArgs more p) fun _ => .pure fun _ h =>
      ⟨forall_mem_cons.2 ⟨h.1.2, h.2.positional⟩, h.2.keywords⟩
  | .keyword _ value :: more, p, _ =>
    .bind (acts_eval value p) fun _ => .first (acts_evalArgs more p) fun _ => .pure fun _ h =>
      ⟨h.2.positional, forall_mem_cons.2 ⟨h.1.2, h.2.keywords⟩⟩
  | .star value :: more, p, _ | .doubleStar value :: more, p, _ =>
    .bind (acts_eval value p).discard fun _ => .first (acts_evalArgs more p) fun _ => .pure fun _ h =>
      ⟨h.2.positional, h.2.keywords⟩

theorem acts_evalItems : ∀ (items : List DictItem) (p : Spot) {H : Sizes → Prop},
    Acts code p H (Binder.ofItems items) (Mark.ofItems items) fun c => evalItems c items p.scope
  | [], _, _ => .pure fun _ _ => trivial
  | ⟨key, value⟩ :: more, p, _ =>
    .bind (acts_evalOption key p).discard fun _ => .bind (acts_eval value p).discard fun _ => acts_evalItems more p

theorem acts_evalClauses : ∀ (clauses : List Comprehension) (b scope : ScopeId) {H : Sizes → Prop},
    Acts code ⟨b, scope, true⟩ H (Binder.ofClauses clauses) (Mark.ofClauses clauses) fun c => evalClauses c clauses scope
  | [], _, _, _ => .pure fun _ _ => trivial
  | ⟨target, iter, conditions, _⟩ :: more, b, scope, _ =>
    .bind (acts_eval iter ⟨b, scope, true⟩) fun _ => .read fun _ =>
      .bind (acts_bindTarget target ⟨b, scope, true⟩ fun _ _ => Library.within_elementType _ _) fun _ =>
        .bind (acts_evalList conditions ⟨b, scope, true⟩).discard fun _ => acts_evalClauses more b scope

theorem acts_evalParams : ∀ (params : List Param) (p : Spot) {H : Sizes → Prop},
    Acts code p H (Binder.ofParams params) (Mark.ofParams params) fun c => evalParams c params p.scope
  | [], _, _ => .pure fun _ _ => forall_mem_nil _
  | ⟨_, _, default, annotation⟩ :: more, p, _ =>
    .bind (acts_evalOption annotation p).discard fun _ => .bind (acts_evalOption default p) fun _ =>
      .first (acts_evalParams more p) fun _ => .pure fun _ h => forall_mem_cons.2 ⟨h.1.2, h.2⟩

theorem acts_define : ∀ (d : FunctionDef) (p : Spot) {H : Sizes → Prop},
    Acts code p H (Binder.ofDefinition d) (Mark.ofDefinition d) fun c => define c d p.scope
  | ⟨_, _, params, _, decorators, returns, _⟩, p, _ =>
    .bind (acts_evalList decorators p).discard fun _ => .bind (acts_evalParams params p) fun _ =>
      .meets (acts_evalOption returns p).discard fun _ => .define _ _ fun _ h => h.1.2

theorem acts_bindTarget : ∀ (target : Expr) {ty : Ty} (p : Spot) {H : Sizes → Prop}, (∀ z, H z → ty.Within z) →
    Acts code p H (Binder.ofTarget p.inner target) (Mark.ofTarget target) fun c => bindTarget c target ty p.scope
  | .name span id, ty, _, _, hty => .name ⟨id, span⟩ ty .variable hty
  | .tuple _ elts, _, p, _, _ | .list _ elts, _, p, _, _ =>
    .read fun _ => acts_bindAll elts p fun _ _ => Library.within_elementType _ _
  | .starred _ value, _, p, _, _ =>
    .last (acts_instanceOf _ fun hs => hs.library.list) fun _ => acts_bindTarget value p fun _ h => h.2
  | .attribute _ value attr, ty, p, _, hty =>
    .first (acts_eval value p) fun receiver => .setAttribute receiver attr ty fun z h => hty z h.1
  | .subscript _ value index, _, p, _, _ => .bind (acts_eval value p).discard fun _ => (acts_eval index p).discard
  | .int _ _, _, _, _, _ | .float _ _, _, _, _, _ | .imaginary _ _, _, _, _, _ | .str _ _, _, _, _, _
  | .bytes _ _, _, _, _, _ | .bool _ _, _, _, _, _ | .none _, _, _, _, _ | .ellipsis _, _, _, _, _
  | .slice _ _ _ _, _, _, _, _ | .call _ _ _, _, _, _, _ | .binary _ _ _ _, _, _, _, _ | .unary _ _ _, _, _, _, _
  | .boolean _ _ _, _, _, _, _ | .compare _ _ _ _, _, _, _, _ | .conditional _ _ _ _, _, _, _, _ | .lambda _ _, _, _, _, _
  | .set _ _, _, _, _, _ | .dict _ _, _, _, _, _ | .listComp _ _ _, _, _, _, _ | .setComp _ _ _, _, _, _, _
  | .generator _ _ _, _, _, _, _ | .dictComp _ _ _ _, _, _, _, _ | .yield _ _, _, _, _, _ | .yieldFrom _ _, _, _, _, _
  | .await _ _, _, _, _, _ | .named _ _ _, _, _, _, _ => .report _ _ _ (by decide)

theorem acts_bindAll : ∀ (targets : List Expr) {ty : Ty} (p : Spot) {H : Sizes → Prop}, (∀ z, H z → ty.Within z) →
    Acts code p H (Binder.ofTargets p.inner targets) (Mark.ofTargets targets) fun c => bindAll c targets ty p.scope
  | [], _, _, _, _ => .pure fun _ _ => trivial
  | target :: more, _, p, _, hty => (acts_bindTarget target p hty).bind fun _ => acts_bindAll more p fun z h => hty z h.1

end

theorem acts_bindEach {targets types} (h : targets.length = types.length) (p : Spot)
    (htypes : ∀ z, H z → ∀ ty ∈ types, ty.Within z) :
    Acts code p H (Binder.ofTargets p.inner targets) (Mark.ofTargets targets) fun c => bindEach c targets types p.scope := by
  induction targets generalizing types with
  | nil => exact .pure fun _ _ => trivial
  | cons target more ih =>
    cases types with
    | nil => contradiction
    | cons ty types =>
      refine (acts_bindTarget target p fun z h => htypes z h ty mem_cons_self).next (ih (Nat.succ.inj h) fun z h ty' hty' => ?_)
      exact htypes z h ty' (mem_cons_of_mem ty hty')

theorem acts_assign (targets : List Expr) {parts whole} (p : Spot)
    (hparts : ∀ z, H z → OptionAll (fun types => ∀ ty ∈ types, ty.Within z) parts)
    (hwhole : ∀ z, H z → whole.Within z) :
    Acts code p H (Binder.ofTargets p.inner targets) (Mark.ofTargets targets) fun c =>
      assign c targets parts whole p.scope := by
  induction targets with
  | nil => exact .pure fun _ _ => trivial
  | cons target more ih =>
    have hbind : Acts code p H (Binder.ofTargets p.inner (target :: more)) (Mark.ofTargets (target :: more)) fun c => (do
        bindTarget c target whole p.scope
        assign c more parts whole p.scope : Infer Unit) :=
      (acts_bindTarget target p hwhole).next ih
    cases parts with
    | none => cases target <;> exact hbind
    | some types =>
      -- a display takes the parts one by one if it has as many elements
      have heach (elts : List Expr) {b : List Binder} {l : List Mark}
          (hb : b = Binder.ofTargets p.inner elts ++ Binder.ofTargets p.inner more)
          (hl : l = Mark.ofTargets elts ++ Mark.ofTargets more)
          (hbind : Acts code p H b l fun c => (do
            bindTarget c target whole p.scope
            assign c more (some types) whole p.scope : Infer Unit)) :
          Acts code p H b l fun c => (do
            if elts.length = types.length && !Expr.hasStarred elts then bindEach c elts types p.scope
            else bindTarget c target whole p.scope
            assign c more (some types) whole p.scope : Infer Unit) := by
        by_cases hlength : (elts.length = types.length && !Expr.hasStarred elts) = true
        · simp only [if_pos hlength]
          rw [hb, hl]
          simp only [Bool.and_eq_true, decide_eq_true_eq] at hlength
          exact (acts_bindEach hlength.1 p fun z h => hparts z h types rfl).next ih
        · simp only [if_neg hlength]
          exact hbind
      cases target with
      | tuple span elts | list span elts => exact heach elts rfl rfl hbind
      | _ => exact hbind

/-! ### Statements -/

theorem acts_withItem (item : WithItem) (p : Spot) (hp : p.inner = false) :
    Acts code p H (Binder.ofWithItem item) (Mark.ofWithItem item) fun c => (do
      let context ← eval c item.context p.scope
      match item.target with
      | some target => bindTarget c target (← enterType c.apply context) p.scope
      | none => return () : Infer Unit) := by
  unfold Binder.ofWithItem
  refine .bind (acts_eval item.context p) fun context => ?_
  cases item.target with
  | none => exact .pure fun _ _ => trivial
  | some target =>
    rw [← hp]
    exact .last (acts_enterType fun _ h => h.2) fun ty => acts_bindTarget target p fun _ h => h.2

theorem acts_assignDisplay (targets elts : List Expr) (whole : Library → ClassId) (b : ScopeId)
    (hwhole : ∀ {s : Analysis}, s.Closed code → (whole s.library).index < s.types.classes.size) :
    Acts code (.ofBlock b) H (Binder.ofExprs elts ++ Binder.ofTargets false targets) (Mark.ofExprs elts ++ Mark.ofTargets targets)
      fun c => (do
        let types ← evalList c elts b
        assign c targets (if Expr.hasStarred elts then none else some types) (← instanceOf whole) b : Infer Unit) := by
  refine .bind (acts_evalList elts (.ofBlock b)) fun types => .last (acts_instanceOf whole hwhole) fun ty => ?_
  refine acts_assign targets (.ofBlock b) (fun z h => ?_) fun _ h => h.2
  split
  · exact optionAll_none
  · exact optionAll_some.2 h.1.2

mutual

theorem acts_exec : ∀ (st : Stmt) (b : ScopeId) {H : Sizes → Prop}, code.Has (.stmt st) →
    Acts code (.ofBlock b) H (Binder.ofStmt st) (Mark.ofStmt st) fun c => exec c st b
  | .expr _ value, b, _, _ => (acts_eval value (.ofBlock b)).discard
  | .assign _ targets value, b, _, _ => by
    cases value with
    | tuple span elts => exact acts_assignDisplay targets elts _ b fun hs => hs.library.tuple
    | list span elts => exact acts_assignDisplay targets elts _ b fun hs => hs.library.list
    | _ =>
      refine .bind (acts_eval _ (.ofBlock b)) fun ty => ?_
      exact acts_assign targets (.ofBlock b) (fun _ _ => optionAll_none) fun _ h => h.2
  | .augAssign _ target op value, b, _, _ =>
    .bind (acts_eval target (.ofBlock b)) fun _ => .bind (acts_eval value (.ofBlock b)) fun _ =>
      acts_bindTarget target (.ofBlock b) fun _ h => Ty.Within.binary h.1.2 h.2
  | .annAssign _ target annotation none, b, _, _ =>
    .first (acts_eval annotation (.ofBlock b)).discard fun _ => .pure fun _ _ => trivial
  | .annAssign _ target annotation (some value), b, _, _ => by
    simp only [exec, evalOption, bind_map_left]
    refine .bind (acts_eval annotation (.ofBlock b)).discard fun _ => ?_
    exact .bind (acts_eval value (.ofBlock b)) fun ty => acts_bindTarget target (.ofBlock b) fun _ h => h.2
  | .return _ value, b, _, _ =>
    .first (acts_evalOption value (.ofBlock b)) fun _ => .addReturn _ fun _ h => OptionAll.getD h.2 Ty.within_prim
  | .pass _, _, _, _ | .break _, _, _, _ | .continue _, _, _, _ => .pure fun _ _ => trivial
  | .cond _ test body orElse, b, _, h | .while _ test body orElse, b, _, h => by
    obtain ⟨-, hbody, helse⟩ : code.Has (.expr test) ∧ code.HasBlock body ∧ code.HasBlock orElse := by
      simpa [Node.children, Node.belowStmt] using code.children h
    refine .bind (acts_eval test (.ofBlock b)).discard fun _ => ?_
    exact .bind (acts_execBlock body b hbody) fun _ => acts_execBlock orElse b helse
  | .for _ target iter body orElse _, b, _, h => by
    obtain ⟨-, hbody, helse⟩ : (code.Has (.expr target) ∧ code.Has (.expr iter)) ∧
        code.HasBlock body ∧ code.HasBlock orElse := by
      simpa [Node.children, Node.belowStmt, and_assoc] using code.children h
    refine .bind (acts_eval iter (.ofBlock b)) fun _ => .read fun _ => ?_
    refine .bind (acts_bindTarget target (.ofBlock b) fun _ _ => Library.within_elementType _ _) fun _ => ?_
    exact .bind (acts_execBlock body b hbody) fun _ => acts_execBlock orElse b helse
  | .function d, b, _, _ =>
    .binds (acts_define d (.ofBlock b)) fun f => .name d.name (.function f) .function fun _ h => Ty.within_function.2 h.2
  | .classDef ⟨span, name, bases, keywords, body, decorators⟩, b, _, h => by
    have hd := code.child h (c := .cls ⟨span, name, bases, keywords, body, decorators⟩)
      (by simp [Node.children, Node.belowStmt])
    have hbody : code.HasBlock body := fun st hst => code.child hd (by simp [Node.children, Node.ofStmts, hst])
    refine .bind (acts_evalList decorators (.ofBlock b)).discard fun _ => ?_
    refine .bind (acts_evalList bases (.ofBlock b)) fun types => .bind (acts_evalList _ (.ofBlock b)).discard fun _ => ?_
    exact .cls (f := fun inner c => execBlock c body inner) _ types name hd (fun _ h => h.1.2) fun inner =>
      acts_execBlock body inner hbody
  | .importModules _ names, b, _, _ => by
    rw [Mark.ofStmt, map_eq_flatMap]
    exact .forM fun a _ => acts_importModule a
  | .importFrom span module level names, _, _, _ => acts_importFrom span module level names
  | .global _ names, b, _, _ => by
    rw [Binder.ofStmt, map_eq_flatMap]
    exact .forM_binds fun n _ => .global n
  | .nonlocal _ names, b, _, _ => by
    rw [Binder.ofStmt, map_eq_flatMap]
    exact .forM_binds fun n _ => .nonlocal n
  | .try _ body handlers orElse finalBody, b, _, h => by
    obtain ⟨hbody, hhandlers, helse, hfinal⟩ : code.HasBlock body ∧
        (∀ k ∈ handlers, code.Has (.handler k)) ∧ code.HasBlock orElse ∧ code.HasBlock finalBody := by
      simpa [Node.children, Node.belowStmt] using code.children h
    refine .bind (acts_execBlock body b hbody) fun _ => .bind (acts_execHandlers handlers b hhandlers) fun _ => ?_
    exact .bind (acts_execBlock orElse b helse) fun _ => acts_execBlock finalBody b hfinal
  | .with _ items body _, b, _, h => by
    obtain ⟨-, hbody⟩ : (∀ i ∈ items, code.Has (.withItem i)) ∧ code.HasBlock body := by
      simpa [Node.children, Node.belowStmt] using code.children h
    exact .bind (.forM fun item _ => acts_withItem item (.ofBlock b) rfl) fun _ => acts_execBlock body b hbody
  | .raise _ exception cause, b, _, _ =>
    .bind (acts_evalOption exception (.ofBlock b)).discard fun _ => (acts_evalOption cause (.ofBlock b)).discard
  | .assert _ test message, b, _, _ =>
    .bind (acts_eval test (.ofBlock b)).discard fun _ => (acts_evalOption message (.ofBlock b)).discard
  | .delete _ targets, b, _, _ => (acts_evalList targets (.ofBlock b)).discard

theorem acts_execBlock : ∀ (body : List Stmt) (b : ScopeId) {H : Sizes → Prop}, code.HasBlock body →
    Acts code (.ofBlock b) H (Binder.ofBlock body) (Mark.ofBlock body) fun c => execBlock c body b
  | [], _, _, _ => .pure fun _ _ => trivial
  | st :: more, b, _, h =>
    .bind (acts_exec st b (h st mem_cons_self)) fun _ => acts_execBlock more b fun st' hst' => h st' (mem_cons_of_mem st hst')

theorem acts_execHandlers : ∀ (handlers : List ExceptHandler) (b : ScopeId) {H : Sizes → Prop},
    (∀ k ∈ handlers, code.Has (.handler k)) →
    Acts code (.ofBlock b) H (Binder.ofHandlers handlers) (Mark.ofHandlers handlers) fun c => execHandlers c handlers b
  | [], _, _, _ => .pure fun _ _ => trivial
  | ⟨_, type, name, body⟩ :: more, b, _, h => by
    obtain ⟨hhandler, hmore⟩ := forall_mem_cons.1 h
    have hblock : code.HasBlock body := fun st hst => code.child hhandler (by simp [Node.children, Node.ofStmts, hst])
    have hrest {H : Sizes → Prop} {caught : Ty} (hcaught : ∀ z, H z → caught.Within z) : Acts code (.ofBlock b) H
        (name.toList.map .bound ++ (Binder.ofBlock body ++ Binder.ofHandlers more))
        (Mark.ofBlock body ++ Mark.ofHandlers more) fun c => (do
          match name with
          | some name => bindName b name (caughtInstances caught) .variable
          | none => pure ()
          execBlock c body b
          execHandlers c more b : Infer Unit) := by
      have hbody {H : Sizes → Prop} := (acts_execBlock (H := H) body b hblock).bind fun _ => acts_execHandlers more b hmore
      cases name with
      | none => exact hbody
      | some name =>
        have hname : Acts code (.ofBlock b) H [.bound name] [] fun _ => bindName b name (caughtInstances caught) .variable :=
          .name name _ .variable fun z h => within_caughtInstances (hcaught z h)
        exact (hname.bind fun _ => hbody :)
    cases type with
    | none => exact hrest fun _ _ => Ty.within_unknown
    | some e =>
      cases e with
      | tuple span elts => exact .bind (acts_evalList elts (.ofBlock b)) fun _ => hrest fun _ h => Ty.within_union h.2
      | _ => exact .bind (acts_eval _ (.ofBlock b)) fun _ => hrest fun _ h => h.2

end

/-! ### Code of any kind -/

theorem acts_eval_all (e : Expr) (p : Spot) :
    Acts .all p (fun _ => True) (Binder.ofExpr e) (Mark.ofExpr e) fun c => eval c e p.scope :=
  acts_eval e p

theorem acts_exec_all (st : Stmt) (b : ScopeId) :
    Acts .all (.ofBlock b) (fun _ => True) (Binder.ofStmt st) (Mark.ofStmt st) fun c => exec c st b :=
  acts_exec st b trivial

theorem acts_execBlock_all (body : List Stmt) (b : ScopeId) :
    Acts .all (.ofBlock b) (fun _ => True) (Binder.ofBlock body) (Mark.ofBlock body) fun c => execBlock c body b :=
  acts_execBlock body b fun _ _ => trivial

end Infer

end TypeInfer
