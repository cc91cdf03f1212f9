/-
Interpreting code is a run. What is put together from the interpreter's steps is a run, and what
it gives is within the tables it ends with (`Acts.sat`); so is the evaluation of an expression
and the execution of statements, of any code that the setting has.
-/
import TypeInfer.Proofs.Actions

namespace TypeInfer

namespace Setting

variable {F : Setting} {s : Analysis} {scope : ScopeId}

theorem sat_comprehensionScope (hscope : scope.index < s.scopes.scopes.size) :
    F.Sat [] (fun _ => Infer.comprehensionScope scope) s fun id t => id.index < t.scopes.scopes.size :=
  .get_bind (sat_newScope .comprehension _ hscope)

theorem runs_classDef {d : ClassDef} {bases : List Ty} (name : Ident) {f : ScopeId → Calls → Infer Unit} {l : List Mark}
    (hd : F.code.Has (.cls d)) (hbases : ∀ ty ∈ bases, ty.Within s.sizes)
    (hscope : scope.index < s.scopes.scopes.size)
    (hf : ∀ body t, Run F.code s t → body.index < t.scopes.scopes.size → F.Runs l (f body) t) :
    F.Runs (.cls d :: l) (fun c => do
      let id ← modifyGet fun s => (s.defineClass d bases scope).swap
      Infer.bindName scope name (.cls id) .cls
      f ((← get).types.cls id).scope c) s := by
  have hdefined : F.Sat [.cls d] (fun _ => modifyGet fun s => (s.defineClass d bases scope).swap) s
      fun id t => id.index < t.types.classes.size := by
    refine .modifyGet (fun _ => .defineClass hd hbases hscope) (fun _ => ?_) (.cls d bases scope)
    simp [Analysis.defineClass, Analysis.newScope, Analysis.addClass, TypeStore.addClass]
  refine hdefined.append fun id t ht hid => ?_
  refine (runs_bindName name .cls (ht.scope hscope) (Ty.within_cls.2 hid)).bind fun _ u hu _ => ?_
  exact .of_closed fun hclosed => .get_bind (hf _ u (ht.trans hu) (hclosed.tables.cls id).scope)

end Setting

open Setting in
theorem Acts.sat {F : Setting} (happly : F.Applies) {α : Type} [Bounded α] {p : Spot}
    {H : Sizes → Prop} {b : List Binder} {l : List Mark} {m : Calls → Infer α} (h : Acts F.code p H b l m) {s : Analysis}
    (hload : p.inner = false → F.Loads) (hscope : p.scope.index < s.scopes.scopes.size)
    (hH : ∀ z, s.sizes ≤ z → H z) (hl : Mark.AllIn F.code l) : F.Sat l m s fun a t => Bounded.Within t.sizes a := by
  induction h generalizing s with
  | pure within => exact .pure (within _ (hH _ (Sizes.le_refl _)))
  | read _ hrest =>
    refine .of_closed fun hs => .get_bind (hrest s hload hscope (fun z hz => ?_) hl)
    exact ⟨hH z hz, hs, hH _ (Sizes.le_refl _), hz⟩
  | bind _ _ hm hrest =>
    obtain ⟨hl, hl'⟩ := Mark.allIn_append.1 hl
    refine (hm hload hscope hH hl).append fun a t ht ha => hrest a hload (ht.scope hscope) (fun z hz => ?_) hl'
    exact ⟨hH z (Sizes.le_trans ht.sizes hz), Bounded.mono ha hz⟩
  | assuming _ weaker hrun => exact hrun hload hscope (fun z hz => weaker z (hH z hz)) hl
  | refer node ids within => exact runs_addReferences node (within _ (hH _ (Sizes.le_refl _)))
  | addReturn ty within => exact runs_addReturn (within _ (hH _ (Sizes.le_refl _)))
  | addReceiver f cls within =>
    refine runs_modify (fun _ => .addReceiver f (within _ (hH _ (Sizes.le_refl _)))) ?_
    exact { SameRecords.refl s with bodies := fun id => s.types.body_modifyFun f id fun _ => rfl }
  | setAttribute receiver attr value within => exact runs_setAttribute receiver attr (within _ (hH _ (Sizes.le_refl _)))
  | apply f receiver args function bound within =>
    have hs := hH _ (Sizes.le_refl s.sizes)
    exact happly (function _ hs) (bound _ hs) (within _ hs)
  | load path source => exact Loads.module (hload rfl) source
  | search names dir => exact sat_loadSegments (hload rfl) optionAll_none names dir optionAll_none
  | lookup name site => exact gives_lookupName name site _
  | define d defaults within =>
    refine .modifyGet (fun _ => ?_) (fun _ => ?_) (.define d defaults _)
    · exact .defineFunction (hl _ List.mem_cons_self) (within _ (hH _ (Sizes.le_refl _))) hscope
    · exact show s.types.funs.size < (s.types.funs.push _).size by simp
  | report error message span notFinal => exact runs_report message span notFinal (hl _ List.mem_cons_self)
  | skip error span => exact runs_skip error span
  | name n ty kind within => exact runs_bindName n kind hscope (within _ (hH _ (Sizes.le_refl _)))
  | named target ty within =>
    have hty := within _ (hH _ (Sizes.le_refl s.sizes))
    refine .of_closed fun hs => .get_bind ?_
    refine (runs_bindName target .variable (hs.tables.enclosingBlock hscope) hty).bind fun _ t ht _ => ?_
    exact .pure (ht.within hty)
  | comprehension _ hrest =>
    refine (sat_comprehensionScope hscope).bind fun id t ht hid => hrest id nofun hid (fun z hz => ?_) hl
    exact hH z (Sizes.le_trans ht.sizes hz)
  | @cls _ _ d bases name f _ _ has within _ hrest =>
    refine runs_classDef name has (within _ (hH _ (Sizes.le_refl _))) hscope fun body t ht hbody => ?_
    exact hrest body (fun _ => hload rfl) hbody (fun z hz => hH z (Sizes.le_trans ht.sizes hz)) (List.forall_mem_cons.1 hl).2
  | global n => exact runs_modify (fun _ => .declareGlobal _ n.name) (.scopes s s.references _)
  | «nonlocal» n => exact runs_modify (fun _ => .declareNonlocal _ n.name) (.scopes s s.references _)
  | path unnamed => exact runs_importPath (hload rfl) unnamed hscope
  | star m => exact runs_importStar m hscope
  | unlisted _ _ hrun => exact hrun hload hscope hH hl

namespace Setting

variable {F : Setting} {s : Analysis} {scope : ScopeId}

section

variable (happly : F.Applies)
include happly

theorem gives_eval (e : Expr) (h : F.code.Has (.expr e)) (hscope : scope.index < s.scopes.scopes.size) :
    F.Gives (Mark.ofExpr e) (fun c => Infer.eval c e scope) s :=
  (Infer.acts_eval e ⟨scope, scope, true⟩).sat happly nofun hscope (fun _ _ => trivial) (Mark.allOf_eval h).allIn

theorem runs_bindTarget (target : Expr) {ty : Ty} (h : F.code.HasTarget target)
    (hscope : scope.index < s.scopes.scopes.size) (hty : ty.Within s.sizes) :
    F.Runs (Mark.ofTarget target) (fun c => Infer.bindTarget c target ty scope) s :=
  (Infer.acts_bindTarget target ⟨scope, scope, true⟩ fun _ h => h).sat happly nofun hscope (fun _ hz => hty.mono hz)
    (Mark.allOf_target h).allIn

theorem runs_exec (hload : F.Loads) (st : Stmt) (h : F.code.Has (.stmt st))
    (hscope : scope.index < s.scopes.scopes.size) : F.Runs (Mark.ofStmt st) (fun c => Infer.exec c st scope) s :=
  (Infer.acts_exec st scope h).sat happly (fun _ => hload) hscope (fun _ _ => trivial) (Mark.allIn_node h)

theorem runs_execBlock (hload : F.Loads) (body : List Stmt) (h : F.code.HasBlock body)
    (hscope : scope.index < s.scopes.scopes.size) : F.Runs (Mark.ofBlock body) (fun c => Infer.execBlock c body scope) s :=
  (Infer.acts_execBlock body scope h).sat happly (fun _ => hload) hscope (fun _ _ => trivial) (Mark.allIn_block h)

end

end Setting

end TypeInfer
