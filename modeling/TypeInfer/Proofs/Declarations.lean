/-
The interpreter honours declarations. Whatever code is run in a block, its binders are placed
(`Acts.keeps`); applications and loads run code in blocks of their own. There is one exception: a
module that is imported under its own name is bound in the block itself.
-/
import TypeInfer.Proofs.Confinement

namespace TypeInfer

variable {s : Analysis} {b : ScopeId}

open Infer (eval exec apply load)

/-- A name that is declared global is bound in the scope of the module, and nowhere else. -/
theorem Analysis.bind_of_isGlobal {code : Code} {s : Analysis} (hs : s.Closed code) {b : ScopeId} {name : String}
    (hb : b.index < s.scopes.scopes.size) (hglobal : s.scopes.isGlobal b name) (node : Span) (ty : Ty) (kind : BindingKind) :
    let bound := s.bind (s.scopes.targetScope b name) name node ty kind
    s.scopes.targetScope b name = s.scopes.moduleScope b ∧ bound.2 ∈ bound.1.scopes.slot (s.scopes.moduleScope b) name ∧
      ∀ id, id ≠ s.scopes.moduleScope b → bound.1.scopes.slot id name = s.scopes.slot id name := by
  have htarget : s.scopes.targetScope b name = s.scopes.moduleScope b := by
    rw [ScopeTable.targetScope, if_pos hglobal]
  rw [htarget]
  refine ⟨rfl, s.mem_slot_bind _ _ _ _ _ (hs.tables.moduleScope hb), fun id hid => ?_⟩
  exact s.slot_bind_of_ne _ _ _ _ _ hid.symm name

theorem Infer.exists_run_importModules {c n m} (hb : b.index < s.scopes.scopes.size)
    (hm : s.library.module? n.name = some m) (span node : Span) :
    ∃ t, (exec c (.importModules span [⟨node, [n], none⟩]) b).run s = some ((), t) ∧
      t.scopes.slot b n.name ≠ [] ∧ ∀ id, b ≠ id → t.scopes.slot id n.name = s.scopes.slot id n.name := by
  have hname : dottedName [n] = n.name := rfl
  let bound := s.bind b n.name (Span.library (s.types.module m).qname) (.module m) .module
  refine ⟨bound.1.addReferences n.span [bound.2], ?_, ?_, fun id hid => ?_⟩
  · simp [exec, importModule, loadModule, hname, hm, loadLibrary, bindSegment, bindIn, addReferences, bound]
  · rw [Analysis.slot_addReferences]
    exact List.ne_nil_of_mem (s.mem_slot_bind _ _ _ _ _ hb)
  · rw [Analysis.slot_addReferences]
    exact s.slot_bind_of_ne _ _ _ _ _ hid _

namespace Analysis

section

variable (s : Analysis) (name : String)

def ownModule : ScopeId := ⟨s.scopes.scopes.size⟩

def ownBody : ScopeId := ⟨s.scopes.scopes.size + 1⟩

/-- A function is entered in a module of its own. -/
def inOwnBody : Analysis := ((s.newScope .module ScopeTable.globalScope "m").1.newScope .function s.ownModule "m.f").1

/-- The function has declared a name global. -/
def declaring : Analysis := s.inOwnBody.declareGlobal s.ownBody name

theorem ownBody_ne_ownModule : s.ownBody ≠ s.ownModule := by
  intro heq
  have hindex := congrArg ScopeId.index heq
  simp [ownModule, ownBody] at hindex

theorem size_inOwnBody : s.inOwnBody.scopes.scopes.size = s.scopes.scopes.size + 2 := by
  simp [inOwnBody, newScope, ScopeTable.newScope]

theorem size_declaring : (s.declaring name).scopes.scopes.size = s.scopes.scopes.size + 2 := by
  rw [← s.size_inOwnBody]
  simp [declaring, declareGlobal, ScopeTable.declareGlobal]

theorem scope_ownBody : (s.declaring name).scopes.scope s.ownBody =
    { kind := .function, parent := some s.ownModule, path := "m.f", globals := [name] } := by
  have hthere : s.ownBody.index < s.inOwnBody.scopes.scopes.size := by
    rw [size_inOwnBody]
    exact Nat.lt_succ_self _
  have hnew : s.inOwnBody.scopes.scope s.ownBody = { kind := .function, parent := some s.ownModule, path := "m.f" } :=
    (ScopeTable.scope_newScope _ _ _ _ _).trans (if_pos (by simp [ownBody, newScope, ScopeTable.newScope]))
  rw [declaring, declareGlobal, ScopeTable.declareGlobal, ScopeTable.scope_modifyScope, if_pos ⟨rfl, hthere⟩, hnew]
  rfl

theorem scope_ownModule : (s.declaring name).scopes.scope s.ownModule =
    { kind := .module, parent := some ScopeTable.globalScope, path := "m" } := by
  have hnew : s.inOwnBody.scopes.scope s.ownModule = (s.newScope .module ScopeTable.globalScope "m").1.scopes.scope s.ownModule :=
    (ScopeTable.scope_newScope _ _ _ _ _).trans (if_neg (by simp [ownModule, newScope, ScopeTable.newScope]))
  rw [declaring, declareGlobal, ScopeTable.declareGlobal, ScopeTable.scope_modifyScope,
    if_neg fun h => s.ownBody_ne_ownModule h.1, hnew]
  exact (s.scopes.scope_newScope _ _ _ _).trans (if_pos rfl)

theorem isBlock_ownBody : (s.declaring name).scopes.IsBlock s.ownBody := by
  refine ⟨?_, by simp [scope_ownBody]⟩
  rw [size_declaring]
  exact Nat.lt_succ_self _

theorem isGlobal_ownBody : (s.declaring name).scopes.isGlobal s.ownBody name := by
  rw [ScopeTable.isGlobal, scope_ownBody]
  simp

theorem moduleScope_ownBody : (s.declaring name).scopes.moduleScope s.ownBody = s.ownModule := by
  rw [ScopeTable.moduleScope, ScopeTable.ancestors, ScopeTable.ancestorsFrom, scope_ownBody]
  change ((s.ownBody :: ScopeTable.ancestorsFrom _ (s.scopes.scopes.size + 1) s.ownModule).find? _).getD _ = _
  rw [ScopeTable.ancestorsFrom, List.find?_cons, List.find?_cons, scope_ownBody, scope_ownModule]
  rfl

theorem targetScope_ownBody : (s.declaring name).scopes.targetScope s.ownBody name = s.ownModule := by
  rw [ScopeTable.targetScope, if_pos (s.isGlobal_ownBody name), moduleScope_ownBody]

variable {s} in
theorem closed_declaring {code} (hs : s.Closed code) : (s.declaring name).Closed code := by
  have hmodule : (s.newScope .module ScopeTable.globalScope "m").1.Closed code := hs.newScope .module "m" hs.tables.global
  have hthere : s.ownModule.index < (s.newScope .module ScopeTable.globalScope "m").1.scopes.scopes.size := by
    simp [ownModule, newScope, ScopeTable.newScope]
  exact (hmodule.newScope .function "m.f" hthere).declareGlobal s.ownBody name

theorem slot_ownModule (n : String) : (s.declaring name).scopes.slot s.ownModule n = [] := by
  rw [ScopeTable.slot, scope_ownModule]
  simp

end

/-- `os` is a module of the library. -/
theorem exists_module_os {W config s} (h : start W config = .ok s) :
    ∃ m, s.library.module? "os" = some m := by
  have hos : (Library.installed.1.module? "os").isSome := by decide +kernel
  have hlibrary : s.library = Library.installed.1 := by
    obtain ⟨work, heq, -⟩ := start_cases h
    rw [heq, fresh_eq]
  rw [hlibrary]
  exact Option.isSome_iff_exists.1 hos

end Analysis

/-- From any state, however deep applications and loads nest, each binder of a statement or expression
is placed: a name goes where the block says, also from within a comprehension; only a module that is
found on a path goes to the block itself. Loads and applications run their own code in a block of
its own. A global name goes to the scope of the module and to no other. -/
theorem bindings_honour_declarations (depth : Nat) (s : Analysis) :
    (∀ (b : ScopeId) (st : Stmt) (t : Analysis), s.scopes.IsBlock b →
      (exec ⟨apply depth, load depth⟩ st b).run s = some ((), t) → Placed b (Binder.ofStmt st) s t) ∧
    (∀ (b scope : ScopeId) (e : Expr) (ty : Ty) (t : Analysis), s.scopes.LiesIn b scope →
      (eval ⟨apply depth, load depth⟩ e scope).run s = some (ty, t) →
      s.scopes.enclosingBlock scope = b ∧ Placed b (Binder.ofExpr e) s t) ∧
    (∀ (path : Path) (r : Loaded) (t : Analysis), (load depth path).run s = some (r, t) → ∀ b, Placed b [] s t) ∧
    (∀ (f : FunId) (receiver : Option Ty) (args : CallArgs) (ty : Ty) (t : Analysis),
      (apply depth f receiver args).run s = some (ty, t) → ∀ b, Placed b [] s t) ∧
    ∀ (code : Code) (b : ScopeId) (n : Ident) (ty : Ty) (kind : BindingKind), s.Closed code → s.scopes.IsBlock b →
      s.scopes.isGlobal b n.name →
      let bound := s.bind (s.scopes.targetScope b n.name) n.name n.span ty kind
      s.scopes.targetScope b n.name = s.scopes.moduleScope b ∧
        bound.2 ∈ bound.1.scopes.slot (s.scopes.moduleScope b) n.name ∧
        ∀ id, id ≠ s.scopes.moduleScope b → bound.1.scopes.slot id n.name = s.scopes.slot id n.name := by
  -- with an empty library every state is guarded
  have hs : (Guard.own ⟨#[], #[]⟩).Holds s := .of_empty s
  have hc : Calls.Stay ⟨#[], #[]⟩ ⟨apply depth, load depth⟩ := Infer.stay_calls depth
  refine ⟨fun b st t hb hrun => ?_, fun b scope e ty t hscope hrun => ?_, fun path r t hrun => ?_,
    fun f receiver args ty t hrun => ?_, fun code b n ty kind hs hb hglobal => ?_⟩
  · exact ((Infer.acts_exec_all st b).keeps hc s hs (Nat.zero_le _) () t hrun).placed (Spot.in_ofBlock hb)
  · have hspot := Spot.in_of_liesIn hscope
    exact ⟨hscope.enclosingBlock, ((Infer.acts_eval_all e _).keeps hc s hs (Nat.zero_le _) ty t hrun).placed hspot⟩
  · exact (hc.load path s hs r t hrun).1.apart
  · exact (hc.apply f receiver args s hs ty t hrun).apart
  · exact Analysis.bind_of_isGlobal hs hb.there hglobal n.span ty kind

/-- The statement `os = (os := 1)`. -/
def Stmt.assignTwice : Stmt := .assign default [.name default "os"] (.named default ⟨"os", default⟩ (.int default "1"))

theorem bindings_honour_declarations_globalName : ∃ s t : Analysis,
    Analysis.start { files := {} } .hermetic = .ok s ∧
    (s.declaring "os").Closed .all ∧ (s.declaring "os").scopes.IsBlock s.ownBody ∧
    (s.declaring "os").scopes.isGlobal s.ownBody "os" ∧
    (exec ⟨apply 4, load 4⟩ .assignTwice s.ownBody).run (s.declaring "os") = some ((), t) ∧
    Placed s.ownBody [.bound ⟨"os", default⟩, .bound ⟨"os", default⟩] (s.declaring "os") t ∧
    (s.declaring "os").scopes.targetScope s.ownBody "os" = s.ownModule := by
  have hstart := Analysis.start_hermetic { files := {} }
  generalize Analysis.fresh _ _ = s at hstart
  have hclosed := Analysis.closed_declaring "os" (Analysis.closed_all hstart)
  have hblock := s.isBlock_ownBody "os"
  have hglobal := s.isGlobal_ownBody "os"
  obtain ⟨t, hexec⟩ : ∃ t, (exec ⟨apply 4, load 4⟩ .assignTwice s.ownBody).run (s.declaring "os") = some ((), t) :=
    ⟨_, rfl⟩
  obtain ⟨hplaced, -, -, -, hdeclared⟩ := bindings_honour_declarations 4 (s.declaring "os")
  obtain ⟨htarget, -, -⟩ := hdeclared .all _ ⟨"os", default⟩ .unknown .variable hclosed hblock hglobal
  exact ⟨s, t, hstart, hclosed, hblock, hglobal, hexec, hplaced _ _ t hblock hexec,
    htarget.trans (s.moduleScope_ownBody "os")⟩

/-- A module that is imported under a global name is bound in the block, not in the module. -/
theorem import_of_global_name_stays_in_block : ∃ s t u : Analysis,
    Analysis.start { files := {} } .hermetic = .ok s ∧
    (exec ⟨apply 4, load 4⟩ (.global default [⟨"os", default⟩]) s.ownBody).run s.inOwnBody = some ((), t) ∧
    t.scopes.isGlobal s.ownBody "os" ∧ t.scopes.targetScope s.ownBody "os" = s.ownModule ∧
    (exec ⟨apply 4, load 4⟩ (.importModules default [⟨default, [⟨"os", default⟩], none⟩]) s.ownBody).run t =
      some ((), u) ∧
    u.scopes.slot s.ownBody "os" ≠ [] ∧ u.scopes.slot s.ownModule "os" = [] := by
  have hstart := Analysis.start_hermetic { files := {} }
  generalize Analysis.fresh _ _ = s at hstart
  obtain ⟨m, hm⟩ := Analysis.exists_module_os hstart
  have hblock := s.isBlock_ownBody "os"
  obtain ⟨u, hexec, hbody, hother⟩ :=
    Infer.exists_run_importModules (c := ⟨apply 4, load 4⟩) (n := ⟨"os", default⟩) hblock.there hm default default
  refine ⟨s, s.declaring "os", u, hstart, rfl, s.isGlobal_ownBody "os", s.targetScope_ownBody "os", hexec, hbody, ?_⟩
  exact (hother _ s.ownBody_ne_ownModule).trans (s.slot_ownModule "os" "os")

end TypeInfer
