/-
Applying a function and loading a file are runs. What they need of the calls that their code makes
is said of the states in which it starts (`Setting.Deeper`), so calls may go one level deeper
(`Setting.Follows.next`).
-/
import TypeInfer.Proofs.Interpret

namespace TypeInfer

open List

/-! ### The parameter types of a call -/

section

variable {z : Sizes} {lib : Library} {default? : Option Ty} {keywords : List (String × Ty)}

theorem takeKey_eq_some {α : Type} {key : String} {l rest : List (String × α)} {a : α}
    (h : takeKey key l = some (a, rest)) : (∃ k, (k, a) ∈ l) ∧ ∀ e ∈ rest, e ∈ l := by
  induction l generalizing rest with
  | nil => contradiction
  | cons e l ih =>
    obtain ⟨k, b⟩ := e
    rw [takeKey] at h
    split at h
    · obtain ⟨rfl, rfl⟩ := Prod.mk.inj (Option.some.inj h)
      exact ⟨⟨k, mem_cons_self⟩, fun _ => mem_cons_of_mem _⟩
    · obtain ⟨⟨a', rest'⟩, htake, he⟩ := Option.map_eq_some_iff.1 h
      obtain ⟨rfl, rfl⟩ := Prod.mk.inj he
      obtain ⟨⟨k', hmem⟩, hrest⟩ := ih htake
      refine ⟨⟨k', mem_cons_of_mem _ hmem⟩, fun e' he' => ?_⟩
      rcases mem_cons.1 he' with rfl | he'
      · exact mem_cons_self
      · exact mem_cons_of_mem _ (hrest e' he')

theorem within_takeKeyword (spread : Bool) (name : String) (hdefault : OptionAll (Ty.Within z) default?)
    (hkeywords : ∀ k ∈ keywords, k.2.Within z) :
    (takeKeyword spread name default? keywords).1.Within z ∧
      ∀ k ∈ (takeKeyword spread name default? keywords).2, k.2.Within z := by
  unfold takeKeyword
  split
  · rename_i found htake
    obtain ⟨⟨k, hmem⟩, hrest⟩ := takeKey_eq_some htake
    exact ⟨hkeywords _ hmem, fun e he => hkeywords e (hrest e he)⟩
  · refine ⟨?_, hkeywords⟩
    dsimp only
    split
    · exact Ty.within_unknown
    · exact hdefault.getD Ty.within_unknown

theorem within_takeParam (spread : Bool) (hlib : lib.Within z) (param : Param) {positional}
    (hdefault : OptionAll (Ty.Within z) default?) (hpositional : ∀ t ∈ positional, t.Within z)
    (hkeywords : ∀ k ∈ keywords, k.2.Within z) :
    let taken := takeParam lib spread param default? positional keywords
    taken.1.Within z ∧ (∀ t ∈ taken.2.1, t.Within z) ∧ ∀ k ∈ taken.2.2, k.2.Within z := by
  have hkeyword := within_takeKeyword spread param.name.name hdefault hkeywords
  unfold takeParam
  dsimp only
  split
  · obtain ⟨hty, hpositional⟩ := forall_mem_cons.1 hpositional
    exact ⟨hty, hpositional, hkeywords⟩
  · exact ⟨hkeyword.1, hpositional, hkeyword.2⟩
  · exact ⟨hkeyword.1, hpositional, hkeyword.2⟩
  · exact ⟨Ty.within_inst.2 hlib.tuple, nofun, hkeywords⟩
  · exact ⟨Ty.within_inst.2 hlib.dict, hpositional, hkeywords⟩

theorem within_bindParams (spread : Bool) (hlib : lib.Within z) {params defaults positional}
    (hdefaults : ∀ t ∈ defaults, OptionAll (Ty.Within z) t)
    (hpositional : ∀ t ∈ positional, t.Within z) (hkeywords : ∀ k ∈ keywords, k.2.Within z) :
    ∀ t ∈ bindParams lib spread params defaults positional keywords, t.Within z := by
  induction params generalizing defaults positional keywords with
  | nil => exact nofun
  | cons param params ih =>
    have hdefault : OptionAll (Ty.Within z) (defaults.head?.getD none) := by
      cases defaults with
      | nil => exact optionAll_none
      | cons d defaults => exact hdefaults d mem_cons_self
    obtain ⟨hty, hrest, hkeywords⟩ := within_takeParam spread hlib param hdefault hpositional hkeywords
    refine forall_mem_cons.2 ⟨hty, ih (fun t ht => ?_) hrest hkeywords⟩
    exact hdefaults t (mem_of_mem_tail ht)

theorem length_bindParams (spread : Bool) (params : List Param) (defaults : List (Option Ty)) (positional : List Ty)
    (keywords : List (String × Ty)) :
    (bindParams lib spread params defaults positional keywords).length = params.length := by
  induction params generalizing defaults positional keywords with
  | nil => rfl
  | cons param params ih => exact congrArg (· + 1) (ih ..)

theorem CallArgs.Within.signature {args : CallArgs} (h : args.Within z) (hlib : lib.Within z) (params : List Param)
    {defaults : List (Option Ty)} {receiver : Option Ty} (hdefaults : ∀ t ∈ defaults, OptionAll (Ty.Within z) t)
    (hreceiver : OptionAll (Ty.Within z) receiver) :
    ∀ t ∈ args.signature lib params defaults receiver, t.Within z := by
  refine within_bindParams args.spread hlib hdefaults (fun t ht => ?_) h.keywords
  rcases mem_append.1 ht with ht | ht
  · exact hreceiver t (Option.mem_toList.1 ht)
  · exact h.positional t ht

end

/-- The states in which code goes on: in an application, in a file, and when a loaded file looks for its
package. -/
inductive Enters (code : Code) (s : Analysis) : Analysis → Prop where
  | call {f : FunId} {d : FunctionDef} {signature : List Ty} (body : (s.types.function f).body = .source d)
      (there : f.index < s.types.funs.size) (hsignature : ∀ ty ∈ signature, ty.Within s.sizes)
      (hlength : signature.length = d.params.length) (unknown : (s.types.function f).arrow? signature = none)
      (idle : s.running.contains (s.callKey d signature) = false) :
      Enters code s (s.enterCall f (s.callKey d signature) d.span.file.parentOrEmpty)
  | load {file : Path} {tree : Module} (new : s.IsNew code file) (opens : s.openedTree file = .ok tree) :
      Enters code s (s.begun file)
  | loaded {t : Analysis} {file : Path} {tree : Module} (new : s.IsNew code file) (opens : s.openedTree file = .ok tree)
      (run : Run code (s.begun file) t) : Enters code s (s.ended file t)

theorem Enters.closed {code s base} (h : Enters code s base) (hs : s.Closed code) :
    base.Closed code := by
  cases h with
  | call body there hsignature hlength unknown idle => exact hs.enterCall ..
  | load new opens => exact hs.begun new
  | loaded new opens run =>
    have hmodule := run.module (Analysis.nextModule_lt_begun _ _)
    exact ((run.closed (hs.begun new)).addLoaded _ _ hmodule).leaveFile _ _

/-! ### What runs come down to -/

/-- What is logged for a file without a tree. -/
def TreeError.event (file : Path) : TreeError → LogEvent
  | .faulty _ faults => .faulty file faults.length
  | .unreadable path cause => .unreadable path cause

namespace Infer

variable {c : Calls} {file : Path} {e : TreeError} {s : Analysis}

theorem run_get_bind {α : Type} (f : Analysis → Infer α) (s : Analysis) : (get >>= f).run s = (f s).run s := rfl

theorem run_modify_bind {α : Type} (g : Analysis → Analysis) (f : Unit → Infer α) (s : Analysis) :
    (modify g >>= f).run s = (f ()).run (g s) := rfl

theorem run_forM_cons {α : Type} (action : α → Infer Unit) (a : α) (items : List α) (s : Analysis) :
    ((a :: items).forM action).run s = ((action a).run s).bind fun r => (items.forM action).run r.2 := by
  rw [List.forM, StateT.run_bind]
  rfl

theorem run_modifyGet_bind {α β : Type} (g : Analysis → α × Analysis) (f : α → Infer β) (s : Analysis) :
    (modifyGet g >>= f).run s = (f (g s).1).run (g s).2 := rfl

theorem run_treeOf_error (h : s.openedTree file = .error e) : (treeOf file).run (s.opening file) =
    some (none, ((s.opened file).log (e.event file)).addFailure file (e.diagnostics file)) := by
  unfold treeOf
  rw [run_modifyGet_bind]
  split
  · rename_i tree htree
    cases h.symm.trans htree
  · rename_i htree
    cases h.symm.trans htree
    rfl
  · rename_i htree
    cases h.symm.trans htree
    rfl

theorem run_loadNew_error (h : s.openedTree file = .error e) : (loadNew c file file.moduleQname).run s =
    some (.error .unparsable, s.unread file (e.event file) (e.diagnostics file)) := by
  unfold loadNew interpretFile
  rw [run_get_bind, run_modify_bind, bind_assoc, log, run_modify_bind, bind_assoc, StateT.run_bind]
  have htree := run_treeOf_error h
  rw [Analysis.opening] at htree
  rw [htree]
  rfl

theorem run_loadNew_ok {tree} (h : s.openedTree file = .ok tree) : (loadNew c file file.moduleQname).run s =
    ((execBlock c tree.body ((s.opened file).newScope .module ScopeTable.globalScope file.moduleQname).2).run
      (s.begun file)).bind fun r =>
        (joinPackage c file s.nextModule >>= fun _ => pure (.ok s.nextModule)).run (s.ended file r.2) := by
  have htree : (treeOf file).run (s.opening file) = some (some tree, s.opened file) := by
    unfold treeOf
    rw [run_modifyGet_bind]
    split
    · rename_i tree' htree
      cases h.symm.trans htree
      rfl
    all_goals
      rename_i htree
      cases h.symm.trans htree
  unfold loadNew interpretFile
  rw [run_get_bind, run_modify_bind, bind_assoc, log, run_modify_bind, bind_assoc, StateT.run_bind]
  rw [Analysis.opening] at htree
  rw [htree]
  simp only [Option.bind_eq_bind, Option.bind_some, bind_assoc, pure_bind]
  rw [newScope, run_modifyGet_bind, run_modifyGet_bind]
  simp only [StateT.run_bind]
  rfl

/-- Applying the body of a function is running it in a scope with the arguments. -/
theorem run_applyBody {f d signature key} : (applyBody c f d signature key).run s =
    ((newScope .function (s.types.function f).closure (s.types.function f).qname >>= fun body =>
      bindArguments body d.params signature >>= fun _ => execBlock c d.body body).run
        (s.enterCall f key d.span.file.parentOrEmpty)).bind fun r =>
      (pure r.2.returned : Infer Ty).run (r.2.leaveCall f key signature s.dir) := by
  rw [applyBody, run_get_bind, run_modify_bind]
  simp only [StateT.run_bind, Option.bind_eq_bind, Option.bind_assoc]
  rfl

end Infer

namespace Setting

variable {F : Setting} {s : Analysis}

/-- The setting of code that starts in the given state. -/
def rebase (F : Setting) (base : Analysis) : Setting := { F with base }

/-- Applications and loads follow the setting. -/
structure Follows (F : Setting) : Prop where
  applies : F.Applies
  loads : F.Loads

/-- The calls follow from all states in which code goes on once something is entered here. -/
def Deeper (F : Setting) (s : Analysis) : Prop := ∀ base, Enters F.code s base → (F.rebase base).Follows

section

variable {α β : Type} {m : Infer α} {n : Infer β} {f : α → Infer β} {P : α → Analysis → Prop} {R : β → Analysis → Prop}

theorem Ends.get_bind {f} (h : F.Ends (f s) s R) : F.Ends (get >>= f) s R := h

theorem Ends.modify_bind {g f} (h : F.Ends (f ()) (g s) R) :
    F.Ends (modify g >>= f) s R := h

/-- An action that comes down to another one and what follows it. -/
theorem Ends.comes_down {u : Analysis} {k : α × Analysis → Infer β} {w : α × Analysis → Analysis}
    (heq : n.run s = (m.run u).bind fun r => (k r).run (w r)) (hm : F.Ends m u P)
    (hk : ∀ a t, P a t → F.Ends (k (a, t)) (w (a, t)) R) : F.Ends n s R := by
  unfold Ends at hm ⊢
  rw [heq]
  cases hrun : m.run u with
  | none => simpa [hrun] using hm
  | some r =>
    rw [hrun] at hm
    exact hk r.1 r.2 hm

end

/-! ### Applications -/

theorem runs_bindArguments {body} (params : List Param) {signature}
    (hbody : body.index < s.scopes.scopes.size) (hsignature : ∀ ty ∈ signature, ty.Within s.sizes) :
    F.Runs [] (fun _ => Infer.bindArguments body params signature) s := by
  refine runs_forM fun ⟨param, ty⟩ hmem t ht => ?_
  exact (sat_bindIn param.name .parameter (ht.scope hbody) (ht.within (hsignature ty (of_mem_zip hmem).2))).discard

theorem ends_applyBody {f d signature} (hs : s.Closed F.code)
    (hbody : (s.types.function f).body = .source d)
    (hsignature : ∀ ty ∈ signature, ty.Within s.sizes)
    (hdeeper : (F.rebase (s.enterCall f (s.callKey d signature) d.span.file.parentOrEmpty)).Follows) :
    F.Ends (Infer.applyBody F.calls f d signature (s.callKey d signature)) s fun ret t => ret.Within t.sizes ∧
      (∃ u, Run F.code (s.enterCall f (s.callKey d signature) d.span.file.parentOrEmpty) u ∧
        t = u.leaveCall f (s.callKey d signature) signature s.dir) ∧
      F.watchers.Retraces [] (fun c => Infer.applyBody c f d signature (s.callKey d signature)) s ret t := by
  let entered := s.enterCall f (s.callKey d signature) d.span.file.parentOrEmpty
  have hentered : entered.Closed F.code := hs.enterCall f _ _
  have hsizes : entered.sizes = s.sizes := Sizes.ofTables_modifyFun ..
  have hcode : F.code.HasBlock d.body := by
    have hd := hs.sited.source f d hbody
    intro st hst
    refine F.code.child hd ?_
    cases d
    simp [Node.children, Node.ofStmts, hst]
  have hclosure : (s.types.function f).closure.index < entered.scopes.scopes.size :=
    (hs.tables.function f).closure
  have hblock : (F.rebase entered).Runs (Block.body d).marks (fun c =>
      Infer.newScope .function (s.types.function f).closure (s.types.function f).qname >>= fun body =>
        Infer.bindArguments body d.params signature >>= fun _ => Infer.execBlock c d.body body) entered := by
    refine (sat_newScope .function _ hclosure).bind fun body t ht hscope => ?_
    refine (runs_bindArguments d.params hscope fun ty hty => ht.within (hsizes ▸ hsignature ty hty)).bind fun _ u hu _ => ?_
    exact runs_execBlock hdeeper.applies hdeeper.loads d.body hcode (hu.scope hscope)
  refine .comes_down Infer.run_applyBody (hblock hentered (.refl _)) fun _ v hends => ?_
  obtain ⟨hv, -, e, he, hsame⟩ := hends
  refine ⟨(hv.closed hentered).returned.mono (Sizes.le_of_eq (Sizes.ofTables_modifyFun ..).symm), ⟨v, hv, rfl⟩, _,
    .call hbody he, fun i hin => ?_⟩
  rw [Infer.run_applyBody]
  exact Option.bind_eq_some_iff.2 ⟨((), v), hsame i (hin.call hbody ..), rfl⟩

theorem gives_applySource {f : FunId} {d : FunctionDef} {receiver : Option Ty} {args : CallArgs}
    (hdeeper : F.Deeper s) (hbody : (s.types.function f).body = .source d) (hf : f.index < s.types.funs.size)
    (hreceiver : OptionAll (Ty.Within s.sizes) receiver) (hargs : args.Within s.sizes) :
    F.Gives [] (fun c => Infer.applySource c f d receiver args) s := by
  refine .of_closed fun hs => .get_bind ?_
  have hfun := hs.tables.function f
  have hsignature := hargs.signature hs.library d.params hfun.defaults hreceiver
  have hlength : (args.signature s.library d.params (s.types.function f).defaults receiver).length = d.params.length :=
    length_bindParams ..
  dsimp only
  split
  · rename_i ret hret
    exact .pure (hfun.returns _ (mem_of_lookup hret))
  · rename_i hunknown
    split
    · exact .pure Ty.within_unknown
    · rename_i hidle
      have hidle := Bool.eq_false_iff.2 hidle
      intro _ _
      have hfollows := hdeeper _ (.call hbody hf hsignature hlength hunknown hidle)
      refine (ends_applyBody hs hbody hsignature hfollows).mono fun ret t hends => ?_
      obtain ⟨hret, ⟨u, hrun, ht⟩, hback⟩ := hends
      refine ⟨?_, hret, hback⟩
      rw [ht]
      exact .call hbody hf hsignature hlength hunknown hidle hrun

theorem gives_applyFunction {f receiver args} (hdeeper : F.Deeper s)
    (hf : f.index < s.types.funs.size) (hreceiver : OptionAll (Ty.Within s.sizes) receiver)
    (hargs : args.Within s.sizes) : F.Gives [] (fun c => Infer.applyFunction c f receiver args) s := by
  refine .of_closed fun hs => .get_bind ?_
  split
  · rename_i ret hbody
    exact .pure ((hs.tables.function f).native ret hbody)
  · refine .pure ?_
    cases hhead : args.positional.head? with
    | none => exact Ty.within_unknown
    | some ty => exact hargs.positional ty (mem_of_mem_head? hhead)
  · rename_i d hbody
    exact gives_applySource hdeeper hbody hf hreceiver hargs

/-! ### Loads -/

variable {file : Path}

theorem sat_joinPackage (hloads : F.Loads) (file : Path) {m} (hm : m.index < s.types.modules.size) :
    F.Sat [] (fun c => Infer.joinPackage c file m) s fun _ t => ∃ u, Run F.code s u ∧ Analysis.Joins file m s u t := by
  unfold Infer.joinPackage
  split
  · rename_i hnone
    exact .pure ⟨s, .refl s, .alone (by rw [Analysis.package?, hnone]; rfl)⟩
  · rename_i init hinit
    have hsource : init.isSourceFile := by
      obtain ⟨dir, -, rfl⟩ := Option.map_eq_some_iff.1 hinit
      exact dir.isSourceFile_initFile
    refine .get_bind ?_
    split
    · rename_i hskip
      exact .pure ⟨s, .refl s, .alone (by rw [Analysis.package?, hinit, Option.filter_some, hskip]; rfl)⟩
    · rename_i hskip
      have hpackage : s.package? file = some init := by
        rw [Analysis.package?, hinit, Option.filter_some, Bool.eq_false_iff.2 hskip]
        rfl
      refine (hloads.source hsource).bind fun r t ht hr => ?_
      cases r with
      | error failure => exact .pure ⟨t, ht, .missed hpackage hr⟩
      | ok parent =>
        refine .of_closed fun hclosed => .get_bind ?_
        have hscope := hclosed.tables.module parent
        have hjoins := Analysis.Joins.joined hpackage hr hscope (ht.module hm)
        exact Sat.first (.modifyGet (fun _ => .bind _ _ .module hscope (Ty.within_module.2 (ht.module hm))) (fun _ => hjoins)
          (.aside (.bind ..))) fun _ _ _ hv => .pure ⟨t, ht, hv⟩

theorem loading_loadNew {path} (hdeeper : F.Deeper s) (hfile : file = s.files.fullPath path) (hnew : s.IsNew F.code file) :
    F.Loading path (fun c => Infer.loadNew c file file.moduleQname) s := by
  intro hs _
  have hfull (t : Analysis) (ht : Run F.code s t) : t.files.fullPath path = file := (ht.files.fullPath path).trans hfile.symm
  have hsource (h : path.isSourceFile) : file.isSourceFile := hfile ▸ s.files.isSourceFile_fullPath h
  cases htree : s.openedTree file with
  | error e =>
    have hrun (c : Calls) := Infer.run_loadNew_error (c := c) htree
    have hevent : (e.event file).entersCode = false := by cases e <;> rfl
    have hunread : Run F.code s _ := .unread (e.event file) (e.diagnostics file) hnew ⟨e, htree, rfl⟩ hevent
    refine .of_eq (hrun F.calls) ⟨hunread, ?_, [], fun h => .unread _ _ hnew.full (hsource h),
      fun i hin => ⟨hin.defined, hrun _⟩⟩
    rw [hfull _ hunread]
    change (s.failures ++ [(file, e.diagnostics file)]).any (·.1 == file)
    simp
  | ok tree =>
    have hscope : ((s.opened file).newScope .module ScopeTable.globalScope file.moduleQname).2.index <
        (s.begun file).scopes.scopes.size := by
      simp [Analysis.begun, Analysis.newScope, Analysis.addModule, ScopeTable.newScope]
    have hfollows := hdeeper _ (.load hnew htree)
    have hblock := runs_execBlock hfollows.applies hfollows.loads tree.body ((hs.opened hnew).2 tree htree) hscope
    refine .comes_down (Infer.run_loadNew_ok htree) (hblock (hs.begun hnew) (.refl _)) fun _ t hends => ?_
    obtain ⟨ht, -, e, he, hsame⟩ := hends
    -- the file is left, and joins its package in a state of its own
    have henters : Enters F.code s (s.ended file t) := .loaded hnew htree ht
    have hm : s.nextModule.index < (s.ended file t).types.modules.size := ht.module (s.nextModule_lt_begun file)
    have hjoin := sat_joinPackage (hdeeper _ henters).loads file hm (henters.closed hs) (.refl _)
    refine hjoin.bind fun _ v hends => ?_
    obtain ⟨-, ⟨u, hu, hjoins⟩, e', he', hsame'⟩ := hends
    have hload : Run F.code s v := .load hnew htree ht hu hjoins
    have hrun : Run F.code _ v := hu.trans hjoins.run
    have hnamed : (s.ended file t).modules.lookup file.moduleQname = some s.nextModule := lookup_cons_self
    refine ⟨hload, ?_, .enter (.file file tree) :: e ++ e', fun h => ?_, fun i hin => ?_⟩
    · rw [hfull v hload]
      exact ⟨hrun.module hm, hrun.lookup_modules hnamed⟩
    · exact (History.load hnew.full (hsource h) htree he).trans he'
    · refine ⟨(hin.loaded he).after he', ?_⟩
      rw [Infer.run_loadNew_ok htree]
      refine Option.bind_eq_some_iff.2 ⟨((), t), hsame i hin.before.load, ?_⟩
      rw [StateT.run_bind]
      exact Option.bind_eq_some_iff.2 ⟨((), v), hsame' i (hin.loaded he), rfl⟩

/-- Loading a file is a run, if the calls of its code are. -/
theorem loading_loadFile {path} (hdeeper : F.Deeper s) (hreads : F.code.Reads path) :
    F.Loading path (fun c => Infer.loadFile c path) s := by
  have hfull : F.code.Reads (s.files.fullPath path) := hreads.imp_left s.files.isSourceFile_fullPath
  refine .get_bind ?_
  dsimp only
  split
  · rename_i habsent
    have habsent : s.files.fileExists (s.files.fullPath path) = false := by simpa using habsent
    exact Sat.loading fun _ _ => ⟨.step (.log _ rfl), habsent, .aside rfl (.log s _)⟩
  · rename_i hpresent
    split
    · rename_i m hm
      exact Sat.loading (.of_closed fun hs => .pure ⟨hs.modules _ (mem_of_lookup hm), hm⟩)
    · rename_i hunnamed
      split
      · rename_i hfailed
        exact Sat.loading (.pure hfailed)
      · rename_i hfaultless
        split
        · rename_i hcycle
          exact Sat.loading fun _ _ => ⟨.step (.log _ rfl), hcycle, .aside rfl (.log s _)⟩
        · rename_i hidle
          refine loading_loadNew hdeeper rfl ⟨⟨path, rfl⟩, hfull, by simpa using hpresent, hunnamed, ?_, ?_⟩
          · exact Bool.eq_false_iff.2 hfaultless
          · exact Bool.eq_false_iff.2 hidle

/-- Calls that go one level deeper follow the setting, with watchers that do the same where the ones before do. -/
theorem Follows.next {calls : F.watchers.Index → Calls}
    (h : ∀ s : Analysis, s.Closed F.code → Run F.code F.base s → F.Deeper s)
    (happly : ∀ {i s f receiver args ty t}, Run F.code F.base s → f.index < s.types.funs.size →
      OptionAll (Ty.Within s.sizes) receiver → args.Within s.sizes → DefinedIn (F.watchers.code i) s.types →
      Run F.code s t → DefinedIn (F.watchers.code i) t.types → ty.Within t.sizes →
      (Infer.applyFunction (F.watchers.calls i) f receiver args).run s = some (ty, t) →
        ((calls i).apply f receiver args).run s = some (ty, t))
    (hload : ∀ {i s path r t}, Run F.code F.base s → DefinedIn (F.watchers.code i) s.types →
      Run F.code s t → DefinedIn (F.watchers.code i) t.types → LoadedIn t r →
      (Infer.loadFile (F.watchers.calls i) path).run s = some (r, t) → ((calls i).load path).run s = some (r, t)) :
    { F with
      calls := ⟨Infer.applyFunction F.calls, Infer.loadFile F.calls⟩
      watchers := { F.watchers with calls } }.Follows := by
  constructor
  · intro s f receiver args hf hreceiver hargs hs hbase
    refine (gives_applyFunction (h s hs hbase) hf hreceiver hargs hs hbase).mono fun ty t hends => ?_
    obtain ⟨hrun, hty, e, he, hsame⟩ := hends
    refine ⟨hrun, hty, e, he, fun i hin => ?_⟩
    exact happly hbase hf hreceiver hargs hin.defined hrun (hin.after he) hty (hsame i hin)
  · intro s path hreads hs hbase
    refine (loading_loadFile (h s hs hbase) hreads hs hbase).mono fun r t hends => ?_
    obtain ⟨hrun, hr, e, he, hsame⟩ := hends
    refine ⟨hrun, hr, e, he, fun i hin => ?_⟩
    obtain ⟨ht, hrun'⟩ := hsame i hin
    exact ⟨ht, hload hbase hin.defined hrun ht (.of_answers hr) hrun'⟩

/-- The setting with the calls of a depth, and nobody who watches them. -/
def ofDepth (code : Code) (stuck : Prop) (base : Analysis) (depth : Nat) : Setting :=
  ⟨code, stuck, base, ⟨Infer.apply depth, Infer.load depth⟩, ⟨Empty, Empty.elim, Empty.elim⟩⟩

theorem follows_ofDepth {code stuck base depth}
    (h : ∀ s base', s.Closed code → Run code base s → Enters code s base' → (ofDepth code stuck base' depth).Follows) :
    (ofDepth code stuck base (depth + 1)).Follows :=
  .next (F := ofDepth code stuck base depth) (fun s hs hbase base' => h s base' hs hbase) (fun {i} => i.elim) fun {i} => i.elim

end Setting

end TypeInfer
