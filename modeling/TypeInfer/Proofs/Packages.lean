/-
Modules are members of their packages. A file that was loaded looks for its package, and its module
is bound there, unless the package is being loaded itself or another file goes by its name.
`Analysis.Joined` lists what becomes of a module; it holds of all loaded files but those that still
look for their package (`Analysis.Homed`).
-/
import TypeInfer.Proofs.LoadedOnce

namespace TypeInfer

open List

/-! ### Declarations stay -/

namespace ScopeTable

variable {t : ScopeTable} {scope : ScopeId} {name : String} {kind : BindingKind} {ty : Ty}

/-- The scope has a binding of the name, of the given kind and type. -/
def Binds (t : ScopeTable) (scope : ScopeId) (name : String) (kind : BindingKind) (ty : Ty) : Prop :=
  ∃ b ∈ t.slot scope name, b.index < t.bindings.size ∧ (t.binding b).kind = kind ∧ (t.binding b).ty = ty

namespace Binds

section

variable (h : t.Binds scope name kind ty)
include h

theorem modifyBinding {b f}
    (hf : (t.binding b).kind = kind → (f (t.binding b)).kind = (t.binding b).kind ∧ (f (t.binding b)).ty = (t.binding b).ty) :
    (t.modifyBinding b f).Binds scope name kind ty := by
  obtain ⟨b', hslot, hlt, hkind, hty⟩ := h
  refine ⟨b', hslot, by rwa [size_bindings_modifyBinding], ?_⟩
  rw [binding_modifyBinding]
  split
  · rename_i hsame
    rw [← hsame.1] at hkind hty ⊢
    obtain ⟨hkind', hty'⟩ := hf hkind
    exact ⟨hkind'.trans hkind, hty'.trans hty⟩
  · exact ⟨hkind, hty⟩

theorem modifyScope {id f} (hf : ∀ old, (f old).table = old.table) : (t.modifyScope id f).Binds scope name kind ty := by
  obtain ⟨b, hslot, hrest⟩ := h
  refine ⟨b, ?_, hrest⟩
  rw [slot, scope_modifyScope]
  split
  · rwa [hf]
  · exact hslot

theorem newScope (new : ScopeKind) (parent : ScopeId) (path : String) :
    (t.newScope new parent path).1.Binds scope name kind ty := by
  obtain ⟨b, hslot, hrest⟩ := h
  refine ⟨b, ?_, hrest⟩
  rw [slot, scope_newScope]
  split
  · -- a scope that is not in the table binds nothing
    rename_i hnew
    have hdefault : t.scope scope = default := by simp [ScopeTable.scope, hnew]
    rw [slot, hdefault] at hslot
    exact hslot
  · exact hslot

theorem insert (hkind : kind.isDeclaration) (id : ScopeId) (other : String) (node : Span) (ty' : Ty)
    (kind' : BindingKind) : (t.insert id other node ty' kind').1.Binds scope name kind ty := by
  rcases t.insert_cases id other node ty' kind' with ⟨_, _, _, _, _, heq⟩ | ⟨b, _, _, hnot, heq⟩ | heq <;> rw [heq]
  · exact h
  · refine h.modifyBinding fun hsame => ?_
    rw [hsame, hkind] at hnot
    contradiction
  · obtain ⟨b, hslot, hlt, hrest⟩ := h
    refine ⟨b, ?_, by rw [size_bindings_addBinding]; exact Nat.lt_succ_of_lt hlt, ?_⟩
    · rw [slot_addBinding]
      split
      · exact mem_append_left _ hslot
      · exact hslot
    · rw [binding_addBinding, if_neg (Nat.ne_of_lt hlt)]
      exact hrest

end

end Binds

/-- What is declared in a scope is bound there. -/
theorem binds_insert (hkind : kind.isDeclaration) (hscope : scope.index < t.scopes.size)
    (hslot : ∀ b ∈ t.slot scope name, b.index < t.bindings.size) (node : Span) (ty : Ty) :
    (t.insert scope name node ty kind).1.Binds scope name kind ty := by
  rcases t.insert_cases scope name node ty kind with ⟨b, hb, _, hsame, hty, heq⟩ | ⟨_, _, hnot, _, _⟩ | heq
  · rw [heq]
    exact ⟨b, hb, hslot b hb, hsame, hty⟩
  · rw [hkind] at hnot
    contradiction
  · rw [heq]
    refine ⟨⟨t.bindings.size⟩, ?_, by simp, ?_⟩
    · rw [slot_addBinding, if_pos ⟨⟨rfl, hscope⟩, rfl⟩]
      exact mem_append_right _ mem_cons_self
    · rw [binding_addBinding, if_pos rfl]
      exact ⟨rfl, rfl⟩

end ScopeTable

variable {code : Code} {s t u : Analysis} {scope : ScopeId} {name : String} {kind : BindingKind} {ty : Ty}

theorem Analysis.binds_addReferences (h : s.scopes.Binds scope name kind ty) (node : Span) (ids : List BindingId) :
    (s.addReferences node ids).scopes.Binds scope name kind ty := by
  unfold Analysis.addReferences
  split
  · exact h
  · induction ids generalizing s with
    | nil => exact h
    | cons b ids ih =>
      refine ih (h.modifyBinding fun _ => ?_)
      unfold Binding.addRef
      split <;> exact ⟨rfl, rfl⟩

theorem Analysis.binds_bind {id other node ty' kind'}
    (h : (s.scopes.insert id other node ty' kind').1.Binds scope name kind ty) :
    (s.bind id other node ty' kind').1.scopes.Binds scope name kind ty := by
  rcases (s.bind_cases id other node ty' kind').2 with heq | heq <;> rw [heq]
  · exact h
  · refine binds_addReferences ?_ node _
    exact h

theorem Step.binds (h : Step code s t) (hkind : kind.isDeclaration) (hs : s.scopes.Binds scope name kind ty) :
    t.scopes.Binds scope name kind ty := by
  cases h with
  | refer node hids => exact Analysis.binds_addReferences hs node _
  | bind name node kind hscope hty => exact Analysis.binds_bind (hs.insert hkind ..)
  | newScope kind path hparent => exact hs.newScope ..
  | declareGlobal scope name => exact hs.modifyScope fun _ => rfl
  | declareNonlocal scope name => exact hs.modifyScope fun _ => rfl
  | defineClass hd hbases hscope => exact (hs.newScope ..).modifyScope fun _ => rfl
  | report d hlocal hd =>
    unfold Analysis.report
    split <;> exact hs
  | addReturn hty =>
    unfold Analysis.addReturn
    split <;> exact hs
  | _ => exact hs

/-! ### Packages -/

theorem FileTree.SameSources.fileExists {t t' : FileTree} (h : t.SameSources t') {p : Path} (hsource : p.isSourceFile) :
    t'.fileExists p = t.fileExists p := by
  rw [FileTree.fileExists, FileTree.fileExists, FileTree.file?, FileTree.file?, h.fullPath,
    h.sources _ (t.isSourceFile_fullPath hsource)]

theorem Path.IsResolved.child {p : Path} (h : p.IsResolved) {n : String} (hn : Path.IsName n) : (p.child n).IsResolved := by
  obtain ⟨done, hdone, rfl⟩ := h
  exact ⟨.name n :: done, hdone.name hn, (hdone.ofTrail_name hn).symm⟩

namespace Analysis

variable {file init : Path} {m : ModuleId}

theorem package?_eq (h : s.files.SameSources t.files) (file : Path) : t.package? file = s.package? file := by
  cases hdir : file.moduleDir? with
  | none => simp [package?, hdir]
  | some dir => simp [package?, hdir, Option.filter_some, h.fileExists dir.isSourceFile_initFile]

theorem isResolved_package (hfile : file.IsResolved) (h : s.package? file = some init) : init.IsResolved := by
  have hname : Path.IsName packageInit := ⟨by decide, by decide, by decide, by decide⟩
  obtain ⟨dir, hdir, rfl⟩ := Option.map_eq_some_iff.1 (Option.filter_eq_some_iff.1 h).1
  suffices dir.IsResolved from this.child hname
  unfold Path.moduleDir? at hdir
  split at hdir
  · obtain ⟨inner, hinner, hdir⟩ := Option.bind_eq_some_iff.1 hdir
    exact ((hfile.parent hinner).1.parent hdir).1
  · exact (hfile.parent hdir).1

theorem fileExists_package (h : s.package? file = some init) : s.files.fileExists init := by
  have hthere := (Option.filter_eq_some_iff.1 h).2
  simp only [Bool.not_eq_true', Bool.or_eq_false_iff, Bool.not_eq_false'] at hthere
  exact hthere.2

/-- A module with a file is in the table. -/
theorem lt_of_file (h : (s.types.module m).file = some file) : m.index < s.types.modules.size := by
  by_contra hge
  have hdefault : s.types.module m = default := by simp [TypeStore.module, Array.getD, hge]
  rw [hdefault] at h
  contradiction

/-- What became of the module of a loaded file that belongs to a package. -/
inductive Joined (s : Analysis) (file : Path) (m : ModuleId) (init : Path) : Prop where
  /-- The package has no tree. -/
  | failed (failed : s.hasFailed init)
  /-- It was loaded while the package was. -/
  | within {p : ModuleId} (made : (s.types.module p).file = some init) (before : p.index < m.index)
      (loading : init ∈ s.importing ∨ [file, init].Sublist s.loaded)
  /-- It is a member of the package. -/
  | member {p : ModuleId} (made : (s.types.module p).file = some init)
      (binds : s.scopes.Binds (s.types.module p).scope file.moduleName .module (.module m))
  /-- Another file goes by the name of the package. -/
  | other {rival : Path} (loaded : rival ∈ s.loaded) (ne : rival ≠ init) (same : rival.moduleQname = init.moduleQname)

/-- What became of a module stays so. -/
theorem Joined.mono (h : s.Joined file m init) (hfailed : s.hasFailed init → t.hasFailed init)
    (hmodule : ∀ p, (s.types.module p).file = some init → t.types.module p = s.types.module p)
    (hloading : init ∈ s.importing → init ∈ t.importing ∨ [file, init].Sublist t.loaded)
    (hloaded : s.loaded.Sublist t.loaded)
    (hbinds : ∀ scope name ty, s.scopes.Binds scope name .module ty → t.scopes.Binds scope name .module ty) :
    t.Joined file m init := by
  cases h with
  | failed failed => exact .failed (hfailed failed)
  | within made before loading =>
    refine .within (by rwa [hmodule _ made]) before ?_
    exact loading.elim hloading fun hbefore => .inr (hbefore.trans hloaded)
  | member made binds =>
    refine .member (by rwa [hmodule _ made]) ?_
    rw [hmodule _ made]
    exact hbinds _ _ _ binds
  | other loaded ne same => exact .other (hloaded.subset loaded) ne same

/-- Each file has one module, and all that were loaded are where they belong, but those that wait for their
package. -/
structure Homed (waiting : List Path) (s : Analysis) : Prop where
  rooted : s.files.Rooted
  present : ∀ file ∈ s.loaded, file.isSourceFile → s.files.fileExists file
  titled : ∀ m file, (s.types.module m).file = some file →
    (s.types.module m).qname = file.moduleQname ∧ (s.types.module m).name = file.moduleName
  homes : ∀ file, (∃ m, (s.types.module m).file = some file) ↔ file ∈ s.importing ∨ file ∈ s.loaded
  single : ∀ {m m' file}, (s.types.module m).file = some file → (s.types.module m').file = some file → m = m'
  joined : ∀ file ∈ s.loaded, file ∉ waiting → ∀ m init, (s.types.module m).file = some file →
    s.package? file = some init → s.Joined file m init

namespace Homed

variable {waiting : List Path} {before : Nat}

section

variable (h : s.Homed waiting)
include h

theorem carry (hsources : s.files.SameSources t.files) (hmodules : t.types.modules = s.types.modules)
    (himporting : t.importing = s.importing) (hloaded : t.loaded = s.loaded)
    (hfailed : ∀ init, s.hasFailed init → t.hasFailed init)
    (hbinds : ∀ scope name ty, s.scopes.Binds scope name .module ty → t.scopes.Binds scope name .module ty) :
    t.Homed waiting := by
  have hmodule : ∀ m, t.types.module m = s.types.module m := fun m => by rw [TypeStore.module, TypeStore.module, hmodules]
  constructor
  case rooted => exact hsources.rooted h.rooted
  case present =>
    intro file hfile hsource
    rw [hloaded] at hfile
    rw [hsources.fileExists hsource]
    exact h.present file hfile hsource
  case titled =>
    simp only [hmodule]
    exact h.titled
  case homes =>
    simp only [hmodule, himporting, hloaded]
    exact h.homes
  case single =>
    simp only [hmodule]
    exact h.single
  case joined =>
    intro file hfile hnot m init hm hinit
    rw [hloaded] at hfile
    rw [hmodule] at hm
    rw [package?_eq hsources] at hinit
    refine (h.joined file hfile hnot m init hm hinit).mono (hfailed init) (fun p _ => hmodule p) (fun hin => ?_)
      (by rw [hloaded]) hbinds
    rw [himporting]
    exact .inl hin

theorem step (hstep : Step code s t) : t.Homed waiting := by
  have hloads := hstep.loads
  have hfiles : t.files = s.files := by
    obtain ⟨_, _, _, _, _, _, _, _, _, _, rfl, -, -⟩ := hstep.frame
    rfl
  refine h.carry ?_ hloads.modules hloads.importing hloads.loaded (fun init => ?_) fun _ _ _ => hstep.binds rfl
  · rw [hfiles]
    exact .refl _
  · rw [hasFailed, hasFailed, hloads.failures]
    exact id

theorem unread (file : Path) (event : LogEvent) (faults : List Diagnostic) :
    (s.unread file event faults).Homed waiting :=
  h.carry (s.sameSources_opened file) rfl (erase_cons_head ..) rfl
    (fun _ hfailed => hasFailed_addFailure.2 (.inl hfailed)) fun _ _ _ => id

theorem file_ne_of_isNew (horderly : s.Orderly before) (hnew : s.IsNew code file)
    (hm : (s.types.module m).file = some init) : init ≠ file := by
  rintro rfl
  rcases (h.homes init).1 ⟨m, hm⟩ with himporting | hloaded
  · exact hnew.not_mem_importing himporting
  · exact horderly.not_mem_loaded hnew hloaded

end

theorem module_begun_cases (m : ModuleId) (hm : ((s.begun file).types.module m).file = some init) :
    (m = s.nextModule ∧ init = file) ∨
      ((s.begun file).types.module m = s.types.module m ∧ (s.types.module m).file = some init) := by
  by_cases hindex : m.index = s.types.modules.size
  · obtain ⟨scope, hmade⟩ := s.module_begun file
    have hnext : m = s.nextModule := by
      cases m
      exact congrArg ModuleId.mk hindex
    rw [hnext, hmade] at hm
    exact .inl ⟨hnext, (Option.some.inj hm).symm⟩
  · have hsame : (s.begun file).types.module m = s.types.module m :=
      (TypeStore.module_addModule ..).trans (if_neg hindex)
    rw [hsame] at hm
    exact .inr ⟨hsame, hm⟩

theorem begun (h : s.Homed waiting) (horderly : s.Orderly before) (hnew : s.IsNew code file) :
    (s.begun file).Homed waiting := by
  obtain ⟨scope, hmade⟩ := s.module_begun file
  have hsources : s.files.SameSources (s.begun file).files := s.sameSources_opened file
  constructor
  case rooted => exact hsources.rooted h.rooted
  case present =>
    intro other hother hsource
    rw [hsources.fileExists hsource]
    exact h.present other hother hsource
  case titled =>
    intro m other hm
    rcases module_begun_cases m hm with ⟨rfl, rfl⟩ | ⟨hsame, hm⟩
    · rw [hmade]
      exact ⟨rfl, rfl⟩
    · rw [hsame]
      exact h.titled m other hm
  case homes =>
    intro other
    constructor
    · rintro ⟨m, hm⟩
      rcases module_begun_cases m hm with ⟨-, rfl⟩ | ⟨-, hm⟩
      · exact .inl mem_cons_self
      · exact ((h.homes other).1 ⟨m, hm⟩).imp_left (mem_cons_of_mem file)
    · intro hother
      by_cases hsame : other = file
      · exact ⟨s.nextModule, by rw [hmade, hsame]⟩
      · obtain ⟨m, hm⟩ := (h.homes other).2 (hother.imp_left (mem_of_ne_of_mem hsame))
        exact ⟨m, by rwa [module_begun_eq (lt_of_file hm)]⟩
  case single =>
    intro m m' other hm hm'
    rcases module_begun_cases m hm with ⟨rfl, rfl⟩ | ⟨-, hm⟩ <;>
      rcases module_begun_cases m' hm' with ⟨rfl, hother⟩ | ⟨-, hm'⟩
    · rfl
    · exact absurd rfl (h.file_ne_of_isNew horderly hnew hm')
    · exact absurd hother (h.file_ne_of_isNew horderly hnew hm)
    · exact h.single hm hm'
  case joined =>
    intro other hother hnot m init hm hinit
    rcases module_begun_cases m hm with ⟨-, rfl⟩ | ⟨-, hm⟩
    · exact absurd hother (horderly.not_mem_loaded hnew)
    · rw [package?_eq hsources] at hinit
      refine (h.joined other hother hnot m init hm hinit).mono id (fun p hp => module_begun_eq (lt_of_file hp))
        (fun hin => .inl (mem_cons_of_mem file hin)) (.refl _) fun _ _ _ hbinds => hbinds.newScope ..

theorem ended (h : t.Homed waiting) (hnew : s.IsNew code file) (hrun : Run code (s.begun file) t) :
    (s.ended file t).Homed (file :: waiting) := by
  have himporting : t.importing = file :: s.importing := hrun.stacks.importing
  have hleft : (s.ended file t).importing = s.importing := hrun.stacks.ended.importing
  constructor
  case rooted => exact h.rooted
  case present =>
    refine forall_mem_append.2 ⟨h.present, forall_mem_singleton.2 fun hsource => ?_⟩
    have hsources : s.files.SameSources t.files := (s.sameSources_opened file).trans hrun.files
    exact (hsources.fileExists hsource).trans hnew.present
  case titled => exact h.titled
  case homes =>
    intro other
    rw [hleft]
    change _ ↔ other ∈ s.importing ∨ other ∈ t.loaded ++ [file]
    rw [mem_append, mem_singleton]
    refine (h.homes other).trans ?_
    rw [himporting, mem_cons]
    tauto
  case single => exact h.single
  case joined =>
    intro other hother hnot m init hm hinit
    obtain ⟨hne, hnot⟩ := ne_and_not_mem_of_not_mem_cons hnot
    have hloaded : other ∈ t.loaded := by
      rcases mem_append.1 hother with hother | hother
      · exact hother
      · exact absurd (mem_singleton.1 hother) hne
    refine (h.joined other hloaded hnot m init hm hinit).mono id (fun _ _ => rfl) (fun hin => ?_)
      (sublist_append_left ..) fun _ _ _ => id
    rw [himporting] at hin
    rcases mem_cons.1 hin with rfl | hin
    · have hafter : ([other] ++ [init]).Sublist (t.loaded ++ [init]) := (singleton_sublist.2 hloaded).append (.refl _)
      exact .inr hafter
    · rw [hleft]
      exact .inl hin

end Homed

/-- Once it has looked for its package, the module of a file is where it belongs. -/
theorem Joins.settles {waiting before v} (hjoins : Joins file m t u v) (hhomed : u.Homed waiting)
    (hu : u.Closed code) (horderly : u.Orderly before) (hfile : file.IsResolved)
    (hm : (u.types.module m).file = some file) (hfiles : t.files.SameSources u.files)
    (hbefore : ∀ init ∈ u.importing, ∃ p, (u.types.module p).file = some init ∧ p.index < m.index)
    (hinit : t.package? file = some init) : v.Joined file m init := by
  have hfull : u.files.fullPath init = init := u.files.fullPath_of_isResolved (isResolved_package hfile hinit)
  have hthere : u.files.fileExists init := fileExists_package ((package?_eq hfiles file).trans hinit)
  cases hjoins with
  | alone none =>
    rw [none] at hinit
    contradiction
  | @missed _ init' failure package answer =>
    obtain rfl := Option.some.inj (package.symm.trans hinit)
    rw [hfull] at answer
    cases failure with
    | notFound => exact absurd (hthere.symm.trans answer) Bool.true_eq_false.mp
    | cycle =>
      have hin : init' ∈ u.importing := by simpa [Answers] using answer
      obtain ⟨p, hp, hlt⟩ := hbefore init' hin
      exact .within hp hlt (.inl hin)
    | unparsable => exact .failed answer
  | @joined _ init' parent package answer hscope hlt =>
    obtain rfl := Option.some.inj (package.symm.trans hinit)
    rw [hfull] at answer
    obtain ⟨hqname, rival, hrival, hparent⟩ := horderly.modules _ (mem_of_lookup answer.2)
    have hkind : BindingKind.module.isDeclaration := rfl
    have hslot : ∀ b ∈ u.scopes.slot (u.types.module parent).scope (u.types.module m).name,
        b.index < u.scopes.bindings.size := fun _ => hu.tables.slot
    have hbinds := binds_bind (ScopeTable.binds_insert hkind hscope hslot (Span.ofFile file) (.module m))
    rw [(hhomed.titled m file hm).2] at hbinds ⊢
    obtain ⟨references, scopes, heq⟩ :=
      u.bind_eq (u.types.module parent).scope file.moduleName (Span.ofFile file) (.module m) .module
    by_cases hsame : rival = init'
    · subst hsame
      rw [heq] at hbinds ⊢
      exact .member hparent hbinds
    · rw [heq]
      exact .other hrival hsame ((hhomed.titled parent rival hparent).1.symm.trans hqname)

namespace Homed

variable {waiting : List Path} {before : Nat}

/-- When a file has looked for its package, its module is the one that its load made. -/
theorem searched (h : s.Homed waiting) (hrun : Run code (s.begun file) t) (hsearch : Run code (s.ended file t) u) :
    (u.types.module s.nextModule).file = some file ∧
      ∀ init ∈ u.importing, ∃ p, (u.types.module p).file = some init ∧ p.index < s.nextModule.index := by
  have hthrough : ∀ p : ModuleId, p.index < (s.begun file).types.modules.size →
      u.types.module p = (s.begun file).types.module p := fun p hp =>
    (hsearch.module_eq (hrun.module hp)).trans (hrun.module_eq hp)
  constructor
  · obtain ⟨scope, hmade⟩ := s.module_begun file
    rw [hthrough _ (s.nextModule_lt_begun file), hmade]
  · intro init hin
    rw [(hrun.stacks.ended.trans hsearch.stacks).importing] at hin
    obtain ⟨p, hp⟩ := (h.homes init).2 (.inl hin)
    have hlt := lt_of_file hp
    refine ⟨p, ?_, hlt⟩
    rw [hthrough p (Nat.lt_of_lt_of_le hlt (s.sizes_begun file).modules), module_begun_eq hlt]
    exact hp

theorem run (h : s.Homed waiting) (hs : s.Closed code) (horderly : s.Orderly before) (hrun : Run code s t) :
    t.Homed waiting := by
  induction hrun generalizing waiting with
  | refl s => exact h
  | trans first _ ih ih' => exact ih' (ih h hs horderly) (first.closed hs) (horderly.run first)
  | step hstep => exact h.step hstep
  | @call s t f d signature body there hsignature hlength unknown idle run ih =>
    have hentered : (s.enterCall f (s.callKey d signature) d.span.file.parentOrEmpty).Homed waiting :=
      h.carry (.refl _) rfl rfl rfl (fun _ => id) fun _ _ _ => id
    have hleft := ih hentered (hs.enterCall ..) (horderly.congr ⟨rfl, rfl, rfl, rfl, rfl, rfl⟩)
    exact hleft.carry (.refl _) rfl rfl rfl (fun _ => id) fun _ _ _ => id
  | @unread s file event faults new fails aside => exact h.unread file event faults
  | @load s t u v file tree new opens run search joins ih ih' =>
    have henters : Enters code s (s.ended file t) := .loaded new opens run
    have hended := henters.closed hs
    have horderly' := horderly.enters henters
    have hbegun := ih (h.begun horderly new) (hs.begun new) (horderly.begun new)
    have hu : u.Homed (file :: waiting) := ih' (hbegun.ended new run) hended horderly'
    have hv : v.Homed (file :: waiting) := by
      rcases joins.step code with rfl | hstep
      · exact hu
      · exact hu.step hstep
    refine { hv with joined := fun other hother hnot m init hm hinit => ?_ }
    by_cases hsame : other = file
    case neg => exact hv.joined other hother (not_mem_cons_of_ne_of_not_mem hsame hnot) m init hm hinit
    subst hsame
    obtain ⟨hmade, hbefore⟩ := h.searched run search
    have hresolved : other.IsResolved := by
      obtain ⟨path, heq⟩ := new.full
      rw [heq]
      exact FileTree.isResolved_fullPath h.rooted.cwd path
    have hjoined : Run code u v := joins.run
    rw [package?_eq (search.trans hjoined).files] at hinit
    obtain rfl : m = s.nextModule := by
      refine hv.single hm ?_
      rwa [hjoined.module_eq (lt_of_file hmade)]
    exact joins.settles hu (search.closed hended) (horderly'.run search) hresolved hmade search.files hbefore hinit

theorem fresh {work} (config : Config) (hfiles : work.files.Rooted) :
    (Analysis.fresh work config).Homed [] := by
  have htypes : (Analysis.fresh work config).types = Library.installed.2.types := by rw [Analysis.fresh_eq]
  have hloaded : (Analysis.fresh work config).loaded = [] := by rw [Analysis.fresh_eq]
  have himporting : (Analysis.fresh work config).importing = [] := by rw [Analysis.fresh_eq]
  have hnone : ∀ m, ((Analysis.fresh work config).types.module m).file = none := by
    rw [htypes]
    exact Library.closed_installed.1.unfiled
  constructor
  case rooted => rwa [Analysis.files_fresh]
  all_goals simp [hloaded, himporting, hnone]

end Homed

end Analysis

/-! ### Loaded projects -/

theorem Projects.homed {before} (h : Projects code s t) (hs : s.Closed code)
    (horderly : s.Orderly before) (hhomed : s.Homed []) : t.Orderly before ∧ t.Homed [] := by
  induction h with
  | none s => exact ⟨horderly, hhomed⟩
  | @next s t u root run rest ih =>
    have hnamed := hs.named root
    have horderly : (s.named root).Orderly before := horderly.congr ⟨rfl, rfl, rfl, rfl, rfl, rfl⟩
    have hhomed : (s.named root).Homed [] := hhomed.carry (.refl _) rfl rfl rfl (fun _ => id) fun _ _ _ => id
    exact ih (run.closed hnamed) (horderly.run run) (hhomed.run hnamed horderly run)

namespace Analysis

variable {waiting : List Path}

/-- The file was loaded while the other one was. -/
def LoadedDuring (s : Analysis) (file outer : Path) : Prop :=
  ∃ m p, (s.types.module m).file = some file ∧ (s.types.module p).file = some outer ∧ p.index < m.index ∧
    [file, outer].Sublist s.loaded

/-- No other loaded file goes by the qualified name of the file. -/
def OwnsName (s : Analysis) (file : Path) : Prop :=
  ∀ other ∈ s.loaded, other.moduleQname = file.moduleQname → other = file

/-- Each file has one module, and the first binds the second by its name. -/
def HasMember (s : Analysis) (init file : Path) : Prop :=
  ∃ p m, (∀ p', (s.types.module p').file = some init ↔ p' = p) ∧ (∀ m', (s.types.module m').file = some file ↔ m' = m) ∧
    ∃ b ∈ s.scopes.slot (s.types.module p).scope file.moduleName,
      (s.scopes.binding b).kind = .module ∧ (s.scopes.binding b).ty = .module m

theorem Homed.exists_module {file} (h : s.Homed waiting) (hfile : file ∈ s.loaded) :
    ∃ m, ∀ m', (s.types.module m').file = some file ↔ m' = m := by
  obtain ⟨m, hm⟩ := (h.homes file).2 (.inr hfile)
  exact ⟨m, fun m' => ⟨fun hm' => h.single hm' hm, fun heq => heq ▸ hm⟩⟩

theorem Homed.package? {file dir} (h : s.Homed waiting) (hdir : file.moduleDir? = some dir)
    (hinit : dir.initFile ∈ s.loaded) (hne : dir.initFile ≠ file) :
    s.package? file = some dir.initFile := by
  have hthere := h.present _ hinit dir.isSourceFile_initFile
  simp [Analysis.package?, hdir, hne, hthere]

end Analysis

/-- A package that asks for a name of one of its modules, but not of the other. -/
def Workspace.eagerPackage : Workspace where
  files := ((({} : FileTree).addFile ⟨"/p/__init__.py"⟩ "from .first import x\n").addFile ⟨"/p/first.py"⟩ "x = 1\n").addFile
    ⟨"/p/second.py"⟩ "y = 2\n"

/-- Both modules of the package are loaded, the first one while the package is, and nothing is bound to its name. The
library has 13 modules, so this is the number of the package. -/
theorem Workspace.exists_load_eagerPackage : ∃ t,
    ([⟨"/p/__init__.py"⟩, ⟨"/p/second.py"⟩].forM (Infer.analyze · 4)).run
      (Analysis.fresh { eagerPackage with cache := {} } .hermetic) = some ((), t) ∧
    t.loaded = [⟨"/p/first.py"⟩, ⟨"/p/__init__.py"⟩, ⟨"/p/second.py"⟩] ∧
    (t.types.module ⟨13⟩).file = some ⟨"/p/__init__.py"⟩ ∧ t.scopes.slot (t.types.module ⟨13⟩).scope "first" = [] := by
  rw [Analysis.fresh_eq]
  exact Infer.exists_of_any (by decide +kernel)

end TypeInfer
