/-
What `import a.b.c` binds. The first segment that stands for a module is bound where the import is
(`importedName?`); those after it become members of the module before them, and nothing else is
bound there, unless the files that are loaded on the way do it (`Infer.sparing`).
-/
import TypeInfer.Proofs.Guards
import TypeInfer.Proofs.Growth

namespace TypeInfer

/-- A definition that is there or made has its kind. -/
theorem ScopeTable.kind_inserted (t : ScopeTable) (scope : ScopeId) (name : String) (node : Span)
    (ty : Ty) {kind} (hkind : kind.isDeclaration) :
    ((t.insert scope name node ty kind).1.binding (t.insert scope name node ty kind).2.id).kind = kind := by
  rcases t.insert_cases scope name node ty kind with ⟨_, -, -, hsame, -, heq⟩ | ⟨_, -, hno, -, -⟩ | heq
  · rw [heq]
    exact hsame
  · exact absurd (hkind.symm.trans hno) Bool.noConfusion
  · rw [heq]
    exact congrArg Binding.kind ((t.binding_addBinding ..).trans (if_pos rfl))

namespace Analysis

/-- The first segment of a dotted name that stands for a module. -/
def firstModule? (s : Analysis) : List Ident → Path → Option Ident
  | [], _ => none
  | name :: names, dir =>
    match s.segment (dir.child name.name) name.name names.isEmpty with
    | .missing => none
    | .namespaceDir => s.firstModule? names (dir.child name.name)
    | .file _ => some name

/-- The segment of a dotted name that is bound where it is imported. -/
def importedName? (s : Analysis) : List Ident → Option Ident
  | [] => none
  | first :: names =>
    match s.library.module? (dottedName (first :: names)) with
    | some _ => some first
    | none => (s.locate? first.name).bind (s.firstModule? (first :: names))

/-- The segment has a file, but the name leads on through a directory that is no package. -/
def IsBypassed (s : Analysis) (first : Ident) : Prop :=
  ∃ dir, s.locate? first.name = some dir ∧ s.files.fileExists (dir.moduleFile first.name) ∧
    s.files.dirExists (dir.child first.name) ∧ s.files.fileExists (dir.child first.name).initFile = false

/-- The name is bound to a module in the scope. -/
def HasModule (s : Analysis) (scope : ScopeId) (name : String) : Prop :=
  ∃ id ∈ s.scopes.slot scope name, (s.scopes.binding id).kind = .module

variable {s t : Analysis}

theorem HasModule.later {code scope name} (h : s.HasModule scope name) (hs : s.Closed code)
    (ht : s.Extends t) : t.HasModule scope name := by
  obtain ⟨id, hid, hkind⟩ := h
  exact ⟨id, (ht.scopes.slot scope name).subset hid, (ht.scopes.binding id (hs.tables.slot hid)).kind.trans hkind⟩

theorem kind_addReferences (s : Analysis) (node : Span) (ids : List BindingId) (id : BindingId) :
    ((s.addReferences node ids).scopes.binding id).kind = (s.scopes.binding id).kind := by
  obtain ⟨refs, heq⟩ := (s.untouched_addReferences node ids).binding id
  rw [heq]

/-- A definition is bound with its kind. -/
theorem kind_bind (s : Analysis) (scope : ScopeId) (name : String) (node : Span) (ty : Ty) {kind}
    (hkind : kind.isDeclaration) :
    ((s.bind scope name node ty kind).1.scopes.binding (s.bind scope name node ty kind).2).kind = kind := by
  obtain ⟨hid, he⟩ := s.bind_cases scope name node ty kind
  rw [hid]
  rcases he with he | he <;> rw [he]
  · exact s.scopes.kind_inserted scope name node ty hkind
  · rw [kind_addReferences]
    exact s.scopes.kind_inserted scope name node ty hkind

/-- A directory that is passed is no package. -/
theorem segment_eq_namespaceDir {path name isLast} (h : s.segment path name isLast = .namespaceDir) :
    s.files.fileExists path.initFile = false ∧ s.files.dirExists path := by
  unfold segment at h
  split at h
  · cases h
  · rename_i hinit
    split at h
    · dsimp only at h
      split at h <;> cases h
    · split at h
      · rename_i hdir
        exact ⟨Bool.eq_false_iff.2 hinit, hdir⟩
      · cases h

theorem eq_or_isBypassed {first n names} (h : s.importedName? (first :: names) = some n) :
    first = n ∨ s.IsBypassed first := by
  rw [importedName?] at h
  cases hlibrary : s.library.module? (dottedName (first :: names)) with
  | some id =>
    rw [hlibrary] at h
    exact .inl (Option.some.inj h)
  | none =>
    rw [hlibrary] at h
    obtain ⟨dir, hdir, hn⟩ := Option.bind_eq_some_iff.1 h
    rw [firstModule?] at hn
    cases hsegment : s.segment (dir.child first.name) first.name names.isEmpty with
    | missing =>
      rw [hsegment] at hn
      cases hn
    | file file =>
      rw [hsegment] at hn
      exact .inl (Option.some.inj hn)
    | namespaceDir =>
      obtain ⟨hinit, hpath⟩ := segment_eq_namespaceDir hsegment
      have hfound := List.find?_some hdir
      rw [hinit, Bool.false_or] at hfound
      exact .inr ⟨dir, hdir, hfound, hpath, hinit⟩

end Analysis

/-! ### Loads that spare a name -/

namespace Infer

/-- Loads a file, without a result if this binds the name or if the scope is that of the module. -/
def sparing (load : Path → Infer Loaded) (scope : ScopeId) (name : String) (path : Path) : Infer Loaded := do
  let before := (← get).scopes.slot scope name
  let r ← load path
  let s ← get
  guard (s.scopes.slot scope name = before ∧ r.toOption.map (fun m => (s.types.module m).scope) ≠ some scope)
  return r

theorem Leads.guard_bind {α : Type} {q : Prop} [Decidable q] {s : Analysis} {f : Unit → Infer α} {P : α → Analysis → Prop}
    (h : q → Leads (f ()) s P) : Leads (guard q >>= f) s P := by
  unfold guard
  split
  · rename_i hq
    exact h hq
  · rintro _ _ ⟨⟩

section

variable {load : Path → Infer Loaded} {scope : ScopeId} {name : String}

theorem leads_sparing (path : Path) (s : Analysis) : Leads (sparing load scope name path) s fun r t =>
    (load path).run s = some (r, t) ∧ t.scopes.slot scope name = s.scopes.slot scope name ∧
      ∀ m, r = .ok m → (t.types.module m).scope ≠ scope := by
  have hload : Leads (load path) s fun r t => (load path).run s = some (r, t) := fun _ _ => id
  refine .get_bind (hload.bind fun r t hrun => .get_bind (.guard_bind fun ⟨hslot, hscope⟩ => .pure ⟨hrun, hslot, ?_⟩))
  rintro m rfl heq
  exact hscope (congrArg some heq)

end

end Infer

/-! ### Segments -/

namespace Setting

variable {F : Setting} {s : Analysis} {scope : ScopeId}

theorem sat_bindSegment (n : Ident) (node : Span) {m} (hscope : scope.index < s.scopes.scopes.size)
    (hm : m.index < s.types.modules.size) :
    F.Sat [] (fun _ => Infer.bindSegment (some scope) n node m) s fun _ t =>
      t.HasModule scope n.name ∧
        ∀ id name, ¬(scope = id ∧ n.name = name) → t.scopes.slot id name = s.scopes.slot id name := by
  have hruns : F.Runs [] (fun _ => Infer.bindSegment (some scope) n node m) s :=
    runs_bindSegment n node (optionAll_some.2 hscope) hm
  let b := s.bind scope n.name node (.module m) .module
  have hslot (id : ScopeId) (name : String) : (b.1.addReferences n.span [b.2]).scopes.slot id name =
      (s.scopes.insert scope n.name node (.module m) .module).1.slot id name :=
    (Analysis.slot_addReferences ..).trans (s.slot_bind ..)
  intro hs hbase
  have hends : F.Ends (Infer.bindSegment (some scope) n node m) s fun _ t => t = b.1.addReferences n.span [b.2] := rfl
  refine ((hruns hs hbase).and hends).mono fun _ t ⟨⟨hrun, _, hback⟩, ht⟩ => ⟨hrun, ?_, hback⟩
  subst ht
  refine ⟨⟨b.2, ?_, ?_⟩, fun id name hne => ?_⟩
  · rw [hslot, (s.bind_cases scope n.name node (.module m) .module).1]
    exact s.scopes.mem_slot_insert hscope ..
  · rw [Analysis.kind_addReferences]
    exact s.kind_bind scope n.name node (.module m) rfl
  · rw [hslot, s.scopes.slot_insert_of_ne hne]

/-- Loads find modules, and leave a name that is to be kept as it was. -/
def Spares (F : Setting) (scope : ScopeId) (name : String) (keeps : Prop) : Prop :=
  ∀ {s : Analysis} {path : Path}, path.isSourceFile → F.Sat [] (fun c => c.load path) s fun r t => LoadedIn t r ∧
    (keeps → t.scopes.slot scope name = s.scopes.slot scope name ∧ ∀ m, r = .ok m → (t.types.module m).scope ≠ scope)

/-- Where an import succeeds, the segment is bound to a module, and no other name is to be bound. -/
structure Imports (scope : ScopeId) (name : String) (keeps : Prop) (s : Analysis) (bound : Option Ident) (r : Loaded)
    (t : Analysis) : Prop where
  module : ∀ m, r = .ok m → ∃ n, bound = some n ∧ t.HasModule scope n.name
  kept : keeps → ∀ n, bound = some n → name ≠ n.name → t.scopes.slot scope name = s.scopes.slot scope name

variable {name : String} {keeps : Prop}

theorem Imports.missing {bound failure} : Imports scope name keeps s bound (.error failure) s :=
  ⟨nofun, fun _ _ _ _ => rfl⟩

variable (hspares : F.Spares scope name keeps)

include hspares

theorem sat_laterSegments (names : List Ident) (dir : Path) {parent}
    (hparent : parent.index < s.types.modules.size)
    (hne : keeps → (s.types.module parent).scope ≠ scope) :
    F.Sat [] (fun c => Infer.loadSegments c.load (some scope) names dir (some parent)) s
      fun _ t => keeps → t.scopes.slot scope name = s.scopes.slot scope name := by
  induction names generalizing dir parent s with
  | nil => exact .pure fun _ => rfl
  | cons n names ih =>
    simp only [Infer.loadSegments]
    refine .get_bind ?_
    cases hsegment : s.segment (dir.child n.name) n.name names.isEmpty with
    | missing => exact .pure fun _ => rfl
    | namespaceDir => exact ih _ hparent hne
    | file file =>
      refine (hspares (isSourceFile_segment hsegment)).bind fun r t ht hloaded => ?_
      obtain ⟨hr, hkeeps⟩ := hloaded
      cases r with
      | error failure => exact .pure fun h => (hkeeps h).1
      | ok m =>
        refine .of_closed fun hclosed => .get_bind ?_
        refine (sat_bindSegment n n.span (hclosed.tables.module parent) (hr m rfl)).bind fun _ u hu hbound => ?_
        have hother (h : keeps) : (u.types.module m).scope ≠ scope := by
          rw [hu.rests.module m (hr m rfl)]
          exact (hkeeps h).2 m rfl
        refine (ih (dir.child n.name) (hu.module (hr m rfl)) hother).mono fun _ v _ hv h => ?_
        rw [← ht.rests.module parent hparent] at hne
        exact (hv h).trans ((hbound.2 scope name fun heq => hne h heq.1).trans (hkeeps h).1)

/-- Only the first module is bound in the scope. -/
theorem sat_segments (hscope : scope.index < s.scopes.scopes.size) (names : List Ident) (dir : Path) :
    F.Sat [] (fun c => Infer.loadSegments c.load (some scope) names dir none) s
      (Imports scope name keeps s (s.firstModule? names dir)) := by
  induction names generalizing dir with
  | nil => exact .pure .missing
  | cons first names ih =>
    rw [Analysis.firstModule?]
    simp only [Infer.loadSegments]
    refine .get_bind ?_
    cases hsegment : s.segment (dir.child first.name) first.name names.isEmpty with
    | missing => exact .pure .missing
    | namespaceDir => exact ih (dir.child first.name)
    | file file =>
      refine (hspares (isSourceFile_segment hsegment)).bind fun r t ht hloaded => ?_
      obtain ⟨hr, hkeeps⟩ := hloaded
      cases r with
      | error failure => exact .pure ⟨fun _ hm => (by cases hm), fun h _ _ _ => (hkeeps h).1⟩
      | ok m =>
        have hbound := sat_bindSegment (F := F) first first.span (ht.scope hscope) (hr m rfl)
        refine .get_bind (hbound.bind fun _ u hu hu' => .of_closed fun hclosed => ?_)
        obtain ⟨hmodule, hslots⟩ := hu'
        have hother (h : keeps) : (u.types.module m).scope ≠ scope := by
          rw [hu.rests.module m (hr m rfl)]
          exact (hkeeps h).2 m rfl
        refine (sat_laterSegments hspares names _ (hu.module (hr m rfl)) hother).mono fun _ v hv hlater => ⟨?_, ?_⟩
        · exact fun _ _ => ⟨first, rfl, hmodule.later hclosed hv.rests.toExtends⟩
        · intro h n hn hne
          obtain rfl := Option.some.inj hn
          exact (hlater h).trans ((hslots scope name fun heq => hne heq.2.symm).trans (hkeeps h).1)

theorem sat_imports (hscope : scope.index < s.scopes.scopes.size) (names : List Ident) :
    F.Sat [] (fun c => Infer.loadModule c.load names (some scope)) s
      (Imports scope name keeps s (s.importedName? names)) := by
  cases names with
  | nil => exact .pure .missing
  | cons first names =>
    rw [Analysis.importedName?]
    refine .of_closed fun hs => .get_bind ?_
    cases hid : s.library.module? (dottedName (first :: names)) with
    | none =>
      dsimp only
      cases s.locate? first.name with
      | some dir => exact sat_segments hspares hscope _ dir
      | none => exact .pure .missing
    | some id =>
      have htop : ((s.library.module? first.name).getD id).index < s.types.modules.size := by
        cases hmodule : s.library.module? first.name with
        | none => exact hs.library.modules _ (mem_of_lookup hid)
        | some m => exact hs.library.modules _ (mem_of_lookup hmodule)
      refine .get_bind ((sat_bindSegment first _ hscope htop).bind fun _ t _ ⟨hmodule, hslots⟩ => .pure ⟨?_, ?_⟩)
      · exact fun _ _ => ⟨first, rfl, hmodule⟩
      · intro _ n hn hne
        obtain rfl := Option.some.inj hn
        exact hslots scope name fun heq => hne heq.2.symm

end Setting

/-! ### Dotted names -/

namespace Setting

theorem spares_load (base : Analysis) (depth : Nat) (scope : ScopeId) (name : String) :
    (partly .all base depth).Spares scope name False := by
  have hloads : (partly .all base depth).Loads := (follows_partly .all base depth).loads
  exact fun {_ _} hsource => (hloads.module hsource).mono fun _ _ _ hr => ⟨hr, False.elim⟩

/-- The setting in which loads spare a name. They do the same as those that do not. -/
def sparing (base : Analysis) (depth : Nat) (scope : ScopeId) (name : String) : Setting :=
  { watching .all base depth (.one ⟨Infer.apply depth, Infer.load depth⟩) with
    calls := ⟨Infer.apply depth, Infer.sparing (Infer.load depth) scope name⟩ }

theorem spares_sparing (base : Analysis) (depth : Nat) (scope : ScopeId) (name : String) :
    (sparing base depth scope name).Spares scope name True := by
  intro s path hsource hs hbase
  change Ends _ (Infer.sparing (Infer.load depth) scope name path) s _
  unfold Ends
  cases hrun : (Infer.sparing (Infer.load depth) scope name path).run s with
  | none => exact trivial
  | some x =>
    obtain ⟨hload, hslot, hscope⟩ := Infer.leads_sparing path s x.1 x.2 hrun
    have hloads : (partly .all base depth).Loads := (follows_partly .all base depth).loads
    obtain ⟨ht, hr, e, he, -⟩ := (hloads.module hsource hs hbase).of_run hload
    exact ⟨ht, ⟨hr, fun _ => ⟨hslot, hscope⟩⟩, e, he, fun _ _ => hload⟩

theorem imports_sparing {depth scope name names x} (hs : s.Closed .all) (hscope : scope.index < s.scopes.scopes.size)
    (hx : (Infer.loadModule (Infer.sparing (Infer.load depth) scope name) names (some scope)).run s = some x) :
    (Infer.loadModule (Infer.load depth) names (some scope)).run s = some x ∧
      Imports scope name True s (s.importedName? names) x.1 x.2 := by
  have himports := sat_imports (spares_sparing s depth scope name) hscope names hs (.refl s)
  obtain ⟨-, himports, hback⟩ := himports.of_run hx
  exact ⟨hback.one, himports⟩

end Setting

/-- Where a name `a.b.c` is imported into a scope and a module is found for it, the first segment that
stands for a module is bound to one in the scope. That is the first of all, unless the name leads
through a directory that is no package. No other name gets a binding in the scope, if the files that
are loaded on the way make none there and the scope is not that of a module on the way. -/
theorem dotted_import_binds_first_module {work : Workspace} {config : Config} {start s t : Analysis} {depth : Nat}
    {names : List Ident} {scope : ScopeId} {m : ModuleId} (hstart : Analysis.start work config = .ok start)
    (hs : Reachable .all start s) (hscope : scope.index < s.scopes.scopes.size)
    (hrun : (Infer.loadModule (Infer.load depth) names (some scope)).run s = some (.ok m, t)) :
    ∃ n, s.importedName? names = some n ∧
      (∀ first, names.head? = some first → first = n ∨ s.IsBypassed first) ∧ t.HasModule scope n.name ∧
      ∀ name, name ≠ n.name →
        ((Infer.loadModule (Infer.sparing (Infer.load depth) scope name) names (some scope)).run s).isSome →
        t.scopes.slot scope name = s.scopes.slot scope name := by
  have hclosed := hs.closed (Analysis.closed_all hstart)
  have hfirst := Setting.sat_imports (Setting.spares_load s depth scope "") hscope names
  obtain ⟨n, hn, hmodule⟩ := ((hfirst hclosed (.refl s)).of_run hrun).2.1.module m rfl
  refine ⟨n, hn, fun first hhead => ?_, hmodule, fun name hne hspared => ?_⟩
  · obtain ⟨rest, rfl⟩ := List.head?_eq_some_iff.1 hhead
    exact Analysis.eq_or_isBypassed hn
  · obtain ⟨x, hx⟩ := Option.isSome_iff_exists.1 hspared
    obtain ⟨hsame, himports⟩ := Setting.imports_sparing hclosed hscope hx
    obtain rfl := Option.some.inj (hrun.symm.trans hsame)
    exact himports.kept trivial n hn hne

/-- Settings with a directory to search for imports. -/
def Config.searching : Config := { hermetic with searchPaths := [⟨"/p"⟩] }

/-- The name `a.b`. -/
def Ident.memberPath : List Ident := [⟨"a", Span.library "a"⟩, ⟨"b", Span.library "b"⟩]

/-- A package with a module. -/
def Workspace.plainPackage : Workspace where
  files := (({} : FileTree).addFile ⟨"/p/a/__init__.py"⟩ "x = 1\n").addFile ⟨"/p/a/b.py"⟩ "y = 2\n"

/-- A module next to a directory of the same name, which is no package. -/
def Workspace.bypassedFile : Workspace where
  files := (({} : FileTree).addFile ⟨"/p/a.py"⟩ "x = 1\n").addFile ⟨"/p/a/b.py"⟩ "y = 2\n"

/-- From the package, `a` is imported without a change of the slot of `b`; past the file, `b` alone is bound. To
decide this is to build the library, so both are decided at once. -/
theorem Workspace.imports_memberPath :
    ((Analysis.fresh { plainPackage with cache := {} } .searching).importedName? Ident.memberPath =
        some ⟨"a", Span.library "a"⟩ ∧
      ((Infer.loadModule (Infer.sparing (Infer.load 3) ScopeTable.globalScope "b") Ident.memberPath
        (some ScopeTable.globalScope)).run (Analysis.fresh { plainPackage with cache := {} } .searching)).any (·.1.isOk)) ∧
    (Analysis.fresh { bypassedFile with cache := {} } .searching).scopes.slot ScopeTable.globalScope "b" = [] ∧
      ((Infer.loadModule (Infer.load 3) Ident.memberPath (some ScopeTable.globalScope)).run
        (Analysis.fresh { bypassedFile with cache := {} } .searching)).any fun x => x.1.isOk &&
          decide (x.2.scopes.slot ScopeTable.globalScope "a" = [] ∧
            ∃ id ∈ x.2.scopes.slot ScopeTable.globalScope "b", (x.2.scopes.binding id).kind = .module) := by
  rw [Analysis.fresh_eq, Analysis.fresh_eq]
  decide +kernel

theorem dotted_import_binds_first_module_plainPackage : ∃ s m t, Analysis.start Workspace.plainPackage .searching = .ok s ∧
    (Infer.loadModule (Infer.load 3) Ident.memberPath (some ScopeTable.globalScope)).run s = some (.ok m, t) ∧
    t.HasModule ScopeTable.globalScope "a" ∧
    t.scopes.slot ScopeTable.globalScope "b" = s.scopes.slot ScopeTable.globalScope "b" := by
  obtain ⟨⟨hname, hrun⟩, -⟩ := Workspace.imports_memberPath
  obtain ⟨⟨r, t⟩, hspared, hok⟩ := (Option.any_eq_true ..).1 hrun
  have hstart : Analysis.start Workspace.plainPackage .searching =
      .ok (Analysis.fresh { Workspace.plainPackage with cache := {} } .searching) := rfl
  have hclosed := Analysis.closed_all hstart
  have hscope := hclosed.tables.global
  obtain ⟨hrun, -⟩ := Setting.imports_sparing hclosed hscope hspared
  cases r with
  | error failure => cases hok
  | ok m =>
    obtain ⟨n, hn, -, hmodule, hothers⟩ := dotted_import_binds_first_module hstart .start hscope hrun
    obtain rfl := Option.some.inj (hname.symm.trans hn)
    exact ⟨_, m, t, hstart, hrun, hmodule, hothers "b" (by decide) (Option.isSome_of_eq_some hspared)⟩

/-- The name of the second segment is bound, and that of the first one is not. -/
theorem dotted_import_passes_first_segment : ∃ s m t, Analysis.start Workspace.bypassedFile .searching = .ok s ∧
    (Infer.loadModule (Infer.load 3) Ident.memberPath (some ScopeTable.globalScope)).run s = some (.ok m, t) ∧
    t.scopes.slot ScopeTable.globalScope "a" = [] ∧ s.scopes.slot ScopeTable.globalScope "b" = [] ∧
    t.HasModule ScopeTable.globalScope "b" := by
  obtain ⟨-, hbefore, hrun⟩ := Workspace.imports_memberPath
  obtain ⟨⟨r, t⟩, hrun, hx⟩ := (Option.any_eq_true ..).1 hrun
  obtain ⟨hok, hslots⟩ := Bool.and_eq_true_iff.1 hx
  obtain ⟨hfirst, hsecond⟩ := of_decide_eq_true hslots
  cases r with
  | error failure => cases hok
  | ok m =>
    have hstart : Analysis.start Workspace.bypassedFile .searching =
        .ok (Analysis.fresh { Workspace.bypassedFile with cache := {} } .searching) := rfl
    exact ⟨_, m, t, hstart, hrun, hfirst, hbefore, hsecond⟩

end TypeInfer
