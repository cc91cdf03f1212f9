/-
What a piece of inference can do to the state of an analysis. `Step` says once what the single steps
are and what each of them needs; a `Run` is made of steps, of applications and of loads. What every
step keeps, every run keeps; so all that an analysis keeps stays closed.
-/
import TypeInfer.Proofs.CacheTransparency
import TypeInfer.Proofs.Closed

namespace TypeInfer

open List

variable {m : ModuleId} {u : Analysis}

/-! ### Closed states -/

/-- What is put on record for a file without a tree. -/
def TreeError.diagnostics (file : Path) : TreeError → List Diagnostic
  | .faulty _ faults => faults
  | .unreadable path cause =>
    [Diagnostic.error Diagnostic.Code.unreadableFile (TreeError.unreadable path cause).message (Span.ofFile file)]

structure Library.Within (z : Sizes) (l : Library) : Prop where
  primitives : ∀ p, (l.primClass p).index < z.classes
  object : l.object.index < z.classes
  list : l.list.index < z.classes
  tuple : l.tuple.index < z.classes
  dict : l.dict.index < z.classes
  set : l.set.index < z.classes
  range : l.range.index < z.classes
  generator : l.generator.index < z.classes
  modules : ∀ m ∈ l.modules, m.2.index < z.modules

theorem Library.Within.mono {y z : Sizes} {l : Library} (h : l.Within y) (hz : y ≤ z) : l.Within z where
  primitives p := Nat.lt_of_lt_of_le (h.primitives p) hz.classes
  object := Nat.lt_of_lt_of_le h.object hz.classes
  list := Nat.lt_of_lt_of_le h.list hz.classes
  tuple := Nat.lt_of_lt_of_le h.tuple hz.classes
  dict := Nat.lt_of_lt_of_le h.dict hz.classes
  set := Nat.lt_of_lt_of_le h.set hz.classes
  range := Nat.lt_of_lt_of_le h.range hz.classes
  generator := Nat.lt_of_lt_of_le h.generator hz.classes
  modules m hm := Nat.lt_of_lt_of_le (h.modules m hm) hz.modules

/-- What is read from the file is in the code: the file is a source file, or all code is. -/
def Code.Reads (code : Code) (file : Path) : Prop := file.isSourceFile ∨ ∀ n, code.Has n

/-- The trees that a workspace can come up with for source files belong to the code. -/
structure Workspace.Holds (code : Code) (w : Workspace) : Prop where
  remembered : ∀ e ∈ w.cache.entries, code.HasBlock e.tree.body
  stored : ∀ path content text m, w.entryText? (fileKey path content) = some text → Module.ofText? text = some m →
    code.HasBlock m.body
  sources : ∀ p text m, (w.files.fullPath p).isSourceFile → w.files.file? (w.files.fullPath p) = some text →
    parseText text (w.files.fullPath p) = .ok m → code.HasBlock m.body

/-- A stored tree is in no source file. -/
theorem FileTree.not_isSourceFile_entry (t : FileTree) (dir path : Path) (content : String) :
    (t.fullPath (dir.child (fileKey path content ++ ".json"))).isSourceFile = false := by
  rw [← Bool.not_eq_true, Path.isSourceFile, isSuffixOf_iff_suffix,
    t.text_fullPath_child dir (isName_entry path content)]
  rintro ⟨a, ha⟩
  have hlast := congrArg List.getLast? ha
  simp [sourceSuffix] at hlast

namespace Workspace

variable {code : Code} {w : Workspace}

/-- Writing an entry of the cache adds a text that reads as its tree. -/
theorem Holds.write (h : w.Holds code) {path : Path} {content : String} {tree : Module} {entry : Path}
    {files : FileTree} (htree : code.HasBlock tree.body)
    (hentry : w.cache.entryPath? (fileKey path content) = some entry)
    (hwrite : w.files.write entry tree.toText = .ok files) : { w with files }.Holds code := by
  obtain ⟨dir, -, rfl⟩ := Option.map_eq_some_iff.1 hentry
  obtain rfl := FileTree.write_eq_putFile hwrite
  refine ⟨h.remembered, fun p other text m hp hm => ?_, fun p text m hsource hp hm => ?_⟩
  · obtain ⟨place, hplace, hp⟩ := Option.bind_eq_some_iff.1 hp
    rw [FileTree.file?_putFile] at hp
    split at hp
    · obtain rfl := Option.some.inj hp
      rwa [← (Module.ofText?_toText_eq_some.1 hm).2]
    · exact h.stored p other text m (Option.bind_eq_some_iff.2 ⟨place, hplace, hp⟩) hm
  · rw [FileTree.file?_putFile] at hp
    split at hp
    · rename_i hsame
      have hentry := w.files.not_isSourceFile_entry dir path content
      rw [← hsame, w.files.isSourceFile_fullPath hsource] at hentry
      contradiction
    · exact h.sources p text m hsource hp hm

theorem Holds.of_produced (h : w.Holds code) {p path : Path} {content : String} {r : Except TreeError Module × Workspace}
    (hp : path = w.files.fullPath p) (hsource : path.isSourceFile) (hread : w.files.read path = .ok content)
    (hr : Produced w path content (fileKey path content) r) :
    r.2.Holds code ∧ ∀ tree, r.1 = .ok tree → code.HasBlock tree.body := by
  subst hp
  cases hr with
  | @stored text tree journal there reads =>
    exact ⟨{ h with }, fun _ he => Except.ok.inj he ▸ h.stored _ _ text tree there reads⟩
  | faulty parses => exact ⟨{ h with }, nofun⟩
  | @parsed tree files journal parses changed =>
    have htree := h.sources p content tree hsource (FileTree.file?_of_read hread) parses
    refine ⟨?_, fun _ he => Except.ok.inj he ▸ htree⟩
    rcases changed with rfl | ⟨entry, hentry, hwrite⟩
    · exact { h with }
    · have hwritten := h.write htree hentry hwrite
      exact { hwritten with }

theorem holds_of_all (hcode : ∀ n, code.Has n) (w : Workspace) : w.Holds code :=
  ⟨fun _ _ _ _ => hcode _, fun _ _ _ _ _ _ _ _ => hcode _, fun _ _ _ _ _ _ _ _ => hcode _⟩

theorem Holds.treeOf (h : w.Holds code) (p : Path) (hreads : code.Reads (w.files.fullPath p)) :
    (w.after (w.files.fullPath p)).Holds code ∧
      ∀ tree, ((Workspace.treeOf (w.files.fullPath p)).run w).run.1 = .ok tree → code.HasBlock tree.body := by
  rcases hreads with hsource | hcode
  case inr => exact ⟨holds_of_all hcode _, fun _ _ _ _ => hcode _⟩
  have hanswered := answered_treeOf w (w.files.fullPath p)
  rw [after]
  generalize ((Workspace.treeOf (w.files.fullPath p)).run w).run = r at hanswered
  cases hanswered with
  | unreadable reads => exact ⟨h, nofun⟩
  | remembered reads there key =>
    exact ⟨{ h with }, fun _ he => Except.ok.inj he ▸ h.remembered _ there⟩
  | failed reads produced => exact ⟨(h.of_produced rfl hsource reads produced).1, nofun⟩
  | produced reads produced =>
    obtain ⟨hholds, htree⟩ := h.of_produced rfl hsource reads produced
    refine ⟨⟨fun e he => ?_, hholds.stored, hholds.sources⟩, htree⟩
    rcases mem_cons.1 he with rfl | he
    · exact htree _ rfl
    · exact hholds.remembered e (mem_filter.1 he).1

end Workspace

namespace Analysis

def sizes (s : Analysis) : Sizes := .ofTables s.scopes s.types

/-- All that the analysis names is in its tables, and all code comes from the given one. -/
structure Closed (code : Code) (s : Analysis) : Prop where
  tables : TypeInfer.Closed s.scopes s.types
  sited : Sited code s.types
  library : s.library.Within s.sizes
  modules : ∀ m ∈ s.modules, m.2.index < s.types.modules.size
  references : ∀ node, ∀ b ∈ s.references.getD node [], b.index < s.scopes.bindings.size
  uncalled : ∀ f ∈ s.uncalled, f.index < s.types.funs.size
  frames : ∀ r ∈ s.frames, OptionAll (Ty.Within s.sizes) r
  work : s.work.Holds code

/-- References are added one by one. -/
theorem addReferences_relates {R : Analysis → Analysis → Prop} {node : Span} (refl : ∀ s, R s s)
    (trans : ∀ {s t u}, R s t → R t u → R s u) (one : ∀ (s : Analysis) b, R s (s.addReference node b)) (s : Analysis)
    (ids : List BindingId) : R s (s.addReferences node ids) := by
  unfold addReferences
  split
  · exact refl s
  · induction ids generalizing s with
    | nil => exact refl s
    | cons b ids ih => exact trans (one s b) (ih _)

theorem sizes_addReferences (s : Analysis) (node : Span) (ids : List BindingId) :
    (s.addReferences node ids).sizes = s.sizes :=
  addReferences_relates (R := fun s t => t.sizes = s.sizes) (fun _ => rfl) (fun h h' => h'.trans h)
    (fun s b => Sizes.ofTables_modifyBinding s.scopes s.types b (·.addRef node)) s ids

/-- Binding changes the scopes, and puts a definition that widens another on record as a reference.
-/
theorem bind_cases (s : Analysis) (scope : ScopeId) (name : String) (node : Span) (ty : Ty) (kind : BindingKind) :
    (s.bind scope name node ty kind).2 = (s.scopes.insert scope name node ty kind).2.id ∧
      ((s.bind scope name node ty kind).1 = { s with scopes := (s.scopes.insert scope name node ty kind).1 } ∨
        (s.bind scope name node ty kind).1 =
          { s with scopes := (s.scopes.insert scope name node ty kind).1 }.addReferences node
            [(s.scopes.insert scope name node ty kind).2.id]) := by
  unfold bind
  cases s.scopes.insert scope name node ty kind with
  | mk scopes inserted =>
    cases inserted with
    | merged id =>
      dsimp only
      split
      · exact ⟨rfl, .inl rfl⟩
      · exact ⟨rfl, .inr rfl⟩
    | new id => exact ⟨rfl, .inl rfl⟩
    | existing id => exact ⟨rfl, .inl rfl⟩

namespace Closed

variable {code : Code} {s : Analysis}

section

variable (h : s.Closed code)
include h

/-- Tables that grow and are closed. -/
theorem grow {scopes : ScopeTable} {types : TypeStore} (ht : TypeInfer.Closed scopes types) (hsited : Sited code types)
    (hz : s.sizes ≤ .ofTables scopes types) :
    { s with scopes, types }.Closed code where
  tables := ht
  sited := hsited
  library := h.library.mono hz
  modules m hm := Nat.lt_of_lt_of_le (h.modules m hm) hz.modules
  references node b hb := Nat.lt_of_lt_of_le (h.references node b hb) hz.bindings
  uncalled f hf := Nat.lt_of_lt_of_le (h.uncalled f hf) hz.funs
  frames r hr := (h.frames r hr).mono fun _ ht => ht.mono hz
  work := h.work

theorem log (e : LogEvent) : (s.log e).Closed code :=
  { h with work := { h.work with } }

theorem report (d : Diagnostic) : (s.report d).Closed code := by
  unfold Analysis.report
  split
  · exact h
  · exact { h with }

theorem addReference (node : Span) {b} (hb : b.index < s.scopes.bindings.size) :
    (s.addReference node b).Closed code := by
  have hz := Sizes.ofTables_modifyBinding s.scopes s.types b (·.addRef node)
  have hgrow := h.grow (h.tables.addRef b node) h.sited (Sizes.le_of_eq hz.symm)
  refine { hgrow with references := ?_ }
  intro n i hi
  simp only [Analysis.addReference, ScopeTable.addRef, ScopeTable.size_bindings_modifyBinding]
  simp only [Analysis.addReference, Ordered.update, Std.TreeMap.getD_insert] at hi
  have hold := h.references node
  split at hi
  · split at hi
    · exact hold i hi
    · rcases mem_append.1 hi with hi | hi
      · exact hold i hi
      · rwa [mem_singleton.1 hi]
  · exact h.references n i hi

theorem addReferences (node : Span) {ids : List BindingId} (hids : ∀ b ∈ ids, b.index < s.scopes.bindings.size) :
    (s.addReferences node ids).Closed code := by
  unfold Analysis.addReferences
  split
  · exact h
  · induction ids generalizing s with
    | nil => exact h
    | cons b ids ih =>
      have hb := h.addReference node (hids b mem_cons_self)
      refine ih hb fun b' hb' => ?_
      have hsize : (s.addReference node b).scopes.bindings.size = s.scopes.bindings.size := by
        simp [Analysis.addReference, ScopeTable.addRef]
      exact hsize ▸ hids b' (mem_cons_of_mem b hb')

theorem newScope (kind : ScopeKind) {parent} (path : String) (hparent : parent.index < s.scopes.scopes.size) :
    (s.newScope kind parent path).1.Closed code :=
  h.grow (h.tables.newScope kind path hparent) h.sited (Sizes.le_newScope ..)

theorem declareGlobal (scope : ScopeId) (name : String) : (s.declareGlobal scope name).Closed code :=
  h.grow (h.tables.declareGlobal scope name) h.sited (Sizes.le_of_eq (Sizes.ofTables_modifyScope ..).symm)

theorem declareNonlocal (scope : ScopeId) (name : String) : (s.declareNonlocal scope name).Closed code :=
  h.grow (h.tables.declareNonlocal scope name) h.sited (Sizes.le_of_eq (Sizes.ofTables_modifyScope ..).symm)

theorem bind {scope} (name : String) (node : Span) {ty} (kind : BindingKind) (hty : ty.Within s.sizes) :
    (s.bind scope name node ty kind).1.Closed code := by
  obtain ⟨hclosed, hid⟩ := h.tables.insert scope name node kind hty
  have hgrow := h.grow hclosed h.sited (Sizes.le_insert ..)
  rcases (s.bind_cases scope name node ty kind).2 with he | he <;> rw [he]
  · exact hgrow
  · exact hgrow.addReferences node (by simpa using hid)

theorem bind_id {scope} (name : String) (node : Span) {ty} (kind : BindingKind) (hty : ty.Within s.sizes) :
    (s.bind scope name node ty kind).2.index <
      (s.bind scope name node ty kind).1.scopes.bindings.size := by
  obtain ⟨-, hid⟩ := h.tables.insert scope name node kind hty
  obtain ⟨hsame, he⟩ := s.bind_cases scope name node ty kind
  rw [hsame]
  rcases he with he | he <;> rw [he]
  · exact hid
  · have hz := sizes_addReferences { s with scopes := (s.scopes.insert scope name node ty kind).1 } node
      [(s.scopes.insert scope name node ty kind).2.id]
    exact Nat.lt_of_lt_of_eq hid (congrArg Sizes.bindings hz).symm

theorem addResolved (site : Span) : (s.addResolved site).Closed code :=
  { h with }

theorem addUnresolved (site : Span) (name : String) : (s.addUnresolved site name).Closed code :=
  { h with }

theorem addFun {f d} (hf : f.Within s.sizes) (hd : code.Has (.function d)) (hbody : f.body = .source d) :
    (s.addFun f).1.Closed code := by
  have hgrow := h.grow (h.tables.addFun hf) (h.sited.addFun hd hbody) (Sizes.le_addFun ..)
  refine { hgrow with uncalled := fun id hid => ?_ }
  rcases Ordered.mem_of_mem_insert hid with rfl | hid
  · simp [Analysis.addFun, TypeStore.addFun]
  · exact hgrow.uncalled id hid

theorem defineFunction {d defaults scope} (hd : code.Has (.function d))
    (hdefaults : ∀ t ∈ defaults, OptionAll (Ty.Within s.sizes) t) (hscope : scope.index < s.scopes.scopes.size) :
    (s.defineFunction d defaults scope).1.Closed code := by
  have haround := h.tables.scope scope
  refine h.addFun ⟨?_, haround.owner, nofun, hdefaults, nofun, nofun, nofun⟩ hd rfl
  dsimp only
  split
  · cases hparent : (s.scopes.scope scope).parent with
    | none => exact hscope
    | some parent => exact Nat.lt_trans (haround.parent parent hparent) hscope
  · exact hscope

theorem addClass {c d} (hc : c.Within s.sizes) (hd : code.Has (.cls d)) (hnode : c.node = some d.span) :
    (s.addClass c).1.Closed code := by
  have hgrow := h.grow (h.tables.addClass hc) (h.sited.addClass hd hnode) (Sizes.le_addClass ..)
  refine hgrow.grow (hgrow.tables.setOwner c.scope ?_) hgrow.sited
    (Sizes.le_of_eq (Sizes.ofTables_modifyScope ..).symm)
  simp [TypeStore.addClass]

theorem defineClass {d bases scope} (hd : code.Has (.cls d)) (hbases : ∀ t ∈ bases, t.Within s.sizes)
    (hscope : scope.index < s.scopes.scopes.size) : (s.defineClass d bases scope).1.Closed code := by
  refine (h.newScope .cls _ hscope).addClass ⟨?_, fun t ht => (hbases t ht).mono (Sizes.le_newScope ..)⟩ hd rfl
  simp [Analysis.newScope, ScopeTable.newScope, Sizes.ofTables, sizes]

theorem modifyFun {f g} (hg : ∀ f, (g f).body = f.body) (hf : (g (s.types.function f)).Within s.sizes) :
    { s with types := s.types.modifyFun f g }.Closed code :=
  h.grow (h.tables.modifyFun hf) (h.sited.modifyFun hg) (Sizes.le_of_eq (Sizes.ofTables_modifyFun ..).symm)

theorem addReceiver (f : FunId) {receiver} (hreceiver : receiver.Within s.sizes) :
    (s.addReceiver f receiver).Closed code := by
  have hf := h.tables.function f
  refine h.modifyFun (fun _ => rfl) { hf with selfType := optionAll_some.2 ?_ }
  cases hself : (s.types.function f).selfType with
  | none => exact hreceiver
  | some t => exact (hf.selfType t hself).merge hreceiver

theorem addReturn {ty} (hty : ty.Within s.sizes) : (s.addReturn ty).Closed code := by
  unfold Analysis.addReturn
  split
  · exact h
  · rename_i ret frames hframes
    have hold := hframes ▸ h.frames
    refine { h with frames := ?_ }
    intro r hr
    rcases mem_cons.1 hr with rfl | hr
    · rw [optionAll_some]
      cases ret with
      | none => exact hty
      | some t => exact (hold _ mem_cons_self t rfl).merge hty
    · exact hold r (mem_cons_of_mem ret hr)

theorem enterCall (f : FunId) (key : CallKey) (dir : Path) : (s.enterCall f key dir).Closed code := by
  have hgrow := h.modifyFun (f := f) (g := fun f => { f with called := true }) (fun _ => rfl)
    { h.tables.function f with }
  refine { hgrow with uncalled := fun i hi => ?_, frames := fun r hr => ?_ }
  · exact hgrow.uncalled i (mem_filter.1 hi).1
  · rcases mem_cons.1 hr with rfl | hr
    · exact nofun
    · exact hgrow.frames r hr

theorem returned : s.returned.Within s.sizes := by
  unfold Analysis.returned
  cases hframes : s.frames with
  | nil => exact Ty.within_prim
  | cons r frames => exact OptionAll.getD (h.frames r (by simp [hframes])) Ty.within_prim

theorem leaveCall (f : FunId) (key : CallKey) {signature : List Ty} (dir : Option Path)
    (hsignature : ∀ t ∈ signature, t.Within s.sizes) : (s.leaveCall f key signature dir).Closed code := by
  have hf := h.tables.function f
  have harrow : ((s.types.function f).setArrow signature s.returned).Within s.sizes := by
    refine { hf with signatures := fun a ha => ?_, returns := fun a ha => ?_ }
    · rcases mem_append.1 ha with ha | ha
      · exact hf.signatures a (mem_filter.1 ha).1
      · rw [mem_singleton.1 ha]
        exact hsignature
    · rcases mem_append.1 ha with ha | ha
      · exact hf.returns a (mem_filter.1 ha).1
      · rw [mem_singleton.1 ha]
        exact h.returned
  have hgrow := h.modifyFun (f := f) (g := (·.setArrow signature s.returned)) (fun _ => rfl) harrow
  exact { hgrow with frames := fun r hr => hgrow.frames r (mem_of_mem_tail hr) }

theorem enterFile (file : Path) : (s.enterFile file).Closed code :=
  { h with }

theorem leaveFile (file : Path) (dir : Option Path) : (s.leaveFile file dir).Closed code :=
  { h with }

theorem addFailure (file : Path) (faults : List Diagnostic) : (s.addFailure file faults).Closed code :=
  { h with }

theorem addLoaded (file : Path) (qname : String) {m : ModuleId} (hm : m.index < s.types.modules.size) :
    (s.addLoaded file qname m).Closed code := by
  refine { h with modules := fun e he => ?_ }
  rcases mem_cons.1 he with rfl | he
  · exact hm
  · exact h.modules e he

theorem addModule {m} (hm : m.scope.index < s.scopes.scopes.size) : (s.addModule m).1.Closed code :=
  h.grow (h.tables.addModule hm) (h.sited.addModule m) (Sizes.le_addModule ..)

end

end Closed

/-! ### Loading a file -/

/-- The file is there and of the code, and neither loaded, faulty nor being loaded. -/
structure IsNew (code : Code) (s : Analysis) (file : Path) : Prop where
  full : ∃ path, file = s.files.fullPath path
  reads : code.Reads file
  present : s.files.fileExists file
  unnamed : s.modules.lookup file.moduleQname = none
  faultless : s.hasFailed file = false
  idle : s.importing.contains file = false

theorem IsNew.not_mem_importing {code : Code} {s : Analysis} {file : Path} (h : s.IsNew code file) : file ∉ s.importing := by
  simpa using h.idle

/-- The state in which the cache is asked for the tree of a file. -/
def opening (s : Analysis) (file : Path) : Analysis := (s.enterFile file).log (.loading file)

/-- The tree of a file that is being opened. -/
def openedTree (s : Analysis) (file : Path) : Except TreeError Module :=
  ((Workspace.treeOf file).run (s.opening file).work).run.1

/-- The file has no tree, and this is put on record for it. -/
def LacksTree (s : Analysis) (file : Path) (faults : List Diagnostic) : Prop :=
  ∃ e, s.openedTree file = .error e ∧ faults = e.diagnostics file

/-- The state after the cache was asked for the tree of a file. -/
def opened (s : Analysis) (file : Path) : Analysis :=
  { s.opening file with work := (s.opening file).work.after file }

/-- The module that is made next. -/
def nextModule (s : Analysis) : ModuleId := ⟨s.types.modules.size⟩

/-- The state in which the code of a file is run, in the module that it makes. -/
def begun (s : Analysis) (file : Path) : Analysis :=
  let (t, scope) := (s.opened file).newScope .module ScopeTable.globalScope file.moduleQname
  (t.addModule { name := file.moduleName, qname := file.moduleQname, file := some file, scope }).1

/-- The state in which a file is left, after its code was run up to the state `t`. -/
def ended (s : Analysis) (file : Path) (t : Analysis) : Analysis :=
  (t.addLoaded file file.moduleQname s.nextModule).leaveFile file s.dir

/-- The state in which a file without a tree is left. -/
def unread (s : Analysis) (file : Path) (event : LogEvent) (faults : List Diagnostic) : Analysis :=
  (((s.opened file).log event).addFailure file faults).leaveFile file s.dir

/-- The file of the package that a module belongs to, if there is one. -/
def package? (s : Analysis) (file : Path) : Option Path :=
  (file.moduleDir?.map Path.initFile).filter fun init => !(init = file || !s.files.fileExists init)

/-- What an answer to a request to load a file says of the state. -/
def Answers (s : Analysis) (file : Path) : Loaded → Prop
  | .ok m => m.index < s.types.modules.size ∧ s.modules.lookup file.moduleQname = some m
  | .error .notFound => s.files.fileExists file = false
  | .error .cycle => s.importing.contains file
  | .error .unparsable => s.hasFailed file

/-- A loaded module joins its package. It stays alone if it has none, or the package is being loaded or has
no tree. -/
inductive Joins (file : Path) (m : ModuleId) (s : Analysis) : Analysis → Analysis → Prop where
  | alone (none : s.package? file = none) : Joins file m s s s
  | missed {t : Analysis} {init : Path} {failure : LoadFailure} (package : s.package? file = some init)
      (answer : t.Answers (t.files.fullPath init) (.error failure)) : Joins file m s t t
  | joined {t : Analysis} {init : Path} {parent : ModuleId} (package : s.package? file = some init)
      (answer : t.Answers (t.files.fullPath init) (.ok parent))
      (hscope : (t.types.module parent).scope.index < t.scopes.scopes.size) (hm : m.index < t.types.modules.size) :
      Joins file m s t
        (t.bind (t.types.module parent).scope (t.types.module m).name (Span.ofFile file) (.module m) .module).1

namespace Closed

variable {code : Code} {s : Analysis}

theorem opened (h : s.Closed code) {file : Path} (hnew : s.IsNew code file) :
    (s.opened file).Closed code ∧ ∀ tree, s.openedTree file = .ok tree → code.HasBlock tree.body := by
  obtain ⟨path, hfull⟩ := hnew.full
  have hopening : (s.opening file).Closed code := (h.enterFile file).log (.loading file)
  have hsame : (s.opening file).work.files.fullPath path = file := hfull.symm
  obtain ⟨hwork, htree⟩ := hopening.work.treeOf path (by rw [hsame]; exact hnew.reads)
  rw [hsame] at hwork htree
  exact ⟨{ h with work := hwork }, htree⟩

theorem begun (h : s.Closed code) {file : Path} (hnew : s.IsNew code file) : (s.begun file).Closed code := by
  have hopened := (h.opened hnew).1
  refine (hopened.newScope .module _ hopened.tables.global).addModule ?_
  simp [Analysis.newScope, ScopeTable.newScope]

end Closed

end Analysis

/-! ### Steps -/

/-- The event says that code is entered: a file is read, or an uncalled function is
applied. -/
def LogEvent.entersCode : LogEvent → Bool
  | .loading _ | .applyingUncalled _ => true
  | _ => false

/-- The problem is found when the analysis ends, not where code is run. -/
def Diagnostic.Code.isFinal (code : String) : Bool := code == unresolvedName || code == unusedVariable

/-- A single step of inference. -/
inductive Step (code : Code) (s : Analysis) : Analysis → Prop where
  | log (e : LogEvent) (he : e.entersCode = false) : Step code s (s.log e)
  | refer (node : Span) {ids : List BindingId} (hids : ∀ b ∈ ids, b.index < s.scopes.bindings.size) :
      Step code s (s.addReferences node ids)
  | report (d : Diagnostic) (hlocal : Diagnostic.Code.isFinal d.code = false)
      (hd : code.AssignsRightly → d.code ≠ Diagnostic.Code.malformedNode) : Step code s (s.report d)
  | bind {scope : ScopeId} (name : String) (node : Span) {ty : Ty} (kind : BindingKind)
      (hscope : scope.index < s.scopes.scopes.size) (hty : ty.Within s.sizes) :
      Step code s (s.bind scope name node ty kind).1
  | newScope (kind : ScopeKind) {parent : ScopeId} (path : String)
      (hparent : parent.index < s.scopes.scopes.size) : Step code s (s.newScope kind parent path).1
  | declareGlobal (scope : ScopeId) (name : String) : Step code s (s.declareGlobal scope name)
  | declareNonlocal (scope : ScopeId) (name : String) : Step code s (s.declareNonlocal scope name)
  | defineFunction {d : FunctionDef} {defaults : List (Option Ty)} {scope : ScopeId}
      (hd : code.Has (.function d)) (hdefaults : ∀ t ∈ defaults, OptionAll (Ty.Within s.sizes) t)
      (hscope : scope.index < s.scopes.scopes.size) : Step code s (s.defineFunction d defaults scope).1
  | defineClass {d : ClassDef} {bases : List Ty} {scope : ScopeId}
      (hd : code.Has (.cls d)) (hbases : ∀ t ∈ bases, t.Within s.sizes)
      (hscope : scope.index < s.scopes.scopes.size) : Step code s (s.defineClass d bases scope).1
  | addReceiver (f : FunId) {c : ClassId} (hc : c.index < s.types.classes.size) :
      Step code s (s.addReceiver f (.inst c))
  | addReturn {ty : Ty} (hty : ty.Within s.sizes) : Step code s (s.addReturn ty)
  | addResolved (site : Span) : Step code s (s.addResolved site)
  | addUnresolved (site : Span) (name : String) : Step code s (s.addUnresolved site name)

/-- Steps, applications and loads, each left before the next. -/
inductive Run (code : Code) : Analysis → Analysis → Prop where
  | refl (s : Analysis) : Run code s s
  | trans {s t u : Analysis} (first : Run code s t) (rest : Run code t u) : Run code s u
  | step {s t : Analysis} (step : Step code s t) : Run code s t
  | call {s t : Analysis} {f : FunId} {d : FunctionDef} {signature : List Ty}
      (body : (s.types.function f).body = .source d) (there : f.index < s.types.funs.size)
      (hsignature : ∀ ty ∈ signature, ty.Within s.sizes) (hlength : signature.length = d.params.length)
      (unknown : (s.types.function f).arrow? signature = none)
      (idle : s.running.contains (s.callKey d signature) = false)
      (run : Run code (s.enterCall f (s.callKey d signature) d.span.file.parentOrEmpty) t) :
      Run code s (t.leaveCall f (s.callKey d signature) signature s.dir)
  | unread {s : Analysis} {file : Path} (event : LogEvent) (faults : List Diagnostic) (new : s.IsNew code file)
      (fails : s.LacksTree file faults) (aside : event.entersCode = false) : Run code s (s.unread file event faults)
  | load {s t u v : Analysis} {file : Path} {tree : Module} (new : s.IsNew code file)
      (opens : s.openedTree file = .ok tree) (run : Run code (s.begun file) t)
      (search : Run code (s.ended file t) u) (joins : Analysis.Joins file s.nextModule (s.ended file t) u v) :
      Run code s v

variable {code : Code} {s t : Analysis} {file : Path}

theorem Step.closed (h : Step code s t) (hs : s.Closed code) : t.Closed code := by
  cases h with
  | log e he => exact hs.log e
  | refer node hids => exact hs.addReferences node hids
  | report d hlocal hd => exact hs.report d
  | bind name node kind hscope hty => exact hs.bind name node kind hty
  | newScope kind path hparent => exact hs.newScope kind path hparent
  | declareGlobal scope name => exact hs.declareGlobal scope name
  | declareNonlocal scope name => exact hs.declareNonlocal scope name
  | defineFunction hd hdefaults hscope => exact hs.defineFunction hd hdefaults hscope
  | defineClass hd hbases hscope => exact hs.defineClass hd hbases hscope
  | addReceiver f hc => exact hs.addReceiver f (Ty.within_inst.2 hc)
  | addReturn hty => exact hs.addReturn hty
  | addResolved site => exact hs.addResolved site
  | addUnresolved site name => exact hs.addUnresolved site name

/-! ### The tables grow -/

namespace Analysis

variable (s : Analysis) (scope : ScopeId) (file : Path)

theorem sizes_bind (name : String) (node : Span) (ty : Ty) (kind : BindingKind) :
    s.sizes ≤ (s.bind scope name node ty kind).1.sizes := by
  rcases (s.bind_cases scope name node ty kind).2 with he | he <;> rw [he]
  · exact Sizes.le_insert ..
  · rw [sizes_addReferences]
    exact Sizes.le_insert ..

theorem sizes_addClass (c : ClassType) : s.sizes ≤ (s.addClass c).1.sizes :=
  Sizes.le_trans (Sizes.le_addClass s.scopes s.types c) (Sizes.le_of_eq (Sizes.ofTables_modifyScope ..).symm)

theorem sizes_defineClass (d : ClassDef) (bases : List Ty) (scope : ScopeId) :
    s.sizes ≤ (s.defineClass d bases scope).1.sizes :=
  Sizes.le_trans (Sizes.le_newScope s.scopes s.types .cls scope (s.scopes.extendPath scope d.name.name))
    (sizes_addClass (s.newScope .cls scope (s.scopes.extendPath scope d.name.name)).1 _)

section

variable (s : Analysis) (d : ClassDef) (bases : List Ty) (scope : ScopeId)

theorem size_scopes_defineClass : (s.defineClass d bases scope).1.scopes.scopes.size = s.scopes.scopes.size + 1 := by
  simp [defineClass, newScope, addClass, ScopeTable.newScope, ScopeTable.setOwner]

theorem scope_defineClass : (s.defineClass d bases scope).1.scopes.scope ⟨s.scopes.scopes.size⟩ =
    { kind := .cls, parent := some scope, path := s.scopes.extendPath scope d.name.name, owner := some ⟨s.types.classes.size⟩ } := by
  let opened := (s.scopes.newScope .cls scope (s.scopes.extendPath scope d.name.name)).1
  have hnew : opened.scope ⟨s.scopes.scopes.size⟩ = { kind := .cls, parent := some scope, path := _ } :=
    (s.scopes.scope_newScope .cls scope _ _).trans (if_pos rfl)
  have hlt : s.scopes.scopes.size < opened.scopes.size := by simp [opened, ScopeTable.newScope]
  refine (opened.scope_modifyScope ⟨s.scopes.scopes.size⟩ _ _).trans ?_
  rw [if_pos ⟨rfl, hlt⟩, hnew]

theorem cls_defineClass (c : ClassId) : ((s.defineClass d bases scope).1.types.cls c).scope =
    if c.index = s.types.classes.size then ⟨s.scopes.scopes.size⟩ else (s.types.cls c).scope := by
  refine (congrArg ClassType.scope (s.types.cls_addClass _ c)).trans ?_
  split <;> rfl

end

theorem attributeScope?_cases {s : Analysis} {a : Atom} {scope : ScopeId} (h : s.attributeScope? a = some scope) :
    (∃ c, (s.types.cls c).builtin = false ∧ (s.types.cls c).scope = scope) ∨
      ∃ m, (s.types.module m).file.isSome ∧ (s.types.module m).scope = scope := by
  cases a with
  | inst c => exact .inl ⟨c, by simpa [attributeScope?] using h⟩
  | cls c => exact .inl ⟨c, by simpa [attributeScope?] using h⟩
  | module m => exact .inr ⟨m, by simpa [attributeScope?] using h⟩
  | prim p => contradiction
  | function f => contradiction

theorem sizes_begun : s.sizes ≤ (s.begun file).sizes :=
  Sizes.le_trans (Sizes.le_newScope s.scopes s.types .module _ _) (Sizes.le_addModule ..)

theorem nextModule_lt_begun : s.nextModule.index < (s.begun file).types.modules.size := by
  change s.types.modules.size < (s.types.modules.push _).size
  simp

end Analysis

/-- To join a package is one step, if it is any. -/
theorem Analysis.Joins.step (code : Code) (h : Analysis.Joins file m s t u) :
    u = t ∨ Step code t u := by
  cases h with
  | alone none => exact .inl rfl
  | missed package answer => exact .inl rfl
  | joined package answer hscope hm => exact .inr (.bind _ _ .module hscope (Ty.within_module.2 hm))

theorem Analysis.Joins.run (h : Analysis.Joins file m s t u) : Run code t u := by
  rcases h.step code with rfl | hstep
  · exact .refl _
  · exact .step hstep

theorem Step.sizes (h : Step code s t) : s.sizes ≤ t.sizes := by
  cases h with
  | refer node hids => exact Sizes.le_of_eq (s.sizes_addReferences node _).symm
  | report d hlocal hd =>
    unfold Analysis.report
    split <;> exact Sizes.le_refl _
  | bind name node kind hscope hty => exact s.sizes_bind ..
  | newScope kind path hparent => exact Sizes.le_newScope ..
  | declareGlobal scope name => exact Sizes.le_of_eq (Sizes.ofTables_modifyScope ..).symm
  | declareNonlocal scope name => exact Sizes.le_of_eq (Sizes.ofTables_modifyScope ..).symm
  | defineFunction hd hdefaults hscope => exact Sizes.le_addFun ..
  | defineClass hd hbases hscope => exact s.sizes_defineClass ..
  | addReceiver f hc => exact Sizes.le_of_eq (Sizes.ofTables_modifyFun ..).symm
  | addReturn hty =>
    unfold Analysis.addReturn
    split <;> exact Sizes.le_refl _
  | _ => exact Sizes.le_refl _

namespace Run

/-- What relates the states before and after each step, application and load relates those before and after
a run. -/
theorem relates {R : Analysis → Analysis → Prop} (refl : ∀ s, R s s) (trans : ∀ {s t u}, R s t → R t u → R s u)
    (step : ∀ {s t}, Step code s t → R s t)
    (call : ∀ {s t : Analysis} {f : FunId} (key : CallKey) (dir : Path) (signature : List Ty), f.index < s.types.funs.size →
      R (s.enterCall f key dir) t → R s (t.leaveCall f key signature s.dir))
    (unread : ∀ {s : Analysis} {file : Path} (event : LogEvent) (faults : List Diagnostic), s.IsNew code file →
      s.LacksTree file faults → event.entersCode = false → R s (s.unread file event faults))
    (load : ∀ {s t : Analysis} {file : Path}, s.IsNew code file → Run code (s.begun file) t → R (s.begun file) t →
      R s (s.ended file t)) (h : Run code s t) : R s t := by
  induction h with
  | refl s => exact refl s
  | trans _ _ ih ih' => exact trans ih ih'
  | step h => exact step h
  | call body there hsignature hlength unknown idle run ih => exact call _ _ _ there ih
  | unread event faults new fails aside => exact unread event faults new fails aside
  | load new opens run search joins ih ih' =>
    have hfound := trans (load new run ih) ih'
    rcases joins.step code with rfl | hstep
    · exact hfound
    · exact trans hfound (step hstep)

section

variable (h : Run code s t)
include h

theorem sizes : s.sizes ≤ t.sizes := by
  refine h.relates (R := fun s t => s.sizes ≤ t.sizes) (fun _ => Sizes.le_refl _) Sizes.le_trans Step.sizes
    (fun _ _ _ _ ih => ?_) (fun _ _ _ _ _ => Sizes.le_refl _) fun _ _ ih => Sizes.le_trans (Analysis.sizes_begun _ _) ih
  refine Sizes.le_trans ?_ (Sizes.le_trans ih ?_)
  · exact Sizes.le_of_eq (Sizes.ofTables_modifyFun ..).symm
  · exact Sizes.le_of_eq (Sizes.ofTables_modifyFun ..).symm

theorem within {ty : Ty} (hty : ty.Within s.sizes) : ty.Within t.sizes := hty.mono h.sizes

theorem scope {id : ScopeId} (hid : id.index < s.scopes.scopes.size) : id.index < t.scopes.scopes.size :=
  Nat.lt_of_lt_of_le hid h.sizes.scopes

theorem module {m : ModuleId} (hm : m.index < s.types.modules.size) : m.index < t.types.modules.size :=
  Nat.lt_of_lt_of_le hm h.sizes.modules

theorem closed (hs : s.Closed code) : t.Closed code := by
  induction h with
  | refl s => exact hs
  | trans _ _ ih ih' => exact ih' (ih hs)
  | step h => exact h.closed hs
  | call body there hsignature hlength unknown idle run ih =>
    refine (ih (hs.enterCall ..)).leaveCall _ _ _ fun ty hty => (hsignature ty hty).mono ?_
    exact Sizes.le_trans (Sizes.le_of_eq (Sizes.ofTables_modifyFun ..).symm) run.sizes
  | unread event faults new fails aside => exact ((((hs.opened new).1).log event).addFailure _ faults).leaveFile _ _
  | load new opens run search joins ih ih' =>
    have hmodule := run.module (Analysis.nextModule_lt_begun _ _)
    have hfound := ih' (((ih (hs.begun new)).addLoaded _ _ hmodule).leaveFile _ _)
    rcases joins.step code with rfl | hstep
    · exact hfound
    · exact hstep.closed hfound

end

end Run

/-! ### What is left alone -/

namespace Analysis

variable (s : Analysis) (node : Span)

theorem addReferences_eq (ids : List BindingId) :
    ∃ references scopes, s.addReferences node ids = { s with references, scopes } := by
  refine addReferences_relates (R := fun s t => ∃ references scopes, t = { s with references, scopes })
    (fun s => ⟨s.references, s.scopes, rfl⟩) ?_ (fun _ _ => ⟨_, _, rfl⟩) s ids
  rintro s t u ⟨references, scopes, rfl⟩ ⟨references', scopes', rfl⟩
  exact ⟨references', scopes', rfl⟩

theorem bind_eq (scope : ScopeId) (name : String) (node : Span) (ty : Ty) (kind : BindingKind) :
    ∃ references scopes, (s.bind scope name node ty kind).1 = { s with references, scopes } := by
  rcases (s.bind_cases scope name node ty kind).2 with he | he <;> rw [he]
  · exact ⟨s.references, _, rfl⟩
  · exact addReferences_eq _ node _

end Analysis

/-- What a step can change. -/
theorem Step.frame (h : Step code s t) :
    ∃ journal scopes classes funs references problems uncalled frames resolved unresolved,
      t = { s with
        work := { s.work with journal }
        scopes, types := { s.types with classes, funs }, references, problems, uncalled, frames, resolved,
        unresolved } ∧
      frames.tail = s.frames.tail ∧ frames.length = s.frames.length := by
  cases h with
  | refer node hids =>
    obtain ⟨references, scopes, he⟩ := s.addReferences_eq node _
    exact ⟨_, _, _, _, _, _, _, _, _, _, he, rfl, rfl⟩
  | bind name node kind hscope hty =>
    obtain ⟨references, scopes, he⟩ := s.bind_eq _ name node _ kind
    exact ⟨_, _, _, _, _, _, _, _, _, _, he, rfl, rfl⟩
  | report d hlocal hd =>
    unfold Analysis.report
    split <;> exact ⟨_, _, _, _, _, _, _, _, _, _, rfl, rfl, rfl⟩
  | addReturn hty =>
    unfold Analysis.addReturn
    split
    · exact ⟨_, _, _, _, _, _, _, _, _, _, rfl, rfl, rfl⟩
    · rename_i hframes
      exact ⟨_, _, _, _, _, _, _, _, _, _, rfl, by rw [hframes]; rfl, by rw [hframes]; rfl⟩
  | _ => exact ⟨_, _, _, _, _, _, _, _, _, _, rfl, rfl, rfl⟩

theorem Step.functions (h : Step code s t) : t.types.funs = s.types.funs ∧ t.uncalled = s.uncalled ∨
    (∃ d defaults scope, t = (s.defineFunction d defaults scope).1) ∨ ∃ f receiver, t = s.addReceiver f receiver := by
  cases h with
  | defineFunction hd hdefaults hscope => exact .inr (.inl ⟨_, _, _, rfl⟩)
  | addReceiver f hc => exact .inr (.inr ⟨_, _, rfl⟩)
  | refer node hids =>
    obtain ⟨references, scopes, he⟩ := s.addReferences_eq node _
    rw [he]
    exact .inl ⟨rfl, rfl⟩
  | bind name node kind hscope hty =>
    obtain ⟨references, scopes, he⟩ := s.bind_eq _ name node _ kind
    rw [he]
    exact .inl ⟨rfl, rfl⟩
  | report d hlocal hd =>
    unfold Analysis.report
    split <;> exact .inl ⟨rfl, rfl⟩
  | addReturn hty =>
    unfold Analysis.addReturn
    split <;> exact .inl ⟨rfl, rfl⟩
  | _ => exact .inl ⟨rfl, rfl⟩

/-- The same applications and loads are in progress, with the same outer frames. -/
structure SameStacks (s t : Analysis) : Prop where
  running : t.running = s.running
  importing : t.importing = s.importing
  dir : t.dir = s.dir
  outer : t.frames.tail = s.frames.tail
  height : t.frames.length = s.frames.length

theorem SameStacks.refl (s : Analysis) : SameStacks s s := ⟨rfl, rfl, rfl, rfl, rfl⟩

theorem SameStacks.trans {u : Analysis} (h : SameStacks s t) (h' : SameStacks t u) : SameStacks s u :=
  ⟨h'.running.trans h.running, h'.importing.trans h.importing, h'.dir.trans h.dir, h'.outer.trans h.outer,
    h'.height.trans h.height⟩

theorem Step.stacks (h : Step code s t) : SameStacks s t := by
  obtain ⟨_, _, _, _, _, _, _, _, _, _, rfl, houter, hheight⟩ := h.frame
  exact ⟨rfl, rfl, rfl, houter, hheight⟩

/-- A file that was entered is left again. -/
theorem SameStacks.leaveFile (h : SameStacks (s.enterFile file) t) : SameStacks s (t.leaveFile file s.dir) := by
  refine { h with importing := ?_, dir := rfl }
  change t.importing.erase file = s.importing
  rw [h.importing]
  exact erase_cons_head ..

theorem SameStacks.ended (h : SameStacks (s.begun file) t) : SameStacks s (s.ended file t) :=
  leaveFile (t := t.addLoaded file file.moduleQname s.nextModule) { h with }

/-- What an application pushed is popped when it is left. -/
theorem SameStacks.leaveCall {f : FunId} {key : CallKey} {dir : Path} (h : SameStacks (s.enterCall f key dir) t)
    (signature : List Ty) : SameStacks s (t.leaveCall f key signature s.dir) := by
  refine ⟨?_, h.importing, rfl, ?_, ?_⟩
  · change t.running.erase key = s.running
    rw [h.running]
    exact erase_cons_head ..
  · change t.frames.tail.tail = s.frames.tail
    rw [h.outer]
    rfl
  · change t.frames.tail.length = s.frames.length
    rw [h.outer]
    rfl

theorem Run.stacks (h : Run code s t) : SameStacks s t :=
  h.relates .refl .trans Step.stacks (fun _ _ signature _ ih => ih.leaveCall signature)
    (fun _ _ _ _ _ => ⟨rfl, erase_cons_head .., rfl, rfl, rfl⟩) fun _ _ ih => ih.ended

/-- What stays as it is until the analysis ends. -/
structure SameSettings (s t : Analysis) : Prop where
  config : t.config = s.config
  library : t.library = s.library
  project : t.project = s.project
  finished : t.finished = s.finished

theorem SameSettings.trans {u : Analysis} (h : SameSettings s t) (h' : SameSettings t u) : SameSettings s u :=
  ⟨h'.config.trans h.config, h'.library.trans h.library, h'.project.trans h.project, h'.finished.trans h.finished⟩

theorem Step.settings (h : Step code s t) : SameSettings s t := by
  obtain ⟨_, _, _, _, _, _, _, _, _, _, rfl, -, -⟩ := h.frame
  exact ⟨rfl, rfl, rfl, rfl⟩

theorem Run.settings (h : Run code s t) : SameSettings s t :=
  h.relates (fun _ => ⟨rfl, rfl, rfl, rfl⟩) .trans Step.settings
    (fun _ _ _ _ ih => { ih with }) (fun _ _ _ _ _ => ⟨rfl, rfl, rfl, rfl⟩)
    fun _ _ ih => { ih with }

theorem Step.modules (h : Step code s t) : t.modules = s.modules := by
  obtain ⟨_, _, _, _, _, _, _, _, _, _, rfl, -, -⟩ := h.frame
  rfl

theorem Run.lookup_modules (h : Run code s t) {qname : String} {m : ModuleId} (hs : s.modules.lookup qname = some m) :
    t.modules.lookup qname = some m := by
  refine h.relates (R := fun s t => s.modules.lookup qname = some m → t.modules.lookup qname = some m) (fun _ => id)
    (fun ih ih' hs => ih' (ih hs)) (fun h hs => by rwa [h.modules]) (fun _ _ _ _ ih => ih) (fun _ _ _ _ _ => id)
    (fun {s t file} hnew _ ih hs => ?_) hs
  change ((file.moduleQname, s.nextModule) :: t.modules).lookup qname = some m
  have hne : qname ≠ file.moduleQname := by
    rintro rfl
    simp [hnew.unnamed] at hs
  rw [lookup_cons, beq_false_of_ne hne]
  exact ih hs

/-- A file that has no tree is not tried again. -/
theorem Run.hasFailed (h : Run code s t) (hs : s.hasFailed file) : t.hasFailed file := by
  refine h.relates (R := fun s t => s.hasFailed file → t.hasFailed file) (fun _ => id) (fun ih ih' hs => ih' (ih hs))
    (fun h hs => ?_) (fun _ _ _ _ ih => ih) (fun {s file'} _ faults _ _ _ hs => ?_) (fun _ _ ih => ih) hs
  · obtain ⟨_, _, _, _, _, _, _, _, _, _, rfl, -, -⟩ := h.frame
    exact hs
  · change (s.failures ++ [(file', faults)]).any (·.1 == file)
    rw [any_append, Bool.or_eq_true]
    exact .inl hs

/-! ### The files -/

/-- Both trees have the same source files. -/
structure FileTree.SameSources (t t' : FileTree) : Prop where
  rest : ∃ files, t' = { t with files }
  sources : ∀ q : Path, q.isSourceFile → t'.files.lookup q = t.files.lookup q
  rooted : t.Rooted → t'.Rooted

namespace FileTree.SameSources

variable {t t' u : FileTree}

theorem refl (t : FileTree) : t.SameSources t := ⟨⟨t.files, rfl⟩, fun _ _ => rfl, id⟩

theorem trans (h : t.SameSources t') (h' : t'.SameSources u) : t.SameSources u := by
  obtain ⟨files, rfl⟩ := h.rest
  obtain ⟨files', rfl⟩ := h'.rest
  exact ⟨⟨files', rfl⟩, fun q hq => (h'.sources q hq).trans (h.sources q hq), h'.rooted ∘ h.rooted⟩

theorem fullPath (h : t.SameSources t') (p : Path) : t'.fullPath p = t.fullPath p := by
  obtain ⟨files, rfl⟩ := h.rest
  rfl

theorem dirs (h : t.SameSources t') : t'.dirs = t.dirs := by
  obtain ⟨files, rfl⟩ := h.rest
  rfl

theorem write {dir path : Path} {content text : String}
    (h : t.write (dir.child (fileKey path content ++ ".json")) text = .ok t') : t.SameSources t' := by
  refine ⟨?_, fun q hq => ?_, fun hrooted => hrooted.write h⟩
  · rw [write_eq_putFile h]
    exact ⟨_, rfl⟩
  · rw [write_eq_putFile h, lookup_putFile, if_neg]
    intro heq
    rw [heq, t.not_isSourceFile_entry] at hq
    exact Bool.false_ne_true hq

end FileTree.SameSources

theorem Workspace.sameSources_after (w : Workspace) (path : Path) : w.files.SameSources (w.after path).files := by
  have hproduced : ∀ {content r}, Produced w path content (fileKey path content) r → w.files.SameSources r.2.files := by
    intro content r hr
    cases hr with
    | stored => exact .refl _
    | faulty => exact .refl _
    | parsed _ changed =>
      rcases changed with rfl | ⟨entry, hentry, hwrite⟩
      · exact .refl _
      · obtain ⟨dir, -, rfl⟩ := Option.map_eq_some_iff.1 hentry
        exact .write hwrite
  have hanswered := answered_treeOf w path
  rw [after]
  generalize ((Workspace.treeOf path).run w).run = r at hanswered
  cases hanswered with
  | unreadable reads => exact .refl _
  | remembered reads there key => exact .refl _
  | failed reads produced => exact hproduced produced
  | produced reads produced =>
    have hsame := hproduced produced
    exact hsame

theorem Analysis.sameSources_opened (s : Analysis) (file : Path) : s.files.SameSources (s.opened file).files :=
  (s.opening file).work.sameSources_after file

theorem Run.files (h : Run code s t) : s.files.SameSources t.files := by
  refine h.relates (R := fun s t => s.files.SameSources t.files) (fun _ => .refl _) .trans (fun h => ?_)
    (fun _ _ _ _ ih => ih) (fun _ _ _ _ _ => Analysis.sameSources_opened _ _)
    fun _ _ ih => (Analysis.sameSources_opened _ _).trans ih
  obtain ⟨_, _, _, _, _, _, _, _, _, _, rfl, -, -⟩ := h.frame
  exact .refl _

end TypeInfer
