/-
What is seen of class bodies. Each scope has its place (`Sits`); the body of a function is in the
scope where the function is defined, or around its class if it is a method (`Closes`). Being so
nested is a guard (`Guard.nested`). A lookup from the body of a function passes the body of a class
in two cases only (`OpensOnClass`).
-/
import TypeInfer.Proofs.Growth
import TypeInfer.Proofs.Guards
import TypeInfer.Proofs.ScopeWalks

namespace TypeInfer

variable {s t u : Analysis} {table : ScopeTable} {id : ScopeId} (hrests : s.Rests t)

/-! ### Places -/

/-- The scope is where scopes of its kind are. -/
structure Sits (types : TypeStore) (id : ScopeId) (x : Scope) : Prop where
  parent : ∀ p, x.parent = some p → p.index < id.index
  root : x.parent = none ↔ x.kind = .global
  module : x.kind = .module → x.parent = some ScopeTable.globalScope
  cls : x.kind = .cls → x.owner.isSome
  owner : ∀ c, x.owner = some c → x.kind = .cls ∧ c.index < types.classes.size ∧ (types.cls c).scope = id
  body : x.kind = .function → ∃ f d, (types.function f).body = .source d ∧ x.parent = some (types.function f).closure

/-- A function closes over what is around its class, and else not over a class body. -/
structure Closes (s : Analysis) (f : FunType) : Prop where
  there : f.closure.index < s.scopes.scopes.size
  function : f.owner = none → (s.scopes.scope f.closure).kind ≠ .cls
  method : ∀ c, f.owner = some c →
    c.index < s.types.classes.size ∧ (s.scopes.scope (s.types.cls c).scope).parent = some f.closure

/-- Scopes and functions have their places. -/
structure Analysis.Nested (s : Analysis) : Prop where
  scope : ∀ id : ScopeId, id.index < s.scopes.scopes.size → Sits s.types id (s.scopes.scope id)
  function : ∀ f d, (s.types.function f).body = .source d → Closes s (s.types.function f)
  cls : ∀ c, (s.types.cls c).scope.index < s.scopes.scopes.size
  module : ∀ m, (s.types.module m).scope.index < s.scopes.scopes.size

theorem TypeStore.lt_of_source {types : TypeStore} {f : FunId} {d : FunctionDef} (h : (types.function f).body = .source d) :
    f.index < types.funs.size := by
  refine Nat.not_le.1 fun hle => ?_
  rw [types.function_eq_default hle] at h
  cases h

theorem ScopeTable.lt_of_parent {p} (h : (table.scope id).parent = some p) :
    id.index < table.scopes.size := by
  refine Nat.not_le.1 fun hle => ?_
  rw [table.scope_eq_default hle] at h
  cases h

theorem Sits.later {x y : Scope} (h : Sits s.types id x) (hrests : s.Rests t)
    (hsame : x.SamePlace y) :
    Sits t.types id y where
  parent p hp := h.parent p (hsame.parent ▸ hp)
  root := by rw [hsame.parent, hsame.kind, h.root]
  module hkind := hsame.parent.trans (h.module (hsame.kind ▸ hkind))
  cls hkind := hsame.owner ▸ h.cls (hsame.kind ▸ hkind)
  owner c hc := by
    obtain ⟨hkind, hlt, hscope⟩ := h.owner c (hsame.owner ▸ hc)
    exact ⟨hsame.kind.trans hkind, Nat.lt_of_lt_of_le hlt hrests.sizes.classes, by rw [hrests.cls c hlt, hscope]⟩
  body hkind := by
    obtain ⟨f, d, hbody, hparent⟩ := h.body (hsame.kind ▸ hkind)
    have hf := s.types.lt_of_source hbody
    exact ⟨f, d, (hrests.body f hf).trans hbody, by rw [hsame.parent, hparent, hrests.closure f hf]⟩

theorem Closes.later {f g} (h : Closes s f) (hrests : s.Rests t) (hclosure : g.closure = f.closure)
    (howner : g.owner = f.owner) : Closes t g where
  there := hclosure ▸ Nat.lt_of_lt_of_le h.there hrests.sizes.scopes
  function hnone := by
    rw [hclosure, (hrests.place f.closure h.there).kind]
    exact h.function (howner ▸ hnone)
  method c hc := by
    obtain ⟨hlt, hparent⟩ := h.method c (howner ▸ hc)
    refine ⟨Nat.lt_of_lt_of_le hlt hrests.sizes.classes, ?_⟩
    rw [hrests.cls c hlt, (hrests.place _ (ScopeTable.lt_of_parent hparent)).parent, hparent, hclosure]

namespace Analysis.Nested

section

variable (h : s.Nested)
include h

theorem grow (hrests : s.Rests t)
    (hscope : ∀ id : ScopeId, s.scopes.scopes.size ≤ id.index → id.index < t.scopes.scopes.size → Sits t.types id (t.scopes.scope id))
    (hfun : ∀ f : FunId, s.types.funs.size ≤ f.index → ∀ d, (t.types.function f).body = .source d → Closes t (t.types.function f))
    (hcls : ∀ c : ClassId, s.types.classes.size ≤ c.index → (t.types.cls c).scope.index < t.scopes.scopes.size)
    (hmodule : ∀ m : ModuleId, s.types.modules.size ≤ m.index → (t.types.module m).scope.index < t.scopes.scopes.size) :
    t.Nested where
  scope id hid := by
    rcases Nat.lt_or_ge id.index s.scopes.scopes.size with hold | hnew
    · exact (h.scope id hold).later hrests (hrests.place id hold)
    · exact hscope id hnew hid
  function f d hbody := by
    rcases Nat.lt_or_ge f.index s.types.funs.size with hold | hnew
    · exact (h.function f d ((hrests.body f hold).symm.trans hbody)).later hrests (hrests.closure f hold) (hrests.owner f hold)
    · exact hfun f hnew d hbody
  cls c := by
    rcases Nat.lt_or_ge c.index s.types.classes.size with hold | hnew
    · rw [hrests.cls c hold]
      exact Nat.lt_of_lt_of_le (h.cls c) hrests.sizes.scopes
    · exact hcls c hnew
  module m := by
    rcases Nat.lt_or_ge m.index s.types.modules.size with hold | hnew
    · rw [hrests.module m hold]
      exact Nat.lt_of_lt_of_le (h.module m) hrests.sizes.scopes
    · exact hmodule m hnew

/-- No function, class or module is new. -/
theorem of_types (hrests : s.Rests t) (hfuns : t.types.funs.size = s.types.funs.size)
    (hclasses : t.types.classes = s.types.classes) (hmodules : t.types.modules = s.types.modules)
    (hscope : ∀ id : ScopeId, s.scopes.scopes.size ≤ id.index → id.index < t.scopes.scopes.size → Sits t.types id (t.scopes.scope id)) :
    t.Nested := by
  refine h.grow hrests hscope (fun f hf d hbody => ?_) (fun c _ => ?_) fun m _ => ?_
  · exact absurd (t.types.lt_of_source hbody) (Nat.not_lt.2 (hfuns ▸ hf))
  · rw [TypeStore.cls, hclasses]
    exact Nat.lt_of_lt_of_le (h.cls c) hrests.sizes.scopes
  · rw [TypeStore.module, hmodules]
    exact Nat.lt_of_lt_of_le (h.module m) hrests.sizes.scopes

theorem of_rests (hrests : s.Rests t) (hsize : t.scopes.scopes.size = s.scopes.scopes.size)
    (hfuns : t.types.funs.size = s.types.funs.size) (hclasses : t.types.classes = s.types.classes)
    (hmodules : t.types.modules = s.types.modules) : t.Nested :=
  h.of_types hrests hfuns hclasses hmodules fun _ hnew hid => absurd (hsize ▸ hid) (Nat.not_lt.2 hnew)

theorem newScope {kind parent path} (hsits : Sits s.types ⟨s.scopes.scopes.size⟩ { kind, parent := some parent, path }) :
    (s.newScope kind parent path).1.Nested := by
  refine h.of_types (.newScope ..) rfl rfl rfl fun id hnew hid => ?_
  have hsize : (s.newScope kind parent path).1.scopes.scopes.size = s.scopes.scopes.size + 1 := Array.size_push ..
  obtain rfl : id = ⟨s.scopes.scopes.size⟩ := congrArg ScopeId.mk (by omega)
  exact ((s.scopes.scope_newScope kind parent path _).trans (if_pos rfl)).symm ▸ hsits

theorem comprehension {scope} (hscope : scope.index < s.scopes.scopes.size) (path : String) :
    (s.newScope .comprehension scope path).1.Nested :=
  h.newScope ⟨fun _ hp => Option.some.inj hp ▸ hscope, ⟨nofun, nofun⟩, nofun, nofun, nofun, nofun⟩

theorem body {f d} (hbody : (s.types.function f).body = .source d) (path : String) :
    (s.newScope .function (s.types.function f).closure path).1.Nested :=
  h.newScope ⟨fun _ hp => Option.some.inj hp ▸ (h.function f d hbody).there, ⟨nofun, nofun⟩, nofun, nofun, nofun,
    fun _ => ⟨f, d, hbody, rfl⟩⟩

theorem openModule (path : String) : (s.newScope .module ScopeTable.globalScope path).1.Nested :=
  h.newScope ⟨fun _ hp => Option.some.inj hp ▸ Nat.zero_lt_of_lt (h.cls default), ⟨nofun, nofun⟩, fun _ => rfl, nofun, nofun, nofun⟩

/-- All scopes that there may be have their places. -/
theorem sits (id : ScopeId) : Sits s.types id (s.scopes.scope id) := by
  rcases Nat.lt_or_ge id.index s.scopes.scopes.size with hlt | hge
  · exact h.scope id hlt
  · rw [s.scopes.scope_eq_default hge]
    exact ⟨nofun, ⟨fun _ => rfl, fun _ => rfl⟩, nofun, nofun, nofun, nofun⟩

theorem isTree : s.scopes.IsTree := ⟨(h.sits _).parent _, (h.sits _).root.1⟩

/-- A function closes over the scope of its definition, or over what is around its class. -/
theorem defineFunction (d : FunctionDef) (defaults : List (Option Ty)) {scope : ScopeId}
    (hscope : scope.index < s.scopes.scopes.size) : (s.defineFunction d defaults scope).1.Nested := by
  have hsits := h.scope scope hscope
  refine h.grow (.addFun ..) (fun id hnew hid => absurd hid (Nat.not_lt.2 hnew)) (fun f hf definition hbody => ?_)
    (fun c _ => h.cls c) fun m _ => h.module m
  have hlt := TypeStore.lt_of_source hbody
  have hsize : (s.defineFunction d defaults scope).1.types.funs.size = s.types.funs.size + 1 := Array.size_push ..
  have hnew : (s.defineFunction d defaults scope).1.types.function f = _ :=
    (s.types.function_addFun _ f).trans (if_pos (by omega))
  rw [hnew]
  cases howner : (s.scopes.scope scope).owner with
  | none =>
    refine ⟨hscope, fun _ hcls => ?_, nofun⟩
    have howned := hsits.cls hcls
    rw [howner] at howned
    cases howned
  | some c =>
    obtain ⟨hkind, hlt, hcls⟩ := hsits.owner c howner
    cases hparent : (s.scopes.scope scope).parent with
    | none => cases (hsits.root.1 hparent).symm.trans hkind
    | some p =>
      refine ⟨Nat.lt_trans (hsits.parent p hparent) hscope, nofun, fun c' hc' => ?_⟩
      obtain rfl := Option.some.inj hc'
      exact ⟨hlt, (congrArg (fun id => (s.scopes.scope id).parent) hcls).trans hparent⟩

theorem defineClass (d : ClassDef) (bases : List Ty) {scope : ScopeId} (hscope : scope.index < s.scopes.scopes.size) :
    (s.defineClass d bases scope).1.Nested := by
  have hsize := s.size_scopes_defineClass d bases scope
  have hcls := s.cls_defineClass d bases scope
  refine h.grow (.defineClass ..) (fun id hnew hid => ?_)
    (fun f hf d hbody => absurd (TypeStore.lt_of_source hbody) (Nat.not_lt.2 hf)) (fun c _ => ?_) fun m _ => ?_
  · obtain rfl : id = ⟨s.scopes.scopes.size⟩ := congrArg ScopeId.mk (by omega)
    rw [s.scope_defineClass]
    refine ⟨fun _ hp => Option.some.inj hp ▸ hscope, ⟨nofun, nofun⟩, nofun, fun _ => rfl, fun c hc => ?_, nofun⟩
    obtain rfl := Option.some.inj hc
    exact ⟨rfl, (Array.size_push ..).symm ▸ Nat.lt_succ_self _, (hcls _).trans (if_pos rfl)⟩
  · rw [hcls, hsize]
    split
    · exact Nat.lt_succ_self _
    · exact Nat.lt_succ_of_lt (h.cls c)
  · exact hsize ▸ Nat.lt_succ_of_lt (h.module m)

theorem addModule {m : ModuleType} (hm : m.scope.index < s.scopes.scopes.size) : (s.addModule m).1.Nested := by
  refine h.grow (.addModule ..) (fun id hnew hid => absurd hid (Nat.not_lt.2 hnew))
    (fun f hf d hbody => absurd (TypeStore.lt_of_source hbody) (Nat.not_lt.2 hf)) (fun c _ => h.cls c) fun i _ => ?_
  have hmade : (s.addModule m).1.types.module i = if i.index = s.types.modules.size then m else s.types.module i :=
    s.types.module_addModule m i
  rw [hmade]
  split
  · exact hm
  · exact h.module i

theorem targetScope {scope} (hscope : scope.index < s.scopes.scopes.size) (name : String) :
    (s.scopes.targetScope scope name).index < s.scopes.scopes.size :=
  Nat.lt_of_le_of_lt (h.isTree.index_le (h.isTree.targetScope_mem scope name)) hscope

theorem attributeScope? {a scope} (hscope : s.attributeScope? a = some scope) : scope.index < s.scopes.scopes.size := by
  rcases attributeScope?_cases hscope with ⟨c, -, rfl⟩ | ⟨m, -, rfl⟩
  · exact h.cls c
  · exact h.module m

end

end Analysis.Nested

/-- Code is run in scopes that are there. -/
def Guard.nested : Guard where
  Holds := Analysis.Nested
  Own table id := id.index < table.scopes.size
  own_mono hsize hid := Nat.lt_of_lt_of_le hid hsize
  own_new _ hsize := hsize
  same h hscopes htypes _ := h.of_rests (.of_same hscopes htypes) (by rw [hscopes]) (by rw [htypes]) (by rw [htypes]) (by rw [htypes])
  refer node b h := h.of_rests (.addReference ..) rfl rfl rfl rfl
  insert name node ty kind h _ := h.of_rests (.insert ..) (ScopeTable.size_scopes_insert ..) rfl rfl rfl
  declare hf h _ := h.of_rests (.declare hf) (by simp) rfl rfl rfl
  comprehension path h hscope := h.comprehension hscope path
  body path h hbody := h.body hbody path
  module path h := h.openModule path
  defineFunction d defaults h hscope := h.defineFunction d defaults hscope
  defineClass d bases h hscope := h.defineClass d bases hscope
  modifyFun h hscopes htypes _ hg := h.of_rests (.modifyFun hscopes htypes hg) (by rw [hscopes])
    (by rw [htypes]; exact Array.size_modify) (by rw [htypes]; rfl) (by rw [htypes]; rfl)
  addModule h hscope := h.addModule hscope
  addLoaded _ _ h _ := h.of_rests (.of_same rfl rfl) rfl rfl rfl rfl
  targetScope name h hscope := h.targetScope hscope name
  enclosingBlock h hscope := Nat.lt_of_le_of_lt (h.isTree.index_le (h.isTree.enclosingBlock_mem _)) hscope
  attributeScope h hscope := h.attributeScope? hscope
  loaded h _ := h.module _

/-! ### The start -/

theorem Definitions.Draft.Closed.nested {d : Draft} (h : d.Closed) (work : Workspace) (config : Config) (library : Library) :
    Analysis.Nested { work, config, library, scopes := d.scopes, types := d.types } where
  scope id _ := by
    obtain ⟨hroot, hmodule, hcls, howner⟩ := h.placed id
    exact ⟨(h.tables.scope id).parent, hroot, hmodule, hcls, howner, fun hkind => absurd hkind (h.unentered id)⟩
  function f definition hbody := absurd hbody (h.native f definition)
  cls c := (h.tables.cls c).scope
  module := h.tables.module

theorem Analysis.nested_start {work : Workspace} {config : Config} (hstart : Analysis.start work config = .ok s) :
    s.Nested := by
  obtain ⟨w, heq, -⟩ := Analysis.start_cases hstart
  rw [heq, Analysis.fresh_eq]
  exact Library.closed_installed.1.nested w config Library.installed.1

/-! ### Lookups -/

/-- No class body is around the scope, and no name is found in one from there. -/
structure ScopeTable.SkipsClasses (table : ScopeTable) (id : ScopeId) : Prop where
  around : ∀ a ∈ table.ancestors id, (table.scope a).kind ≠ .cls
  lookup : ∀ name ids, table.lookup id name = some ids →
    ∃ a ∈ table.ancestors id, table.slot a name = ids ∧ (table.scope a).kind ≠ .cls

theorem ScopeTable.IsTree.ancestors_trans (h : table.IsTree) {a b} (ha : a ∈ table.ancestors id)
    (hb : b ∈ table.ancestors a) : b ∈ table.ancestors id := by
  rw [h.ancestors_eq_append ha]
  exact List.mem_append_right _ hb

/-- What is looked up is found around the scope. -/
theorem ScopeTable.IsTree.skipsClasses_iff {table : ScopeTable} (h : table.IsTree) {id : ScopeId} :
    table.SkipsClasses id ↔ ∀ a ∈ table.ancestors id, (table.scope a).kind ≠ .cls := by
  refine ⟨SkipsClasses.around, fun haround => ⟨haround, fun name ids hids => ?_⟩⟩
  rw [lookup_eq] at hids
  obtain ⟨a, ha, hslot, -⟩ := exists_of_lookupFrom hids
  have hmem : a ∈ table.ancestors id := by
    split at ha
    · exact h.ancestors_trans (h.moduleScope_mem id) ha
    · exact ha
  exact ⟨a, hmem, hslot, haround a hmem⟩

/-- The scope is right in the body of a class without being one. -/
inductive Analysis.OpensOnClass (s : Analysis) (x : ScopeId) : Prop where
  /-- It is that of a comprehension. -/
  | comprehension {k : ScopeId} (kind : (s.scopes.scope x).kind = .comprehension)
      (parent : (s.scopes.scope x).parent = some k) (cls : (s.scopes.scope k).kind = .cls)
  /-- It is the body of a method of a class that is defined there. -/
  | method {f : FunId} {d : FunctionDef} {c : ClassId} {k : ScopeId} (kind : (s.scopes.scope x).kind = .function)
      (body : (s.types.function f).body = .source d) (owner : (s.types.function f).owner = some c)
      (nested : (s.scopes.scope (s.types.cls c).scope).parent = some k) (closure : (s.types.function f).closure = k)
      (parent : (s.scopes.scope x).parent = some k) (cls : (s.scopes.scope k).kind = .cls)

namespace Analysis

theorem OpensOnClass.exists_parent {x} (h : s.OpensOnClass x) :
    ∃ k, (s.scopes.scope x).parent = some k ∧ (s.scopes.scope k).kind = .cls := by
  cases h with
  | comprehension kind parent cls => exact ⟨_, parent, cls⟩
  | method kind body owner nested closure parent cls => exact ⟨_, parent, cls⟩

theorem Nested.opensOnClass (h : s.Nested) {x k} (hx : (s.scopes.scope x).kind ≠ .cls)
    (hparent : (s.scopes.scope x).parent = some k) (hk : (s.scopes.scope k).kind = .cls) :
    s.OpensOnClass x := by
  have hsits := h.sits x
  cases hkind : (s.scopes.scope x).kind with
  | cls => exact absurd hkind hx
  | comprehension => exact .comprehension hkind hparent hk
  | global => cases (hsits.root.2 hkind).symm.trans hparent
  | module =>
    obtain rfl := Option.some.inj ((hsits.module hkind).symm.trans hparent)
    cases hroot : (s.scopes.scope ScopeTable.globalScope).parent with
    | none => cases ((h.sits _).root.1 hroot).symm.trans hk
    | some p => cases (h.sits _).parent p hroot
  | function =>
    obtain ⟨f, d, hbody, hclosure⟩ := hsits.body hkind
    have hk' : (s.types.function f).closure = k := Option.some.inj (hclosure.symm.trans hparent)
    have hcloses := h.function f d hbody
    cases howner : (s.types.function f).owner with
    | none => exact absurd (hk' ▸ hk) (hcloses.function howner)
    | some c => exact .method hkind hbody howner (hk' ▸ (hcloses.method c howner).2) hk' hparent hk

theorem Nested.around_iff (h : s.Nested) {id} (hid : (s.scopes.scope id).kind ≠ .cls) :
    (∀ a ∈ s.scopes.ancestors id, (s.scopes.scope a).kind ≠ .cls) ↔ ∀ x ∈ s.scopes.ancestors id, ¬ s.OpensOnClass x := by
  refine ⟨fun haround x hx hopens => ?_, fun hnone => ?_⟩
  · obtain ⟨k, hparent, hk⟩ := hopens.exists_parent
    refine haround k (h.isTree.ancestors_trans hx ?_) hk
    rw [h.isTree.ancestors_of_parent hparent]
    exact List.mem_cons_of_mem x (s.scopes.self_mem_ancestors k)
  · induction id using h.isTree.induction with
    | root id hroot =>
      rw [ScopeTable.ancestors_of_root hroot]
      simpa using hid
    | step id p hp ih =>
      rw [h.isTree.ancestors_of_parent hp] at hnone ⊢
      obtain ⟨hself, hnone⟩ := List.forall_mem_cons.1 hnone
      exact List.forall_mem_cons.2 ⟨hid, ih (fun hcls => hself (h.opensOnClass hid hp hcls)) hnone⟩

/-! ### States on the way -/

theorem Rests.isTree (h : u.Rests t) (htree : t.scopes.IsTree) : u.scopes.IsTree where
  parent hp := htree.parent ((h.place _ (ScopeTable.lt_of_parent hp)).parent.trans hp)
  root {id} hnone := by
    rcases Nat.lt_or_ge id.index u.scopes.scopes.size with hlt | hge
    · have hsame := h.place id hlt
      exact hsame.kind.symm.trans (htree.root (hsame.parent.trans hnone))
    · rw [u.scopes.scope_eq_default hge]
      rfl

theorem Rests.ancestors (h : u.Rests t) (htree : t.scopes.IsTree) {id}
    (hid : id.index < u.scopes.scopes.size) : u.scopes.ancestors id = t.scopes.ancestors id := by
  induction id using htree.induction with
  | root id hnone => rw [ScopeTable.ancestors_of_root hnone, ScopeTable.ancestors_of_root ((h.place id hid).parent ▸ hnone)]
  | step id p hp ih =>
    rw [htree.ancestors_of_parent hp, (h.isTree htree).ancestors_of_parent ((h.place id hid).parent ▸ hp),
      ih (Nat.lt_trans (htree.parent hp) hid)]

/-- What is around a scope is around it later. -/
theorem Rests.skipsClasses_iff (h : u.Rests t) (ht : t.Nested) {id : ScopeId} (hid : (u.scopes.scope id).kind = .function) :
    u.scopes.SkipsClasses id ↔ ∀ x ∈ u.scopes.ancestors id, ¬ t.OpensOnClass x := by
  have hlt : id.index < u.scopes.scopes.size := by
    refine Nat.not_le.1 fun hle => ?_
    rw [u.scopes.scope_eq_default hle] at hid
    cases hid
  have hkind : (t.scopes.scope id).kind ≠ .cls := by
    rw [(h.place id hlt).kind, hid]
    nofun
  rw [(h.isTree ht.isTree).skipsClasses_iff, h.ancestors ht.isTree hlt, ← ht.around_iff hkind]
  refine forall₂_congr fun a ha => ?_
  rw [(h.place a (Nat.lt_of_le_of_lt (ht.isTree.index_le ha) hlt)).kind]

end Analysis

/-! ### The program -/

/-- Whatever is demanded of an analysis, a function that is no method closes over a scope that is not a
class body, and a method over the scope around its class. At all points that are passed, names in
the body of a function are looked up past all class bodies, unless one of the scopes from there up
is that of a comprehension right in a class body, or the body of a method of a class that is defined
right in one. -/
theorem methods_see_class_bodies_only_when_nested {work : Workspace} {config : Config} {s t : Analysis}
    {demands : List Demand} {depth : Nat} (hstart : Analysis.start work config = .ok s)
    (hrun : (demands.forM (Demand.run ⟨Infer.apply depth, Infer.load depth⟩ depth)).run s = some ((), t)) :
    (∀ f d, (t.types.function f).body = .source d →
      (∀ c, (t.types.function f).owner = some c →
        (t.scopes.scope (t.types.cls c).scope).parent = some (t.types.function f).closure) ∧
      ((t.scopes.scope (t.types.function f).closure).kind = .cls ↔ ∃ c k, (t.types.function f).owner = some c ∧
        (t.scopes.scope (t.types.cls c).scope).parent = some k ∧ (t.scopes.scope k).kind = .cls)) ∧
    (∃ points, Trace .all s points t) ∧ ∀ points, Trace .all s points t → ∀ u, u = t ∨ u ∈ points.map Point.state →
      u.Rests t ∧ ∀ id, (u.scopes.scope id).kind = .function →
        (u.scopes.SkipsClasses id ↔ ∀ x ∈ u.scopes.ancestors id, ¬ t.OpensOnClass x) := by
  have hnested : t.Nested := (Demand.keeps (G := .nested) demands depth s (Analysis.nested_start hstart) () t hrun).holds
  refine ⟨fun f d hbody => ?_, Demand.exists_trace_all (Analysis.closed_all hstart) hrun, fun points htrace u hu => ?_⟩
  · have hcloses := hnested.function f d hbody
    refine ⟨fun c hc => (hcloses.method c hc).2, fun hkind => ?_, fun ⟨c, k, hc, hparent, hk⟩ => ?_⟩
    · cases howner : (t.types.function f).owner with
      | none => exact absurd hkind (hcloses.function howner)
      | some c => exact ⟨c, _, rfl, (hcloses.method c howner).2, hkind⟩
    · obtain rfl := Option.some.inj ((hcloses.method c hc).2.symm.trans hparent)
      exact hk
  · have hrests : u.Rests t := by
      rcases hu with rfl | hu
      · exact .of_same rfl rfl
      · exact htrace.passes_rests.last u (List.mem_cons_of_mem s hu)
    exact ⟨hrests, fun id hid => hrests.skipsClasses_iff hnested hid⟩

/-- A method in a class, in a function. -/
def Workspace.localClass : Workspace where
  files := ({} : FileTree).addFile ⟨"/p/main.py"⟩
    "def f():\n    class A:\n        x = 1\n        def m(self):\n            return x\n    return A().m()\ny = f()\n"

theorem methods_see_class_bodies_only_when_nested_localClass : ∃ (depth : Nat) (s t : Analysis),
    Analysis.start Workspace.localClass .hermetic = .ok s ∧
    ([Demand.grant (.project ⟨"/p"⟩), .finish].forM
      (Demand.run ⟨Infer.apply depth, Infer.load depth⟩ depth)).run s = some ((), t) ∧
    ∀ id, (t.scopes.scope id).kind = .function →
      (t.scopes.SkipsClasses id ↔ ∀ x ∈ t.scopes.ancestors id, ¬ t.OpensOnClass x) := by
  have hbuilt : Workspace.localClass.files.Built := .addFile (.empty rfl rfl rfl) _ _
  obtain ⟨s, hstart⟩ : ∃ s, Analysis.start Workspace.localClass .hermetic = .ok s := ⟨_, Analysis.start_hermetic _⟩
  obtain ⟨depth, t, hrun⟩ := Demand.exists_run hbuilt hstart ⟨"/p"⟩
  obtain ⟨-, ⟨points, htrace⟩, hall⟩ := methods_see_class_bodies_only_when_nested hstart hrun
  exact ⟨depth, s, t, hstart, hrun, (hall points htrace t (.inl rfl)).2⟩

/-- A method of a class in a class. -/
def Workspace.nestedClass : Workspace where
  files := ({} : FileTree).addFile ⟨"/p/main.py"⟩
    "class A:\n    x = 1\n    class B:\n        def m(self):\n            return x\ny = A.B().m()\n"

/-- A method closes over a class body, and a name in the body of a function is found in one. -/
theorem nested_class_method_sees_outer_body : ∃ s t, Analysis.start Workspace.nestedClass .hermetic = .ok s ∧
    ([Demand.grant (.file ⟨"/p/main.py"⟩)].forM (Demand.run ⟨Infer.apply 9, Infer.load 9⟩ 9)).run s = some ((), t) ∧
    (∃ f < t.types.funs.size, (t.types.function ⟨f⟩).owner.isSome ∧
      (t.scopes.scope (t.types.function ⟨f⟩).closure).kind = .cls) ∧
    ∃ id < t.scopes.scopes.size, (t.scopes.scope ⟨id⟩).kind = .function ∧ ∃ k < t.scopes.scopes.size,
      (t.scopes.scope ⟨k⟩).kind = .cls ∧ t.scopes.lookup ⟨id⟩ "x" = some (t.scopes.slot ⟨k⟩ "x") := by
  have hrun : (([Demand.grant (.file ⟨"/p/main.py"⟩)].forM (Demand.run ⟨Infer.apply 9, Infer.load 9⟩ 9)).run
      (Analysis.fresh { Workspace.nestedClass with cache := {} } .hermetic)).any fun x => decide (
        (∃ f < x.2.types.funs.size, (x.2.types.function ⟨f⟩).owner.isSome ∧
          (x.2.scopes.scope (x.2.types.function ⟨f⟩).closure).kind = .cls) ∧
        ∃ id < x.2.scopes.scopes.size, (x.2.scopes.scope ⟨id⟩).kind = .function ∧ ∃ k < x.2.scopes.scopes.size,
          (x.2.scopes.scope ⟨k⟩).kind = .cls ∧ x.2.scopes.lookup ⟨id⟩ "x" = some (x.2.scopes.slot ⟨k⟩ "x")) := by
    rw [Analysis.fresh_eq]
    decide +kernel
  obtain ⟨⟨⟨⟩, t⟩, hrun, hx⟩ := (Option.any_eq_true ..).1 hrun
  exact ⟨_, t, Analysis.start_hermetic _, hrun, of_decide_eq_true hx⟩

end TypeInfer
