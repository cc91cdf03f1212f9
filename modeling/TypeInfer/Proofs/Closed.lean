/-
The tables are closed: whatever a scope, binding, module, class or function names is in the tables
(`Closed`), and so is all that an analysis keeps (`Analysis.Closed`). Classes and functions that
are not in the library have their definition in the code that is run.
-/
import TypeInfer.Analysis.Apply
import TypeInfer.Proofs.Node
import TypeInfer.Proofs.Tables

namespace TypeInfer

open List

/-- How many entries the tables have. -/
structure Sizes where
  modules : Nat
  classes : Nat
  funs : Nat
  scopes : Nat
  bindings : Nat

namespace Sizes

variable (scopes : ScopeTable) (types : TypeStore)

def ofTables (scopes : ScopeTable) (types : TypeStore) : Sizes where
  modules := types.modules.size
  classes := types.classes.size
  funs := types.funs.size
  scopes := scopes.scopes.size
  bindings := scopes.bindings.size

theorem classes_ofTables :
    (ofTables scopes types).classes = types.classes.size := rfl

theorem funs_ofTables :
    (ofTables scopes types).funs = types.funs.size := rfl

structure Le (y z : Sizes) : Prop where
  modules : y.modules ≤ z.modules
  classes : y.classes ≤ z.classes
  funs : y.funs ≤ z.funs
  scopes : y.scopes ≤ z.scopes
  bindings : y.bindings ≤ z.bindings

instance : LE Sizes := ⟨Le⟩

theorem le_refl (z : Sizes) : z ≤ z :=
  ⟨Nat.le_refl _, Nat.le_refl _, Nat.le_refl _, Nat.le_refl _, Nat.le_refl _⟩

theorem le_of_eq {y z : Sizes} (h : y = z) : y ≤ z := h ▸ le_refl y

theorem le_trans {x y z : Sizes} (h : x ≤ y) (h' : y ≤ z) : x ≤ z :=
  ⟨Nat.le_trans h.modules h'.modules, Nat.le_trans h.classes h'.classes, Nat.le_trans h.funs h'.funs,
    Nat.le_trans h.scopes h'.scopes, Nat.le_trans h.bindings h'.bindings⟩

/-! Nothing is ever taken out of the tables. -/

section

variable (scopes : ScopeTable) (types : TypeStore) (id : ScopeId) (name : String) (node : Span)
  (kind : BindingKind)

theorem le_newScope (kind : ScopeKind) (parent : ScopeId) (path : String) :
    ofTables scopes types ≤ ofTables (scopes.newScope kind parent path).1 types :=
  { le_refl _ with scopes := by simp [ofTables, ScopeTable.newScope] }

@[simp] theorem ofTables_modifyScope (f : Scope → Scope) :
    ofTables (scopes.modifyScope id f) types = ofTables scopes types := by
  simp [ofTables, ScopeTable.modifyScope]

@[simp] theorem ofTables_modifyBinding (b : BindingId) (f : Binding → Binding) :
    ofTables (scopes.modifyBinding b f) types = ofTables scopes types := by
  simp [ofTables, ScopeTable.modifyBinding]

theorem le_addBinding (ty : Ty) (kind : BindingKind) :
    ofTables scopes types ≤ ofTables (scopes.addBinding id name node ty kind).1 types :=
  { le_refl _ with scopes := by simp [ofTables], bindings := by simp [ofTables] }

theorem le_insert (ty : Ty) (kind : BindingKind) :
    ofTables scopes types ≤ ofTables (scopes.insert id name node ty kind).1 types := by
  rcases scopes.insert_cases id name node ty kind with
    ⟨b, hb, -, -, -, he⟩ | ⟨b, hb, -, -, he⟩ | he <;> rw [he]
  · exact le_refl _
  · rw [ofTables_modifyBinding]
    exact le_refl _
  · exact le_addBinding scopes types id name node ty kind

theorem le_addModule (m : ModuleType) : ofTables scopes types ≤ ofTables scopes (types.addModule m).1 :=
  { le_refl _ with modules := by simp [ofTables, TypeStore.addModule] }

theorem le_addClass (c : ClassType) : ofTables scopes types ≤ ofTables scopes (types.addClass c).1 :=
  { le_refl _ with classes := by simp [ofTables, TypeStore.addClass] }

theorem le_addFun (f : FunType) : ofTables scopes types ≤ ofTables scopes (types.addFun f).1 :=
  { le_refl _ with funs := by simp [ofTables, TypeStore.addFun] }

@[simp] theorem ofTables_modifyFun (f : FunId) (g : FunType → FunType) :
    ofTables scopes (types.modifyFun f g) = ofTables scopes types := by
  simp [ofTables, TypeStore.modifyFun]

end

end Sizes

variable {y z : Sizes}

/-! ### Types -/

/-- What the atom names is in the tables. -/
def Atom.Within (z : Sizes) : Atom → Prop
  | .prim _ => True
  | .module m => m.index < z.modules
  | .cls c | .inst c => c.index < z.classes
  | .function f => f.index < z.funs

theorem Atom.Within.mono {a : Atom} (h : a.Within y) (hz : y ≤ z) : a.Within z := by
  cases a with
  | prim p => trivial
  | module m => exact Nat.lt_of_lt_of_le h hz.modules
  | cls c => exact Nat.lt_of_lt_of_le h hz.classes
  | inst c => exact Nat.lt_of_lt_of_le h hz.classes
  | function f => exact Nat.lt_of_lt_of_le h hz.funs

theorem Ordered.mem_of_mem_ofList {α : Type} [Ord α] {x : α} {xs : List α} (h : x ∈ ofList xs) : x ∈ xs := by
  induction xs with
  | nil => exact h
  | cons a xs ih =>
    rcases mem_of_mem_insert h with rfl | h
    · exact mem_cons_self
    · exact mem_cons_of_mem a (ih h)

namespace Ty

variable {c : ClassId}

def Within (z : Sizes) (t : Ty) : Prop := ∀ a ∈ t.atoms, a.Within z

theorem Within.mono {t : Ty} (h : t.Within y) (hz : y ≤ z) : t.Within z := fun a ha => (h a ha).mono hz

@[simp] theorem within_unknown : unknown.Within z := nofun

@[simp] theorem within_ofAtom {a} : (ofAtom a).Within z ↔ a.Within z := by
  simp [Within, ofAtom]

@[simp] theorem within_module {m} : (module m).Within z ↔ m.index < z.modules := within_ofAtom

@[simp] theorem within_cls : (cls c).Within z ↔ c.index < z.classes := within_ofAtom

@[simp] theorem within_inst : (inst c).Within z ↔ c.index < z.classes := within_ofAtom

@[simp] theorem within_function {f} : (function f).Within z ↔ f.index < z.funs := within_ofAtom

@[simp] theorem within_prim {p} : (prim p).Within z := within_ofAtom.2 trivial

theorem within_ofAtoms {atoms : List Atom} (h : ∀ a ∈ atoms, a.Within z) : (ofAtoms atoms).Within z :=
  fun a ha => h a (Ordered.mem_of_mem_ofList ha)

theorem within_union {types} (h : ∀ t ∈ types, t.Within z) : (union types).Within z := by
  refine within_ofAtoms fun a ha => ?_
  obtain ⟨t, ht, ha⟩ := mem_flatMap.1 ha
  exact h t ht a ha

theorem Within.merge {t u : Ty} (ht : t.Within z) (hu : u.Within z) : (t.merge u).Within z := by
  refine within_ofAtoms fun a ha => ?_
  rcases mem_append.1 ha with ha | ha
  · exact ht a ha
  · exact hu a ha

/-- The function that a type is, is in the tables. -/
theorem Within.function {t : Ty} {f : FunId} (h : t.Within z) (hf : t.function? = some f) :
    f.index < z.funs := by
  have hatoms : t.atoms = [.function f] := by
    unfold function? lone? at hf
    split at hf
    · rename_i hlone
      split at hlone
      · rename_i hatoms
        rw [hatoms, Option.some.inj hlone, Option.some.inj hf]
      · contradiction
    · contradiction
  exact h (.function f) (by simp [hatoms])

end Ty

theorem mem_of_lookup {α β : Type} [BEq α] [LawfulBEq α] {l : List (α × β)} {k : α} {v : β} (h : l.lookup k = some v) :
    (k, v) ∈ l := by
  obtain ⟨l₁, l₂, rfl, -⟩ := lookup_eq_some_iff.1 h
  simp

/-! ### Entries of the tables -/

/-- What holds of a value that may be missing. -/
def OptionAll {α : Type} (P : α → Prop) (o : Option α) : Prop := ∀ a, o = some a → P a

theorem OptionAll.mono {α : Type} {P Q : α → Prop} {o : Option α} (h : OptionAll P o) (hPQ : ∀ a, P a → Q a) :
    OptionAll Q o := fun a ha => hPQ a (h a ha)

@[simp] theorem optionAll_none {α : Type} {P : α → Prop} : OptionAll P none := nofun

@[simp] theorem optionAll_some {α : Type} {P : α → Prop} {a : α} : OptionAll P (some a) ↔ P a :=
  ⟨fun h => h a rfl, fun h _ he => Option.some.inj he ▸ h⟩

theorem OptionAll.getD {α : Type} {P : α → Prop} {o : Option α} {a : α} (h : OptionAll P o) (ha : P a) :
    P (o.getD a) := by
  cases o with
  | none => exact ha
  | some b => exact h b rfl

structure Scope.Within (z : Sizes) (id : ScopeId) (s : Scope) : Prop where
  parent : OptionAll (·.index < id.index) s.parent
  owner : OptionAll (·.index < z.classes) s.owner
  slot : ∀ name, ∀ b ∈ s.table.getD name [], b.index < z.bindings

theorem Scope.Within.mono {id : ScopeId} {s : Scope} (h : s.Within y id) (hz : y ≤ z) : s.Within z id where
  parent := h.parent
  owner := h.owner.mono fun _ hc => Nat.lt_of_lt_of_le hc hz.classes
  slot name b hb := Nat.lt_of_lt_of_le (h.slot name b hb) hz.bindings

structure ClassType.Within (z : Sizes) (c : ClassType) : Prop where
  scope : c.scope.index < z.scopes
  bases : ∀ t ∈ c.bases, t.Within z

theorem ClassType.Within.mono {c : ClassType} (h : c.Within y) (hz : y ≤ z) : c.Within z where
  scope := Nat.lt_of_lt_of_le h.scope hz.scopes
  bases t ht := (h.bases t ht).mono hz

structure FunType.Within (z : Sizes) (f : FunType) : Prop where
  closure : f.closure.index < z.scopes
  owner : OptionAll (·.index < z.classes) f.owner
  selfType : OptionAll (Ty.Within z) f.selfType
  defaults : ∀ t ∈ f.defaults, OptionAll (Ty.Within z) t
  signatures : ∀ a ∈ f.arrows, ∀ t ∈ a.1, t.Within z
  returns : ∀ a ∈ f.arrows, a.2.Within z
  native : ∀ t, f.body = .native (.fixed t) → t.Within z

theorem FunType.Within.mono {f : FunType} (h : f.Within y) (hz : y ≤ z) : f.Within z where
  closure := Nat.lt_of_lt_of_le h.closure hz.scopes
  owner := h.owner.mono fun _ hc => Nat.lt_of_lt_of_le hc hz.classes
  selfType := h.selfType.mono fun _ ht => ht.mono hz
  defaults t ht := (h.defaults t ht).mono fun _ ht => ht.mono hz
  signatures a ha t ht := (h.signatures a ha t ht).mono hz
  returns a ha := (h.returns a ha).mono hz
  native t ht := (h.native t ht).mono hz

/-! ### The tables -/

/-- All that the tables name is in the tables. -/
structure Closed (scopes : ScopeTable) (types : TypeStore) : Prop where
  global : 0 < scopes.scopes.size
  scope : ∀ id, (scopes.scope id).Within (.ofTables scopes types) id
  binding : ∀ b, (scopes.binding b).ty.Within (.ofTables scopes types)
  module : ∀ m, (types.module m).scope.index < scopes.scopes.size
  cls : ∀ c, (types.cls c).Within (.ofTables scopes types)
  function : ∀ f, (types.function f).Within (.ofTables scopes types)

namespace Closed

variable {scopes scopes' : ScopeTable} {types types' : TypeStore} {id : ScopeId}

theorem extend (h : Closed scopes types) (hz : Sizes.ofTables scopes types ≤ .ofTables scopes' types')
    (hscope : ∀ id, scopes'.scope id = scopes.scope id ∨ (scopes'.scope id).Within (.ofTables scopes' types') id)
    (hbinding : ∀ b, scopes'.binding b = scopes.binding b ∨
      (scopes'.binding b).ty.Within (.ofTables scopes' types'))
    (hmodule : ∀ m, types'.module m = types.module m ∨ (types'.module m).scope.index < scopes'.scopes.size)
    (hcls : ∀ c, types'.cls c = types.cls c ∨ (types'.cls c).Within (.ofTables scopes' types'))
    (hfunction : ∀ f, types'.function f = types.function f ∨
      (types'.function f).Within (.ofTables scopes' types')) : Closed scopes' types' where
  global := Nat.lt_of_lt_of_le h.global hz.scopes
  scope id := (hscope id).elim (fun he => he ▸ (h.scope id).mono hz) fun h => h
  binding b := (hbinding b).elim (fun he => he ▸ (h.binding b).mono hz) fun h => h
  module m := (hmodule m).elim (fun he => he ▸ Nat.lt_of_lt_of_le (h.module m) hz.scopes) fun h => h
  cls c := (hcls c).elim (fun he => he ▸ (h.cls c).mono hz) fun h => h
  function f := (hfunction f).elim (fun he => he ▸ (h.function f).mono hz) fun h => h

/-! ### Changes to the scopes -/

section

variable (h : Closed scopes types)
include h

theorem newScope (kind : ScopeKind) {parent : ScopeId} (path : String) (hparent : parent.index < scopes.scopes.size) :
    Closed (scopes.newScope kind parent path).1 types := by
  have hz := Sizes.le_newScope scopes types kind parent path
  refine h.extend hz (fun id => ?_) (fun _ => .inl rfl) (fun _ => .inl rfl) (fun _ => .inl rfl) fun _ => .inl rfl
  rw [ScopeTable.scope_newScope]
  split
  · rename_i hid
    exact .inr ⟨by simpa [hid] using hparent, nofun, by simp⟩
  · exact .inl rfl

theorem modifyScope {f : Scope → Scope}
    (hf : ∀ s, s.Within (.ofTables scopes types) id → (f s).Within (.ofTables scopes types) id) :
    Closed (scopes.modifyScope id f) types := by
  have hz := Sizes.ofTables_modifyScope scopes types id f
  refine h.extend (Sizes.le_of_eq hz.symm) (fun i => ?_) (fun _ => .inl rfl) (fun _ => .inl rfl)
    (fun _ => .inl rfl) fun _ => .inl rfl
  rw [ScopeTable.scope_modifyScope, hz]
  split
  · rename_i hi
    obtain ⟨rfl, -⟩ := hi
    exact .inr (hf _ (h.scope id))
  · exact .inl rfl

theorem setOwner (id : ScopeId) {c : ClassId} (hc : c.index < types.classes.size) :
    Closed (scopes.setOwner id c) types :=
  h.modifyScope fun _ hs => ⟨hs.parent, optionAll_some.2 hc, hs.slot⟩

theorem declareGlobal (id : ScopeId) (name : String) : Closed (scopes.declareGlobal id name) types :=
  h.modifyScope fun _ hs => { hs with }

theorem declareNonlocal (id : ScopeId) (name : String) : Closed (scopes.declareNonlocal id name) types :=
  h.modifyScope fun _ hs => { hs with }

theorem slot {name b} (hb : b ∈ scopes.slot id name) : b.index < scopes.bindings.size :=
  (h.scope id).slot name b hb

theorem modifyBinding {b : BindingId} {f : Binding → Binding}
    (hf : (f (scopes.binding b)).ty.Within (.ofTables scopes types)) : Closed (scopes.modifyBinding b f) types := by
  have hz := Sizes.ofTables_modifyBinding scopes types b f
  refine h.extend (Sizes.le_of_eq hz.symm) (fun _ => .inl rfl) (fun i => ?_) (fun _ => .inl rfl)
    (fun _ => .inl rfl) fun _ => .inl rfl
  rw [ScopeTable.binding_modifyBinding, hz]
  split
  · rename_i hi
    obtain ⟨rfl, -⟩ := hi
    exact .inr hf
  · exact .inl rfl

theorem addRef (b : BindingId) (node : Span) : Closed (scopes.addRef b node) types := by
  refine h.modifyBinding ?_
  rw [Binding.addRef]
  split <;> exact h.binding b

theorem addBinding (name : String) (node : Span) {ty : Ty} (kind : BindingKind)
    (hty : ty.Within (.ofTables scopes types)) : Closed (scopes.addBinding id name node ty kind).1 types := by
  have hz := Sizes.le_addBinding scopes types id name node ty kind
  refine h.extend hz (fun i => .inr ?_) (fun b => ?_) (fun _ => .inl rfl) (fun _ => .inl rfl) fun _ => .inl rfl
  · have hold := (h.scope i).mono hz
    refine ⟨?_, ?_, fun n b hb => ?_⟩
    · rw [ScopeTable.scope_addBinding]
      split <;> exact hold.parent
    · rw [ScopeTable.scope_addBinding]
      split <;> exact hold.owner
    · change b ∈ (scopes.addBinding id name node ty kind).1.slot i n at hb
      rw [ScopeTable.slot_addBinding] at hb
      split at hb
      · rcases mem_append.1 hb with hb | hb
        · exact hold.slot n b hb
        · simp [mem_singleton.1 hb, Sizes.ofTables]
      · exact hold.slot n b hb
  · rw [ScopeTable.binding_addBinding]
    split
    · exact .inr (hty.mono hz)
    · exact .inl rfl

theorem insert (id : ScopeId) (name : String) (node : Span) {ty : Ty} (kind : BindingKind)
    (hty : ty.Within (.ofTables scopes types)) :
    Closed (scopes.insert id name node ty kind).1 types ∧
      (scopes.insert id name node ty kind).2.id.index < (scopes.insert id name node ty kind).1.bindings.size := by
  rcases scopes.insert_cases id name node ty kind with
    ⟨b, hb, -, -, -, he⟩ | ⟨b, hb, -, -, he⟩ | he <;> rw [he]
  · exact ⟨h, h.slot hb⟩
  · exact ⟨h.modifyBinding ((h.binding b).merge hty), by simpa [Inserted.id] using h.slot hb⟩
  · exact ⟨h.addBinding name node kind hty, by simp [Inserted.id]⟩

end

/-! ### Changes to the types -/

section

variable (h : Closed scopes types)
include h

theorem addModule {m} (hm : m.scope.index < scopes.scopes.size) : Closed scopes (types.addModule m).1 := by
  have hz := Sizes.le_addModule scopes types m
  refine h.extend hz (fun _ => .inl rfl) (fun _ => .inl rfl) (fun id => ?_) (fun _ => .inl rfl) fun _ => .inl rfl
  rw [TypeStore.module_addModule]
  split
  · exact .inr hm
  · exact .inl rfl

theorem addClass {c : ClassType} (hc : c.Within (.ofTables scopes types)) : Closed scopes (types.addClass c).1 := by
  have hz := Sizes.le_addClass scopes types c
  refine h.extend hz (fun _ => .inl rfl) (fun _ => .inl rfl) (fun _ => .inl rfl) (fun id => ?_) fun _ => .inl rfl
  rw [TypeStore.cls_addClass]
  split
  · exact .inr (hc.mono hz)
  · exact .inl rfl

theorem addFun {f : FunType} (hf : f.Within (.ofTables scopes types)) : Closed scopes (types.addFun f).1 := by
  have hz := Sizes.le_addFun scopes types f
  refine h.extend hz (fun _ => .inl rfl) (fun _ => .inl rfl) (fun _ => .inl rfl) (fun _ => .inl rfl) fun id => ?_
  rw [TypeStore.function_addFun]
  split
  · exact .inr (hf.mono hz)
  · exact .inl rfl

theorem modifyFun {f : FunId} {g : FunType → FunType} (hg : (g (types.function f)).Within (.ofTables scopes types)) :
    Closed scopes (types.modifyFun f g) := by
  have hz := Sizes.ofTables_modifyFun scopes types f g
  refine h.extend (Sizes.le_of_eq hz.symm) (fun _ => .inl rfl) (fun _ => .inl rfl) (fun _ => .inl rfl)
    (fun _ => .inl rfl) fun i => ?_
  rw [TypeStore.function_modifyFun, hz]
  split
  · rename_i hi
    obtain ⟨rfl, -⟩ := hi
    exact .inr hg
  · exact .inl rfl

end

/-! ### Looking up -/

section

variable (h : Closed scopes types)
include h

theorem ancestorsFrom {steps a} (ha : a ∈ scopes.ancestorsFrom steps id) (hid : id.index < scopes.scopes.size) :
    a.index < scopes.scopes.size := by
  induction steps generalizing id with
  | zero => simp [ScopeTable.ancestorsFrom] at ha
  | succ steps ih =>
    rw [ScopeTable.ancestorsFrom] at ha
    rcases mem_cons.1 ha with rfl | ha
    · exact hid
    · split at ha
      · rename_i parent hparent
        exact ih ha (Nat.lt_trans ((h.scope id).parent parent hparent) hid)
      · simp at ha

theorem find_ancestors {p} (hid : id.index < scopes.scopes.size) :
    (((scopes.ancestors id).find? p).getD id).index < scopes.scopes.size := by
  cases hfind : (scopes.ancestors id).find? p with
  | none => exact hid
  | some a => exact h.ancestorsFrom (mem_of_find?_eq_some hfind) hid

theorem moduleScope (hid : id.index < scopes.scopes.size) : (scopes.moduleScope id).index < scopes.scopes.size :=
  h.find_ancestors hid

theorem enclosingBlock (hid : id.index < scopes.scopes.size) : (scopes.enclosingBlock id).index < scopes.scopes.size :=
  h.find_ancestors hid

theorem targetScope (name : String) (hid : id.index < scopes.scopes.size) :
    (scopes.targetScope id name).index < scopes.scopes.size := by
  unfold ScopeTable.targetScope
  split
  · exact h.moduleScope hid
  · split
    · cases hfind : ((scopes.ancestors id).tail.takeWhile scopes.passesNonlocal).find? fun a =>
        (scopes.scope a).kind == .function && (scopes.lookupLocal a name).isSome with
      | none => exact hid
      | some a =>
        have ha := mem_of_mem_tail ((takeWhile_sublist _).mem (mem_of_find?_eq_some hfind))
        exact h.ancestorsFrom ha hid
    · exact hid

theorem lookupLocal {name ids} (hids : scopes.lookupLocal id name = some ids) :
    ∀ b ∈ ids, b.index < scopes.bindings.size := by
  unfold ScopeTable.lookupLocal at hids
  dsimp only at hids
  split at hids
  · contradiction
  · obtain rfl := Option.some.inj hids
    exact fun b hb => h.slot hb

theorem lookup {name ids} (hids : scopes.lookup id name = some ids) : ∀ b ∈ ids, b.index < scopes.bindings.size := by
  obtain ⟨a, _, ha⟩ := exists_of_findSome?_eq_some hids
  exact h.lookupLocal ha

theorem typeOf (ids : List BindingId) : (scopes.typeOf ids).Within (.ofTables scopes types) := by
  refine Ty.within_union fun t ht => ?_
  obtain ⟨b, -, rfl⟩ := mem_map.1 ht
  exact h.binding b

end

end Closed

/-! ### Where classes and functions come from -/

/-- How many entries the tables have before any code is run. -/
@[irreducible] def Library.sizes : Sizes := .ofTables Library.installed.2.scopes Library.installed.2.types

/-- The classes and functions that were made by definitions were made by those of the code. -/
structure DefinedIn (code : Code) (types : TypeStore) : Prop where
  node : ∀ c node, (types.cls c).node = some node → ∃ d, code.Has (.cls d) ∧ d.span = node
  source : ∀ f d, (types.function f).body = .source d → code.Has (.function d)

/-- Beyond the library, each class and function was made by a definition of the code. -/
structure Sited (code : Code) (types : TypeStore) : Prop extends DefinedIn code types where
  cls : ∀ c : ClassId, Library.sizes.classes ≤ c.index → c.index < types.classes.size →
    ∃ node, (types.cls c).node = some node
  function : ∀ f : FunId, Library.sizes.funs ≤ f.index → f.index < types.funs.size →
    ∃ d, (types.function f).body = .source d

variable {code : Code} {types : TypeStore}

theorem TypeStore.body_modifyFun (types : TypeStore) (f id : FunId) {g}
    (hg : ∀ fn, (g fn).body = fn.body) :
    ((types.modifyFun f g).function id).body = (types.function id).body := by
  rw [TypeStore.function_modifyFun]
  split
  · exact hg _
  · rfl

namespace DefinedIn

variable (h : DefinedIn code types)
include h

theorem addClass {c d} (hd : code.Has (.cls d)) (hc : c.node = some d.span) : DefinedIn code (types.addClass c).1 where
  node id node hnode := by
    rw [TypeStore.cls_addClass] at hnode
    split at hnode
    · exact ⟨d, hd, Option.some.inj (hc.symm.trans hnode)⟩
    · exact h.node id node hnode
  source := h.source

theorem addFun {f d} (hd : code.Has (.function d)) (hf : f.body = .source d) : DefinedIn code (types.addFun f).1 where
  node := h.node
  source id d' hd' := by
    rw [TypeStore.function_addFun] at hd'
    split at hd'
    · rw [hf] at hd'
      rwa [← FunBody.source.inj hd']
    · exact h.source id d' hd'

theorem modifyFun {id g} (hg : ∀ f, (g f).body = f.body) : DefinedIn code (types.modifyFun id g) :=
  ⟨h.node, fun f d hd => h.source f d ((types.body_modifyFun id f hg).symm.trans hd)⟩

end DefinedIn

namespace Sited

variable (h : Sited code types)
include h

theorem addModule (m : ModuleType) : Sited code (types.addModule m).1 :=
  { h with }

theorem addClass {c d} (hd : code.Has (.cls d)) (hc : c.node = some d.span) :
    Sited code (types.addClass c).1 where
  toDefinedIn := h.toDefinedIn.addClass hd hc
  cls id hlib hid := by
    rw [TypeStore.cls_addClass]
    split
    · exact ⟨d.span, hc⟩
    · rename_i hne
      have hlt : id.index < types.classes.size := by
        simp only [TypeStore.addClass, Array.size_push] at hid
        omega
      exact h.cls id hlib hlt
  function := h.function

theorem addFun {f d} (hd : code.Has (.function d)) (hf : f.body = .source d) :
    Sited code (types.addFun f).1 where
  toDefinedIn := h.toDefinedIn.addFun hd hf
  cls := h.cls
  function id hlib hid := by
    rw [TypeStore.function_addFun]
    split
    · exact ⟨d, hf⟩
    · rename_i hne
      have hlt : id.index < types.funs.size := by
        simp only [TypeStore.addFun, Array.size_push] at hid
        omega
      exact h.function id hlib hlt

theorem modifyFun {id g} (hg : ∀ f, (g f).body = f.body) : Sited code (types.modifyFun id g) := by
  refine ⟨h.toDefinedIn.modifyFun hg, h.cls, fun f hlib hf => ?_⟩
  rw [types.body_modifyFun id f hg]
  exact h.function f hlib (by simpa using hf)

end Sited

end TypeInfer
