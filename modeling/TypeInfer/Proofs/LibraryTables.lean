/-
The library is closed: what its definitions name is in the tables they are written to, and nothing
in it has code, a file, a reference or a result. Its entries are looked at one by one
(`Definitions.Draft.Sound`).
-/
import TypeInfer.Analysis.Project
import TypeInfer.Proofs.Run

namespace TypeInfer

variable (d : FunctionDef) (work : Workspace) (config : Config) {code : Code}

/-! ### Deciding what is in the tables -/

instance Atom.decidableWithin (z : Sizes) : (a : Atom) → Decidable (a.Within z)
  | .prim _ => .isTrue trivial
  | .module m => inferInstanceAs (Decidable (m.index < z.modules))
  | .cls c | .inst c => inferInstanceAs (Decidable (c.index < z.classes))
  | .function f => inferInstanceAs (Decidable (f.index < z.funs))

instance Ty.decidableWithin (z : Sizes) (t : Ty) : Decidable (t.Within z) :=
  inferInstanceAs (Decidable (∀ a ∈ t.atoms, a.Within z))

instance OptionAll.decidable {α : Type} {P : α → Prop} [DecidablePred P] : (o : Option α) → Decidable (OptionAll P o)
  | none => .isTrue optionAll_none
  | some a => decidable_of_iff (P a) optionAll_some.symm

/-- The body of a function without code. -/
def FunBody.IsNative (z : Sizes) : FunBody → Prop
  | .source _ => False
  | .native (.fixed ty) => ty.Within z
  | .native .firstArgument => True

instance FunBody.decidableIsNative (z : Sizes) : (b : FunBody) → Decidable (b.IsNative z)
  | .source _ => .isFalse id
  | .native (.fixed ty) => inferInstanceAs (Decidable (ty.Within z))
  | .native .firstArgument => .isTrue trivial

theorem FunBody.IsNative.ne_source {z : Sizes} {b : FunBody} (h : b.IsNative z) (d : FunctionDef) : b ≠ .source d := by
  rintro rfl
  exact h

theorem forall_getD {α : Type} [Inhabited α] {a : Array α} {P : Nat → α → Prop} (h : ∀ e ∈ a.toList.zipIdx, P e.2 e.1)
    (hdefault : ∀ i, P i default) (i : Nat) : P i (a.getD i default) := by
  rw [Array.getD_eq_getD_getElem?]
  cases hi : a[i]? with
  | none => exact hdefault i
  | some x => exact h (x, i) (List.mem_zipIdx_iff_getElem?.2 (Array.getElem?_toList.trans hi))

namespace Definitions

variable {c : ClassType}

def Draft.sizes (d : Draft) : Sizes := .ofTables d.scopes d.types

/-- The scope is where those of its kind are in the library. -/
def Placed (types : TypeStore) (id : ScopeId) (s : Scope) : Prop :=
  (s.parent = none ↔ s.kind = .global) ∧ (s.kind = .module → s.parent = some ScopeTable.globalScope) ∧
    (s.kind = .cls → s.owner.isSome) ∧
    OptionAll (fun c => s.kind = .cls ∧ c.index < types.classes.size ∧ (types.cls c).scope = id) s.owner

instance decidablePlaced (types : TypeStore) (id : ScopeId) (s : Scope) : Decidable (Placed types id s) := by
  unfold Placed
  infer_instance

/-- The tables are closed, nothing in them has code, a file, a reference or a result, and all has its place.
-/
structure Draft.Closed (d : Draft) : Prop where
  tables : TypeInfer.Closed d.scopes d.types
  builtin : ∀ c, (d.types.cls c).builtin = true ∧ (d.types.cls c).node = none
  native : ∀ f definition, (d.types.function f).body ≠ .source definition
  unfiled : ∀ m, (d.types.module m).file = none
  unreferred : ∀ b, (d.scopes.binding b).refs = []
  unapplied : ∀ f, (d.types.function f).arrows = []
  unentered : ∀ id, (d.scopes.scope id).kind ≠ .function
  ranked : ∀ c, ∀ t ∈ (d.types.cls c).bases, t.Within { d.sizes with classes := c.index }
  placed : ∀ id, Placed d.types id (d.scopes.scope id)

/-! ### Entries of the library -/

def ScopeFits (d : Draft) (i : Nat) (s : Scope) : Prop :=
  s.kind ≠ .function ∧ OptionAll (·.index < i) s.parent ∧ Placed d.types ⟨i⟩ s ∧
    ∀ e ∈ s.table.toList, ∀ b ∈ e.2, b.index < d.sizes.bindings

def BindingFits (z : Sizes) (b : Binding) : Prop := b.refs = [] ∧ b.ty.Within z

def ModuleFits (z : Sizes) (m : ModuleType) : Prop := m.file = none ∧ m.scope.index < z.scopes

def ClassFits (z : Sizes) (i : Nat) (c : ClassType) : Prop :=
  c.builtin = true ∧ c.node = none ∧ c.scope.index < z.scopes ∧ ∀ t ∈ c.bases, t.Within { z with classes := min i z.classes }

def FunFits (z : Sizes) (f : FunType) : Prop :=
  f.closure.index < z.scopes ∧ OptionAll (·.index < z.classes) f.owner ∧ f.selfType = none ∧ f.defaults = [] ∧
    f.arrows = [] ∧ f.body.IsNative z

/-- All entries of the tables are as those of a library should be. -/
def Draft.Sound (d : Draft) : Prop :=
  0 < d.sizes.scopes ∧ (∀ e ∈ d.scopes.scopes.toList.zipIdx, ScopeFits d e.2 e.1) ∧
    (∀ e ∈ d.scopes.bindings.toList.zipIdx, BindingFits d.sizes e.1) ∧
    (∀ e ∈ d.types.modules.toList.zipIdx, ModuleFits d.sizes e.1) ∧
    (∀ e ∈ d.types.classes.toList.zipIdx, ClassFits d.sizes e.2 e.1) ∧
    ∀ e ∈ d.types.funs.toList.zipIdx, FunFits d.sizes e.1

instance Draft.decidableSound (d : Draft) : Decidable d.Sound := by
  unfold Draft.Sound ScopeFits BindingFits ModuleFits ClassFits FunFits
  infer_instance

variable {z : Sizes}

theorem ScopeFits.within {d id s} (h : ScopeFits d id.index s) : s.Within d.sizes id := by
  obtain ⟨-, hparent, hplaced, hslot⟩ := h
  refine ⟨hparent, hplaced.2.2.2.mono fun _ hc => hc.2.1, fun name b hb => ?_⟩
  rcases Ordered.getD_cases s.table name [] with hnone | ⟨e, he, heq⟩
  · rw [hnone] at hb
    cases hb
  · exact hslot e he b (heq ▸ hb)

theorem ClassFits.within {i} (h : ClassFits z i c) : c.Within z :=
  ⟨h.2.2.1, fun t ht => (h.2.2.2 t ht).mono { Sizes.le_refl z with classes := Nat.min_le_right .. }⟩

theorem ClassFits.ranked {i} (h : ClassFits z i c) :
    ∀ t ∈ c.bases, t.Within { z with classes := i } :=
  fun t ht => (h.2.2.2 t ht).mono { Sizes.le_refl _ with classes := Nat.min_le_left .. }

theorem FunFits.within {f} (h : FunFits z f) : f.Within z := by
  obtain ⟨hclosure, howner, hself, hdefaults, harrows, hbody⟩ := h
  refine ⟨hclosure, howner, by simp [hself], by simp [hdefaults], by simp [harrows], by simp [harrows], fun ty hty => ?_⟩
  rw [hty] at hbody
  exact hbody

theorem Draft.Sound.closed {d : Draft} (h : d.Sound) : d.Closed := by
  obtain ⟨hglobal, hscopes, hbindings, hmodules, hclasses, hfuns⟩ := h
  have hempty (i : Nat) : ScopeFits d i default :=
    ⟨nofun, nofun, ⟨⟨fun _ => rfl, fun _ => rfl⟩, nofun, nofun, nofun⟩, by simp [show (default : Scope).table = {} from rfl]⟩
  have hscope (id : ScopeId) : ScopeFits d id.index (d.scopes.scope id) :=
    forall_getD (P := ScopeFits d) hscopes hempty id.index
  have hbinding (b : BindingId) : BindingFits d.sizes (d.scopes.binding b) :=
    forall_getD (P := fun _ => BindingFits d.sizes) hbindings (fun _ => ⟨rfl, Ty.within_unknown⟩) b.index
  have hmodule (m : ModuleId) : ModuleFits d.sizes (d.types.module m) :=
    forall_getD (P := fun _ => ModuleFits d.sizes) hmodules (fun _ => ⟨rfl, hglobal⟩) m.index
  have hcls (c : ClassId) : ClassFits d.sizes c.index (d.types.cls c) :=
    forall_getD (P := ClassFits d.sizes) hclasses (fun _ => ⟨rfl, rfl, hglobal, List.forall_mem_nil _⟩) c.index
  have hfun (f : FunId) : FunFits d.sizes (d.types.function f) :=
    forall_getD (P := fun _ => FunFits d.sizes) hfuns (fun _ => ⟨hglobal, nofun, rfl, rfl, rfl, Ty.within_unknown⟩) f.index
  exact {
    tables := {
      global := hglobal
      scope id := (hscope id).within
      binding b := (hbinding b).2
      module m := (hmodule m).2
      cls c := (hcls c).within
      function f := (hfun f).within }
    builtin c := ⟨(hcls c).1, (hcls c).2.1⟩
    native f := (hfun f).2.2.2.2.2.ne_source
    unfiled m := (hmodule m).1
    unreferred b := (hbinding b).1
    unapplied f := (hfun f).2.2.2.2.1
    unentered id := (hscope id).1
    ranked c := (hcls c).ranked
    placed id := (hscope id).2.2.1 }

end Definitions

/-- The classes that the library names. -/
def Library.classes (l : Library) : List ClassId :=
  [l.object, l.bool, l.int, l.float, l.complex, l.str, l.bytes, l.noneType, l.list, l.tuple, l.dict, l.set, l.range,
    l.generator]

theorem Library.within_of_classes {l : Library} {z : Sizes} (hclasses : ∀ c ∈ l.classes, c.index < z.classes)
    (hmodules : ∀ m ∈ l.modules, m.2.index < z.modules) : l.Within z := by
  simp only [Library.classes, List.forall_mem_cons] at hclasses
  obtain ⟨hobject, hbool, hint, hfloat, hcomplex, hstr, hbytes, hnone, hlist, htuple, hdict, hset, hrange, hgenerator, -⟩ :=
    hclasses
  refine ⟨fun p => ?_, hobject, hlist, htuple, hdict, hset, hrange, hgenerator, hmodules⟩
  cases p <;> assumption

/-- The tables of the library are sound. To decide this is to build the library. -/
theorem Library.sound_installed :
    Library.installed.2.Sound ∧ (∀ c ∈ Library.installed.1.classes, c.index < Library.installed.2.sizes.classes) ∧
      (∀ m ∈ Library.installed.1.modules, m.2.index < Library.installed.2.sizes.modules) ∧
      Library.installed.1.object.index = 0 := by
  decide +kernel

/-- The library as it is installed is so. -/
theorem Library.closed_installed :
    Library.installed.2.Closed ∧ Library.installed.1.Within Library.installed.2.sizes := by
  obtain ⟨hsound, hclasses, hmodules, -⟩ := Library.sound_installed
  exact ⟨hsound.closed, Library.within_of_classes hclasses hmodules⟩

theorem Analysis.fresh_eq :
    Analysis.fresh work config =
      { work, config, library := Library.installed.1, scopes := Library.installed.2.scopes
        types := Library.installed.2.types } := by
  unfold Analysis.fresh
  cases Library.installed
  rfl

theorem Analysis.work_fresh : (Analysis.fresh work config).work = work := by
  rw [Analysis.fresh_eq]

theorem Analysis.files_fresh : (Analysis.fresh work config).files = work.files := by
  rw [Analysis.fresh_eq, Analysis.files]

/-- Tables with nothing but the library. -/
theorem Sited.of_native {types} (hcls : types.classes.size = Library.sizes.classes)
    (hfuns : types.funs.size = Library.sizes.funs) (hnode : ∀ c, (types.cls c).node = none)
    (h : ∀ f d, (types.function f).body ≠ .source d) : Sited code types where
  cls _ hc hlt := absurd (hcls ▸ hlt) (Nat.not_lt.2 hc)
  node c node hc := by
    rw [hnode] at hc
    contradiction
  function _ hf hlt := absurd (hfuns ▸ hlt) (Nat.not_lt.2 hf)
  source f d hd := absurd hd (h f d)

theorem Definitions.Draft.Closed.start {work : Workspace} {config : Config} {library : Library}
    {d : Draft} (h : d.Closed) (hlibrary : library.Within d.sizes) (hsited : Sited code d.types)
    (hwork : work.Holds code) :
    Analysis.Closed code { work, config, library, scopes := d.scopes, types := d.types } := by
  refine ⟨h.tables, hsited, hlibrary, nofun, fun node b hb => ?_, nofun, nofun, hwork⟩
  rw [Std.TreeMap.getD_emptyc] at hb
  contradiction

theorem Library.sited_installed : Sited code Library.installed.2.types :=
  .of_native (by rw [Library.sizes, Sizes.classes_ofTables]) (by rw [Library.sizes, Sizes.funs_ofTables])
    (fun c => (Library.closed_installed.1.builtin c).2) Library.closed_installed.1.native

theorem Analysis.closed_fresh {work : Workspace} (hwork : work.Holds code) :
    (Analysis.fresh work config).Closed code := by
  obtain ⟨hdraft, hlibrary⟩ := Library.closed_installed
  rw [Analysis.fresh_eq]
  exact hdraft.start hlibrary Library.sited_installed hwork

theorem Analysis.sited_fresh : Sited code (Analysis.fresh work config).types := by
  have htypes : (Analysis.fresh work config).types = Library.installed.2.types := by rw [Analysis.fresh_eq]
  rw [htypes]
  exact Library.sited_installed

/-- At the start, no function has code. -/
theorem Analysis.native_fresh (f : FunId) (d : FunctionDef) :
    ((Analysis.fresh work config).types.function f).body ≠ .source d := by
  have hsited : Sited ⟨fun _ => False, fun h _ => h⟩ (Analysis.fresh work config).types := sited_fresh work config
  exact hsited.source f d

end TypeInfer
