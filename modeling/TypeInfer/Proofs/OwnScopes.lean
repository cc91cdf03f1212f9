/-
What belongs to the program: scopes and bindings beyond those of the library (`IsOwn`). A table
spares the library if it has its scopes as they were, and its bindings but for what refers to them
(`ScopeTable.Spares`). All that leads to a scope to write to leads to an own one
(`Analysis.Confined`).
-/
import TypeInfer.Proofs.Run

namespace TypeInfer

open List

variable {lib : ScopeTable}

/-- The scope is not one of the library. -/
def ScopeId.IsOwn (lib : ScopeTable) (id : ScopeId) : Prop := lib.scopes.size ≤ id.index

/-- The binding is not one of the library. -/
def BindingId.IsOwn (lib : ScopeTable) (b : BindingId) : Prop := lib.bindings.size ≤ b.index

/-- The second binding is the first one, referred to from more places. -/
def Binding.IsReferred (b c : Binding) : Prop := ∃ refs, c = { b with refs := b.refs ++ refs }

namespace Binding.IsReferred

variable {a b c : Binding}

theorem refl (b : Binding) : b.IsReferred b := ⟨[], by rw [append_nil]⟩

theorem trans (h : a.IsReferred b) (h' : b.IsReferred c) : a.IsReferred c := by
  obtain ⟨refs, rfl⟩ := h
  obtain ⟨refs', rfl⟩ := h'
  exact ⟨refs ++ refs', by rw [append_assoc]⟩

theorem addRef (b : Binding) (node : Span) : b.IsReferred (b.addRef node) := by
  unfold Binding.addRef
  split
  · exact refl b
  · exact ⟨[node], rfl⟩

end Binding.IsReferred

/-! ### Tables -/

/-- The table has the scopes of the library as they are there, but for places that refer to bindings. Own
scopes hold own bindings, within own scopes. -/
structure ScopeTable.Spares (lib t : ScopeTable) : Prop where
  scopeCount : lib.scopes.size ≤ t.scopes.size
  bindingCount : lib.bindings.size ≤ t.bindings.size
  scope : ∀ id : ScopeId, ¬ id.IsOwn lib → t.scope id = lib.scope id
  binding : ∀ b : BindingId, ¬ b.IsOwn lib → (lib.binding b).IsReferred (t.binding b)
  slot : ∀ (id : ScopeId) name, id.IsOwn lib → ∀ b ∈ t.slot id name, b.IsOwn lib
  around : ∀ id parent : ScopeId, id.IsOwn lib → (t.scope id).kind ≠ .module ∨ (t.scope id).owner.isSome →
    (t.scope id).parent = some parent → parent.IsOwn lib
  unentered : ∀ id : ScopeId, ¬ id.IsOwn lib → (lib.scope id).kind ≠ .function

namespace ScopeTable.Spares

variable {t : ScopeTable} {scope id : ScopeId}

/-- Nothing is spared of an empty library. -/
theorem of_empty (t : ScopeTable) : (⟨#[], #[]⟩ : ScopeTable).Spares t where
  scopeCount := Nat.zero_le _
  bindingCount := Nat.zero_le _
  scope _ hid := absurd (Nat.zero_le _) hid
  binding _ hb := absurd (Nat.zero_le _) hb
  slot _ _ _ _ _ := Nat.zero_le _
  around _ _ _ _ _ := Nat.zero_le _
  unentered _ hid := absurd (Nat.zero_le _) hid

section

variable (h : lib.Spares t)
include h

theorem modifyBinding {b f} (hf : b.IsOwn lib ∨ ∀ c : Binding, c.IsReferred (f c)) :
    lib.Spares (t.modifyBinding b f) where
  scopeCount := h.scopeCount
  bindingCount := by simpa using h.bindingCount
  scope := h.scope
  binding i hi := by
    refine (h.binding i hi).trans ?_
    rw [t.binding_modifyBinding]
    split
    · rename_i heq
      obtain ⟨rfl, -⟩ := heq
      exact (hf.resolve_left hi) _
    · exact .refl _
  slot := h.slot
  around := h.around
  unentered := h.unentered

theorem addBinding (hscope : scope.IsOwn lib) (name : String) (node : Span) (ty : Ty) (kind : BindingKind) :
    lib.Spares (t.addBinding scope name node ty kind).1 where
  scopeCount := by simpa using h.scopeCount
  bindingCount := by
    rw [size_bindings_addBinding]
    exact Nat.le_succ_of_le h.bindingCount
  scope id hid := by
    have hother : ¬ (scope = id ∧ id.index < t.scopes.size) := fun heq => hid (heq.1 ▸ hscope)
    rw [t.scope_addBinding, if_neg hother]
    exact h.scope id hid
  binding b hb := by
    have hold : b.index ≠ t.bindings.size := fun heq => hb (Nat.le_trans h.bindingCount (Nat.le_of_eq heq.symm))
    rw [t.binding_addBinding, if_neg hold]
    exact h.binding b hb
  slot id n hid b hb := by
    rw [t.slot_addBinding] at hb
    split at hb
    · rcases mem_append.1 hb with hb | hb
      · exact h.slot id n hid b hb
      · rw [mem_singleton.1 hb]
        exact h.bindingCount
    · exact h.slot id n hid b hb
  around id parent hid := by
    rw [t.scope_addBinding]
    split <;> exact h.around id parent hid
  unentered := h.unentered

theorem insert (hscope : scope.IsOwn lib) (name : String) (node : Span) (ty : Ty) (kind : BindingKind) :
    lib.Spares (t.insert scope name node ty kind).1 := by
  rcases t.insert_cases scope name node ty kind with ⟨_, -, -, -, -, heq⟩ | ⟨b, hb, -, -, heq⟩ | heq <;> rw [heq]
  · exact h
  · exact h.modifyBinding (.inl (h.slot scope name hscope b hb))
  · exact h.addBinding hscope name node ty kind

theorem modifyScope (hid : id.IsOwn lib) {f} (htable : ∀ s, (f s).table = s.table)
    (hparent : ∀ s, (f s).parent = s.parent)
    (haround : ∀ s : Scope, s = t.scope id → (f s).kind ≠ .module ∨ (f s).owner.isSome → s.kind ≠ .module ∨ s.owner.isSome) :
    lib.Spares (t.modifyScope id f) where
  scopeCount := by simpa using h.scopeCount
  bindingCount := h.bindingCount
  scope i hi := by
    have hother : ¬ (id = i ∧ i.index < t.scopes.size) := fun heq => hi (heq.1 ▸ hid)
    rw [t.scope_modifyScope, if_neg hother]
    exact h.scope i hi
  binding := h.binding
  slot i name hi b hb := by
    rw [ScopeTable.slot, t.scope_modifyScope] at hb
    split at hb
    · rw [htable] at hb
      exact h.slot i name hi b hb
    · exact h.slot i name hi b hb
  around i parent hi := by
    rw [t.scope_modifyScope]
    split
    · rename_i heq
      obtain ⟨rfl, -⟩ := heq
      rw [hparent]
      exact fun hkind => h.around id parent hi (haround _ rfl hkind)
    · exact h.around i parent hi
  unentered := h.unentered

/-- Names are declared in own scopes. -/
theorem declare (hid : id.IsOwn lib) {f} (hf : ∀ x, ∃ globals nonlocals, f x = { x with globals, nonlocals }) :
    lib.Spares (t.modifyScope id f) := by
  refine h.modifyScope hid (fun x => ?_) (fun x => ?_) fun x _ => ?_
  all_goals
    obtain ⟨globals, nonlocals, hx⟩ := hf x
    rw [hx]
  exact fun haround => haround

theorem setOwner (hid : id.IsOwn lib) (hkind : (t.scope id).kind ≠ .module) (c : ClassId) :
    lib.Spares (t.setOwner id c) :=
  h.modifyScope hid (fun _ => rfl) (fun _ => rfl) fun _ hscope _ => .inl (hscope ▸ hkind)

theorem newScope {kind parent} (hparent : kind = .module ∨ parent.IsOwn lib) (path : String) :
    lib.Spares (t.newScope kind parent path).1 where
  scopeCount := Nat.le_trans h.scopeCount (by simp [ScopeTable.newScope])
  bindingCount := h.bindingCount
  scope id hid := by
    have hold : id.index ≠ t.scopes.size := fun heq => hid (Nat.le_trans h.scopeCount (Nat.le_of_eq heq.symm))
    rw [t.scope_newScope, if_neg hold]
    exact h.scope id hid
  binding := h.binding
  slot id name hid b hb := by
    rw [ScopeTable.slot, t.scope_newScope] at hb
    split at hb
    · rw [Std.TreeMap.getD_emptyc] at hb
      contradiction
    · exact h.slot id name hid b hb
  around id p hid := by
    rw [t.scope_newScope]
    split
    · rintro haround heq
      obtain rfl := Option.some.inj heq
      refine hparent.resolve_left fun hkind => ?_
      rcases haround with hother | howner
      · exact hother hkind
      · contradiction
    · exact h.around id p hid
  unentered := h.unentered

end

/-! ### Scopes to write to -/

section

variable (h : lib.Spares t)
include h

theorem find_ancestors {p} (hp : ∀ a, p a = false → (t.scope a).kind ≠ .module) (hid : id.IsOwn lib) :
    (((t.ancestors id).find? p).getD id).IsOwn lib := by
  have hfound : ∀ (steps : Nat) (id a : ScopeId), id.IsOwn lib → (t.ancestorsFrom steps id).find? p = some a →
      a.IsOwn lib := by
    intro steps
    induction steps with
    | zero => exact fun _ _ _ hfind => absurd hfind (by simp [ancestorsFrom])
    | succ steps ih =>
      intro id a hid hfind
      rw [ancestorsFrom, find?_cons] at hfind
      split at hfind
      · rwa [← Option.some.inj hfind]
      · rename_i hpass
        split at hfind
        · rename_i parent hparent
          exact ih parent a (h.around id parent hid (.inl (hp id hpass)) hparent) hfind
        · contradiction
  cases hfind : (t.ancestors id).find? p with
  | none => exact hid
  | some a => exact hfound _ id a hid hfind

theorem moduleScope (hid : id.IsOwn lib) : (t.moduleScope id).IsOwn lib := by
  refine h.find_ancestors (fun a ha => ?_) hid
  simp only [Bool.or_eq_false_iff, beq_eq_false_iff_ne] at ha
  exact ha.1

theorem enclosingBlock (hid : id.IsOwn lib) : (t.enclosingBlock id).IsOwn lib := by
  refine h.find_ancestors (fun a ha => ?_) hid
  simp only [bne_eq_false_iff_eq] at ha
  rw [ha]
  exact ScopeKind.noConfusion

theorem targetScope (hid : id.IsOwn lib) (name : String) : (t.targetScope id name).IsOwn lib := by
  unfold ScopeTable.targetScope
  split
  · exact h.moduleScope hid
  · split
    · cases hfind : ((t.ancestors id).tail.takeWhile t.passesNonlocal).find? fun a =>
        (t.scope a).kind == .function && (t.lookupLocal a name).isSome with
      | none => exact hid
      | some a =>
        -- it is the scope of a function, of which the library has none
        have hfunction := find?_some hfind
        simp only [Bool.and_eq_true, beq_iff_eq] at hfunction
        refine Classical.byContradiction fun hlibrary => h.unentered a hlibrary ?_
        rw [← h.scope a hlibrary]
        exact hfunction.1
    · exact hid

end

end ScopeTable.Spares

/-! ### States -/

variable {s t : Analysis}

/-- The tables spare the library, and all that the program may write to is own. -/
structure Analysis.Confined (lib : ScopeTable) (s : Analysis) : Prop where
  scopes : lib.Spares s.scopes
  cls : ∀ c, (s.types.cls c).builtin = false → (s.types.cls c).scope.IsOwn lib
  module : ∀ m, (s.types.module m).file.isSome → (s.types.module m).scope.IsOwn lib
  loaded : ∀ entry ∈ s.modules, (s.types.module entry.2).scope.IsOwn lib
  closure : ∀ f d, (s.types.function f).body = .source d → (s.types.function f).closure.IsOwn lib

namespace Analysis.Confined

theorem of_empty (s : Analysis) : s.Confined ⟨#[], #[]⟩ :=
  ⟨.of_empty _, fun _ _ => Nat.zero_le _, fun _ _ => Nat.zero_le _, fun _ _ => Nat.zero_le _, fun _ _ _ => Nat.zero_le _⟩

section

variable (h : s.Confined lib)
include h

theorem attributeScope? {a scope} (hscope : s.attributeScope? a = some scope) : scope.IsOwn lib := by
  rcases attributeScope?_cases hscope with ⟨c, hown, rfl⟩ | ⟨m, hfile, rfl⟩
  · exact h.cls c hown
  · exact h.module m hfile

theorem of_scopes (hscopes : lib.Spares t.scopes) (htypes : t.types = s.types) (hmodules : t.modules = s.modules) :
    t.Confined lib where
  scopes := hscopes
  cls := htypes ▸ h.cls
  module := htypes ▸ h.module
  loaded := by
    rw [hmodules, htypes]
    exact h.loaded
  closure := htypes ▸ h.closure

/-- Only what was found out about a function changes. -/
theorem modifyFun {f g} (hscopes : t.scopes = s.scopes) (htypes : t.types = s.types.modifyFun f g)
    (hmodules : t.modules = s.modules) (hbody : ∀ fn, (g fn).body = fn.body)
    (hclosure : ∀ fn, (g fn).closure = fn.closure) :
    t.Confined lib where
  scopes := hscopes ▸ h.scopes
  cls := by
    rw [htypes]
    exact h.cls
  module := by
    rw [htypes]
    exact h.module
  loaded := by
    rw [hmodules, htypes]
    exact h.loaded
  closure i d := by
    rw [htypes, s.types.function_modifyFun]
    split
    · rw [hbody, hclosure]
      exact h.closure i d
    · exact h.closure i d

theorem addFun {f} (hclosure : f.closure.IsOwn lib) :
    (s.addFun f).1.Confined lib where
  scopes := h.scopes
  cls := h.cls
  module := h.module
  loaded := h.loaded
  closure i d := by
    have hfun : (s.addFun f).1.types.function i = if i.index = s.types.funs.size then f else s.types.function i :=
      s.types.function_addFun f i
    rw [hfun]
    split
    · exact fun _ => hclosure
    · exact h.closure i d

theorem addClass {c} (hscope : c.scope.IsOwn lib) (hkind : (s.scopes.scope c.scope).kind ≠ .module) :
    (s.addClass c).1.Confined lib where
  scopes := h.scopes.setOwner hscope hkind _
  cls i := by
    have hcls : (s.addClass c).1.types.cls i = if i.index = s.types.classes.size then c else s.types.cls i :=
      s.types.cls_addClass c i
    rw [hcls]
    split
    · exact fun _ => hscope
    · exact h.cls i
  module := h.module
  loaded := h.loaded
  closure := h.closure

theorem addModule {m} (hscope : m.scope.IsOwn lib) : (s.addModule m).1.Confined lib := by
  have hmodule : ∀ i, (s.addModule m).1.types.module i = if i.index = s.types.modules.size then m else s.types.module i :=
    s.types.module_addModule m
  refine { h with module := fun i => ?_, loaded := fun entry hentry => ?_ }
  · rw [hmodule]
    split
    · exact fun _ => hscope
    · exact h.module i
  · rw [hmodule]
    split
    · exact hscope
    · exact h.loaded entry hentry

theorem addLoaded (file : Path) (qname : String) {m} (hm : (s.types.module m).scope.IsOwn lib) :
    (s.addLoaded file qname m).Confined lib :=
  { h with loaded := forall_mem_cons.2 ⟨hm, h.loaded⟩ }

theorem defineFunction (d : FunctionDef) (defaults : List (Option Ty)) {scope} (hscope : scope.IsOwn lib) :
    (s.defineFunction d defaults scope).1.Confined lib := by
  refine h.addFun ?_
  dsimp only
  split
  · rename_i howner
    cases hparent : (s.scopes.scope scope).parent with
    | none => exact hscope
    | some parent => exact h.scopes.around scope parent hscope (.inr howner) hparent
  · exact hscope

/-- The body of a class is an own scope. -/
theorem defineClass (d : ClassDef) (bases : List Ty) {scope} (hscope : scope.IsOwn lib) :
    (s.defineClass d bases scope).1.Confined lib := by
  let path := s.scopes.extendPath scope d.name.name
  have hbody : (s.newScope .cls scope path).1.Confined lib := h.of_scopes (h.scopes.newScope (.inr hscope) path) rfl rfl
  have hmade := s.scopes.scope_newScope .cls scope path ⟨s.scopes.scopes.size⟩
  rw [if_pos rfl] at hmade
  refine hbody.addClass h.scopes.scopeCount fun hmodule => ?_
  exact absurd ((congrArg Scope.kind hmade).symm.trans hmodule) ScopeKind.noConfusion

end

end Analysis.Confined

end TypeInfer
