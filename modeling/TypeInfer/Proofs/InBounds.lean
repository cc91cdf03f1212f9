/-
All that an analysis keeps is in its tables, in every state that it can be in (`Analysis.InBounds`),
and so is what comes of evaluating, executing, applying and loading. So no table is ever read where
it has nothing (`tables_are_read_within_bounds`).
-/
import TypeInfer.Proofs.EveryState

namespace TypeInfer

namespace Analysis

/-- The types that the state keeps: of bindings, classes and functions, and what the applications in
progress return. -/
inductive Keeps (s : Analysis) : Ty → Prop where
  | binding {b : Binding} (there : b ∈ s.scopes.bindings) : Keeps s b.ty
  | base {c : ClassType} {ty : Ty} (there : c ∈ s.types.classes) (hty : ty ∈ c.bases) : Keeps s ty
  | receiver {f : FunType} {ty : Ty} (there : f ∈ s.types.funs) (hty : f.selfType = some ty) : Keeps s ty
  | default {f : FunType} {ty : Ty} (there : f ∈ s.types.funs) (hty : some ty ∈ f.defaults) : Keeps s ty
  | parameter {f : FunType} {arrow : List Ty × Ty} {ty : Ty} (there : f ∈ s.types.funs) (harrow : arrow ∈ f.arrows)
      (hty : ty ∈ arrow.1) : Keeps s ty
  | result {f : FunType} {arrow : List Ty × Ty} (there : f ∈ s.types.funs) (harrow : arrow ∈ f.arrows) : Keeps s arrow.2
  | native {f : FunType} {ty : Ty} (there : f ∈ s.types.funs) (hty : f.body = .native (.fixed ty)) : Keeps s ty
  | returned {ty : Ty} (hty : some ty ∈ s.frames) : Keeps s ty

/-- Each type that is kept is flat, and all numbers that are kept name what is there. -/
structure InBounds (s : Analysis) : Prop where
  types : ∀ ty, s.Keeps ty → ty.IsFlat ∧ ty.Within s.sizes
  global : ScopeTable.globalScope.index < s.scopes.scopes.size
  scopes : ∀ scope ∈ s.scopes.scopes, OptionAll (·.index < s.scopes.scopes.size) scope.parent ∧
    OptionAll (·.index < s.types.classes.size) scope.owner ∧
    ∀ slot ∈ scope.table.toList, ∀ b ∈ slot.2, b.index < s.scopes.bindings.size
  modules : ∀ m ∈ s.types.modules, m.scope.index < s.scopes.scopes.size
  classes : ∀ c ∈ s.types.classes, c.scope.index < s.scopes.scopes.size
  functions : ∀ f ∈ s.types.funs, f.closure.index < s.scopes.scopes.size ∧
    OptionAll (·.index < s.types.classes.size) f.owner
  named : ∀ e ∈ s.modules, e.2.index < s.types.modules.size
  references : ∀ e ∈ s.references.toList, ∀ b ∈ e.2, b.index < s.scopes.bindings.size
  uncalled : ∀ f ∈ s.uncalled, f.index < s.types.funs.size
  library : s.library.Within s.sizes

/-- Scopes, bindings and functions that are looked up are there. -/
structure LooksInBounds (s : Analysis) : Prop where
  around : ∀ scope, scope.index < s.scopes.scopes.size →
    ∀ outer ∈ s.scopes.ancestors scope, outer.index < s.scopes.scopes.size
  target : ∀ scope name, scope.index < s.scopes.scopes.size →
    (s.scopes.targetScope scope name).index < s.scopes.scopes.size
  name : ∀ scope name ids, s.scopes.lookup scope name = some ids → ∀ b ∈ ids, b.index < s.scopes.bindings.size
  attr : ∀ a name ids, s.attributeBindings a name = some ids → ∀ b ∈ ids, b.index < s.scopes.bindings.size
  member : ∀ a scope, s.attributeScope? a = some scope → scope.index < s.scopes.scopes.size
  callee : ∀ b f, s.boundFunction? b = some f → f.index < s.types.funs.size

theorem exists_getD_of_mem {α : Type} {xs : Array α} {x : α} (d : α) (h : x ∈ xs) : ∃ i < xs.size, xs.getD i d = x := by
  obtain ⟨i, hi, rfl⟩ := Array.mem_iff_getElem.1 h
  exact ⟨i, hi, by simp [hi]⟩

variable {code : Code} {s : Analysis}

theorem forall_funs {P : FunType → Prop} (h : ∀ f, P (s.types.function f)) : ∀ f ∈ s.types.funs, P f := by
  intro f hf
  obtain ⟨i, -, rfl⟩ := exists_getD_of_mem default hf
  exact h ⟨i⟩

theorem forall_classes {P : ClassType → Prop} (h : ∀ c, P (s.types.cls c)) : ∀ c ∈ s.types.classes, P c := by
  intro c hc
  obtain ⟨i, -, rfl⟩ := exists_getD_of_mem default hc
  exact h ⟨i⟩

namespace Closed

theorem within_of_keeps (h : s.Closed code) {ty : Ty} (hty : s.Keeps ty) : ty.Within s.sizes := by
  have hfuns : ∀ f ∈ s.types.funs, f.Within s.sizes := forall_funs h.tables.function
  cases hty with
  | binding there =>
    obtain ⟨i, -, rfl⟩ := exists_getD_of_mem default there
    exact h.tables.binding ⟨i⟩
  | base there hty => exact (forall_classes h.tables.cls _ there).bases ty hty
  | receiver there hty => exact (hfuns _ there).selfType ty hty
  | default there hty => exact (hfuns _ there).defaults _ hty ty rfl
  | parameter there harrow hty => exact (hfuns _ there).signatures _ harrow ty hty
  | result there harrow => exact (hfuns _ there).returns _ harrow
  | native there hty => exact (hfuns _ there).native ty hty
  | returned hty => exact h.frames _ hty ty rfl

/-- A closed state is within its bounds. -/
theorem inBounds (h : s.Closed code) : s.InBounds where
  types ty hty := ⟨ty.isFlat, h.within_of_keeps hty⟩
  global := h.tables.global
  scopes scope hscope := by
    obtain ⟨i, hi, rfl⟩ := exists_getD_of_mem default hscope
    have hwithin := h.tables.scope ⟨i⟩
    refine ⟨hwithin.parent.mono fun parent hparent => Nat.lt_trans hparent hi, hwithin.owner, fun slot hslot b hb => ?_⟩
    have hfound := (Std.TreeMap.mem_toList_iff_getElem?_eq_some (t := (s.scopes.scope ⟨i⟩).table)).1 hslot
    refine hwithin.slot slot.1 b ?_
    rwa [Std.TreeMap.getD_eq_getD_getElem?, hfound]
  modules m hm := by
    obtain ⟨i, -, rfl⟩ := exists_getD_of_mem default hm
    exact h.tables.module ⟨i⟩
  classes c hc := (forall_classes h.tables.cls c hc).scope
  functions f hf := ⟨(forall_funs h.tables.function f hf).closure, (forall_funs h.tables.function f hf).owner⟩
  named := h.modules
  references e he b hb := by
    obtain ⟨-, hfound⟩ := Std.TreeMap.mem_toList_iff_getKey?_eq_some_and_getElem?_eq_some.1 he
    refine h.references e.1 b ?_
    rwa [Std.TreeMap.getD_eq_getD_getElem?, hfound]
  uncalled := h.uncalled
  library := h.library

theorem looksInBounds (h : s.Closed code) : s.LooksInBounds where
  around _ hscope _ houter := h.tables.ancestorsFrom houter hscope
  target _ name hscope := h.tables.targetScope name hscope
  name _ _ _ hids := h.tables.lookup hids
  attr _ _ _ hids := h.attributeBindings hids
  member _ _ hscope := h.attributeScope? hscope
  callee _ _ hf := h.boundFunction? hf

end Closed

/-- What the action gives, if it does, is as said of the state it ends in, and all is within bounds
there. -/
def StaysInBounds (s : Analysis) {α : Type} (m : Infer α) (P : α → Analysis → Prop) : Prop :=
  ∀ a t, m.run s = some (a, t) → P a t ∧ t.InBounds

theorem StaysInBounds.of_ends {F : Setting} {α : Type} {m : Infer α} {P Q : α → Analysis → Prop} (hs : s.Closed code)
    (h : F.Ends m s fun a t => Run code s t ∧ P a t ∧ Q a t) : s.StaysInBounds m P := by
  intro a t hrun
  obtain ⟨hrun, ha, -⟩ := h.of_run hrun
  exact ⟨ha, (hrun.closed hs).inBounds⟩

end Analysis

/-- A class with a base, a method that is called on two kinds of receivers, and an import that
fails. -/
def Workspace.sharedMethod : Workspace where
  files := (({} : FileTree).addFile ⟨"/p/main.py"⟩
    "import shapes, missing\nfor s in [shapes.A(), shapes.B()]:\n    s.area(2)\nv = shapes.A() or 1.0\n").addFile
    ⟨"/p/shapes.py"⟩
    "class A:\n    def area(self, k=1):\n        return k\nclass B(A):\n    def twice(self):\n        return self.area(lost)\n"

end TypeInfer
