/-
What is read from the tables of scopes, bindings, modules, classes and functions
after something was added or changed. An id that is not in a table reads as the
default, so these hold for every id. The same for tables in the order of their keys.
-/
import TypeInfer.Store

namespace TypeInfer

open List

theorem getD_push {α : Type} (xs : Array α) (x d : α) (i : Nat) :
    (xs.push x).getD i d = if i = xs.size then x else xs.getD i d := by
  simp only [Array.getD_eq_getD_getElem?, Array.getElem?_push]
  split <;> rfl

theorem getD_modify {α : Type} (xs : Array α) (i j : Nat) (f : α → α) (d : α) :
    (xs.modify i f).getD j d = if i = j ∧ j < xs.size then f (xs.getD j d) else xs.getD j d := by
  simp only [Array.getD_eq_getD_getElem?, Array.getElem?_modify]
  by_cases hij : i = j
  · by_cases hj : j < xs.size <;> simp [hij, hj]
  · simp [hij]

/-! ### Modules, classes and functions -/

namespace TypeStore

variable (s : TypeStore) (id : FunId) (g : FunType → FunType)

theorem module_addModule (m : ModuleType) (id : ModuleId) :
    (s.addModule m).1.module id = if id.index = s.modules.size then m else s.module id :=
  getD_push s.modules m default id.index

theorem cls_addClass (c : ClassType) (id : ClassId) :
    (s.addClass c).1.cls id = if id.index = s.classes.size then c else s.cls id :=
  getD_push s.classes c default id.index

theorem function_addFun (f : FunType) (id : FunId) :
    (s.addFun f).1.function id = if id.index = s.funs.size then f else s.function id :=
  getD_push s.funs f default id.index

theorem function_modifyFun (f : FunId) (g : FunType → FunType) :
    (s.modifyFun id g).function f =
      if id = f ∧ f.index < s.funs.size then g (s.function f) else s.function f := by
  have h := getD_modify s.funs id.index f.index g default
  cases id
  cases f
  simpa only [FunId.mk.injEq, function, modifyFun] using h

@[simp] theorem size_modifyFun : (s.modifyFun id g).funs.size = s.funs.size := by
  simp [modifyFun]

theorem function_eq_default {f} (hf : s.funs.size ≤ f.index) : s.function f = default := by
  simp [function, Array.getD, Nat.not_lt.2 hf]

end TypeStore

/-! ### Scopes and bindings -/

namespace ScopeTable

variable (t : ScopeTable) (scope : ScopeId) (name : String) (node : Span) (ty : Ty) (kind : BindingKind)
  (id i : ScopeId) (f : Scope → Scope) (b : BindingId)

theorem scope_newScope (kind : ScopeKind) (parent : ScopeId) (path : String) (id : ScopeId) :
    (t.newScope kind parent path).1.scope id =
      if id.index = t.scopes.size then { kind, parent := some parent, path } else t.scope id :=
  getD_push t.scopes _ default id.index

theorem scope_eq_default {id} (hid : t.scopes.size ≤ id.index) : t.scope id = default := by
  simp [scope, Array.getD, Nat.not_lt.2 hid]

theorem scope_modifyScope :
    (t.modifyScope id f).scope i = if id = i ∧ i.index < t.scopes.size then f (t.scope i) else t.scope i := by
  have h := getD_modify t.scopes id.index i.index f default
  cases id
  cases i
  simpa only [ScopeId.mk.injEq, scope, modifyScope] using h

theorem binding_modifyBinding (i : BindingId) (f : Binding → Binding) :
    (t.modifyBinding b f).binding i =
      if b = i ∧ i.index < t.bindings.size then f (t.binding i) else t.binding i := by
  have h := getD_modify t.bindings b.index i.index f default
  cases b
  cases i
  simpa only [BindingId.mk.injEq, binding, modifyBinding] using h

@[simp] theorem size_scopes_modifyScope : (t.modifyScope id f).scopes.size = t.scopes.size := by
  simp [modifyScope]

@[simp] theorem size_bindings_modifyBinding (f : Binding → Binding) :
    (t.modifyBinding b f).bindings.size = t.bindings.size := by
  simp [modifyBinding]

theorem binding_addBinding :
    (t.addBinding scope name node ty kind).1.binding b =
      if b.index = t.bindings.size then { name, node, ty, kind, qname := t.extendPath scope name }
      else t.binding b :=
  getD_push t.bindings _ default b.index

theorem scope_addBinding :
    (t.addBinding scope name node ty kind).1.scope i =
      if scope = i ∧ i.index < t.scopes.size then
        { t.scope i with
          table := (t.scope i).table.insert name ((t.scope i).table.getD name [] ++ [⟨t.bindings.size⟩]) }
      else t.scope i :=
  scope_modifyScope { t with bindings := _ } scope i _

theorem slot_addBinding (n : String) :
    (t.addBinding scope name node ty kind).1.slot i n =
      if (scope = i ∧ i.index < t.scopes.size) ∧ name = n then t.slot i n ++ [⟨t.bindings.size⟩]
      else t.slot i n := by
  rw [slot, scope_addBinding]
  by_cases hi : scope = i ∧ i.index < t.scopes.size
  · rw [if_pos hi, Std.TreeMap.getD_insert]
    by_cases hn : name = n
    · subst hn
      simp [hi, slot]
    · simp [hi, hn, slot]
  · simp [hi, slot]

@[simp] theorem size_scopes_addBinding :
    (t.addBinding scope name node ty kind).1.scopes.size = t.scopes.size :=
  size_scopes_modifyScope { t with bindings := _ } scope _

@[simp] theorem size_bindings_addBinding :
    (t.addBinding scope name node ty kind).1.bindings.size = t.bindings.size + 1 :=
  Array.size_push _

/-- What becomes of a definition: it was there, it widens a binding, or it makes one. -/
theorem insert_cases :
    (∃ b ∈ t.slot scope name, kind.isDeclaration ∧ (t.binding b).kind = kind ∧ (t.binding b).ty = ty ∧
      t.insert scope name node ty kind = (t, .existing b)) ∨
    (∃ b ∈ t.slot scope name, kind.isDeclaration = false ∧ (t.binding b).kind.isDeclaration = false ∧
      t.insert scope name node ty kind =
        (t.modifyBinding b fun old => { old with ty := old.ty.merge ty }, .merged b)) ∨
    t.insert scope name node ty kind =
      ((t.addBinding scope name node ty kind).1, .new ⟨t.bindings.size⟩) := by
  rw [insert]
  cases hdecl : kind.isDeclaration with
  | true =>
    simp only [receiver?, hdecl, if_true]
    cases hfind : (t.slot scope name).find? fun b => (t.binding b).kind == kind && (t.binding b).ty == ty with
    | none => exact .inr (.inr rfl)
    | some b =>
      have hb := find?_some hfind
      simp only [Bool.and_eq_true, beq_iff_eq] at hb
      exact .inl ⟨b, mem_of_find?_eq_some hfind, trivial, hb.1, hb.2, rfl⟩
  | false =>
    simp only [receiver?, hdecl, Bool.false_eq_true, if_false]
    cases hfind : (t.slot scope name).reverse.find? fun b => !(t.binding b).kind.isDeclaration with
    | none => exact .inr (.inr rfl)
    | some b =>
      have hmem := mem_reverse.1 (mem_of_find?_eq_some hfind)
      exact .inr (.inl ⟨b, hmem, trivial, by simpa using find?_some hfind, rfl⟩)

theorem refs_insert :
    ((t.insert scope name node ty kind).1.binding b).refs = (t.binding b).refs := by
  rcases t.insert_cases scope name node ty kind with ⟨_, -, -, -, -, heq⟩ | ⟨_, -, -, -, heq⟩ | heq <;> rw [heq]
  · rw [binding_modifyBinding]
    split <;> rfl
  · rw [binding_addBinding]
    split
    · -- what is read before the binding is made is the default, which nothing refers to
      rename_i hb
      rw [binding, hb, Array.getD_eq_getD_getElem?, Array.getElem?_size]
      rfl
    · rfl

theorem size_scopes_insert : (t.insert scope name node ty kind).1.scopes.size = t.scopes.size := by
  rcases t.insert_cases scope name node ty kind with ⟨_, -, -, -, -, heq⟩ | ⟨_, -, -, -, heq⟩ | heq <;> rw [heq]
  · rfl
  · exact t.size_scopes_addBinding scope name node ty kind

/-- A definition changes no scope but for its names. -/
theorem exists_table_insert (scope : ScopeId) (name : String) (node : Span) (ty : Ty) (kind : BindingKind) (id : ScopeId) :
    ∃ table, (t.insert scope name node ty kind).1.scope id = { t.scope id with table } := by
  rcases t.insert_cases scope name node ty kind with ⟨_, -, -, -, -, heq⟩ | ⟨_, -, -, -, heq⟩ | heq <;> rw [heq]
  · exact ⟨_, rfl⟩
  · exact ⟨_, rfl⟩
  · rw [scope_addBinding]
    split <;> exact ⟨_, rfl⟩

theorem kind_insert (scope : ScopeId) (name : String) (node : Span) (ty : Ty) (kind : BindingKind) (id : ScopeId) :
    ((t.insert scope name node ty kind).1.scope id).kind = (t.scope id).kind := by
  obtain ⟨table, heq⟩ := t.exists_table_insert scope name node ty kind id
  rw [heq]

/-- The binding is in the slot that it was made for. -/
theorem mem_slot_insert {scope} (hscope : scope.index < t.scopes.size) (name : String) (node : Span)
    (ty : Ty) (kind : BindingKind) :
    (t.insert scope name node ty kind).2.id ∈ (t.insert scope name node ty kind).1.slot scope name := by
  rcases t.insert_cases scope name node ty kind with ⟨b, hb, -, -, -, heq⟩ | ⟨b, hb, -, -, heq⟩ | heq <;> rw [heq]
  · exact hb
  · exact hb
  · rw [slot_addBinding, if_pos ⟨⟨rfl, hscope⟩, rfl⟩]
    exact mem_append_right _ (mem_singleton_self _)

theorem slot_insert_of_ne {scope id name n} (hne : ¬(scope = id ∧ name = n)) (node : Span) (ty : Ty)
    (kind : BindingKind) : (t.insert scope name node ty kind).1.slot id n = t.slot id n := by
  rcases t.insert_cases scope name node ty kind with ⟨_, -, -, -, -, heq⟩ | ⟨_, -, -, -, heq⟩ | heq <;> rw [heq]
  · rfl
  · rw [slot_addBinding, if_neg fun h => hne ⟨h.1.1, h.2⟩]

end ScopeTable

/-! ### Tables in the order of their keys -/

namespace Ordered

variable {α β : Type} [Ord α] [Std.TransOrd α] (t : Std.TreeMap α β) (k : α) (f : β → β)

theorem compare_getKeyD : compare (t.getKeyD k k) k = .eq := by
  have hself := t.compare_getKey?_self (k := k)
  rw [Std.TreeMap.getKeyD_eq_getD_getKey?]
  cases hkey : t.getKey? k with
  | none => exact Std.ReflCmp.compare_self
  | some k' => simpa [hkey] using hself

theorem getElem?_update (k' : α) (start : β) (f : β → β) :
    (update t k start f)[k']? = if compare k k' = .eq then some (f (t.getD k start)) else t[k']? := by
  have hk : compare (t.getKeyD k k) k' = compare k k' := Std.TransCmp.congr_left (compare_getKeyD t k)
  rw [update, Std.TreeMap.getElem?_insert, hk]

theorem getD_update (k' : α) (start d : β) (f : β → β) :
    (update t k start f).getD k' d = if compare k k' = .eq then f (t.getD k start) else t.getD k' d := by
  rw [Std.TreeMap.getD_eq_getD_getElem?, getElem?_update]
  split
  · rfl
  · rw [Std.TreeMap.getD_eq_getD_getElem?]

theorem mem_toList_update {t : Std.TreeMap α β} {k : α} {start : β} {f : β → β} {e : α × β}
    (h : e ∈ (update t k start f).toList) : e = (t.getKeyD k k, f (t.getD k start)) ∨ e ∈ t.toList := by
  obtain ⟨k', v⟩ := e
  rw [Std.TreeMap.mem_toList_iff_getKey?_eq_some_and_getElem?_eq_some, update, Std.TreeMap.getKey?_insert,
    Std.TreeMap.getElem?_insert] at h
  by_cases hk : compare (t.getKeyD k k) k' = .eq
  · rw [if_pos hk, if_pos hk] at h
    exact .inl (Prod.ext (Option.some.inj h.1).symm (Option.some.inj h.2).symm)
  · rw [if_neg hk, if_neg hk] at h
    exact .inr (Std.TreeMap.mem_toList_iff_getKey?_eq_some_and_getElem?_eq_some.2 h)

theorem getKeyD_cases : t.getKeyD k k = k ∨ ∃ v, (t.getKeyD k k, v) ∈ t.toList := by
  by_cases hk : k ∈ t
  · obtain ⟨k', hk', hmem⟩ := Std.TreeMap.getElem?_eq_some_iff_exists_compare_eq_eq_and_mem_toList.1
      (Std.TreeMap.getElem?_eq_some_getElem hk)
    have hkey := (Std.TreeMap.mem_toList_iff_getKey?_eq_some_and_getElem?_eq_some.1 hmem).1
    rw [← Std.TreeMap.getKey?_congr hk'] at hkey
    rw [Std.TreeMap.getKeyD_eq_getD_getKey?, hkey]
    exact .inr ⟨_, hmem⟩
  · exact .inl (Std.TreeMap.getKeyD_eq_fallback hk)

theorem getD_cases (d : β) : t.getD k d = d ∨ ∃ e ∈ t.toList, e.2 = t.getD k d := by
  rw [Std.TreeMap.getD_eq_getD_getElem?]
  cases hfound : t[k]? with
  | none => exact .inl rfl
  | some v =>
    obtain ⟨k', -, hmem⟩ := Std.TreeMap.getElem?_eq_some_iff_exists_compare_eq_eq_and_mem_toList.1 hfound
    exact .inr ⟨(k', v), hmem, rfl⟩

end Ordered

end TypeInfer
