/-
An analysis only adds. `GrowsInto` says what becomes of a state. A `Trace` lists the points that a
run passes, and each of them grows into those after it (`Trace.pairwise_growsInto`). The end of an
application writes what was returned over nothing, since no other application with its key was
entered meanwhile (`Trace.arrow?_eq`).
-/
import TypeInfer.Proofs.EveryState

namespace TypeInfer

open List

/-! ### Bindings and scopes -/

/-- What becomes of a binding: it is widened, and places that refer to it are added. -/
structure Binding.GrowsInto (b c : Binding) : Prop where
  name : c.name = b.name
  node : c.node = b.node
  kind : c.kind = b.kind
  qname : c.qname = b.qname
  ty : ∃ more, c.ty = b.ty.merge more
  refs : b.refs <+: c.refs

namespace Binding.GrowsInto

variable {a b c : Binding}

theorem refl (b : Binding) : b.GrowsInto b :=
  ⟨rfl, rfl, rfl, rfl, ⟨b.ty, (sup_idem b.ty).symm⟩, prefix_refl _⟩

theorem trans (h : a.GrowsInto b) (h' : b.GrowsInto c) : a.GrowsInto c where
  name := h'.name.trans h.name
  node := h'.node.trans h.node
  kind := h'.kind.trans h.kind
  qname := h'.qname.trans h.qname
  ty := by
    obtain ⟨more, hb⟩ := h.ty
    obtain ⟨more', hc⟩ := h'.ty
    refine ⟨more.merge more', ?_⟩
    rw [hc, hb]
    exact sup_assoc a.ty more more'
  refs := h.refs.trans h'.refs

theorem widen (b : Binding) (ty : Ty) : b.GrowsInto { b with ty := b.ty.merge ty } :=
  ⟨rfl, rfl, rfl, rfl, ⟨ty, rfl⟩, prefix_refl _⟩

theorem addRef (b : Binding) (node : Span) : b.GrowsInto (b.addRef node) := by
  unfold Binding.addRef
  split
  · exact refl b
  · exact ⟨rfl, rfl, rfl, rfl, ⟨b.ty, (sup_idem b.ty).symm⟩, prefix_append _ _⟩

end Binding.GrowsInto

/-- What becomes of a table of scopes. The bindings of a name stay, in their order. -/
structure ScopeTable.GrowsInto (s t : ScopeTable) : Prop where
  size : s.bindings.size ≤ t.bindings.size
  binding : ∀ b : BindingId, b.index < s.bindings.size → (s.binding b).GrowsInto (t.binding b)
  names : ∀ id name, name ∈ (s.scope id).table → name ∈ (t.scope id).table
  slot : ∀ id name, s.slot id name <+: t.slot id name

namespace ScopeTable.GrowsInto

variable {s t u : ScopeTable}

theorem refl (s : ScopeTable) : s.GrowsInto s :=
  ⟨Nat.le_refl _, fun _ _ => .refl _, fun _ _ => id, fun _ _ => prefix_refl _⟩

theorem trans (h : s.GrowsInto t) (h' : t.GrowsInto u) : s.GrowsInto u where
  size := Nat.le_trans h.size h'.size
  binding b hb := (h.binding b hb).trans (h'.binding b (Nat.lt_of_lt_of_le hb h.size))
  names id name hname := h'.names id name (h.names id name hname)
  slot id name := (h.slot id name).trans (h'.slot id name)

/-- Scopes change, but not the names in them. -/
theorem of_tables (hbindings : t.bindings = s.bindings) (htable : ∀ id, (t.scope id).table = (s.scope id).table) :
    s.GrowsInto t where
  size := Nat.le_of_eq (by rw [hbindings])
  binding b _ := by
    rw [ScopeTable.binding, ScopeTable.binding, hbindings]
    exact .refl _
  names id name hname := by rwa [htable]
  slot id name := by rw [ScopeTable.slot, ScopeTable.slot, htable]

theorem newScope (s : ScopeTable) (kind : ScopeKind) (parent : ScopeId) (path : String) :
    s.GrowsInto (s.newScope kind parent path).1 := by
  refine of_tables rfl fun id => ?_
  rw [s.scope_newScope]
  split
  · rename_i hnew
    rw [s.scope_eq_default (Nat.le_of_eq hnew.symm)]
    rfl
  · rfl

theorem modifyScope (s : ScopeTable) (id : ScopeId) {f : Scope → Scope} (hf : ∀ scope, (f scope).table = scope.table) :
    s.GrowsInto (s.modifyScope id f) := by
  refine of_tables rfl fun i => ?_
  rw [s.scope_modifyScope]
  split
  · exact hf _
  · rfl

theorem modifyBinding (s : ScopeTable) (b : BindingId) {f : Binding → Binding} (hf : ∀ c : Binding, c.GrowsInto (f c)) :
    s.GrowsInto (s.modifyBinding b f) where
  size := Nat.le_of_eq (s.size_bindings_modifyBinding b f).symm
  binding i _ := by
    rw [s.binding_modifyBinding]
    split
    · exact hf _
    · exact .refl _
  names _ _ := id
  slot _ _ := prefix_refl _

theorem addBinding (s : ScopeTable) (scope : ScopeId) (name : String) (node : Span) (ty : Ty) (kind : BindingKind) :
    s.GrowsInto (s.addBinding scope name node ty kind).1 where
  size := by simp
  binding b hb := by
    rw [s.binding_addBinding, if_neg (Nat.ne_of_lt hb)]
    exact .refl _
  names id n hn := by
    rw [s.scope_addBinding]
    split
    · exact Std.TreeMap.mem_insert.2 (.inr hn)
    · exact hn
  slot id n := by
    rw [s.slot_addBinding]
    split
    · exact prefix_append _ _
    · exact prefix_refl _

theorem insert (s : ScopeTable) (scope : ScopeId) (name : String) (node : Span) (ty : Ty) (kind : BindingKind) :
    s.GrowsInto (s.insert scope name node ty kind).1 := by
  rcases s.insert_cases scope name node ty kind with ⟨_, -, -, -, -, heq⟩ | ⟨b, -, -, -, heq⟩ | heq <;> rw [heq]
  · exact refl s
  · exact modifyBinding s b fun old => .widen old ty
  · exact addBinding s scope name node ty kind

end ScopeTable.GrowsInto

/-! ### States -/

/-- What becomes of a state, apart from what functions returned. -/
structure Analysis.Extends (s t : Analysis) : Prop where
  sizes : s.sizes ≤ t.sizes
  scopes : s.scopes.GrowsInto t.scopes
  cls : ∀ c : ClassId, c.index < s.types.classes.size → t.types.cls c = s.types.cls c
  body : ∀ f : FunId, f.index < s.types.funs.size → (t.types.function f).body = (s.types.function f).body

/-- What becomes of a state. What a function returned for a list of parameter types is
not changed. -/
structure Analysis.GrowsInto (s t : Analysis) : Prop extends Analysis.Extends s t where
  arrow : ∀ f signature ret, (s.types.function f).arrow? signature = some ret →
    (t.types.function f).arrow? signature = some ret

variable {code : Code} {s t u : Analysis}

namespace Analysis.Extends

theorem trans (h : s.Extends t) (h' : t.Extends u) : s.Extends u where
  sizes := Sizes.le_trans h.sizes h'.sizes
  scopes := h.scopes.trans h'.scopes
  cls c hc := (h'.cls c (Nat.lt_of_lt_of_le hc h.sizes.classes)).trans (h.cls c hc)
  body f hf := (h'.body f (Nat.lt_of_lt_of_le hf h.sizes.funs)).trans (h.body f hf)

theorem siteAtom (h : s.Extends t) {a} (ha : a.Within s.sizes) :
    t.types.siteAtom a = s.types.siteAtom a := by
  cases a with
  | cls c => rw [TypeStore.siteAtom, TypeStore.siteAtom, h.cls c ha]
  | inst c => rw [TypeStore.siteAtom, TypeStore.siteAtom, h.cls c ha]
  | function f =>
    have hdefinition : (t.types.function f).definition? = (s.types.function f).definition? := by
      rw [FunType.definition?, h.body f ha]
      rfl
    rw [TypeStore.siteAtom, TypeStore.siteAtom, hdefinition]
  | prim p => rfl
  | module m => rfl

/-- The key of an application stays what it is. -/
theorem callKey (h : s.Extends t) (d : FunctionDef) {signature}
    (hsignature : ∀ ty ∈ signature, ty.Within s.sizes) :
    t.callKey d signature = s.callKey d signature := by
  have hsite : ∀ ty ∈ signature, t.types.siteTy ty = s.types.siteTy ty := by
    intro ty hty
    have hatoms : ty.atoms.map t.types.siteAtom = ty.atoms.map s.types.siteAtom :=
      map_congr_left fun a ha => h.siteAtom (hsignature ty hty a ha)
    unfold TypeStore.siteTy
    split
    · rfl
    · rename_i a heq
      rw [h.siteAtom (hsignature ty hty a (by simp [heq]))]
    · rw [hatoms]
  rw [Analysis.callKey, Analysis.callKey]
  exact congrArg _ (map_congr_left fun ty hty => by rw [hsite ty hty])

end Analysis.Extends

/-! ### Places -/

/-- The scopes are the same, but for the names in them. -/
structure Scope.SamePlace (x y : Scope) : Prop where
  kind : y.kind = x.kind
  parent : y.parent = x.parent
  owner : y.owner = x.owner

theorem Scope.SamePlace.of_eq {x y : Scope} (h : y = x) : x.SamePlace y := by
  rw [h]
  exact ⟨rfl, rfl, rfl⟩

/-- What was in the tables is where it was: scopes within scopes, functions with what they close over,
modules with their scopes. -/
structure Analysis.Rests (s t : Analysis) : Prop extends Analysis.Extends s t where
  place : ∀ id : ScopeId, id.index < s.scopes.scopes.size → (s.scopes.scope id).SamePlace (t.scopes.scope id)
  closure : ∀ f : FunId, f.index < s.types.funs.size → (t.types.function f).closure = (s.types.function f).closure
  owner : ∀ f : FunId, f.index < s.types.funs.size → (t.types.function f).owner = (s.types.function f).owner
  module : ∀ m : ModuleId, m.index < s.types.modules.size → t.types.module m = s.types.module m

namespace Analysis.Rests

variable {f : FunId} {key : CallKey} {signature : List Ty}

theorem trans (h : s.Rests t) (h' : t.Rests u) : s.Rests u where
  toExtends := h.toExtends.trans h'.toExtends
  place id hid := by
    have hfirst := h.place id hid
    have hrest := h'.place id (Nat.lt_of_lt_of_le hid h.sizes.scopes)
    exact ⟨hrest.kind.trans hfirst.kind, hrest.parent.trans hfirst.parent, hrest.owner.trans hfirst.owner⟩
  closure f hf := (h'.closure f (Nat.lt_of_lt_of_le hf h.sizes.funs)).trans (h.closure f hf)
  owner f hf := (h'.owner f (Nat.lt_of_lt_of_le hf h.sizes.funs)).trans (h.owner f hf)
  module m hm := (h'.module m (Nat.lt_of_lt_of_le hm h.sizes.modules)).trans (h.module m hm)

/-- The table of scopes grows, and the types stay. -/
theorem of_scopes (hsizes : s.sizes ≤ t.sizes) (hscopes : s.scopes.GrowsInto t.scopes) (htypes : t.types = s.types)
    (hplace : ∀ id : ScopeId, id.index < s.scopes.scopes.size → (s.scopes.scope id).SamePlace (t.scopes.scope id)) :
    s.Rests t :=
  ⟨⟨hsizes, hscopes, fun _ _ => by rw [htypes], fun _ _ => by rw [htypes]⟩, hplace, fun _ _ => by rw [htypes],
    fun _ _ => by rw [htypes], fun _ _ => by rw [htypes]⟩

theorem of_same (hscopes : t.scopes = s.scopes) (htypes : t.types = s.types) : s.Rests t := by
  refine of_scopes ?_ (hscopes ▸ .refl _) htypes fun id _ => .of_eq (by rw [hscopes])
  rw [Analysis.sizes, Analysis.sizes, hscopes, htypes]
  exact Sizes.le_refl _

theorem addReference (s : Analysis) (node : Span) (b : BindingId) : s.Rests (s.addReference node b) :=
  of_scopes (Sizes.le_of_eq (Sizes.ofTables_modifyBinding s.scopes s.types b (·.addRef node)).symm)
    (.modifyBinding s.scopes b fun old => .addRef old node) rfl fun _ _ => .of_eq rfl

theorem addReferences (s : Analysis) (node : Span) (ids : List BindingId) : s.Rests (s.addReferences node ids) :=
  addReferences_relates (fun _ => of_same rfl rfl) trans (fun s b => addReference s node b) s ids

theorem insert (s : Analysis) (scope : ScopeId) (name : String) (node : Span) (ty : Ty) (kind : BindingKind) :
    s.Rests { s with scopes := (s.scopes.insert scope name node ty kind).1 } := by
  refine of_scopes (Sizes.le_insert ..) (.insert ..) rfl fun id _ => ?_
  obtain ⟨table, heq⟩ := s.scopes.exists_table_insert scope name node ty kind id
  exact heq ▸ ⟨rfl, rfl, rfl⟩

theorem bind (s : Analysis) (scope : ScopeId) (name : String) (node : Span) (ty : Ty) (kind : BindingKind) :
    s.Rests (s.bind scope name node ty kind).1 := by
  have hinsert := insert s scope name node ty kind
  rcases (s.bind_cases scope name node ty kind).2 with heq | heq <;> rw [heq]
  · exact hinsert
  · exact hinsert.trans (addReferences ..)

theorem newScope (s : Analysis) (kind : ScopeKind) (parent : ScopeId) (path : String) :
    s.Rests (s.newScope kind parent path).1 :=
  of_scopes (Sizes.le_newScope ..) (.newScope s.scopes kind parent path) rfl fun id hid =>
    .of_eq ((s.scopes.scope_newScope _ _ _ id).trans (if_neg (Nat.ne_of_lt hid)))

theorem declare {id : ScopeId} {f : Scope → Scope} (hf : ∀ x, ∃ globals nonlocals, f x = { x with globals, nonlocals }) :
    s.Rests { s with scopes := s.scopes.modifyScope id f } := by
  have htable : ∀ x, (f x).table = x.table := by
    intro x
    obtain ⟨globals, nonlocals, heq⟩ := hf x
    rw [heq]
  refine of_scopes (Sizes.le_of_eq (Sizes.ofTables_modifyScope ..).symm) (.modifyScope s.scopes id htable) rfl fun i _ => ?_
  rw [s.scopes.scope_modifyScope]
  split
  · obtain ⟨globals, nonlocals, heq⟩ := hf (s.scopes.scope i)
    rw [heq]
    exact ⟨rfl, rfl, rfl⟩
  · exact .of_eq rfl

/-- Only what was found out about a function changes. -/
theorem modifyFun {g : FunType → FunType} (hscopes : t.scopes = s.scopes) (htypes : t.types = s.types.modifyFun f g)
    (hg : ∀ fn, (g fn).body = fn.body ∧ (g fn).closure = fn.closure ∧ (g fn).owner = fn.owner) : s.Rests t := by
  have hfun (id : FunId) : (t.types.function id).body = (s.types.function id).body ∧
      (t.types.function id).closure = (s.types.function id).closure ∧ (t.types.function id).owner = (s.types.function id).owner := by
    rw [htypes, s.types.function_modifyFun]
    split
    · exact hg _
    · exact ⟨rfl, rfl, rfl⟩
  refine ⟨⟨?_, hscopes ▸ .refl _, fun c _ => by rw [htypes]; rfl, fun id _ => (hfun id).1⟩, fun id _ => .of_eq (by rw [hscopes]),
    fun id _ => (hfun id).2.1, fun id _ => (hfun id).2.2, fun m _ => by rw [htypes]; rfl⟩
  rw [Analysis.sizes, Analysis.sizes, hscopes, htypes]
  exact Sizes.le_of_eq (Sizes.ofTables_modifyFun ..).symm

theorem enterCall {dir} : s.Rests (s.enterCall f key dir) :=
  modifyFun rfl rfl fun _ => ⟨rfl, rfl, rfl⟩

theorem leaveCall {dir} : s.Rests (s.leaveCall f key signature dir) :=
  modifyFun rfl rfl fun _ => ⟨rfl, rfl, rfl⟩

theorem addModule (s : Analysis) (m : ModuleType) : s.Rests (s.addModule m).1 where
  sizes := Sizes.le_addModule ..
  scopes := .refl _
  cls _ _ := rfl
  body _ _ := rfl
  place _ _ := .of_eq rfl
  closure _ _ := rfl
  owner _ _ := rfl
  module i hi := (s.types.module_addModule m i).trans (if_neg (Nat.ne_of_lt hi))

theorem addFun (s : Analysis) (f : FunType) : s.Rests (s.addFun f).1 := by
  have hfun (i : FunId) (hi : i.index < s.types.funs.size) : (s.addFun f).1.types.function i = s.types.function i :=
    (s.types.function_addFun f i).trans (if_neg (Nat.ne_of_lt hi))
  exact ⟨⟨Sizes.le_addFun .., .refl _, fun _ _ => rfl, fun i hi => congrArg FunType.body (hfun i hi)⟩, fun _ _ => .of_eq rfl,
    fun i hi => congrArg FunType.closure (hfun i hi), fun i hi => congrArg FunType.owner (hfun i hi), fun _ _ => rfl⟩

theorem defineClass (s : Analysis) (d : ClassDef) (bases : List Ty) (scope : ScopeId) :
    s.Rests (s.defineClass d bases scope).1 where
  sizes := s.sizes_defineClass d bases scope
  scopes := .trans (.newScope s.scopes .cls scope _) (.modifyScope _ _ fun _ => rfl)
  cls i hi := (s.types.cls_addClass _ i).trans (if_neg (Nat.ne_of_lt hi))
  body _ _ := rfl
  place id hid := by
    have hother : (⟨s.scopes.scopes.size⟩ : ScopeId) ≠ id := fun h => Nat.lt_irrefl _ (h ▸ hid)
    exact .of_eq (((ScopeTable.scope_modifyScope ..).trans (if_neg fun h => hother h.1)).trans
      ((s.scopes.scope_newScope ..).trans (if_neg (Nat.ne_of_lt hid))))
  closure _ _ := rfl
  owner _ _ := rfl
  module _ _ := rfl

theorem begun (s : Analysis) (file : Path) : s.Rests (s.begun file) := by
  have hopened : s.Rests (s.opened file) := of_same rfl rfl
  exact (hopened.trans (newScope ..)).trans (addModule ..)

theorem step (h : Step code s t) : s.Rests t := by
  cases h with
  | refer node hids => exact addReferences s node _
  | bind name node kind hscope hty => exact bind s _ name node _ kind
  | newScope kind path hparent => exact newScope s kind _ path
  | declareGlobal scope name => exact declare fun x => ⟨_, x.nonlocals, rfl⟩
  | declareNonlocal scope name => exact declare fun x => ⟨x.globals, _, rfl⟩
  | defineFunction hd hdefaults hscope => exact addFun s _
  | defineClass hd hbases hscope => exact defineClass s _ _ _
  | addReceiver f hc => exact modifyFun rfl rfl fun _ => ⟨rfl, rfl, rfl⟩
  | report d hlocal hd =>
    unfold Analysis.report
    split <;> exact of_same rfl rfl
  | addReturn hty =>
    unfold Analysis.addReturn
    split <;> exact of_same rfl rfl
  | _ => exact of_same rfl rfl

end Analysis.Rests

instance : Std.Refl Analysis.Rests := ⟨fun _ => .of_same rfl rfl⟩

instance : IsTrans Analysis Analysis.Rests := ⟨fun _ _ _ => .trans⟩

/-! ### What functions returned -/

theorem FunType.arrows_setArrow {f : FunType} {signature : List Ty} (h : f.arrow? signature = none) (ret : Ty) :
    (f.setArrow signature ret).arrows = f.arrows ++ [(signature, ret)] := by
  have hkeep : f.arrows.filter (·.1 != signature) = f.arrows := by
    refine filter_eq_self.2 fun arrow harrow => ?_
    have hne := lookup_eq_none_iff.1 h arrow harrow
    rw [bne_iff_ne]
    rintro rfl
    simp at hne
  rw [FunType.setArrow, hkeep]

theorem Step.arrows (h : Step code s t) (f : FunId) : (t.types.function f).arrows = (s.types.function f).arrows := by
  rcases h.functions with ⟨hfuns, -⟩ | ⟨d, defaults, scope, rfl⟩ | ⟨g, receiver, rfl⟩
  · rw [TypeStore.function, TypeStore.function, hfuns]
  · refine (congrArg FunType.arrows (s.types.function_addFun _ f)).trans ?_
    split
    · rename_i hnew
      rw [s.types.function_eq_default (Nat.le_of_eq hnew.symm)]
      rfl
    · rfl
  · refine (congrArg FunType.arrows (s.types.function_modifyFun g f _)).trans ?_
    split <;> rfl

theorem Analysis.arrows_enterCall (s : Analysis) (g f : FunId) (key : CallKey) (dir : Path) :
    ((s.enterCall g key dir).types.function f).arrows = (s.types.function f).arrows := by
  refine (congrArg FunType.arrows (s.types.function_modifyFun g f _)).trans ?_
  split <;> rfl

theorem Analysis.arrows_leaveCall_of_ne (s : Analysis) {g f} (hne : g ≠ f) (key : CallKey)
    (signature : List Ty) (dir : Option Path) :
    ((s.leaveCall g key signature dir).types.function f).arrows = (s.types.function f).arrows := by
  refine (congrArg FunType.arrows (s.types.function_modifyFun g f _)).trans ?_
  rw [if_neg fun h => hne h.1]

theorem Analysis.arrows_leaveCall (s : Analysis) {f : FunId} (hf : f.index < s.types.funs.size) (key : CallKey)
    {signature : List Ty} (dir : Option Path) (hunknown : (s.types.function f).arrow? signature = none) :
    ((s.leaveCall f key signature dir).types.function f).arrows =
      (s.types.function f).arrows ++ [(signature, s.returned)] := by
  refine (congrArg FunType.arrows (s.types.function_modifyFun f f _)).trans ?_
  rw [if_pos ⟨rfl, hf⟩]
  exact FunType.arrows_setArrow hunknown _

/-! ### Points of a run -/

/-- The tables and the applications in progress are the same. -/
structure SameTables (s t : Analysis) : Prop where
  scopes : t.scopes = s.scopes
  types : t.types = s.types
  running : t.running = s.running
  callCount : t.callCount = s.callCount

/-- A state that a run passes, with the application that is entered there, if any. -/
structure Point where
  state : Analysis
  entered : Option (FunId × List Ty) := none

/-- The points that lead from the first state to the second one. Changes between runs leave the tables
alone. -/
inductive Trace (code : Code) : Analysis → List Point → Analysis → Prop where
  | refl (s : Analysis) : Trace code s [] s
  | trans {s t u : Analysis} {l l' : List Point} (first : Trace code s l t) (rest : Trace code t l' u) :
      Trace code s (l ++ l') u
  | step {s t : Analysis} (step : Step code s t) : Trace code s [⟨t, none⟩] t
  | aside {s t : Analysis} (same : SameTables s t) : Trace code s [⟨t, none⟩] t
  | call {s t : Analysis} {f : FunId} {d : FunctionDef} {signature : List Ty} {l : List Point}
      (body : (s.types.function f).body = .source d) (there : f.index < s.types.funs.size)
      (hsignature : ∀ ty ∈ signature, ty.Within s.sizes) (unknown : (s.types.function f).arrow? signature = none)
      (idle : s.running.contains (s.callKey d signature) = false)
      (run : Trace code (s.enterCall f (s.callKey d signature) d.span.file.parentOrEmpty) l t) :
      Trace code s
        (⟨s.enterCall f (s.callKey d signature) d.span.file.parentOrEmpty, some (f, signature)⟩ ::
          (l ++ [⟨t.leaveCall f (s.callKey d signature) signature s.dir, none⟩]))
        (t.leaveCall f (s.callKey d signature) signature s.dir)
  | load {s t u : Analysis} {file : Path} {l l' : List Point} (run : Trace code (s.begun file) l t)
      (join : Trace code (s.ended file t) l' u) :
      Trace code s (⟨s.begun file, none⟩ :: (l ++ ⟨s.ended file t, none⟩ :: l')) u

theorem Run.exists_trace (h : Run code s t) : ∃ l, Trace code s l t := by
  induction h with
  | refl s => exact ⟨[], .refl s⟩
  | trans _ _ ih ih' =>
    obtain ⟨l, hl⟩ := ih
    obtain ⟨l', hl'⟩ := ih'
    exact ⟨l ++ l', hl.trans hl'⟩
  | step h => exact ⟨_, .step h⟩
  | call body there hsignature hlength unknown idle run ih =>
    obtain ⟨l, hl⟩ := ih
    exact ⟨_, .call body there hsignature unknown idle hl⟩
  | unread event faults new fails aside => exact ⟨_, .aside ⟨rfl, rfl, rfl, rfl⟩⟩
  | load new opens run search joins ih ih' =>
    obtain ⟨l, hl⟩ := ih
    obtain ⟨l', hl'⟩ := ih'
    rcases joins.step code with rfl | hstep
    · exact ⟨_, .load hl hl'⟩
    · exact ⟨_, .load hl (hl'.trans (.step hstep))⟩

theorem Session.exists_trace (h : Session code s t) : ∃ l, Trace code s l t := by
  refine h.relates (R := fun s t => ∃ l, Trace code s l t) ?_ Run.exists_trace
    fun _ _ _ _ _ _ => ⟨_, .aside ⟨rfl, rfl, rfl, rfl⟩⟩
  rintro s t u ⟨l, hl⟩ ⟨l', hl'⟩
  exact ⟨l ++ l', hl.trans hl'⟩

/-- Each of the states is related to those after it, and to the last one. -/
structure Passes (R : Analysis → Analysis → Prop) (s : Analysis) (l : List Analysis) (t : Analysis) : Prop where
  pairwise : (s :: l).Pairwise R
  last : ∀ u ∈ s :: l, R u t

namespace Passes

variable {R : Analysis → Analysis → Prop} {l l' : List Analysis}

theorem refl [Std.Refl R] (s : Analysis) : Passes R s [] s := ⟨pairwise_singleton _ s, by simpa using Std.Refl.refl s⟩

theorem single [Std.Refl R] (h : R s t) : Passes R s [t] t := ⟨pairwise_pair.2 h, by simpa using ⟨h, Std.Refl.refl t⟩⟩

theorem append [IsTrans Analysis R] (h : Passes R s l t) (h' : Passes R t l' u) : Passes R s (l ++ l') u := by
  obtain ⟨hfrom, hrest⟩ := pairwise_cons.1 h'.pairwise
  have hlast : R t u := h'.last t mem_cons_self
  refine ⟨?_, fun v hv => ?_⟩
  · rw [← cons_append, pairwise_append]
    exact ⟨h.pairwise, hrest, fun v hv w hw => Trans.trans (h.last v hv) (hfrom w hw)⟩
  · rw [← cons_append, mem_append] at hv
    rcases hv with hv | hv
    · exact Trans.trans (h.last v hv) hlast
    · exact h'.last v (mem_cons_of_mem t hv)

end Passes

namespace Trace

variable {l : List Point}

theorem passes_of {R} [Std.Refl R] [IsTrans Analysis R] (step : ∀ {s t}, Step code s t → R s t)
    (aside : ∀ {s t}, SameTables s t → R s t)
    (enter : ∀ (s : Analysis) f key dir, R s (s.enterCall f key dir))
    (leave : ∀ {s t : Analysis} {f : FunId} {d : FunctionDef} {signature : List Ty} {l : List Point}, (s.types.function f).body = .source d → f.index < s.types.funs.size → (∀ ty ∈ signature, ty.Within s.sizes) → (s.types.function f).arrow? signature = none → Trace code (s.enterCall f (s.callKey d signature) d.span.file.parentOrEmpty) l t → R t (t.leaveCall f (s.callKey d signature) signature s.dir))
    (begun : ∀ (s : Analysis) file, R s (s.begun file)) (h : Trace code s l t) :
    Passes R s (l.map Point.state) t := by
  induction h with
  | refl s => exact .refl s
  | trans _ _ ih ih' =>
    rw [map_append]
    exact ih.append ih'
  | step h => exact .single (step h)
  | aside same => exact .single (aside same)
  | call body there hsignature unknown idle run ih =>
    have hall := (Passes.single (enter ..)).append (ih.append (.single (leave body there hsignature unknown run)))
    simpa using hall
  | @load s t u file l l' run join ih ih' =>
    have hended : R t (s.ended file t) := aside ⟨rfl, rfl, rfl, rfl⟩
    have hall := (Passes.single (begun s file)).append (ih.append ((Passes.single hended).append ih'))
    simpa using hall

theorem passes_rests (h : Trace code s l t) : Passes Analysis.Rests s (l.map Point.state) t :=
  h.passes_of .step (fun same => .of_same same.scopes same.types) (fun _ _ _ _ => .enterCall) (fun _ _ _ _ _ => .leaveCall) .begun

theorem running (h : Trace code s l t) : t.running = s.running := by
  induction h with
  | refl s => rfl
  | trans _ _ ih ih' => exact ih'.trans ih
  | step h => exact h.stacks.running
  | aside same => exact same.running
  | @call s t f d signature l body there hsignature unknown idle run ih =>
    change t.running.erase (s.callKey d signature) = s.running
    rw [ih]
    exact erase_cons_head ..
  | load run join ih ih' => exact ih'.trans ih

theorem rests (h : Trace code s l t) : s.Rests t := h.passes_rests.last s mem_cons_self

theorem lt_of_enterCall {f key dir} (h : Trace code (s.enterCall f key dir) l t)
    (hf : f.index < s.types.funs.size) : f.index < t.types.funs.size :=
  Nat.lt_of_lt_of_le hf ((Analysis.Rests.enterCall (s := s)).trans h.rests).sizes.funs

end Trace

theorem Run.rests (h : Run code s t) : s.Rests t := by
  obtain ⟨l, hl⟩ := h.exists_trace
  exact hl.rests

/-- The function is being applied to the types. -/
structure Analysis.IsApplying (s : Analysis) (f : FunId) (d : FunctionDef) (signature : List Ty) : Prop where
  body : (s.types.function f).body = .source d
  there : f.index < s.types.funs.size
  within : ∀ ty ∈ signature, ty.Within s.sizes
  running : s.callKey d signature ∈ s.running

namespace Analysis.IsApplying

variable {f : FunId} {d : FunctionDef} {signature : List Ty}

theorem later (h : s.IsApplying f d signature) (hextends : s.Extends t) (hrunning : ∀ key ∈ s.running, key ∈ t.running) :
    t.IsApplying f d signature where
  body := (hextends.body f h.there).trans h.body
  there := Nat.lt_of_lt_of_le h.there hextends.sizes.funs
  within ty hty := (h.within ty hty).mono hextends.sizes
  running := by
    rw [hextends.callKey d h.within]
    exact hrunning _ h.running

theorem enterCall (hbody : (s.types.function f).body = .source d) (hf : f.index < s.types.funs.size)
    (hsignature : ∀ ty ∈ signature, ty.Within s.sizes) (dir : Path) :
    (s.enterCall f (s.callKey d signature) dir).IsApplying f d signature := by
  have hextends : s.Extends (s.enterCall f (s.callKey d signature) dir) := Rests.enterCall.toExtends
  refine ⟨(hextends.body f hf).trans hbody, Nat.lt_of_lt_of_le hf hextends.sizes.funs,
    fun ty hty => (hsignature ty hty).mono hextends.sizes, ?_⟩
  rw [hextends.callKey d hsignature]
  exact mem_cons_self

end Analysis.IsApplying

namespace Trace

variable {l : List Point} {f : FunId} {d : FunctionDef} {signature : List Ty}

/-- While a function is being applied to some types, nothing is put on record of what it returns for them.
-/
theorem arrow?_eq (h : Trace code s l t) : ∀ {f d signature}, s.IsApplying f d signature →
    (t.types.function f).arrow? signature = (s.types.function f).arrow? signature := by
  induction h with
  | refl s => exact fun _ => rfl
  | trans first rest ih ih' =>
    intro f d signature happlying
    have hlater := happlying.later first.rests.toExtends fun key hkey => by rwa [first.running]
    exact (ih' hlater).trans (ih happlying)
  | step h =>
    intro f d signature _
    rw [FunType.arrow?, h.arrows]
    rfl
  | aside same =>
    intro f d signature _
    rw [same.types]
  | @call s t g d' signature' l body there hsignature unknown idle run ih =>
    intro f d signature happlying
    have hg := run.lt_of_enterCall there
    have hbefore : ∀ f signature, ((s.enterCall g (s.callKey d' signature') d'.span.file.parentOrEmpty).types.function f).arrow?
        signature = (s.types.function f).arrow? signature := fun f signature => by
      rw [FunType.arrow?, s.arrows_enterCall]
      rfl
    have hunknown : (t.types.function g).arrow? signature' = none :=
      ((ih (.enterCall body there hsignature _)).trans (hbefore g signature')).trans unknown
    have hkept : (t.types.function f).arrow? signature = (s.types.function f).arrow? signature :=
      (ih (happlying.later Analysis.Rests.enterCall.toExtends fun key hkey => mem_cons_of_mem _ hkey)).trans (hbefore f signature)
    by_cases hfun : g = f
    · subst hfun
      have hne : signature' ≠ signature := by
        rintro rfl
        obtain rfl : d' = d := FunBody.source.inj (body.symm.trans happlying.body)
        simp [happlying.running] at idle
      have hlast : [(signature', t.returned)].lookup signature = none := by
        simpa [lookup_eq_none_iff] using hne.symm
      rw [← hkept, FunType.arrow?, t.arrows_leaveCall hg _ _ hunknown, lookup_append, hlast, Option.or_none]
      rfl
    · rw [← hkept, FunType.arrow?, t.arrows_leaveCall_of_ne hfun]
      rfl
  | @load s t u file l l' run join ih ih' =>
    intro f d signature happlying
    have hbegun := happlying.later (Analysis.Rests.begun s file).toExtends fun _ hkey => hkey
    have hrests : t.Rests (s.ended file t) := .of_same rfl rfl
    have hended := hbegun.later (run.rests.trans hrests).toExtends fun key hkey => by
      change key ∈ t.running
      rwa [run.running]
    exact (ih' hended).trans (ih hbegun)

theorem arrow?_eq_none {dir} (hbody : (s.types.function f).body = .source d)
    (hf : f.index < s.types.funs.size) (hsignature : ∀ ty ∈ signature, ty.Within s.sizes)
    (hunknown : (s.types.function f).arrow? signature = none)
    (h : Trace code (s.enterCall f (s.callKey d signature) dir) l t) :
    (t.types.function f).arrow? signature = none := by
  rw [h.arrow?_eq (.enterCall hbody hf hsignature dir), FunType.arrow?, s.arrows_enterCall]
  exact hunknown

end Trace

/-! ### Growth -/

namespace Analysis.GrowsInto

theorem trans (h : s.GrowsInto t) (h' : t.GrowsInto u) : s.GrowsInto u :=
  ⟨h.toExtends.trans h'.toExtends, fun f signature ret hret => h'.arrow f signature ret (h.arrow f signature ret hret)⟩

theorem of_arrows (h : s.Extends t) (harrows : ∀ f, (t.types.function f).arrows = (s.types.function f).arrows) :
    s.GrowsInto t := by
  refine ⟨h, fun f signature ret hret => ?_⟩
  rwa [FunType.arrow?, harrows]

theorem of_same (hscopes : t.scopes = s.scopes) (htypes : t.types = s.types) : s.GrowsInto t :=
  of_arrows (Rests.of_same hscopes htypes).toExtends fun f => by rw [htypes]

theorem enterCall {f key dir} : s.GrowsInto (s.enterCall f key dir) :=
  of_arrows Rests.enterCall.toExtends fun g => s.arrows_enterCall f g key dir

theorem leaveCall {f signature} (hf : f.index < s.types.funs.size) (key : CallKey)
    (dir : Option Path) (hunknown : (s.types.function f).arrow? signature = none) :
    s.GrowsInto (s.leaveCall f key signature dir) := by
  refine ⟨Rests.leaveCall.toExtends, fun g signature' ret hret => ?_⟩
  rw [FunType.arrow?] at hret ⊢
  by_cases hfun : f = g
  · subst hfun
    rw [s.arrows_leaveCall hf key dir hunknown, lookup_append, hret]
    rfl
  · rwa [s.arrows_leaveCall_of_ne hfun]

theorem begun (s : Analysis) (file : Path) : s.GrowsInto (s.begun file) := of_arrows (Rests.begun s file).toExtends fun _ => rfl

end Analysis.GrowsInto

instance : Std.Refl Analysis.GrowsInto := ⟨fun _ => .of_same rfl rfl⟩

instance : IsTrans Analysis Analysis.GrowsInto := ⟨fun _ _ _ => .trans⟩

namespace Trace

variable {l : List Point}

theorem passes (h : Trace code s l t) : Passes Analysis.GrowsInto s (l.map Point.state) t := by
  refine h.passes_of (fun h => .of_arrows (Analysis.Rests.step h).toExtends h.arrows) (fun same => .of_same same.scopes same.types)
    (fun _ _ _ _ => .enterCall) (fun body there hsignature unknown run => ?_) .begun
  exact .leaveCall (run.lt_of_enterCall there) _ _ (run.arrow?_eq_none body there hsignature unknown)

/-- The points of a run grow into those after them. -/
theorem pairwise_growsInto (h : Trace code s l t) : (s :: l.map Point.state).Pairwise Analysis.GrowsInto := h.passes.pairwise

theorem growsInto (h : Trace code s l t) : s.GrowsInto t := h.passes.last s mem_cons_self

end Trace

theorem Enters.growsInto (h : Enters code s t) : s.GrowsInto t := by
  cases h with
  | call body there hsignature hlength unknown idle => exact .enterCall
  | load new opens => exact .begun s _
  | @loaded t file tree new opens run =>
    obtain ⟨l, hl⟩ := run.exists_trace
    exact ((Analysis.GrowsInto.begun s file).trans hl.growsInto).trans (.of_same rfl rfl)

theorem Reachable.growsInto {start : Analysis} (h : Reachable code start s) : start.GrowsInto s := by
  induction h with
  | start => exact .of_same rfl rfl
  | session before session ih =>
    obtain ⟨l, hl⟩ := session.exists_trace
    exact ih.trans hl.growsInto
  | enter before enters ih => exact ih.trans enters.growsInto
  | forget before holds ih => exact ih.trans (.of_same rfl rfl)

/-! ### The program -/

open Setting (partly follows_partly)

theorem Demand.exists_trace {demand : Demand} {depth : Nat} (hs : s.Closed .all)
    (hrun : (demand.run ⟨Infer.apply depth, Infer.load depth⟩ depth).run s = some ((), t)) : ∃ l, Trace .all s l t := by
  cases demand with
  | grant request =>
    cases request with
    | project root => exact (session_of_command (.analyze root depth) hs hrun).exists_trace
    | file path =>
      obtain ⟨r, hload⟩ := Infer.run_discard_eq_some.1 hrun
      exact (((follows_partly .all s depth).loads (.inr fun _ => trivial) hs (.refl s)).of_run hload).1.exists_trace
  | finish => exact (session_of_command (.finish depth) hs hrun).exists_trace
  | close =>
    cases hrun
    exact ⟨_, .aside ⟨rfl, rfl, rfl, rfl⟩⟩
  | clearCache =>
    cases hrun
    exact ⟨_, .aside ⟨rfl, rfl, rfl, rfl⟩⟩

theorem Demand.exists_trace_all {demands : List Demand} {depth : Nat} (hs : s.Closed .all)
    (hrun : (demands.forM (Demand.run ⟨Infer.apply depth, Infer.load depth⟩ depth)).run s = some ((), t)) :
    ∃ l, Trace .all s l t := by
  induction demands generalizing s with
  | nil =>
    cases hrun
    exact ⟨[], .refl _⟩
  | cons demand demands ih =>
    rw [List.forM, StateT.run_bind] at hrun
    obtain ⟨⟨⟨⟩, u⟩, hfirst, hrest⟩ := Option.bind_eq_some_iff.1 hrun
    obtain ⟨-, hu⟩ := watched (P := fun _ => True) hs (fun _ _ => trivial) .start hfirst
    obtain ⟨l, hl⟩ := exists_trace hs hfirst
    obtain ⟨l', hl'⟩ := ih (hu.closed hs) hrest
    exact ⟨l ++ l', hl.trans hl'⟩

/-- If the action has a result from this state, points lead there. -/
def Analysis.Passing (s : Analysis) {α : Type} (m : Infer α) : Prop :=
  ∀ a t, m.run s = some (a, t) → ∃ points, Trace .all s points t

theorem Analysis.Passing.of_ends {F : Setting} {α : Type} {m : Infer α} {P : α → Analysis → Prop}
    (h : F.Ends m s fun a t => Run .all s t ∧ P a t) : s.Passing m :=
  fun _ _ hrun => (h.of_run hrun).1.exists_trace

/-- From every state that an analysis can be in, each point that a run passes grows into those after it.
To evaluate an expression, to execute a statement, to apply a function, to load a file and to meet
demands is to pass such points. What is demanded has the same result when it is watched for having
grown from the first state. -/
theorem analysis_only_adds {work : Workspace} {config : Config} {s u t : Analysis} {demands : List Demand} {depth : Nat}
    (hstart : Analysis.start work config = .ok s) (hu : Reachable .all s u)
    (hrun : (demands.forM (Demand.run ⟨Infer.apply depth, Infer.load depth⟩ depth)).run u = some ((), t)) :
    (∀ points v, Trace .all u points v → (u :: points.map Point.state).Pairwise Analysis.GrowsInto) ∧
    (∀ e scope, scope.index < u.scopes.scopes.size →
      u.Passing (Infer.eval ⟨Infer.apply depth, Infer.load depth⟩ e scope)) ∧
    (∀ st scope, scope.index < u.scopes.scopes.size →
      u.Passing (Infer.exec ⟨Infer.apply depth, Infer.load depth⟩ st scope)) ∧
    (∀ f receiver args, f.index < u.types.funs.size → OptionAll (Ty.Within u.sizes) receiver → args.Within u.sizes →
      u.Passing (Infer.apply depth f receiver args)) ∧
    (∀ path, u.Passing (Infer.load depth path)) ∧
    (∃ points, Trace .all u points t) ∧
    (demands.forM fun demand => Infer.watched u.GrowsInto
      (demand.run (Infer.guardedCalls u.GrowsInto depth) depth)).run u = some ((), t) := by
  have hclosed := hu.closed (Analysis.closed_all hstart)
  have hfollows := follows_partly .all u depth
  obtain ⟨hsame, -⟩ := Demand.watched_all hclosed (fun v hv => hv.growsInto) .start hrun
  refine ⟨fun points v htrace => htrace.pairwise_growsInto, fun e scope hscope => ?_, fun st scope hscope => ?_,
    fun f receiver args hf hreceiver hargs => ?_, fun path => ?_, Demand.exists_trace_all hclosed hrun, hsame⟩
  · exact .of_ends (Setting.gives_eval hfollows.applies e trivial hscope hclosed (.refl u))
  · exact .of_ends (Setting.runs_exec hfollows.applies hfollows.loads st trivial hscope hclosed (.refl u))
  · exact .of_ends (hfollows.applies hf hreceiver hargs hclosed (.refl u))
  · exact .of_ends (hfollows.loads (.inr fun _ => trivial) hclosed (.refl u))

/-- Two functions that call each other, with two types. -/
def Workspace.mutualCalls : Workspace where
  files := ({} : FileTree).addFile ⟨"/p/main.py"⟩
    "def ping(x):\n    return pong(x)\ndef pong(x):\n    return ping(x)\nv = ping(1)\nv = ping('a')\n"

theorem analysis_only_adds_mutualCalls : ∃ depth s u t,
    Analysis.start Workspace.mutualCalls .hermetic = .ok s ∧ Reachable .all s u ∧
    ([Demand.finish].forM (Demand.run ⟨Infer.apply depth, Infer.load depth⟩ depth)).run u = some ((), t) ∧
    (∃ points, Trace .all u points t ∧ (u :: points.map Point.state).Pairwise Analysis.GrowsInto) ∧
    ([Demand.finish].forM fun demand => Infer.watched u.GrowsInto
      (demand.run (Infer.guardedCalls u.GrowsInto depth) depth)).run u = some ((), t) := by
  have hbuilt : Workspace.mutualCalls.files.Built := .addFile (.empty rfl rfl rfl) _ _
  have hstart := Analysis.start_hermetic Workspace.mutualCalls
  obtain ⟨depth, t, hrun⟩ := Demand.exists_run hbuilt hstart ⟨"/p"⟩
  rw [List.forM, StateT.run_bind] at hrun
  obtain ⟨⟨⟨⟩, u⟩, hfirst, hrest⟩ := Option.bind_eq_some_iff.1 hrun
  obtain ⟨-, hu⟩ := Demand.watched (P := fun _ => True) (Analysis.closed_all hstart) (fun _ _ => trivial) .start hfirst
  obtain ⟨hall, -, -, -, -, ⟨points, htrace⟩, hsame⟩ := analysis_only_adds hstart hu hrest
  exact ⟨depth, _, u, t, hstart, hu, hrest, ⟨points, htrace, hall points t htrace⟩, hsame⟩

end TypeInfer
