/-
What the interpreter keeps, and where it binds names. A guard is a property of states, with the
scopes in which code may be run, that every change of the tables keeps (`Guard`). All that the
interpreter does keeps it, and the binders of code are placed in the block where it is run
(`Infer.KeepsAt`): code by what its actions are put together from (`Acts.keeps`), calls by induction
on how deep they nest. Imports are where declarations are not honoured: a module on a dotted path is
bound in the block itself (`Infer.Sought`).
-/
import TypeInfer.Proofs.Binders
import TypeInfer.Proofs.EveryState

namespace TypeInfer

/-- If the action has a result, it is as said. -/
def Infer.Leads {α : Type} (m : Infer α) (s : Analysis) (P : α → Analysis → Prop) : Prop :=
  ∀ a t, m.run s = some (a, t) → P a t

/-- What is kept, with the scopes in which code may be run. Each change of scopes, types and loaded modules
keeps it. -/
structure Guard where
  Holds : Analysis → Prop
  Own : ScopeTable → ScopeId → Prop
  own_mono {t u : ScopeTable} {id : ScopeId} : t.scopes.size ≤ u.scopes.size → Own t id → Own u id
  own_new {s : Analysis} {t : ScopeTable} : Holds s → s.scopes.scopes.size < t.scopes.size → Own t ⟨s.scopes.scopes.size⟩
  same {s t : Analysis} : Holds s → t.scopes = s.scopes → t.types = s.types → t.modules = s.modules → Holds t
  refer {s : Analysis} (node : Span) (b : BindingId) : Holds s → Holds (s.addReference node b)
  insert {s : Analysis} {scope : ScopeId} (name : String) (node : Span) (ty : Ty) (kind : BindingKind) :
    Holds s → Own s.scopes scope → Holds { s with scopes := (s.scopes.insert scope name node ty kind).1 }
  declare {s : Analysis} {scope : ScopeId} {f : Scope → Scope} :
    (∀ x, ∃ globals nonlocals, f x = { x with globals, nonlocals }) → Holds s → Own s.scopes scope →
    Holds { s with scopes := s.scopes.modifyScope scope f }
  comprehension {s : Analysis} {scope : ScopeId} (path : String) :
    Holds s → Own s.scopes scope → Holds (s.newScope .comprehension scope path).1
  body {s : Analysis} {f : FunId} {d : FunctionDef} (path : String) : Holds s → (s.types.function f).body = .source d →
    Holds (s.newScope .function (s.types.function f).closure path).1
  module {s : Analysis} (path : String) : Holds s → Holds (s.newScope .module ScopeTable.globalScope path).1
  defineFunction {s : Analysis} {scope : ScopeId} (d : FunctionDef) (defaults : List (Option Ty)) :
    Holds s → Own s.scopes scope → Holds (s.defineFunction d defaults scope).1
  defineClass {s : Analysis} {scope : ScopeId} (d : ClassDef) (bases : List Ty) :
    Holds s → Own s.scopes scope → Holds (s.defineClass d bases scope).1
  /-- Only what was found out about a function changes. -/
  modifyFun {s t : Analysis} {f : FunId} {g : FunType → FunType} : Holds s → t.scopes = s.scopes →
    t.types = s.types.modifyFun f g → t.modules = s.modules →
    (∀ fn, (g fn).body = fn.body ∧ (g fn).closure = fn.closure ∧ (g fn).owner = fn.owner) → Holds t
  addModule {s : Analysis} {m : ModuleType} : Holds s → Own s.scopes m.scope → Holds (s.addModule m).1
  addLoaded {s : Analysis} {m : ModuleId} (file : Path) (qname : String) :
    Holds s → Own s.scopes (s.types.module m).scope → Holds (s.addLoaded file qname m)
  targetScope {s : Analysis} {scope : ScopeId} (name : String) :
    Holds s → Own s.scopes scope → Own s.scopes (s.scopes.targetScope scope name)
  enclosingBlock {s : Analysis} {scope : ScopeId} : Holds s → Own s.scopes scope → Own s.scopes (s.scopes.enclosingBlock scope)
  attributeScope {s : Analysis} {a : Atom} {scope : ScopeId} : Holds s → s.attributeScope? a = some scope → Own s.scopes scope
  loaded {s : Analysis} {entry : String × ModuleId} :
    Holds s → entry ∈ s.modules → Own s.scopes (s.types.module entry.2).scope

/-- The second state is guarded, with the same stacks, and code may be run where it might before. -/
structure Guard.Passes (G : Guard) (s t : Analysis) : Prop where
  holds : G.Holds t
  sameStacks : SameStacks s t
  size : s.scopes.scopes.size ≤ t.scopes.scopes.size
  cls : ∀ c, G.Own s.scopes (s.types.cls c).scope → G.Own t.scopes (t.types.cls c).scope
  module : ∀ m, G.Own s.scopes (s.types.module m).scope → G.Own t.scopes (t.types.module m).scope

namespace Guard.Passes

variable {G : Guard} {s t u : Analysis}

theorem own (h : G.Passes s t) {scope : ScopeId} (hscope : G.Own s.scopes scope) : G.Own t.scopes scope :=
  G.own_mono h.size hscope

theorem trans (h : G.Passes s t) (h' : G.Passes t u) : G.Passes s u :=
  ⟨h'.holds, h.sameStacks.trans h'.sameStacks, Nat.le_trans h.size h'.size, fun c hc => h'.cls c (h.cls c hc),
    fun m hm => h'.module m (h.module m hm)⟩

/-- No class and no module is added. -/
theorem of_types (ht : G.Holds t) (hstacks : SameStacks s t) (hsize : s.scopes.scopes.size ≤ t.scopes.scopes.size)
    (hclasses : t.types.classes = s.types.classes) (hmodules : t.types.modules = s.types.modules) : G.Passes s t := by
  refine ⟨ht, hstacks, hsize, fun c hc => ?_, fun m hm => ?_⟩
  · rw [TypeStore.cls, hclasses]
    exact G.own_mono hsize hc
  · rw [TypeStore.module, hmodules]
    exact G.own_mono hsize hm

section

variable (h : G.Holds s)
include h

theorem refl : G.Passes s s := of_types h (.refl s) (Nat.le_refl _) rfl rfl

theorem of_same (hscopes : t.scopes = s.scopes) (htypes : t.types = s.types) (hmodules : t.modules = s.modules)
    (hstacks : SameStacks s t) : G.Passes s t :=
  of_types (G.same h hscopes htypes hmodules) hstacks (Nat.le_of_eq (by rw [hscopes])) (by rw [htypes]) (by rw [htypes])

theorem addReferences (node : Span) (ids : List BindingId) : G.Passes s (s.addReferences node ids) := by
  refine Analysis.addReferences_relates (R := fun s t => G.Holds s → G.Passes s t) (fun _ => refl)
    (fun first rest h => (first h).trans (rest (first h).holds)) (fun s b h => ?_) s ids h
  exact of_types (G.refer node b h) ⟨rfl, rfl, rfl, rfl, rfl⟩ (Nat.le_refl _) rfl rfl

theorem bind {scope : ScopeId} (hscope : G.Own s.scopes scope) (name : String) (node : Span) (ty : Ty)
    (kind : BindingKind) : G.Passes s (s.bind scope name node ty kind).1 := by
  have hinsert : G.Passes s { s with scopes := (s.scopes.insert scope name node ty kind).1 } :=
    of_types (G.insert name node ty kind h hscope) ⟨rfl, rfl, rfl, rfl, rfl⟩
      (Nat.le_of_eq (s.scopes.size_scopes_insert ..).symm) rfl rfl
  rcases (s.bind_cases scope name node ty kind).2 with heq | heq <;> rw [heq]
  · exact hinsert
  · exact hinsert.trans (addReferences hinsert.holds _ _)

theorem declare {scope} (hscope : G.Own s.scopes scope) {f}
    (hf : ∀ x, ∃ globals nonlocals, f x = { x with globals, nonlocals }) :
    G.Passes s { s with scopes := s.scopes.modifyScope scope f } :=
  of_types (G.declare hf h hscope) ⟨rfl, rfl, rfl, rfl, rfl⟩ (Nat.le_of_eq (by simp)) rfl rfl

theorem newScope {kind : ScopeKind} {parent : ScopeId} {path : String} (ht : G.Holds (s.newScope kind parent path).1) :
    G.Passes s (s.newScope kind parent path).1 ∧
      G.Own (s.newScope kind parent path).1.scopes (s.newScope kind parent path).2 := by
  have hsize : s.scopes.scopes.size < (s.newScope kind parent path).1.scopes.scopes.size := by
    simp [Analysis.newScope, ScopeTable.newScope]
  exact ⟨of_types ht ⟨rfl, rfl, rfl, rfl, rfl⟩ (Nat.le_of_lt hsize) rfl rfl, G.own_new h hsize⟩

theorem modifyFun {f g} (hscopes : t.scopes = s.scopes) (htypes : t.types = s.types.modifyFun f g)
    (hmodules : t.modules = s.modules)
    (hg : ∀ fn, (g fn).body = fn.body ∧ (g fn).closure = fn.closure ∧ (g fn).owner = fn.owner)
    (hstacks : SameStacks s t) : G.Passes s t :=
  of_types (G.modifyFun h hscopes htypes hmodules hg) hstacks (Nat.le_of_eq (by rw [hscopes])) (by rw [htypes]; rfl)
    (by rw [htypes]; rfl)

/-- Code may be run in the body of a new class. -/
theorem defineClass (d : ClassDef) (bases : List Ty) {scope} (hscope : G.Own s.scopes scope) :
    G.Passes s (s.defineClass d bases scope).1 ∧ G.Own (s.defineClass d bases scope).1.scopes
      ((s.defineClass d bases scope).1.types.cls (s.defineClass d bases scope).2).scope := by
  have hsize : s.scopes.scopes.size < (s.defineClass d bases scope).1.scopes.scopes.size := by
    rw [s.size_scopes_defineClass]
    exact Nat.lt_succ_self _
  have hown := G.own_new h hsize
  refine ⟨⟨G.defineClass d bases h hscope, ⟨rfl, rfl, rfl, rfl, rfl⟩, Nat.le_of_lt hsize, fun i hi => ?_, fun m hm => ?_⟩, ?_⟩
  · rw [s.cls_defineClass]
    split
    · exact hown
    · exact G.own_mono (Nat.le_of_lt hsize) hi
  · exact G.own_mono (Nat.le_of_lt hsize) hm
  · rw [s.cls_defineClass]
    exact (if_pos rfl).symm ▸ hown

/-- Code may be run in the scope of a new module. -/
theorem addModule {m : ModuleType} (hscope : G.Own s.scopes m.scope) :
    G.Passes s (s.addModule m).1 ∧ G.Own (s.addModule m).1.scopes ((s.addModule m).1.types.module (s.addModule m).2).scope := by
  have hmade : ∀ i, (s.addModule m).1.types.module i = if i.index = s.types.modules.size then m else s.types.module i :=
    s.types.module_addModule m
  refine ⟨⟨G.addModule h hscope, ⟨rfl, rfl, rfl, rfl, rfl⟩, Nat.le_refl _, fun _ => id, fun i hi => ?_⟩, ?_⟩
  · rw [hmade]
    split
    · exact hscope
    · exact hi
  · rw [hmade]
    exact if_pos rfl ▸ hscope

end

end Guard.Passes

/-- No name of a block is bound on the way, whatever the block. -/
structure Guard.Leaves (G : Guard) (s t : Analysis) : Prop extends G.Passes s t where
  apart : ∀ b, Placed b [] s t

/-- The binders are placed on the way, if the spot is there. -/
structure Guard.Does (G : Guard) (p : Spot) (l : List Binder) (s t : Analysis) : Prop extends G.Passes s t where
  placed : p.In s.scopes → Placed p.block l s t

section

variable {G : Guard} {p : Spot} {l l' : List Binder} {s t u : Analysis}

namespace Guard.Leaves

theorem of_untouched (h : G.Passes s t) (hsame : s.scopes.Untouched t.scopes) : G.Leaves s t :=
  ⟨h, fun _ => .untouched hsame⟩

theorem trans (h : G.Leaves s t) (h' : G.Leaves t u) : G.Leaves s u :=
  ⟨h.toPasses.trans h'.toPasses, fun b => (h.apart b).trans (h'.apart b)⟩

theorem does (h : G.Leaves s t) : G.Does p [] s t := ⟨h.toPasses, fun _ => h.apart p.block⟩

section

variable (h : G.Holds s)
include h

theorem of_same (hscopes : t.scopes = s.scopes) (htypes : t.types = s.types) (hmodules : t.modules = s.modules)
    (hstacks : SameStacks s t) : G.Leaves s t :=
  of_untouched (.of_same h hscopes htypes hmodules hstacks) (hscopes ▸ .refl _)

theorem refl : G.Leaves s s := of_same h rfl rfl rfl (.refl s)

theorem report (d : Diagnostic) : G.Leaves s (s.report d) := by
  obtain ⟨problems, heq⟩ := s.report_eq d
  rw [heq]
  exact of_same h rfl rfl rfl ⟨rfl, rfl, rfl, rfl, rfl⟩

theorem addReturn (ty : Ty) : G.Leaves s (s.addReturn ty) := by
  unfold Analysis.addReturn
  split
  · exact refl h
  · rename_i hframes
    exact of_same h rfl rfl rfl ⟨rfl, rfl, rfl, by rw [hframes]; rfl, by rw [hframes]; rfl⟩

theorem addReferences (node : Span) (ids : List BindingId) : G.Leaves s (s.addReferences node ids) :=
  of_untouched (.addReferences h node ids) (s.untouched_addReferences node ids)

end

end Guard.Leaves

theorem Guard.Does.trans (h : G.Does p l s t) (h' : G.Does p l' t u) : G.Does p (l ++ l') s u :=
  ⟨h.toPasses.trans h'.toPasses, fun hp => (h.placed hp).trans (h'.placed (hp.keep (h.placed hp).keepsPlaces))⟩

end

/-! ### Actions -/

namespace Infer

/-- From every guarded state, the action keeps the guard and binds no name of a block. -/
def Keeps {α : Type} (G : Guard) (m : Infer α) : Prop := ∀ s, G.Holds s → Leads m s fun _ t => G.Leaves s t

/-- From every guarded state in which code may be run at the spot, the action keeps the guard and places
the binders. -/
def KeepsAt {α : Type} (G : Guard) (p : Spot) (l : List Binder) (m : Infer α) : Prop :=
  ∀ s, G.Holds s → G.Own s.scopes p.scope → Leads m s fun _ t => G.Does p l s t

/-- The action places names that the code does not list. -/
def KeepsSome {α : Type} (G : Guard) (p : Spot) (m : Infer α) : Prop :=
  ∀ s, G.Holds s → G.Own s.scopes p.scope → Leads m s fun _ t => ∃ names : List Ident, G.Does p (names.map .bound) s t

/-- What becomes of a dotted path in a block: the first module found on it, if any, is bound in the block
itself. -/
inductive Sought (b : ScopeId) (path : List Ident) : Loaded → Analysis → Analysis → Prop where
  | found {r : Loaded} {s t : Analysis} {n : Ident} (segment : n ∈ path) (run : Placed b [.here n] s t) :
      Sought b path r s t
  | missed {failure : LoadFailure} {s t : Analysis} (run : Placed b [] s t) : Sought b path (.error failure) s t

end Infer

/-- Code may be run in the scope of the module that was loaded, if one was. -/
def Guard.Loaded (G : Guard) (r : Loaded) (t : Analysis) : Prop := ∀ m, r = .ok m → G.Own t.scopes (t.types.module m).scope

/-- Applications and loads keep the guard. They run code in blocks of their own. -/
structure Calls.Keep (G : Guard) (c : Calls) : Prop where
  apply : ∀ f receiver args, Infer.Keeps G (c.apply f receiver args)
  load : ∀ path s, G.Holds s → Infer.Leads (c.load path) s fun r t => G.Leaves s t ∧ G.Loaded r t

section

variable {G : Guard}

theorem Guard.loaded_error (failure : LoadFailure) (t : Analysis) : G.Loaded (.error failure) t := by
  rintro m ⟨⟩

theorem Guard.loaded_ok {m : ModuleId} {t : Analysis} (hm : G.Own t.scopes (t.types.module m).scope) : G.Loaded (.ok m) t := by
  rintro _ ⟨⟩
  exact hm

variable {α β : Type} {m m' : Infer α} {s : Analysis} {p : Spot} {l l' : List Binder}

namespace Infer.Leads

variable {P : α → Analysis → Prop} {R : β → Analysis → Prop}

theorem pure {a : α} (h : P a s) : Leads (Pure.pure a) s P := by
  rintro _ _ ⟨⟩
  exact h

theorem bind {f : α → Infer β} (hm : Leads m s P) (hf : ∀ a t, P a t → Leads (f a) t R) : Leads (m >>= f) s R := by
  intro b u hrun
  rw [StateT.run_bind] at hrun
  obtain ⟨⟨a, t⟩, hfirst, hrest⟩ := Option.bind_eq_some_iff.1 hrun
  exact hf a t (hm a t hfirst) b u hrest

theorem mono {Q} (h : Leads m s P) (hQ : ∀ a t, P a t → Q a t) : Leads m s Q :=
  fun a t hrun => hQ a t (h a t hrun)

theorem get_bind {f : Analysis → Infer β} (h : Leads (f s) s R) : Leads (get >>= f) s R := h

end Infer.Leads

namespace Infer.Keeps

theorem pure (a : α) : Keeps G (Pure.pure a : Infer α) := fun _ hs => .pure (.refl hs)

theorem bind {f : α → Infer β} (hm : Keeps G m) (hf : ∀ a, Keeps G (f a)) : Keeps G (m >>= f) :=
  fun s hs => (hm s hs).bind fun a t ht => (hf a t ht.holds).mono fun _ _ => ht.trans

theorem read {f : Analysis → Infer β} (h : ∀ s, Keeps G (f s)) : Keeps G (get >>= f) := fun s => h s s

theorem modify {g : Analysis → Analysis} (h : ∀ s : Analysis, G.Holds s → G.Leaves s (g s)) :
    Keeps G (modify g : Infer Unit) := by
  rintro s hs _ _ ⟨⟩
  exact h s hs

theorem discard (hm : Keeps G m) : Keeps G (discard m) := hm.bind fun _ => .pure ()

theorem ite {q : Prop} [Decidable q] (hm : Keeps G m) (hm' : Keeps G m') : Keeps G (if q then m else m') := by
  split
  · exact hm
  · exact hm'

theorem forM {as : List α} {f : α → Infer Unit} (h : ∀ a, Keeps G (f a)) : Keeps G (as.forM f) := by
  induction as with
  | nil => exact .pure ()
  | cons a as ih => exact (h a).bind fun _ => ih

/-- Where the action is run does not matter. -/
theorem keepsAt (hm : Keeps G m) : KeepsAt G p [] m := fun s hs _ => (hm s hs).mono fun _ _ ht => ht.does

end Infer.Keeps

namespace Infer.KeepsAt

theorem bind {f : α → Infer β} (hm : KeepsAt G p l m) (hf : ∀ a, KeepsAt G p l' (f a)) : KeepsAt G p (l ++ l') (m >>= f) :=
  fun s hs hown => (hm s hs hown).bind fun a t ht => (hf a t ht.holds (ht.own hown)).mono fun _ _ => ht.trans

/-- The binders are placed in the last part. -/
theorem last {f : α → Infer β} (hm : Keeps G m) (hf : ∀ a, KeepsAt G p l (f a)) : KeepsAt G p l (m >>= f) :=
  hm.keepsAt.bind hf

end Infer.KeepsAt

namespace Infer.KeepsSome

theorem of_name {n : Ident} (hm : KeepsAt G p [.bound n] m) : KeepsSome G p m :=
  fun s hs hown => (hm s hs hown).mono fun _ _ ht => ⟨[n], ht⟩

theorem read {f : Analysis → Infer β} (h : ∀ s, KeepsSome G p (f s)) : KeepsSome G p (get >>= f) := fun s => h s s

theorem forM {as : List α} {f : α → Infer Unit} (h : ∀ a, KeepsSome G p (f a)) : KeepsSome G p (as.forM f) := by
  induction as with
  | nil => exact fun s hs _ => .pure ⟨[], (Guard.Leaves.refl hs).does⟩
  | cons a as ih =>
    intro s hs hown
    refine (h a s hs hown).bind fun _ t ⟨names, ht⟩ => (ih t ht.holds (ht.own hown)).mono fun _ u ⟨names', hu⟩ => ?_
    exact ⟨names ++ names', List.map_append ▸ ht.trans hu⟩

theorem keepsAt (hm : KeepsSome G p m) : KeepsAt G p [.unlisted] m :=
  fun s hs hown => (hm s hs hown).mono fun _ _ ⟨names, ht⟩ => ⟨ht.toPasses, fun hp => .unlisted names (ht.placed hp)⟩

end Infer.KeepsSome

end

namespace Infer

variable {G : Guard} {c : Calls} {p : Spot} {l : List Binder} {s : Analysis} {scope b : ScopeId}

/-! ### Single steps -/

theorem keeps_log (e : LogEvent) : Keeps G (log e) := .modify fun _ hs => .of_same hs rfl rfl rfl ⟨rfl, rfl, rfl, rfl, rfl⟩

theorem keeps_report (d : Diagnostic) : Keeps G (report d) := .modify fun _ hs => .report hs d

theorem keeps_addReferences (node : Span) (ids : List BindingId) : Keeps G (addReferences node ids) :=
  .modify fun _ hs => .addReferences hs node ids

theorem leads_bindIn (hs : G.Holds s) (hscope : G.Own s.scopes scope) (n : Ident) (ty : Ty) (kind : BindingKind) :
    Leads (bindIn scope n ty kind) s fun _ t => t = (s.bind scope n.name n.span ty kind).1 ∧ G.Passes s t := by
  rintro _ _ ⟨⟩
  exact ⟨rfl, .bind hs hscope n.name n.span ty kind⟩

theorem leads_bind (hs : G.Holds s) (hscope : G.Own s.scopes scope) (n : Ident) (ty : Ty) (kind : BindingKind) :
    Leads (discard (bindIn scope n ty kind)) s fun _ t => t = (s.bind scope n.name n.span ty kind).1 ∧ G.Passes s t :=
  (leads_bindIn hs hscope n ty kind).bind fun _ _ ht => .pure ht

theorem leads_bindName (hs : G.Holds s) (hscope : G.Own s.scopes scope) (n : Ident) (ty : Ty) (kind : BindingKind) :
    Leads (bindName scope n ty kind) s fun _ t =>
      t = (s.bind (s.scopes.targetScope scope n.name) n.name n.span ty kind).1 ∧ G.Passes s t :=
  .get_bind (leads_bind hs (G.targetScope n.name hs hscope) n ty kind)

theorem keeps_bindName (n : Ident) (ty : Ty) (kind : BindingKind) :
    KeepsAt G p [Binder.ofName p.inner n] (bindName p.scope n ty kind) := by
  intro s hs hown
  refine (leads_bindName hs hown n ty kind).mono fun _ t ⟨ht, hpasses⟩ => ⟨hpasses, fun hp => ?_⟩
  rw [ht]
  cases hinner : p.inner with
  | false =>
    have houter : (s.scopes.scope p.scope).kind ≠ .comprehension := by
      intro hkind
      cases hinner.symm.trans (hp.inner.1 hkind)
    rw [hp.lies.eq_block houter]
    exact .bound n ty kind
  | true =>
    have hkind := hp.inner.2 hinner
    rw [(hp.lies.undeclared hkind).targetScope]
    exact .clause n ty kind hp.lies hkind

theorem keeps_bound (n : Ident) (ty : Ty) (kind : BindingKind) : KeepsAt G (.ofBlock b) [.bound n] (bindName b n ty kind) :=
  keeps_bindName n ty kind

theorem keeps_named (target : Ident) (ty : Ty) : KeepsAt G p [.bound target] (do
    bindName ((← get).scopes.enclosingBlock p.scope) target ty .variable
    return ty : Infer Ty) := by
  refine fun s hs hown => .get_bind ?_
  refine (leads_bindName hs (G.enclosingBlock hs hown) target ty .variable).bind fun _ t ⟨ht, hpasses⟩ => ?_
  refine .pure ⟨hpasses, fun hp => ?_⟩
  rw [ht, hp.lies.enclosingBlock]
  exact .bound target ty .variable

theorem keeps_lookupName (name : String) (site : Span) (scope : ScopeId) : Keeps G (lookupName name site scope) := by
  refine .read fun s => ?_
  cases s.scopes.lookup scope name with
  | none => exact .bind (.modify fun _ hs => .of_same hs rfl rfl rfl ⟨rfl, rfl, rfl, rfl, rfl⟩) fun _ => .pure _
  | some ids =>
    refine .bind (keeps_addReferences site ids) fun _ => ?_
    exact .bind (.modify fun _ hs => .of_same hs rfl rfl rfl ⟨rfl, rfl, rfl, rfl, rfl⟩) fun _ => .read fun _ => .pure _

theorem keeps_setAttribute (receiver : Ty) (attr : Ident) (value : Ty) : Keeps G (setAttribute receiver attr value) := by
  refine .forM fun a s hs => .get_bind ?_
  cases hscope : s.attributeScope? a with
  | none => exact .pure (.refl hs)
  | some scope =>
    refine (leads_bind hs (G.attributeScope hs hscope) attr value .attribute).mono fun _ t ⟨ht, hpasses⟩ => ⟨hpasses, fun b => ?_⟩
    rw [ht]
    exact .attribute attr value hscope

/-! ### Imports -/

theorem keeps_importFailed (failure : LoadFailure) (name : String) (span : Span) : Keeps G (importFailed failure name span) :=
  .ite (keeps_report _) (.pure ())

theorem leads_bindSegment (hs : G.Holds s) (hscope : G.Own s.scopes scope) (n : Ident) (node : Span) (m : ModuleId) :
    Leads (bindSegment (some scope) n node m) s fun _ t => G.Passes s t ∧
      ∀ b l, Placed b l s (s.bind scope n.name node (.module m) .module).1 → Placed b l s t := by
  refine (leads_bindIn hs hscope ⟨n.name, node⟩ (.module m) .module).bind fun id t ⟨ht, hpasses⟩ => ?_
  refine (keeps_addReferences n.span [id] t hpasses.holds).mono fun _ u hu => ⟨hpasses.trans hu.toPasses, fun b l h => ?_⟩
  rw [← ht] at h
  exact h.then_nil (hu.apart b)

section

variable (hc : c.Keep G)

include hc

theorem keeps_load (path : Path) : Keeps G (c.load path) := fun s hs => (hc.load path s hs).mono fun _ _ ht => ht.1

/-- Members of packages are bound in these. -/
theorem leads_loadSegments {scope : Option ScopeId} (names : List Ident) (dir : Path) {before : Option ModuleId}
    (hmember : before.isSome ∨ scope = none) (hs : G.Holds s)
    (hbefore : OptionAll (fun m => G.Own s.scopes (s.types.module m).scope) before) :
    Leads (loadSegments c.load scope names dir before) s fun _ t => G.Leaves s t := by
  induction names generalizing dir before s with
  | nil => cases before <;> exact .pure (.refl hs)
  | cons name names ih =>
    rw [loadSegments]
    refine .get_bind ?_
    cases s.segment (dir.child name.name) name.name names.isEmpty with
    | missing => exact .pure (.refl hs)
    | namespaceDir => exact ih (dir.child name.name) hmember hs hbefore
    | file file =>
      refine (hc.load file s hs).bind fun r t h => ?_
      obtain ⟨ht, hr⟩ := h
      cases r with
      | error failure => exact .pure ht
      | ok m =>
        have hbind : Leads (bindSegment (t.segmentScope? before scope) name name.span m) t fun _ u => G.Leaves t u := by
          cases before with
          | some parent =>
            refine (leads_bindSegment ht.holds (ht.module parent (hbefore parent rfl)) name name.span m).mono ?_
            exact fun _ u hu => ⟨hu.1, fun b => hu.2 b [] (.member parent m _ _)⟩
          | none =>
            obtain rfl := hmember.resolve_left (by rintro ⟨⟩)
            exact .pure (.refl ht.holds)
        refine .get_bind (hbind.bind fun _ u hu => ?_)
        have hrest := ih (dir.child name.name) (.inl rfl) hu.holds (optionAll_some.2 (hu.module m (hr m rfl)))
        exact hrest.mono fun _ v hv => (ht.trans hu).trans hv

/-- The first module on the path is bound in the block. -/
theorem sought_loadSegments (names : List Ident) (dir : Path) (hs : G.Holds s) (hown : G.Own s.scopes b) :
    Leads (loadSegments c.load (some b) names dir none) s fun r t => G.Passes s t ∧ Sought b names r s t := by
  induction names generalizing dir with
  | nil => exact .pure ⟨.refl hs, .missed (.refl b s)⟩
  | cons name names ih =>
    rw [loadSegments]
    refine .get_bind ?_
    cases s.segment (dir.child name.name) name.name names.isEmpty with
    | missing => exact .pure ⟨.refl hs, .missed (.refl b s)⟩
    | namespaceDir =>
      refine (ih (dir.child name.name)).mono fun r t ht => ⟨ht.1, ?_⟩
      cases ht.2 with
      | found segment run => exact .found (List.mem_cons_of_mem name segment) run
      | missed run => exact .missed run
    | file file =>
      refine (hc.load file s hs).bind fun r t h => ?_
      obtain ⟨ht, hr⟩ := h
      cases r with
      | error failure => exact .pure ⟨ht.toPasses, .missed (ht.apart b)⟩
      | ok m =>
        refine .get_bind ((leads_bindSegment ht.holds (ht.own hown) name name.span m).bind fun _ u h => ?_)
        obtain ⟨hu, hplaced⟩ := h
        have hfound : Placed b [.here name] s u := (ht.apart b).trans (hplaced b _ (.here name name.span m))
        have hrest : Leads (loadSegments c.load (some b) names (dir.child name.name) (some m)) u fun _ v => G.Leaves u v :=
          leads_loadSegments hc names _ (.inl rfl) hu.holds (optionAll_some.2 (hu.module m (hr m rfl)))
        refine hrest.mono fun r v hv => ⟨(ht.toPasses.trans hu).trans hv.toPasses, ?_⟩
        exact .found List.mem_cons_self (hfound.then_nil (hv.apart b))

theorem sought_loadModule (names : List Ident) (hs : G.Holds s) (hown : G.Own s.scopes b) :
    Leads (loadModule c.load names (some b)) s fun r t => G.Passes s t ∧ Sought b names r s t := by
  cases names with
  | nil => exact .pure ⟨.refl hs, .missed (.refl b s)⟩
  | cons first names =>
    refine .get_bind ?_
    cases s.library.module? (dottedName (first :: names)) with
    | some id =>
      refine .get_bind ((leads_bindSegment hs hown first _ _).bind fun _ t ht => .pure ⟨ht.1, ?_⟩)
      exact .found List.mem_cons_self (ht.2 b _ (.here first _ _))
    | none =>
      dsimp only
      cases s.locate? first.name with
      | some dir => exact sought_loadSegments hc _ dir hs hown
      | none => exact .pure ⟨.refl hs, .missed (.refl b s)⟩

/-- A module that is found on a path without another name is bound in the block itself, and
one that is not found goes where its declarations say. -/
theorem keeps_importPath {a : Alias} (hname : a.asName = none) :
    KeepsAt G (.ofBlock b) (Binder.ofAlias a) (importModule c.load a b) := by
  have hlocal : localName? a = a.name.head? := by rw [localName?, hname]; rfl
  unfold importModule Binder.ofAlias
  rw [hname]
  intro s hs hown
  refine (sought_loadModule hc a.name hs hown).bind fun r t h => ?_
  obtain ⟨ht, hsought⟩ := h
  dsimp only
  cases hhead : a.name.head? with
  | none =>
    have hnone := List.head?_eq_none_iff.1 hhead
    rw [hnone] at hsought ⊢
    cases hsought with
    | found segment run => cases segment
    | missed run =>
      have hunbound : Keeps G (bindUnknown b a .module) := by
        rw [bindUnknown, hlocal.trans hhead]
        exact .pure ()
      refine (((keeps_importFailed _ a.dotted a.span).bind fun _ => hunbound) t ht.holds).mono fun _ u hu => ?_
      exact ⟨ht.trans hu.toPasses, fun _ => run.trans (hu.apart b)⟩
  | some n =>
    have hpath : a.name.isEmpty = false := by
      cases hempty : a.name with
      | nil => rw [hempty] at hhead; cases hhead
      | cons => rfl
    rw [hpath]
    have hbind (failure : LoadFailure) := KeepsAt.last (G := G) (keeps_importFailed failure a.dotted a.span) fun _ =>
      show KeepsAt G (.ofBlock b) [.bound n] (bindUnknown b a .module) by
        rw [bindUnknown, hlocal.trans hhead]
        exact keeps_bound n .unknown .module
    cases hsought with
    | found segment run =>
      cases r with
      | ok m => exact .pure ⟨ht, fun _ => .imported segment run⟩
      | error failure =>
        refine (hbind failure t ht.holds (ht.own hown)).mono fun _ u hu => ⟨ht.trans hu.toPasses, fun hp => ?_⟩
        exact .partly segment hhead (run.trans (hu.placed (hp.keep run.keepsPlaces)))
    | missed run =>
      refine (hbind _ t ht.holds (ht.own hown)).mono fun _ u hu => ⟨ht.trans hu.toPasses, fun hp => ?_⟩
      exact .missed hhead (run.trans (hu.placed (hp.keep run.keepsPlaces)))

end

/-! ### Code -/

theorem keeps_comprehension {α : Type} {f : ScopeId → Infer α} (h : ∀ id, KeepsAt G ⟨p.block, id, true⟩ l (f id)) :
    KeepsAt G p l (comprehensionScope p.scope >>= f) := by
  intro s hs hown a u hrun
  obtain ⟨hpasses, hnew⟩ := Guard.Passes.newScope hs (G.comprehension (s.scopes.scope p.scope).path hs hown)
  have hopened := Guard.Leaves.of_untouched hpasses (.newScope s.scopes ..)
  have hran := h _ _ hopened.holds hnew a u hrun
  refine ⟨hopened.toPasses.trans hran.toPasses, fun hp => (hopened.apart p.block).trans (hran.placed ?_)⟩
  have hscope := s.scopes.scope_newScope .comprehension p.scope (s.scopes.scope p.scope).path ⟨s.scopes.scopes.size⟩
  rw [if_pos rfl] at hscope
  have hkind := congrArg Scope.kind hscope
  refine ⟨?_, fun _ => rfl, fun _ => hkind⟩
  refine .comprehension ((hopened.apart p.block).keepsPlaces.liesIn hp.lies) ?_ hp.lies.there hkind (congrArg Scope.parent hscope)
    ⟨congrArg Scope.globals hscope, congrArg Scope.nonlocals hscope⟩
  simp [Analysis.newScope, ScopeTable.newScope]

/-- A class is bound before its body is run. -/
theorem keeps_classDef (d : ClassDef) (bases : List Ty) (name : Ident) {f : ScopeId → Infer Unit}
    (h : ∀ body, KeepsAt G (.ofBlock body) l (f body)) :
    KeepsAt G (.ofBlock b) [.bound name, .cls l] (do
      let id ← modifyGet fun s => (s.defineClass d bases b).swap
      bindName b name (.cls id) .cls
      f ((← get).types.cls id).scope : Infer Unit) := by
  intro s hs hown v w hrun
  let t := (s.defineClass d bases b).1
  let u := (t.bind (t.scopes.targetScope b name.name) name.name name.span (.cls (s.defineClass d bases b).2) .cls).1
  let body : ScopeId := ⟨s.scopes.scopes.size⟩
  have hbody : (t.types.cls (s.defineClass d bases b).2).scope = body := (s.cls_defineClass d bases b _).trans (if_pos rfl)
  have hthere : body.index < t.scopes.scopes.size := (s.size_scopes_defineClass d bases b).symm ▸ Nat.lt_succ_self _
  have hkind : (t.scopes.scope body).kind = .cls := congrArg Scope.kind (s.scope_defineClass d bases b)
  have hparent : (t.scopes.scope body).parent = some b := congrArg Scope.parent (s.scope_defineClass d bases b)
  have hkeeps : t.scopes.KeepsPlaces u.scopes := t.keepsPlaces_bind ..
  have hkind' : (u.scopes.scope body).kind = .cls := (hkeeps.kind body hthere).trans hkind
  have hscope : (u.types.cls (s.defineClass d bases b).2).scope = body := by
    obtain ⟨references, scopes, heq⟩ := t.bind_eq (t.scopes.targetScope b name.name) name.name name.span
      (.cls (s.defineClass d bases b).2) .cls
    rw [show u = { t with references, scopes } from heq]
    exact hbody
  obtain ⟨hdefined, hmade⟩ := Guard.Passes.defineClass hs d bases hown
  have hbound : G.Passes t u := .bind hdefined.holds (G.targetScope _ hdefined.holds (hdefined.own hown)) ..
  have hrest : (f body).run u = some (v, w) := by rw [← hscope]; exact hrun
  have hran := h body u hbound.holds (hbound.own (hbody ▸ hmade)) v w hrest
  refine ⟨(hdefined.trans hbound).trans hran.toPasses, fun _ => ?_⟩
  have hplaced : Placed b [.bound name] s u := (Placed.untouched (s.untouched_defineClass d bases b)).trans (.bound ..)
  have hblock : u.scopes.IsBlock body := ⟨Nat.lt_of_lt_of_le hthere hkeeps.size, fun h => by cases hkind'.symm.trans h⟩
  exact hplaced.trans (.cls hkind' ((hkeeps.parent body hthere).trans hparent) (hran.placed (Spot.in_ofBlock hblock)))

end Infer

open Infer in
theorem Acts.keeps {G : Guard} {c : Calls} (hc : c.Keep G) {code : Code} {α : Type} [Bounded α] {p : Spot}
    {H : Sizes → Prop} {b : List Binder} {l : List Mark} {m : Calls → Infer α} (h : Acts code p H b l m) :
    KeepsAt G p b (m c) := by
  induction h with
  | pure => exact (Keeps.pure _).keepsAt
  | read _ hrest => exact fun s => hrest s s
  | bind _ _ hm hrest => exact hm.bind hrest
  | assuming _ _ hrun => exact hrun
  | refer node ids => exact (keeps_addReferences node ids).keepsAt
  | addReturn ty =>
    have hadd : Keeps G (Infer.addReturn ty) := .modify fun _ hs => .addReturn hs ty
    exact hadd.keepsAt
  | addReceiver f cls =>
    have hadd : Keeps G (modify (·.addReceiver f (.inst cls))) := .modify fun _ hs => .of_untouched
      (.modifyFun hs rfl rfl rfl (fun _ => ⟨rfl, rfl, rfl⟩) ⟨rfl, rfl, rfl, rfl, rfl⟩) (.refl _)
    exact hadd.keepsAt
  | setAttribute receiver attr value => exact (keeps_setAttribute receiver attr value).keepsAt
  | apply f receiver args => exact (hc.apply f receiver args).keepsAt
  | load path _ => exact (keeps_load hc path).keepsAt
  | search names dir =>
    exact fun s hs _ => (leads_loadSegments hc names dir (.inr rfl) hs optionAll_none).mono fun _ _ ht => ht.does
  | lookup name site => exact (keeps_lookupName name site _).keepsAt
  | define d defaults =>
    rintro s hs hown _ _ ⟨⟩
    exact ⟨.of_types (G.defineFunction d defaults hs hown) ⟨rfl, rfl, rfl, rfl, rfl⟩ (Nat.le_refl _) rfl rfl,
      fun _ => .untouched (.refl _)⟩
  | report error message span => exact (keeps_report _).keepsAt
  | skip error span => exact (Keeps.pure ()).keepsAt
  | name n ty kind => exact keeps_bindName n ty kind
  | named target ty => exact keeps_named target ty
  | comprehension _ hrest => exact keeps_comprehension hrest
  | @cls _ _ d bases name f _ _ _ _ _ hrest => exact keeps_classDef (f := fun body => f body c) d bases name hrest
  | global n =>
    rintro s hs hown _ _ ⟨⟩
    exact ⟨.declare hs hown fun x => ⟨_, x.nonlocals, rfl⟩, fun hp => .global n hp.isBlock⟩
  | «nonlocal» n =>
    rintro s hs hown _ _ ⟨⟩
    exact ⟨.declare hs hown fun x => ⟨x.globals, _, rfl⟩, fun hp => .nonlocal n hp.isBlock⟩
  | path unnamed => exact keeps_importPath hc unnamed
  | star m =>
    refine KeepsSome.keepsAt (.read fun _ => .forM fun _ => .forM fun _ => .read fun _ => ?_)
    exact .of_name (keeps_bound _ _ _)
  | unlisted names _ hrun =>
    exact fun s hs hown => (hrun s hs hown).mono fun _ _ ht => ⟨ht.toPasses, fun hp => .unlisted names (ht.placed hp)⟩

namespace Infer

variable {G : Guard} {c : Calls} {s : Analysis} {b : ScopeId}

/-! ### Applications and loads -/

theorem leads_bindArguments {params signature} (hlength : signature.length = params.length) (hs : G.Holds s)
    (hown : G.Own s.scopes b) (hb : s.scopes.Undeclared b) :
    Leads (bindArguments b params signature) s fun _ t => G.Passes s t ∧
      Placed b (params.map fun param => .bound param.name) s t := by
  induction params generalizing signature s with
  | nil => exact .pure ⟨.refl hs, .refl b s⟩
  | cons param params ih =>
    obtain ⟨ty, signature, rfl⟩ := List.exists_cons_of_length_eq_add_one hlength
    unfold bindArguments
    rw [List.zip_cons_cons]
    refine (leads_bind hs hown param.name ty .parameter).bind fun _ t ⟨ht, hpasses⟩ => ?_
    have hbound : Placed b [.bound param.name] s t := by
      have hplaced := Placed.bound (b := b) (s := s) param.name ty .parameter
      rwa [hb.targetScope, ← ht] at hplaced
    have hb' : t.scopes.Undeclared b := by
      obtain ⟨table, heq⟩ := s.exists_table_bind b param.name.name param.name.span ty .parameter b
      unfold ScopeTable.Undeclared
      rw [ht, heq]
      exact hb
    refine (ih (Nat.succ.inj hlength) hpasses.holds (hpasses.own hown) hb').mono fun _ u hu => ?_
    exact ⟨hpasses.trans hu.1, hbound.trans hu.2⟩

/-- The body of a function is run in a scope of its own. -/
theorem leads_applyBody (hc : c.Keep G) {f : FunId} {d : FunctionDef} (hbody : (s.types.function f).body = .source d)
    {signature : List Ty} (hlength : signature.length = d.params.length) (key : CallKey) (hs : G.Holds s) :
    Leads (applyBody c f d signature key) s fun _ t => G.Leaves s t := by
  let r := s.enterCall f key d.span.file.parentOrEmpty
  have hr : G.Holds r := G.modifyFun hs rfl rfl rfl fun _ => ⟨rfl, rfl, rfl⟩
  have hsame : (r.types.function f).body = (s.types.function f).body ∧
      (r.types.function f).closure = (s.types.function f).closure := by
    rw [show r.types = s.types.modifyFun f _ from rfl, TypeStore.function_modifyFun]
    split <;> exact ⟨rfl, rfl⟩
  have hopen := G.body (s.types.function f).qname hr (hsame.1.trans hbody)
  rw [hsame.2] at hopen
  obtain ⟨hopened, hown⟩ := Guard.Passes.newScope hr hopen
  obtain ⟨hthere, hkind, hfresh⟩ := r.opens_newScope .function (s.types.function f).closure (s.types.function f).qname
  generalize hnew : r.newScope .function (s.types.function f).closure (s.types.function f).qname = new at *
  have hcode : Leads (bindArguments new.2 d.params signature >>= fun _ => execBlock c d.body new.2) new.1 fun _ v =>
      G.Passes new.1 v ∧ Placed new.2 (Block.body d).binders new.1 v := by
    refine (leads_bindArguments hlength hopened.holds hown ⟨hfresh.globals, hfresh.nonlocals⟩).bind fun _ u hu => ?_
    refine ((acts_execBlock_all d.body new.2).keeps hc u hu.1.holds (hu.1.own hown)).mono fun _ v hv => ?_
    have hblock : new.1.scopes.IsBlock new.2 := ⟨hthere, fun h => by cases hkind.symm.trans h⟩
    exact ⟨hu.1.trans hv.toPasses, hu.2.trans (hv.placed (Spot.in_ofBlock (hu.2.keepsPlaces.isBlock hblock)))⟩
  intro ret w hrun
  rw [run_applyBody] at hrun
  obtain ⟨⟨⟨⟩, v⟩, hran, hrun⟩ := Option.bind_eq_some_iff.1 hrun
  cases hrun
  obtain ⟨hv, hplaced⟩ := hcode () v (hnew ▸ hran)
  have hall := hopened.trans hv
  refine ⟨{ hall with
    holds := G.modifyFun hall.holds rfl rfl rfl fun _ => ⟨rfl, rfl, rfl⟩
    sameStacks := hall.sameStacks.leaveCall signature }, fun b => ?_⟩
  have hentered : Placed b [] new.1 v := .enter (.body d) hkind hfresh hplaced
  exact ((Placed.untouched (hnew ▸ .newScope r.scopes ..)).trans hentered).trans (.untouched (.refl _))

theorem keeps_applyFunction (hc : c.Keep G) (f : FunId) (receiver : Option Ty) (args : CallArgs) :
    Keeps G (applyFunction c f receiver args) := by
  intro s hs
  refine .get_bind ?_
  split
  · exact .pure (.refl hs)
  · exact .pure (.refl hs)
  · rename_i d hbody
    refine .get_bind ?_
    dsimp only
    split
    · exact .pure (.refl hs)
    · split
      · exact .pure (.refl hs)
      · exact leads_applyBody hc hbody (length_bindParams ..) _ hs

theorem keeps_joinPackage (hc : c.Keep G) (file : Path) (m : ModuleId) : Keeps G (joinPackage c file m) := by
  unfold joinPackage
  cases file.moduleDir?.map Path.initFile with
  | none => exact .pure ()
  | some init =>
    refine .read fun s => .ite (.pure ()) fun t ht => (hc.load init t ht).bind fun r u h => ?_
    obtain ⟨hu, hr⟩ := h
    cases r with
    | error failure => exact .pure hu
    | ok parent =>
      refine .get_bind ((leads_bind hu.holds (hr parent rfl) _ _ .module).mono fun _ v hv => hu.trans ⟨hv.2, fun b => ?_⟩)
      rw [hv.1]
      exact .member parent m _ _

/-- The code of a file is run in the scope of its module. -/
theorem leads_loadNew (hc : c.Keep G) (file : Path) (hs : G.Holds s) :
    Leads (loadNew c file file.moduleQname) s fun r t => G.Leaves s t ∧ G.Loaded r t := by
  intro r v hrun
  have hopened : G.Holds (s.opened file) := G.same hs rfl rfl rfl
  cases htree : s.openedTree file with
  | error e =>
    cases (run_loadNew_error htree).symm.trans hrun
    exact ⟨.of_same hs rfl rfl rfl ⟨rfl, List.erase_cons_head .., rfl, rfl, rfl⟩, G.loaded_error _ _⟩
  | ok tree =>
    rw [run_loadNew_ok htree] at hrun
    obtain ⟨⟨⟨⟩, t⟩, hblock, hrun⟩ := Option.bind_eq_some_iff.1 hrun
    rw [StateT.run_bind] at hrun
    obtain ⟨⟨⟨⟩, u⟩, hjoin, hrun⟩ := Option.bind_eq_some_iff.1 hrun
    cases hrun
    obtain ⟨hthere, hkind, hfresh⟩ := (s.opened file).opens_newScope .module ScopeTable.globalScope file.moduleQname
    obtain ⟨hmade, hscope⟩ := Guard.Passes.newScope hopened (G.module file.moduleQname hopened)
    obtain ⟨hbegun, hmodule⟩ := Guard.Passes.addModule (m := ⟨file.moduleName, _, some file, _⟩) hmade.holds hscope
    have hran := (acts_execBlock_all tree.body _).keeps hc (s.begun file) hbegun.holds (hbegun.own hscope) _ _ hblock
    have hloaded : G.Own t.scopes (t.types.module s.nextModule).scope := hran.module _ hmodule
    have hended : G.Leaves s (s.ended file t) := by
      refine ⟨{ hmade.trans (hbegun.trans hran.toPasses) with
        holds := G.same (G.addLoaded file file.moduleQname hran.holds hloaded) rfl rfl rfl
        sameStacks := hran.sameStacks.ended }, fun b => ?_⟩
      have hentered : Placed b [] (s.begun file) t := .enter (.file file tree) hkind hfresh
        (hran.placed (Spot.in_ofBlock ⟨hthere, fun h => by cases hkind.symm.trans h⟩))
      exact ((Placed.untouched (.newScope s.scopes ..)).trans hentered).trans (.untouched (.refl _))
    have hjoined := keeps_joinPackage hc file s.nextModule _ hended.holds _ _ hjoin
    exact ⟨hended.trans hjoined, G.loaded_ok (hjoined.module _ hloaded)⟩

theorem leads_loadFile (hc : c.Keep G) (path : Path) (s : Analysis) (hs : G.Holds s) :
    Leads (loadFile c path) s fun r t => G.Leaves s t ∧ G.Loaded r t := by
  refine .get_bind ?_
  dsimp only
  split
  · exact (keeps_log _ s hs).bind fun _ t ht => .pure ⟨ht, G.loaded_error _ t⟩
  · split
    · rename_i id hid
      exact .pure ⟨.refl hs, G.loaded_ok (G.loaded hs (mem_of_lookup hid))⟩
    · split
      · exact .pure ⟨.refl hs, G.loaded_error _ s⟩
      · split
        · exact (keeps_log _ s hs).bind fun _ t ht => .pure ⟨ht, G.loaded_error _ t⟩
        · exact leads_loadNew hc _ hs

theorem keep_calls (depth : Nat) : Calls.Keep G ⟨apply depth, load depth⟩ := by
  induction depth with
  | zero =>
    -- without depth there is no result
    refine ⟨fun f receiver args s _ a t hrun => ?_, fun path s _ r t hrun => ?_⟩ <;> contradiction
  | succ depth ih => exact ⟨keeps_applyFunction ih, leads_loadFile ih⟩

/-! ### Projects -/

theorem keeps_loadWithin (hc : c.Keep G) (levels : Nat) (p : Path) : Keeps G (loadWithin c.load levels p) := by
  induction levels generalizing p with
  | zero =>
    intro s _ a t hrun
    contradiction
  | succ levels ih =>
    refine .read fun s => .ite ?_ (.ite (keeps_load hc p).discard (.pure ()))
    split
    · exact .forM ih
    · exact keeps_log _

theorem keeps_analyzeWith (hc : c.Keep G) (root : Path) : Keeps G (analyzeWith c.load root) := by
  refine .read fun s => .bind (.modify fun _ hs => ?_) fun _ => .bind (keeps_log _) fun _ => keeps_loadWithin hc _ _
  exact .of_same hs rfl rfl rfl ⟨rfl, rfl, rfl, rfl, rfl⟩

theorem keeps_applyBatch (hc : c.Keep G) (batch : List FunId) (applied : List Span) :
    Keeps G (applyBatch c.apply batch applied) := by
  induction batch generalizing applied with
  | nil => exact .pure applied
  | cons f more ih =>
    refine .read fun s => ?_
    dsimp only
    split
    · exact ih applied
    · refine .ite (ih applied) (.bind ?_ fun _ => ih _)
      exact .read fun _ => .bind (keeps_log _) fun _ => (hc.apply f _ _).discard

theorem keeps_applyUncalled (hc : c.Keep G) (rounds pass : Nat) (applied : List Span) :
    Keeps G (applyUncalled c.apply rounds pass applied) := by
  induction rounds generalizing pass applied with
  | zero =>
    intro s _ a t hrun
    contradiction
  | succ rounds ih =>
    refine .read fun s => .ite (.pure ()) (.bind (.modify fun _ hs => ?_) fun _ => .bind (keeps_log _) fun _ => ?_)
    · exact .of_same hs rfl rfl rfl ⟨rfl, rfl, rfl, rfl, rfl⟩
    · exact .bind (keeps_applyBatch hc _ _) fun _ => ih _ _

theorem keeps_finishWith (hc : c.Keep G) (rounds : Nat) : Keeps G (finishWith c.apply rounds) := by
  intro s hs _ t hrun
  cases hopen : s.finished with
  | true =>
    rw [finishWith, run_get_bind, if_pos hopen] at hrun
    cases hrun
    exact .refl hs
  | false =>
    rw [run_finishWith hopen] at hrun
    obtain ⟨⟨⟨⟩, u⟩, hrounds, hrun⟩ := Option.bind_eq_some_iff.1 hrun
    cases hrun
    have hfinishing : G.Leaves s s.finishing := .of_same hs rfl rfl rfl ⟨rfl, rfl, rfl, rfl, rfl⟩
    have hu := hfinishing.trans (keeps_applyUncalled hc rounds 1 [] _ hfinishing.holds _ _ hrounds)
    obtain ⟨problems, stats, heq⟩ := u.concluded_eq
    rw [heq]
    exact hu.trans (.of_same hu.holds rfl rfl rfl ⟨rfl, rfl, rfl, rfl, rfl⟩)

end Infer

/-- To meet demands keeps the guard. -/
theorem Demand.keeps {G : Guard} (demands : List Demand) (depth : Nat) :
    Infer.Keeps G (demands.forM (Demand.run ⟨Infer.apply depth, Infer.load depth⟩ depth)) := by
  have hc : Calls.Keep G ⟨Infer.apply depth, Infer.load depth⟩ := Infer.keep_calls depth
  refine .forM fun demand => ?_
  cases demand with
  | grant request =>
    cases request with
    | project root => exact Infer.keeps_analyzeWith hc root
    | file path => exact (Infer.keeps_load hc path).discard
  | finish => exact Infer.keeps_finishWith hc depth
  | close => exact .modify fun _ hs => .of_same hs rfl rfl rfl ⟨rfl, rfl, rfl, rfl, rfl⟩
  | clearCache => exact .modify fun _ hs => .of_same hs rfl rfl rfl ⟨rfl, rfl, rfl, rfl, rfl⟩

end TypeInfer
