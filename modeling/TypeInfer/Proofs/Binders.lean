/-
Where names are bound. `Placed` says what becomes of the binders of code when it is run in a block:
a name goes where the declarations of the block say, and nothing but binders puts a name into a
scope, apart from attributes and members of packages. A comprehension has no declarations; it lies
in a block (`ScopeTable.LiesIn`).
-/
import TypeInfer.Proofs.OwnScopes
import TypeInfer.Proofs.Session

namespace TypeInfer

/-! ### Binders -/

namespace Block

/-- The kind of the scope in which the block is run. -/
def kind : Block → ScopeKind
  | .file _ _ => .module
  | .body _ => .function

/-- The binders of the block. The parameters of a function are bound first. -/
def binders : Block → List Binder
  | .file _ tree => Binder.ofBlock tree.body
  | .body d => d.params.map (fun param => .bound param.name) ++ Binder.ofBlock d.body

end Block

/-! ### Scopes -/

/-- Nothing is bound or declared in the scope. -/
structure Scope.IsFresh (s : Scope) : Prop where
  table : s.table = ∅
  globals : s.globals = []
  nonlocals : s.nonlocals = []

namespace ScopeTable

variable {t t' t'' : ScopeTable} {b id : ScopeId}

/-- No name is declared in the scope. -/
def Undeclared (t : ScopeTable) (id : ScopeId) : Prop := (t.scope id).globals = [] ∧ (t.scope id).nonlocals = []

/-- What is not declared is bound in the scope itself. -/
theorem Undeclared.targetScope (h : t.Undeclared id) (name : String) : t.targetScope id name = id := by
  have hglobal : t.isGlobal id name = false := by rw [isGlobal, h.1]; rfl
  have hnonlocal : t.isNonlocal id name = false := by rw [isNonlocal, h.2]; rfl
  simp [ScopeTable.targetScope, hglobal, hnonlocal]

/-- The scope is there, and is not that of a comprehension. -/
structure IsBlock (t : ScopeTable) (b : ScopeId) : Prop where
  there : b.index < t.scopes.size
  kind : (t.scope b).kind ≠ .comprehension

/-- The scope is the block or that of a comprehension in it. -/
inductive LiesIn (t : ScopeTable) (b : ScopeId) : ScopeId → Prop where
  | block (block : t.IsBlock b) : LiesIn t b b
  | comprehension {outer id : ScopeId} (around : LiesIn t b outer) (there : id.index < t.scopes.size)
      (after : outer.index < id.index) (kind : (t.scope id).kind = .comprehension)
      (parent : (t.scope id).parent = some outer) (undeclared : t.Undeclared id) : LiesIn t b id

namespace LiesIn

section

variable (h : t.LiesIn b id)
include h

theorem there : id.index < t.scopes.size := by
  cases h with
  | block block => exact block.there
  | comprehension around there => exact there

theorem eq_block (hkind : (t.scope id).kind ≠ .comprehension) : id = b := by
  cases h with
  | block block => rfl
  | comprehension around there after kind => exact absurd kind hkind

theorem undeclared (hkind : (t.scope id).kind = .comprehension) : t.Undeclared id := by
  cases h with
  | block block => exact absurd hkind block.kind
  | comprehension around there after kind parent undeclared => exact undeclared

theorem find_ancestorsFrom {steps} (hsteps : id.index < steps) :
    (t.ancestorsFrom steps id).find? (fun a => (t.scope a).kind != .comprehension) = some b := by
  obtain ⟨steps, rfl⟩ : ∃ n, steps = n + 1 := ⟨steps - 1, by omega⟩
  rw [ancestorsFrom, List.find?_cons]
  induction h generalizing steps with
  | block block =>
    have hkind : ((t.scope b).kind != .comprehension) = true := by simpa using block.kind
    rw [hkind]
  | comprehension around there after kind parent undeclared ih =>
    obtain ⟨steps, rfl⟩ : ∃ n, steps = n + 1 := ⟨steps - 1, by omega⟩
    rw [kind, parent]
    exact ih steps (by omega)

theorem enclosingBlock : t.enclosingBlock id = b := by
  rw [ScopeTable.enclosingBlock, ancestors, h.find_ancestorsFrom (Nat.lt_succ_self _)]
  rfl

end

end LiesIn

/-- Scopes stay where they are, and comprehensions without declarations. -/
structure KeepsPlaces (t t' : ScopeTable) : Prop where
  size : t.scopes.size ≤ t'.scopes.size
  kind : ∀ id : ScopeId, id.index < t.scopes.size → (t'.scope id).kind = (t.scope id).kind
  parent : ∀ id : ScopeId, id.index < t.scopes.size → (t'.scope id).parent = (t.scope id).parent
  undeclared : ∀ id : ScopeId, id.index < t.scopes.size → (t.scope id).kind = .comprehension → t.Undeclared id →
    t'.Undeclared id

namespace KeepsPlaces

theorem trans (h : t.KeepsPlaces t') (h' : t'.KeepsPlaces t'') : t.KeepsPlaces t'' where
  size := Nat.le_trans h.size h'.size
  kind id hid := (h'.kind id (Nat.lt_of_lt_of_le hid h.size)).trans (h.kind id hid)
  parent id hid := (h'.parent id (Nat.lt_of_lt_of_le hid h.size)).trans (h.parent id hid)
  undeclared id hid hkind hundeclared :=
    h'.undeclared id (Nat.lt_of_lt_of_le hid h.size) ((h.kind id hid).trans hkind) (h.undeclared id hid hkind hundeclared)

theorem isBlock (h : t.KeepsPlaces t') (hb : t.IsBlock b) : t'.IsBlock b where
  there := Nat.lt_of_lt_of_le hb.there h.size
  kind := by
    rw [h.kind b hb.there]
    exact hb.kind

theorem liesIn (h : t.KeepsPlaces t') (hid : t.LiesIn b id) : t'.LiesIn b id := by
  induction hid with
  | block block => exact .block (h.isBlock block)
  | @comprehension outer id around there after kind parent undeclared ih =>
    refine .comprehension ih (Nat.lt_of_lt_of_le there h.size) after ((h.kind id there).trans kind) ?_
      (h.undeclared id there kind undeclared)
    rw [h.parent id there, parent]

theorem modifyScope (t : ScopeTable) (id : ScopeId) {f} (hkind : ∀ s, (f s).kind = s.kind)
    (hparent : ∀ s, (f s).parent = s.parent)
    (hundeclared : (t.scope id).kind = .comprehension → t.Undeclared id → (f (t.scope id)).globals = [] ∧ (f (t.scope id)).nonlocals = []) :
    t.KeepsPlaces (t.modifyScope id f) where
  size := by simp
  kind i _ := by
    rw [t.scope_modifyScope]
    split
    · exact hkind _
    · rfl
  parent i _ := by
    rw [t.scope_modifyScope]
    split
    · exact hparent _
    · rfl
  undeclared i _ hcomprehension hold := by
    unfold Undeclared
    rw [t.scope_modifyScope]
    split
    · rename_i heq
      obtain ⟨rfl, -⟩ := heq
      exact hundeclared hcomprehension hold
    · exact hold

/-- Names are declared in blocks only. -/
theorem declareGlobal (hb : t.IsBlock b) (name : String) : t.KeepsPlaces (t.declareGlobal b name) :=
  modifyScope t b (fun _ => rfl) (fun _ => rfl) fun hkind => absurd hkind hb.kind

theorem declareNonlocal (hb : t.IsBlock b) (name : String) : t.KeepsPlaces (t.declareNonlocal b name) :=
  modifyScope t b (fun _ => rfl) (fun _ => rfl) fun hkind => absurd hkind hb.kind

end KeepsPlaces

/-- No scope is changed, and no type of a binding widened. New scopes are fresh. -/
structure Untouched (t t' : ScopeTable) : Prop where
  size : t.scopes.size ≤ t'.scopes.size
  scope : ∀ id : ScopeId, id.index < t.scopes.size → t'.scope id = t.scope id
  fresh : ∀ id : ScopeId, t.scopes.size ≤ id.index → (t'.scope id).IsFresh
  bindings : t'.bindings.size = t.bindings.size
  binding : ∀ b : BindingId, (t.binding b).IsReferred (t'.binding b)

namespace Untouched

theorem refl (t : ScopeTable) : t.Untouched t where
  size := Nat.le_refl _
  scope _ _ := rfl
  fresh id hid := by
    rw [t.scope_eq_default hid]
    exact ⟨rfl, rfl, rfl⟩
  bindings := rfl
  binding b := .refl _

theorem trans (h : t.Untouched t') (h' : t'.Untouched t'') : t.Untouched t'' where
  size := Nat.le_trans h.size h'.size
  scope id hid := (h'.scope id (Nat.lt_of_lt_of_le hid h.size)).trans (h.scope id hid)
  fresh id hid := by
    by_cases hlt : id.index < t'.scopes.size
    · rw [h'.scope id hlt]
      exact h.fresh id hid
    · exact h'.fresh id (Nat.le_of_not_lt hlt)
  bindings := h'.bindings.trans h.bindings
  binding b := (h.binding b).trans (h'.binding b)

theorem addRef (t : ScopeTable) (b : BindingId) (node : Span) : t.Untouched (t.addRef b node) where
  size := Nat.le_refl _
  scope _ _ := rfl
  fresh := (refl t).fresh
  bindings := by simp [ScopeTable.addRef]
  binding i := by
    rw [ScopeTable.addRef, t.binding_modifyBinding]
    split
    · exact .addRef _ node
    · exact .refl _

theorem newScope (t : ScopeTable) (kind : ScopeKind) (parent : ScopeId) (path : String) :
    t.Untouched (t.newScope kind parent path).1 where
  size := by simp [ScopeTable.newScope]
  scope id hid := by rw [t.scope_newScope, if_neg (by omega)]
  fresh id hid := by
    rw [t.scope_newScope]
    split
    · exact ⟨rfl, rfl, rfl⟩
    · exact (refl t).fresh id hid
  bindings := rfl
  binding _ := .refl _

/-- A scope that is new has no owner yet. -/
theorem setOwner (h : t.Untouched t') (hid : t.scopes.size ≤ id.index) (c : ClassId) : t.Untouched (t'.setOwner id c) where
  size := by simpa [ScopeTable.setOwner] using h.size
  scope i hi := by
    rw [ScopeTable.setOwner, t'.scope_modifyScope, if_neg]
    · exact h.scope i hi
    · rintro ⟨rfl, -⟩
      omega
  fresh i hi := by
    rw [ScopeTable.setOwner, t'.scope_modifyScope]
    have hfresh := h.fresh i hi
    split
    · exact { hfresh with }
    · exact hfresh
  bindings := h.bindings
  binding := h.binding

theorem keepsPlaces (h : t.Untouched t') : t.KeepsPlaces t' where
  size := h.size
  kind id hid := by rw [h.scope id hid]
  parent id hid := by rw [h.scope id hid]
  undeclared id hid _ hundeclared := by
    unfold Undeclared
    rw [h.scope id hid]
    exact hundeclared

end Untouched

end ScopeTable

namespace Analysis

variable (s : Analysis) (node : Span) (ids : List BindingId)

theorem scopes_addReferences : (s.addReferences node ids).scopes.scopes = s.scopes.scopes :=
  addReferences_relates (R := fun s t => t.scopes.scopes = s.scopes.scopes) (fun _ => rfl) (fun h h' => h'.trans h)
    (fun _ _ => rfl) s ids

theorem slot_addReferences (id : ScopeId) (name : String) :
    (s.addReferences node ids).scopes.slot id name = s.scopes.slot id name := by
  rw [ScopeTable.slot, ScopeTable.slot, ScopeTable.scope, ScopeTable.scope, scopes_addReferences]

theorem untouched_addReferences (s : Analysis) (node : Span) (ids : List BindingId) :
    s.scopes.Untouched (s.addReferences node ids).scopes :=
  addReferences_relates (R := fun s t => s.scopes.Untouched t.scopes) (fun _ => .refl _) .trans
    (fun s b => .addRef s.scopes b node) s ids

theorem untouched_defineClass (s : Analysis) (d : ClassDef) (bases : List Ty) (scope : ScopeId) :
    s.scopes.Untouched (s.defineClass d bases scope).1.scopes :=
  (ScopeTable.Untouched.newScope s.scopes .cls scope _).setOwner (Nat.le_refl _) _

/-- A new scope is there, and nothing is in it. -/
theorem opens_newScope (s : Analysis) (kind : ScopeKind) (parent : ScopeId) (path : String) :
    let new := s.newScope kind parent path
    new.2.index < new.1.scopes.scopes.size ∧ (new.1.scopes.scope new.2).kind = kind ∧ (new.1.scopes.scope new.2).IsFresh := by
  have hnew := s.scopes.scope_newScope kind parent path ⟨s.scopes.scopes.size⟩
  rw [if_pos rfl] at hnew
  refine ⟨?_, congrArg Scope.kind hnew, (ScopeTable.Untouched.newScope s.scopes ..).fresh _ (Nat.le_refl _)⟩
  simp [Analysis.newScope, ScopeTable.newScope]

section

variable (s : Analysis) (scope id : ScopeId) (name n : String) (node : Span) (ty : Ty)
  (kind : BindingKind)

/-- To bind a name is to insert it, as far as scopes go. -/
theorem scopes_bind :
    (s.bind scope name node ty kind).1.scopes.scopes = (s.scopes.insert scope name node ty kind).1.scopes := by
  rcases (s.bind_cases scope name node ty kind).2 with he | he <;> rw [he]
  rw [scopes_addReferences]

/-- No scope is changed but for its names. -/
theorem exists_table_bind (id : ScopeId) :
    ∃ table, (s.bind scope name node ty kind).1.scopes.scope id = { s.scopes.scope id with table } := by
  rw [ScopeTable.scope, s.scopes_bind, ← ScopeTable.scope]
  exact s.scopes.exists_table_insert scope name node ty kind id

theorem keepsPlaces_bind : s.scopes.KeepsPlaces (s.bind scope name node ty kind).1.scopes where
  size := by
    rw [s.scopes_bind]
    exact (Sizes.le_insert s.scopes s.types scope name node ty kind).scopes
  kind id _ := by
    obtain ⟨table, heq⟩ := s.exists_table_bind scope name node ty kind id
    rw [heq]
  parent id _ := by
    obtain ⟨table, heq⟩ := s.exists_table_bind scope name node ty kind id
    rw [heq]
  undeclared id _ _ hundeclared := by
    obtain ⟨table, heq⟩ := s.exists_table_bind scope name node ty kind id
    unfold ScopeTable.Undeclared
    rw [heq]
    exact hundeclared

theorem slot_bind :
    (s.bind scope name node ty kind).1.scopes.slot id n = (s.scopes.insert scope name node ty kind).1.slot id n := by
  rw [ScopeTable.slot, ScopeTable.scope, s.scopes_bind]
  rfl

/-- The binding is in the scope that it was made for. -/
theorem mem_slot_bind (hscope : scope.index < s.scopes.scopes.size) :
    (s.bind scope name node ty kind).2 ∈ (s.bind scope name node ty kind).1.scopes.slot scope name := by
  rw [slot_bind, (s.bind_cases scope name node ty kind).1]
  exact s.scopes.mem_slot_insert hscope name node ty kind

theorem slot_bind_of_ne {id} (hid : scope ≠ id) (n : String) :
    (s.bind scope name node ty kind).1.scopes.slot id n = s.scopes.slot id n := by
  rw [slot_bind, s.scopes.slot_insert_of_ne fun h => hid h.1]

end

end Analysis

/-- The spot is there. -/
structure Spot.In (p : Spot) (t : ScopeTable) : Prop where
  lies : t.LiesIn p.block p.scope
  inner : (t.scope p.scope).kind = .comprehension ↔ p.inner = true

namespace Spot

variable {p : Spot} {t t' : ScopeTable} {b : ScopeId}

theorem in_ofBlock (h : t.IsBlock b) : (ofBlock b).In t :=
  ⟨.block h, fun hkind => absurd hkind h.kind, nofun⟩

theorem in_of_liesIn {scope} (h : t.LiesIn b scope) :
    (Spot.mk b scope ((t.scope scope).kind = .comprehension)).In t :=
  ⟨h, decide_eq_true_iff.symm⟩

theorem In.isBlock (h : (ofBlock b).In t) : t.IsBlock b :=
  ⟨h.lies.there, fun hkind => Bool.noConfusion (h.inner.1 hkind)⟩

theorem In.keep (h : p.In t) (hkeeps : t.KeepsPlaces t') : p.In t' where
  lies := hkeeps.liesIn h.lies
  inner := by
    rw [hkeeps.kind _ h.lies.there]
    exact h.inner

end Spot

/-! ### What becomes of binders -/

/-- Code with the given binders was run in the block, from the first state to the second one.
What is bound with `here` stays in the block, whatever it declares. -/
inductive Placed : ScopeId → List Binder → Analysis → Analysis → Prop where
  | untouched {b : ScopeId} {s t : Analysis} (same : s.scopes.Untouched t.scopes) : Placed b [] s t
  | trans {b : ScopeId} {s t u : Analysis} {l l' : List Binder} (first : Placed b l s t) (rest : Placed b l' t u) :
      Placed b (l ++ l') s u
  | bound {b : ScopeId} {s : Analysis} (n : Ident) (ty : Ty) (kind : BindingKind) :
      Placed b [.bound n] s (s.bind (s.scopes.targetScope b n.name) n.name n.span ty kind).1
  | clause {b inner : ScopeId} {s : Analysis} (n : Ident) (ty : Ty) (kind : BindingKind)
      (lies : s.scopes.LiesIn b inner) (comprehension : (s.scopes.scope inner).kind = .comprehension) :
      Placed b [.clause n] s (s.bind inner n.name n.span ty kind).1
  | global {b : ScopeId} {s : Analysis} (n : Ident) (block : s.scopes.IsBlock b) :
      Placed b [.global n] s (s.declareGlobal b n.name)
  | nonlocal {b : ScopeId} {s : Analysis} (n : Ident) (block : s.scopes.IsBlock b) :
      Placed b [.nonlocal n] s (s.declareNonlocal b n.name)
  | here {b : ScopeId} {s : Analysis} (n : Ident) (node : Span) (m : ModuleId) :
      Placed b [.here n] s (s.bind b n.name node (.module m) .module).1
  | imported {b : ScopeId} {s t : Analysis} {path : List Ident} {n : Ident} (segment : n ∈ path)
      (run : Placed b [.here n] s t) : Placed b [.module path] s t
  | missed {b : ScopeId} {s t : Analysis} {path : List Ident} {n : Ident} (first : path.head? = some n)
      (run : Placed b [.bound n] s t) : Placed b [.module path] s t
  | partly {b : ScopeId} {s t : Analysis} {path : List Ident} {n n' : Ident} (segment : n' ∈ path)
      (first : path.head? = some n) (run : Placed b [.here n', .bound n] s t) : Placed b [.module path] s t
  | unlisted {b : ScopeId} {s t : Analysis} (names : List Ident) (run : Placed b (names.map .bound) s t) :
      Placed b [.unlisted] s t
  | cls {b body : ScopeId} {s t : Analysis} {l : List Binder} (kind : (s.scopes.scope body).kind = .cls)
      (parent : (s.scopes.scope body).parent = some b) (run : Placed body l s t) : Placed b [.cls l] s t
  | attribute {b scope : ScopeId} {s : Analysis} {a : Atom} (attr : Ident) (ty : Ty)
      (assigned : s.attributeScope? a = some scope) :
      Placed b [] s (s.bind scope attr.name attr.span ty .attribute).1
  | member {b : ScopeId} {s : Analysis} (parent m : ModuleId) (name : String) (node : Span) :
      Placed b [] s (s.bind (s.types.module parent).scope name node (.module m) .module).1
  | enter {b body : ScopeId} {s t : Analysis} (block : Block) (kind : (s.scopes.scope body).kind = block.kind)
      (fresh : (s.scopes.scope body).IsFresh) (run : Placed body block.binders s t) : Placed b [] s t

namespace Placed

variable {b : ScopeId} {s t u : Analysis} {l l' : List Binder}

theorem refl (b : ScopeId) (s : Analysis) : Placed b [] s s := .untouched (.refl _)

theorem then_nil (first : Placed b l s t) (rest : Placed b [] t u) : Placed b l s u := by
  have h := first.trans rest
  rwa [List.append_nil] at h

theorem keepsPlaces (h : Placed b l s t) : s.scopes.KeepsPlaces t.scopes := by
  induction h with
  | untouched same => exact same.keepsPlaces
  | trans first rest ih ih' => exact ih.trans ih'
  | bound n ty kind => exact Analysis.keepsPlaces_bind ..
  | clause n ty kind lies comprehension => exact Analysis.keepsPlaces_bind ..
  | «global» n block => exact .declareGlobal block n.name
  | nonlocal n block => exact .declareNonlocal block n.name
  | here n node m => exact Analysis.keepsPlaces_bind ..
  | imported segment run ih => exact ih
  | missed first run ih => exact ih
  | partly segment first run ih => exact ih
  | unlisted names run ih => exact ih
  | cls kind parent run ih => exact ih
  | «attribute» attr ty assigned => exact Analysis.keepsPlaces_bind ..
  | member parent m name node => exact Analysis.keepsPlaces_bind ..
  | enter block kind fresh run ih => exact ih

end Placed

end TypeInfer
