/-
Slots. A slot is what a name has in a scope: each binding is in one slot, under its own name; a slot
holds at most one binding that is no declaration, and no declaration twice (`ScopeTable.Regular`).
A definition widens the type of its slot and of no other (`localType_insert`), so the order of
definitions does not matter.
-/
import TypeInfer.Proofs.Tables
import TypeInfer.Proofs.Widening

namespace TypeInfer

open List

/-- Neither is a declaration, or both are of one kind and type. -/
def Binding.Clashes (b c : Binding) : Prop :=
  (b.kind.isDeclaration = false ∧ c.kind.isDeclaration = false) ∨
    (b.kind.isDeclaration ∧ b.kind = c.kind ∧ b.ty = c.ty)

theorem Binding.Clashes.symm {b c : Binding} (h : b.Clashes c) : c.Clashes b := by
  rcases h with ⟨hb, hc⟩ | ⟨hdecl, hkind, hty⟩
  · exact .inl ⟨hc, hb⟩
  · exact .inr ⟨hkind ▸ hdecl, hkind.symm, hty.symm⟩

namespace ScopeTable

variable {b : BindingId} {ids : List BindingId}

/-! ### Changes -/

/-- A definition of a name in a scope. -/
structure Insertion where
  scope : ScopeId
  name : String
  node : Span
  ty : Ty
  kind : BindingKind

/-- What may be done to a table of scopes. -/
inductive Change where
  | newScope (kind : ScopeKind) (parent : ScopeId) (path : String)
  | insert (i : Insertion)
  | declareGlobal (scope : ScopeId) (name : String)
  | declareNonlocal (scope : ScopeId) (name : String)
  | setOwner (scope : ScopeId) (owner : ClassId)

/-- The scope that a change starts from. -/
def Change.scope : Change → ScopeId
  | .newScope _ parent _ => parent
  | .insert i => i.scope
  | .declareGlobal scope _ | .declareNonlocal scope _ | .setOwner scope _ => scope

def define (t : ScopeTable) (i : Insertion) : ScopeTable := (t.insert i.scope i.name i.node i.ty i.kind).1

def change (t : ScopeTable) : Change → ScopeTable
  | .newScope kind parent path => (t.newScope kind parent path).1
  | .insert i => t.define i
  | .declareGlobal scope name => t.declareGlobal scope name
  | .declareNonlocal scope name => t.declareNonlocal scope name
  | .setOwner scope owner => t.setOwner scope owner

/-- The table after changes, one after the other. -/
def after (t : ScopeTable) (changes : List Change) : ScopeTable := changes.foldl change t

/-- Each change starts from a scope that is there by then. -/
def Fits (t : ScopeTable) : List Change → Prop
  | [] => True
  | c :: changes => c.scope.index < t.scopes.size ∧ Fits (t.change c) changes

instance decidableFits : (t : ScopeTable) → (changes : List Change) → Decidable (t.Fits changes)
  | _, [] => .isTrue trivial
  | t, c :: changes =>
    have := decidableFits (t.change c) changes
    inferInstanceAs (Decidable (_ ∧ _))

/-- Scopes form a tree. Each binding is in one slot, by its name and path. Slots list their bindings in
order: one at most that is no declaration, and no two declarations of one kind and type. -/
structure Regular (t : ScopeTable) : Prop where
  root : 0 < t.scopes.size ∧ (t.scope globalScope).parent = none
  parent : ∀ id : ScopeId, 0 < id.index → id.index < t.scopes.size →
    ∃ p, (t.scope id).parent = some p ∧ p.index < id.index
  home : ∀ b : BindingId, b.index < t.bindings.size → ∃! slot : ScopeId × String, b ∈ t.slot slot.1 slot.2
  member : ∀ id name, ∀ b ∈ t.slot id name, id.index < t.scopes.size ∧ b.index < t.bindings.size ∧
    (t.binding b).name = name ∧ (t.binding b).qname = t.extendPath id name
  inhabited : ∀ id name, name ∈ (t.scope id).table → t.slot id name ≠ []
  ascending : ∀ id name, (t.slot id name).Pairwise (·.index < ·.index)
  apart : ∀ id name, ∀ b ∈ t.slot id name, ∀ c ∈ t.slot id name, (t.binding b).Clashes (t.binding c) → b = c

variable {t t' : ScopeTable} {id : ScopeId} {name : String} {node : Span} {ty : Ty} {kind : BindingKind}

/-- A scope that is not there has no slots. -/
theorem slot_eq_nil (h : t.scopes.size ≤ id.index) (name : String) : t.slot id name = [] := by
  rw [slot, t.scope_eq_default h]
  rfl

theorem slot_empty (id : ScopeId) (name : String) : empty.slot id name = [] := by
  obtain ⟨i⟩ := id
  cases i with
  | zero => rfl
  | succ i => exact slot_eq_nil (t := empty) (Nat.le_add_left 1 i) name

theorem regular_empty : empty.Regular := by
  constructor
  case root => exact ⟨Nat.zero_lt_one, rfl⟩
  case parent => exact fun id hpos hlt => absurd (Nat.lt_one_iff.1 hlt) (Nat.ne_of_gt hpos)
  case home => exact fun b hb => absurd hb (Nat.not_lt_zero _)
  case inhabited =>
    rintro ⟨i⟩ name hname
    cases i with
    | zero => exact absurd hname Std.TreeMap.not_mem_emptyc
    | succ i =>
      rw [empty.scope_eq_default (Nat.le_add_left 1 i)] at hname
      exact absurd hname Std.TreeMap.not_mem_emptyc
  all_goals simp [slot_empty]

namespace Regular

section

variable (h : t.Regular)
include h

/-- Scopes change and are made, but not the slots. -/
theorem of_slots (hbindings : t'.bindings = t.bindings) (hsize : t.scopes.size ≤ t'.scopes.size)
    (hold : ∀ id : ScopeId, id.index < t.scopes.size → (t'.scope id).parent = (t.scope id).parent ∧ (t'.scope id).path = (t.scope id).path ∧ (t'.scope id).table = (t.scope id).table)
    (hnew : ∀ id : ScopeId, t.scopes.size ≤ id.index → (t'.scope id).table = ∅ ∧ (id.index < t'.scopes.size → ∃ p, (t'.scope id).parent = some p ∧ p.index < id.index)) :
    t'.Regular := by
  have hbinding : ∀ b, t'.binding b = t.binding b := fun b => by rw [binding, binding, hbindings]
  have hslot : ∀ id name, t'.slot id name = t.slot id name := by
    intro id name
    rcases Nat.lt_or_ge id.index t.scopes.size with hid | hid
    · rw [slot, slot, (hold id hid).2.2]
    · rw [slot_eq_nil hid, slot, (hnew id hid).1]
      rfl
  constructor
  case root => exact ⟨Nat.lt_of_lt_of_le h.root.1 hsize, ((hold _ h.root.1).1).trans h.root.2⟩
  case parent =>
    intro id hpos hlt
    rcases Nat.lt_or_ge id.index t.scopes.size with hid | hid
    · rw [(hold id hid).1]
      exact h.parent id hpos hid
    · exact (hnew id hid).2 hlt
  case home =>
    simp only [hbindings, hslot]
    exact h.home
  case member =>
    intro id name b hb
    rw [hslot] at hb
    obtain ⟨hid, hlt, hname, hqname⟩ := h.member id name b hb
    rw [hbindings, hbinding]
    refine ⟨Nat.lt_of_lt_of_le hid hsize, hlt, hname, hqname.trans ?_⟩
    rw [extendPath, extendPath, (hold id hid).2.1]
  case inhabited =>
    intro id name hname
    rw [hslot]
    rcases Nat.lt_or_ge id.index t.scopes.size with hid | hid
    · rw [(hold id hid).2.2] at hname
      exact h.inhabited id name hname
    · rw [(hnew id hid).1] at hname
      exact absurd hname Std.TreeMap.not_mem_emptyc
  case ascending =>
    simp only [hslot]
    exact h.ascending
  case apart =>
    simp only [hslot, hbinding]
    exact h.apart

theorem newScope (kind : ScopeKind) {parent} (path : String) (hparent : parent.index < t.scopes.size) :
    (t.newScope kind parent path).1.Regular := by
  refine h.of_slots rfl (by simp [ScopeTable.newScope]) (fun id hid => ?_) fun id hid => ?_
  · rw [scope_newScope, if_neg (Nat.ne_of_lt hid)]
    exact ⟨rfl, rfl, rfl⟩
  · rw [scope_newScope]
    split
    · rename_i hnew
      exact ⟨rfl, fun _ => ⟨parent, rfl, hnew ▸ hparent⟩⟩
    · rename_i hne
      rw [t.scope_eq_default hid]
      refine ⟨rfl, fun hlt => absurd hlt ?_⟩
      simp only [ScopeTable.newScope, Array.size_push]
      omega

theorem modifyScope (id : ScopeId) {f} (hf : ∀ s, (f s).parent = s.parent ∧ (f s).path = s.path ∧ (f s).table = s.table) :
    (t.modifyScope id f).Regular := by
  refine h.of_slots rfl (by simp) (fun i _ => ?_) fun i hi => ?_
  · rw [scope_modifyScope]
    split
    · exact hf _
    · exact ⟨rfl, rfl, rfl⟩
  · rw [scope_modifyScope, if_neg (fun hs => Nat.not_lt.2 hi hs.2), t.scope_eq_default hi, size_scopes_modifyScope]
    exact ⟨rfl, fun hlt => absurd hlt (Nat.not_lt.2 hi)⟩

theorem modifyBinding (b : BindingId) {f}
    (hf : (f (t.binding b)).name = (t.binding b).name ∧ (f (t.binding b)).qname = (t.binding b).qname ∧ (f (t.binding b)).kind = (t.binding b).kind ∧ ((t.binding b).kind.isDeclaration → (f (t.binding b)).ty = (t.binding b).ty)) :
    (t.modifyBinding b f).Regular := by
  have hbinding := t.binding_modifyBinding b (f := f)
  generalize ht' : t.modifyBinding b f = t' at hbinding ⊢
  have hkeeps : ∀ c, (t'.binding c).name = (t.binding c).name ∧ (t'.binding c).qname = (t.binding c).qname ∧
      (t'.binding c).kind = (t.binding c).kind ∧ ((t.binding c).kind.isDeclaration → (t'.binding c).ty = (t.binding c).ty) := by
    intro c
    rw [hbinding]
    split
    · rename_i hsame
      rw [← hsame.1]
      exact hf
    · exact ⟨rfl, rfl, rfl, fun _ => rfl⟩
  have hclashes : ∀ {c c'}, (t'.binding c).Clashes (t'.binding c') → (t.binding c).Clashes (t.binding c') := by
    intro c c' hclash
    obtain ⟨-, -, hkind, hty⟩ := hkeeps c
    obtain ⟨-, -, hkind', hty'⟩ := hkeeps c'
    rw [Binding.Clashes, hkind, hkind'] at hclash
    refine hclash.imp_right fun ⟨hdecl, hsame, heq⟩ => ⟨hdecl, hsame, ?_⟩
    rwa [hty hdecl, hty' (hsame ▸ hdecl)] at heq
  subst ht'
  refine { h with home := ?_, member := fun id name c hc => ?_, apart := fun id name c hc c' hc' hclash => ?_ }
  · rw [size_bindings_modifyBinding]
    exact h.home
  · obtain ⟨hid, hlt, hname, hqname⟩ := h.member id name c hc
    obtain ⟨hname', hqname', -⟩ := hkeeps c
    exact ⟨hid, by rwa [size_bindings_modifyBinding], hname'.trans hname, hqname'.trans hqname⟩
  · exact h.apart id name c hc c' hc' (hclashes hclash)

/-- A binding that is no declaration is widened. -/
theorem widen {b} (hb : (t.binding b).kind.isDeclaration = false) (ty : Ty) :
    (t.modifyBinding b fun old => { old with ty := old.ty.merge ty }).Regular :=
  h.modifyBinding b ⟨rfl, rfl, rfl, fun hdecl => absurd (hdecl.symm.trans hb) Bool.true_eq_false.mp⟩

theorem mem_slot_addBinding {id' : ScopeId} {name' : String} {b : BindingId}
    (hb : b ∈ (t.addBinding id name node ty kind).1.slot id' name') :
    (b ∈ t.slot id' name' ∧ (t.addBinding id name node ty kind).1.binding b = t.binding b) ∨
      (id' = id ∧ name' = name ∧ b = ⟨t.bindings.size⟩ ∧ (t.addBinding id name node ty kind).1.binding b =
        { name, node, ty, kind, qname := t.extendPath id name }) := by
  have hold : b ∈ t.slot id' name' → (t.addBinding id name node ty kind).1.binding b = t.binding b := fun hb =>
    (t.binding_addBinding id name node ty kind b).trans (if_neg (Nat.ne_of_lt (h.member id' name' b hb).2.1))
  rw [slot_addBinding] at hb
  split at hb
  · rename_i hsame
    rcases mem_append.1 hb with hb | hb
    · exact .inl ⟨hb, hold hb⟩
    · obtain rfl := mem_singleton.1 hb
      exact .inr ⟨hsame.1.1.symm, hsame.2.symm, rfl, (t.binding_addBinding id name node ty kind _).trans (if_pos rfl)⟩
  · exact .inl ⟨hb, hold hb⟩

theorem home_addBinding (hid : id.index < t.scopes.size) {b : BindingId} (hb : b.index < t.bindings.size + 1) :
    ∃! slot : ScopeId × String, b ∈ (t.addBinding id name node ty kind).1.slot slot.1 slot.2 := by
  rcases Nat.lt_succ_iff_lt_or_eq.1 hb with hb | hb
  · obtain ⟨place, hplace, hunique⟩ := h.home b hb
    refine ⟨place, ?_, fun other hother => ?_⟩
    · dsimp only
      rw [slot_addBinding]
      split
      · exact mem_append_left _ hplace
      · exact hplace
    · rcases h.mem_slot_addBinding hother with ⟨hother, -⟩ | ⟨-, -, hnew, -⟩
      · exact hunique other hother
      · exact absurd (congrArg BindingId.index hnew) (Nat.ne_of_lt hb)
  · obtain rfl : b = ⟨t.bindings.size⟩ := congrArg BindingId.mk hb
    refine ⟨(id, name), ?_, fun other hother => ?_⟩
    · dsimp only
      rw [slot_addBinding, if_pos ⟨⟨rfl, hid⟩, rfl⟩]
      exact mem_append_right _ mem_cons_self
    · rcases h.mem_slot_addBinding hother with ⟨hother, -⟩ | ⟨hid', hname', -, -⟩
      · exact absurd (h.member _ _ _ hother).2.1 (Nat.lt_irrefl _)
      · exact Prod.ext hid' hname'

theorem addBinding (hid : id.index < t.scopes.size) (node : Span)
    (hnone : ∀ c ∈ t.slot id name, ¬ (t.binding c).Clashes { name, node, ty, kind, qname := t.extendPath id name }) :
    (t.addBinding id name node ty kind).1.Regular := by
  have hscopes := t.size_scopes_addBinding id name node ty kind
  have hscope : ∀ id', ((t.addBinding id name node ty kind).1.scope id').parent = (t.scope id').parent ∧
      ((t.addBinding id name node ty kind).1.scope id').path = (t.scope id').path := by
    intro id'
    rw [scope_addBinding]
    split <;> exact ⟨rfl, rfl⟩
  constructor
  case root => exact ⟨hscopes.symm ▸ h.root.1, (hscope _).1.trans h.root.2⟩
  case parent =>
    intro id' hpos hlt
    rw [(hscope id').1]
    exact h.parent id' hpos (hscopes ▸ hlt)
  case home =>
    rw [size_bindings_addBinding]
    exact fun b hb => h.home_addBinding hid hb
  case member =>
    intro id' name' b hb
    rw [hscopes, size_bindings_addBinding, extendPath, (hscope id').2]
    rcases h.mem_slot_addBinding hb with ⟨hb, hsame⟩ | ⟨rfl, rfl, rfl, hnew⟩
    · obtain ⟨hid', hlt, hrest⟩ := h.member id' name' b hb
      rw [hsame]
      exact ⟨hid', Nat.lt_succ_of_lt hlt, hrest⟩
    · rw [hnew]
      exact ⟨hid, Nat.lt_succ_self _, rfl, rfl⟩
  case inhabited =>
    intro id' name' hname'
    rw [slot_addBinding]
    split
    · exact append_ne_nil_of_right_ne_nil _ (cons_ne_nil _ _)
    · rename_i hother
      refine h.inhabited id' name' ?_
      rw [scope_addBinding] at hname'
      split at hname'
      · rename_i hsame
        rcases Std.TreeMap.mem_insert.1 hname' with heq | hname'
        · exact absurd ⟨hsame, Std.LawfulEqCmp.eq_of_compare heq⟩ hother
        · exact hname'
      · exact hname'
  case ascending =>
    intro id' name'
    rw [slot_addBinding]
    split
    · refine pairwise_append.2 ⟨h.ascending id' name', pairwise_singleton .., fun b hb c hc => ?_⟩
      rw [mem_singleton.1 hc]
      exact (h.member id' name' b hb).2.1
    · exact h.ascending id' name'
  case apart =>
    intro id' name' b hb c hc hclash
    rcases h.mem_slot_addBinding hb with ⟨hold, hsame⟩ | ⟨rfl, rfl, rfl, hnew⟩ <;>
      rcases h.mem_slot_addBinding hc with ⟨hold', hsame'⟩ | ⟨hid', hname', rfl, hnew'⟩
    · rw [hsame, hsame'] at hclash
      exact h.apart id' name' b hold c hold' hclash
    · subst hid' hname'
      rw [hsame, hnew'] at hclash
      exact absurd hclash (hnone b hold)
    · rw [hnew, hsame'] at hclash
      exact absurd hclash.symm (hnone c hold')
    · rfl

end

end Regular

theorem not_clashes_of_not_received (h : t.receiver? id name ty kind = none) {c}
    (hc : c ∈ t.slot id name) (node : Span) (qname : String) :
    ¬ (t.binding c).Clashes { name, node, ty, kind, qname } := by
  unfold receiver? at h
  dsimp only at h
  split at h
  · rename_i hdecl
    rw [Option.map_eq_none_iff, find?_eq_none] at h
    rintro (⟨-, hnot⟩ | ⟨-, hkind, hty⟩)
    · exact Bool.false_ne_true (hnot.symm.trans hdecl)
    · refine h c hc ?_
      rw [Bool.and_eq_true, beq_iff_eq, beq_iff_eq]
      exact ⟨hkind, hty⟩
  · rename_i hnot
    rw [Option.map_eq_none_iff, find?_eq_none] at h
    have hdecl : (t.binding c).kind.isDeclaration := by simpa using h c (mem_reverse.2 hc)
    rintro (⟨hnot', -⟩ | ⟨-, hkind, -⟩)
    · exact Bool.false_ne_true (hnot'.symm.trans hdecl)
    · rw [hkind] at hdecl
      exact hnot hdecl

/-- A definition that is received makes no binding. -/
theorem not_received_of_new (h : (t.insert id name node ty kind).2 = .new b) :
    t.receiver? id name ty kind = none := by
  cases hreceiver : t.receiver? id name ty kind with
  | none => rfl
  | some inserted =>
    rw [insert, hreceiver] at h
    cases inserted with
    | merged b => cases h
    | existing b => cases h
    | new b =>
      unfold receiver? at hreceiver
      dsimp only at hreceiver
      split at hreceiver <;> simp at hreceiver

namespace Regular

theorem insert (h : t.Regular) (hid : id.index < t.scopes.size) (name : String) (node : Span) (ty : Ty)
    (kind : BindingKind) : (t.insert id name node ty kind).1.Regular := by
  rcases t.insert_cases id name node ty kind with ⟨_, -, -, -, -, heq⟩ | ⟨b, -, -, hb, heq⟩ | heq
  · rw [heq]
    exact h
  · rw [heq]
    exact h.widen hb ty
  · have hreceiver := not_received_of_new (congrArg Prod.snd heq)
    rw [heq]
    exact h.addBinding hid node fun c hc => not_clashes_of_not_received hreceiver hc node _

theorem change (h : t.Regular) {c} (hc : c.scope.index < t.scopes.size) : (t.change c).Regular := by
  cases c with
  | newScope kind parent path => exact h.newScope kind path hc
  | insert i => exact h.insert hc i.name i.node i.ty i.kind
  | declareGlobal scope name => exact h.modifyScope scope fun _ => ⟨rfl, rfl, rfl⟩
  | declareNonlocal scope name => exact h.modifyScope scope fun _ => ⟨rfl, rfl, rfl⟩
  | setOwner scope owner => exact h.modifyScope scope fun _ => ⟨rfl, rfl, rfl⟩

theorem after (h : t.Regular) {changes : List Change} (hfits : t.Fits changes) : (t.after changes).Regular := by
  induction changes generalizing t with
  | nil => exact h
  | cons c changes ih => exact ih (h.change hfits.1) hfits.2

end Regular

/-- After any changes of the empty table, each of which starts from a scope that is there, the table is
regular. -/
theorem scope_tables_are_regular {changes : List Change} (hfits : empty.Fits changes) : (empty.after changes).Regular :=
  regular_empty.after hfits

/-- A name that is a variable and two functions in turn, in a function where it is also declared
global. -/
def redefined : List Change :=
  let define (ty : Ty) (kind : BindingKind) : Change := .insert ⟨⟨2⟩, "f", default, ty, kind⟩
  [.newScope .module globalScope "m", .newScope .function ⟨1⟩ "m.g", define (.prim .int) .variable,
    define (.function ⟨0⟩) .function, .declareGlobal ⟨2⟩ "f", define (.function ⟨1⟩) .function,
    define (.prim .str) .parameter, define (.function ⟨0⟩) .function]

theorem scope_tables_are_regular_redefined : empty.Fits redefined ∧ (empty.after redefined).Regular ∧
    (empty.after redefined).slot ⟨2⟩ "f" = [⟨0⟩, ⟨1⟩, ⟨2⟩] := by
  have hfits : empty.Fits redefined := by decide +kernel
  exact ⟨hfits, scope_tables_are_regular hfits, by decide +kernel⟩

/-! ### The type of a slot -/

/-- The type that a name has in the scope itself; unknown where it is not bound. -/
def localType (t : ScopeTable) (id : ScopeId) (name : String) : Ty :=
  ((t.lookupLocal id name).map t.typeOf).getD .unknown

theorem localType_eq (t : ScopeTable) (id : ScopeId) (name : String) : t.localType id name = t.typeOf (t.slot id name) := by
  unfold localType lookupLocal
  dsimp only
  split
  · rename_i hempty
    rw [List.isEmpty_iff.1 hempty]
    rfl
  · rfl

theorem typeOf_congr (h : ∀ b ∈ ids, (t'.binding b).ty = (t.binding b).ty) :
    t'.typeOf ids = t.typeOf ids := by
  rw [typeOf, typeOf, map_congr_left h]

theorem mem_atoms_typeOf {x} :
    x ∈ (t.typeOf ids).atoms ↔ ∃ b ∈ ids, x ∈ (t.binding b).ty.atoms := by
  simp [typeOf, Ty.mem_atoms_union]

/-- A slot that has the type already is not changed by it. -/
theorem merge_typeOf_of_mem (hb : b ∈ ids) :
    (t.typeOf ids).merge (t.binding b).ty = t.typeOf ids := by
  refine Ty.ext_atoms fun x => ?_
  rw [Ty.mem_atoms_merge]
  exact ⟨fun h => h.elim id fun hx => mem_atoms_typeOf.2 ⟨b, hb, hx⟩, .inl⟩

/-- Widening a binding widens the slots that it is in. -/
theorem typeOf_widen (hb : b ∈ ids) (hlt : b.index < t.bindings.size) (ty : Ty) :
    (t.modifyBinding b fun old => { old with ty := old.ty.merge ty }).typeOf ids = (t.typeOf ids).merge ty := by
  refine Ty.ext_atoms fun x => ?_
  simp only [Ty.mem_atoms_merge, mem_atoms_typeOf, binding_modifyBinding]
  constructor
  · rintro ⟨c, hc, hx⟩
    split at hx
    · rcases Ty.mem_atoms_merge.1 hx with hx | hx
      · exact .inl ⟨c, hc, hx⟩
      · exact .inr hx
    · exact .inl ⟨c, hc, hx⟩
  · rintro (⟨c, hc, hx⟩ | hx)
    · refine ⟨c, hc, ?_⟩
      split
      · exact Ty.mem_atoms_merge.2 (.inl hx)
      · exact hx
    · refine ⟨b, hb, ?_⟩
      rw [if_pos ⟨rfl, hlt⟩]
      exact Ty.mem_atoms_merge.2 (.inr hx)

namespace Regular

/-- Widening a binding leaves the other slots alone. -/
theorem localType_widen (h : t.Regular) {b} (hb : b ∈ t.slot id name) (ty : Ty) (id' : ScopeId)
    (name' : String) :
    (t.modifyBinding b fun old => { old with ty := old.ty.merge ty }).localType id' name' =
      if id' = id ∧ name' = name then (t.localType id name).merge ty else t.localType id' name' := by
  have hlt := (h.member id name b hb).2.1
  rw [localType_eq, localType_eq, localType_eq]
  split
  · rename_i hsame
    rw [hsame.1, hsame.2]
    exact typeOf_widen hb hlt ty
  · rename_i hother
    refine typeOf_congr fun c hc => ?_
    rw [binding_modifyBinding, if_neg]
    rintro ⟨rfl, -⟩
    obtain ⟨place, -, hunique⟩ := h.home b hlt
    exact hother (Prod.mk.inj ((hunique (id', name') hc).trans (hunique (id, name) hb).symm))

theorem localType_addBinding (h : t.Regular) (hid : id.index < t.scopes.size) (name : String) (node : Span) (ty : Ty)
    (kind : BindingKind) (id' : ScopeId) (name' : String) :
    (t.addBinding id name node ty kind).1.localType id' name' =
      if id' = id ∧ name' = name then (t.localType id name).merge ty else t.localType id' name' := by
  have hold : ∀ id' name', (t.addBinding id name node ty kind).1.typeOf (t.slot id' name') = t.typeOf (t.slot id' name') := by
    refine fun id' name' => typeOf_congr fun c hc => ?_
    rw [binding_addBinding, if_neg (Nat.ne_of_lt (h.member id' name' c hc).2.1)]
  rw [localType_eq, localType_eq, localType_eq, slot_addBinding]
  split
  · rename_i hsame
    obtain ⟨⟨rfl, -⟩, rfl⟩ := hsame
    refine Ty.ext_atoms fun x => ?_
    rw [if_pos ⟨rfl, rfl⟩, ← hold, Ty.mem_atoms_merge, mem_atoms_typeOf, mem_atoms_typeOf]
    simp [or_and_right, exists_or, binding_addBinding]
  · rename_i hother
    have hne : ¬ (id' = id ∧ name' = name) := fun hsame => hother ⟨⟨hsame.1.symm, hsame.1 ▸ hid⟩, hsame.2.symm⟩
    rw [if_neg hne]
    exact hold id' name'

/-- A definition widens the type of its slot, whatever becomes of it there, and that of no
other. -/
theorem localType_insert (h : t.Regular) (hid : id.index < t.scopes.size) (name : String) (node : Span) (ty : Ty)
    (kind : BindingKind) (id' : ScopeId) (name' : String) :
    (t.insert id name node ty kind).1.localType id' name' =
      if id' = id ∧ name' = name then (t.localType id name).merge ty else t.localType id' name' := by
  rcases t.insert_cases id name node ty kind with ⟨b, hb, -, -, hty, heq⟩ | ⟨b, hb, -, -, heq⟩ | heq
  · rw [heq]
    split
    · rename_i hsame
      rw [hsame.1, hsame.2, localType_eq, ← hty, merge_typeOf_of_mem hb]
    · rfl
  · rw [heq]
    exact h.localType_widen hb ty id' name'
  · rw [heq]
    exact h.localType_addBinding hid name node ty kind id' name'

end Regular

/-! ### Sequences of definitions -/

/-- The type that a change brings to a slot. -/
def Change.brings? (id : ScopeId) (name : String) : Change → Option Ty
  | .insert i => if id = i.scope ∧ name = i.name then some i.ty else none
  | _ => none

/-- The types that changes bring to a slot, in order. -/
def brought (changes : List Change) (id : ScopeId) (name : String) : List Ty := changes.filterMap (Change.brings? id name)

theorem Regular.localType_change (h : t.Regular) {c} (hc : c.scope.index < t.scopes.size)
    (id : ScopeId) (name : String) :
    (t.change c).localType id name = (t.localType id name).merge ((c.brings? id name).getD .unknown) := by
  have hslots : (∀ b, (t.change c).binding b = t.binding b) → (t.change c).slot id name = t.slot id name →
      (t.change c).localType id name = (t.localType id name).merge .unknown := by
    intro hbinding hslot
    rw [localType_eq, localType_eq, hslot]
    exact (typeOf_congr fun b _ => by rw [hbinding]).trans (sup_bot_eq (t.typeOf (t.slot id name))).symm
  have hmodified : ∀ {scope : ScopeId} {f : Scope → Scope}, (∀ s, (f s).table = s.table) →
      (t.modifyScope scope f).slot id name = t.slot id name := by
    intro scope f hf
    rw [slot, slot, scope_modifyScope]
    split
    · rw [hf]
    · rfl
  cases c with
  | insert i =>
    have hscope : i.scope.index < t.scopes.size := hc
    refine (h.localType_insert hscope i.name i.node i.ty i.kind id name).trans ?_
    by_cases hsame : id = i.scope ∧ name = i.name
    · rw [Change.brings?, if_pos hsame, if_pos hsame, hsame.1, hsame.2]
      rfl
    · rw [Change.brings?, if_neg hsame, if_neg hsame]
      exact (sup_bot_eq (t.localType id name)).symm
  | newScope kind parent path =>
    refine hslots (fun _ => rfl) ?_
    change (t.newScope kind parent path).1.slot id name = _
    rw [slot, scope_newScope]
    split
    · rename_i hnew
      rw [slot_eq_nil (Nat.le_of_eq hnew.symm)]
      rfl
    · rfl
  | declareGlobal scope other => exact hslots (fun _ => rfl) (hmodified fun _ => rfl)
  | declareNonlocal scope other => exact hslots (fun _ => rfl) (hmodified fun _ => rfl)
  | setOwner scope owner => exact hslots (fun _ => rfl) (hmodified fun _ => rfl)

theorem Regular.localType_after (h : t.Regular) {changes : List Change} (hfits : t.Fits changes) (id : ScopeId) (name : String) :
    (t.after changes).localType id name = (t.localType id name).merge (Ty.union (brought changes id name)) := by
  induction changes generalizing t with
  | nil => exact (sup_bot_eq (t.localType id name)).symm
  | cons c changes ih =>
    refine (ih (h.change hfits.1) hfits.2).trans ?_
    rw [h.localType_change hfits.1, brought, brought, filterMap_cons]
    cases c.brings? id name with
    | none => exact congrArg (Ty.merge · _) (sup_bot_eq (t.localType id name))
    | some ty =>
      dsimp only
      rw [Ty.union_cons]
      exact sup_assoc (t.localType id name) ty _

theorem size_scopes_define (t : ScopeTable) (i : Insertion) : (t.define i).scopes.size = t.scopes.size := by
  unfold define
  rcases t.insert_cases i.scope i.name i.node i.ty i.kind with ⟨_, -, -, -, -, heq⟩ | ⟨_, -, -, -, heq⟩ | heq <;> rw [heq]
  · rfl
  · exact size_scopes_addBinding ..

theorem fits_insertions {l : List Insertion} (h : ∀ i ∈ l, i.scope.index < t.scopes.size) : t.Fits (l.map .insert) := by
  induction l generalizing t with
  | nil => trivial
  | cons i l ih =>
    obtain ⟨hi, hl⟩ := forall_mem_cons.1 h
    refine ⟨hi, ih fun j hj => ?_⟩
    rw [change, size_scopes_define]
    exact hl j hj

/-- In a table that any changes of the empty one led to, a definition widens the type of its slot by its
own type and leaves all others alone. After any definitions a slot has what it had and the union of
the types that were brought to it, in whatever order they came. -/
theorem definitions_commute {changes : List Change} (hfits : empty.Fits changes) (ht : empty.after changes = t) :
    (∀ i : Insertion, i.scope.index < t.scopes.size → ∀ id name, (t.define i).localType id name =
      if id = i.scope ∧ name = i.name then (t.localType i.scope i.name).merge i.ty else t.localType id name) ∧
    (∀ l : List Insertion, (∀ i ∈ l, i.scope.index < t.scopes.size) → ∀ id name,
      (t.after (l.map .insert)).localType id name =
        (t.localType id name).merge (Ty.union (brought (l.map .insert) id name))) ∧
    (∀ l l' : List Insertion, l.Perm l' → (∀ i ∈ l, i.scope.index < t.scopes.size) → ∀ id name,
      (t.after (l.map .insert)).localType id name = (t.after (l'.map .insert)).localType id name) ∧
    ∀ id name, t.localType id name = Ty.union (brought changes id name) := by
  have hregular : t.Regular := ht ▸ regular_empty.after hfits
  refine ⟨fun i hi id name => hregular.localType_insert hi .., fun l hl id name => ?_, fun l l' hperm hl id name => ?_,
    fun id name => ?_⟩
  · exact hregular.localType_after (fits_insertions hl) id name
  · have hl' : ∀ i ∈ l', i.scope.index < t.scopes.size := fun i hi => hl i (hperm.mem_iff.2 hi)
    rw [hregular.localType_after (fits_insertions hl), hregular.localType_after (fits_insertions hl')]
    exact congrArg _ (Ty.union_congr fun _ => ((hperm.map _).filterMap _).mem_iff)
  · have hempty : empty.localType id name = .unknown := by
      rw [localType_eq, slot_empty]
      rfl
    rw [← ht, regular_empty.localType_after hfits, hempty]
    exact bot_sup_eq (Ty.union (brought changes id name))

/-- The name that was defined five times, and two definitions more that are made in either order. -/
theorem definitions_commute_redefined :
    empty.Fits redefined ∧
    (empty.after redefined).localType ⟨2⟩ "f" =
      Ty.union [.prim .int, .function ⟨0⟩, .function ⟨1⟩, .prim .str, .function ⟨0⟩] ∧
    let more : List Insertion :=
      [⟨⟨2⟩, "f", default, .prim .bytes, .variable⟩, ⟨⟨2⟩, "f", default, .cls ⟨0⟩, .cls⟩]
    ((empty.after redefined).after (more.map .insert)).localType ⟨2⟩ "f" =
      ((empty.after redefined).after (more.reverse.map .insert)).localType ⟨2⟩ "f" := by
  have hfits : empty.Fits redefined := by decide +kernel
  obtain ⟨-, -, hperm, hall⟩ := definitions_commute hfits rfl
  refine ⟨hfits, hall ⟨2⟩ "f", hperm _ _ (List.reverse_perm _).symm ?_ _ _⟩
  decide +kernel

end ScopeTable

end TypeInfer
