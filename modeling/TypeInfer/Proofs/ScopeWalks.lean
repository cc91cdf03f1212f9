/-
Walks up the scopes. Each scope is made after its parent (`IsTree`), so a walk is told parent by
parent (`IsTree.ancestors_of_parent`), and a definition leaves all walks as they are. So what is
assigned is found again from the same scope (`reads_see_writes`), and a lookup from a comprehension
is one from the block around it (`comprehension_reads_as_its_block`).
-/
import Mathlib.Data.List.TakeWhile
import TypeInfer.Proofs.Slots

namespace TypeInfer.ScopeTable

open List

variable {t : ScopeTable} {id p a goal : ScopeId} {name : String} {b : BindingId}
  {ids : List BindingId} (scope : ScopeId) (node : Span) (ty : Ty) (kind : BindingKind)

/-! ### The tree of scopes -/

/-- Each scope is made after its parent, and only the global scope has none. -/
structure IsTree (t : ScopeTable) : Prop where
  parent : ∀ {id p : ScopeId}, (t.scope id).parent = some p → p.index < id.index
  root : ∀ {id : ScopeId}, (t.scope id).parent = none → (t.scope id).kind = .global

theorem Regular.parent_lt (h : t.Regular) (hp : (t.scope id).parent = some p) : p.index < id.index := by
  rcases Nat.eq_zero_or_pos id.index with hzero | hpos
  · have hnone := h.root.2
    rw [globalScope, ← hzero] at hnone
    cases hnone.symm.trans hp
  · rcases Nat.lt_or_ge id.index t.scopes.size with hlt | hge
    · obtain ⟨q, hq, hlt⟩ := h.parent id hpos hlt
      rwa [← Option.some.inj (hq.symm.trans hp)]
    · rw [t.scope_eq_default hge] at hp
      cases hp

/-- Changes keep the kinds of the scopes that are there. -/
theorem kind_change (hid : id.index < t.scopes.size) (c : Change) : ((t.change c).scope id).kind = (t.scope id).kind := by
  cases c with
  | newScope kind parent path =>
    rw [change, scope_newScope, if_neg (Nat.ne_of_lt hid)]
  | insert i => exact t.kind_insert i.scope i.name i.node i.ty i.kind id
  | declareGlobal scope name =>
    rw [change, declareGlobal, scope_modifyScope]
    split <;> rfl
  | declareNonlocal scope name =>
    rw [change, declareNonlocal, scope_modifyScope]
    split <;> rfl
  | setOwner scope owner =>
    rw [change, setOwner, scope_modifyScope]
    split <;> rfl

theorem kind_globalScope_after (h : t.Regular) {changes} (hfits : t.Fits changes) :
    ((t.after changes).scope globalScope).kind = (t.scope globalScope).kind := by
  induction changes generalizing t with
  | nil => rfl
  | cons c changes ih => exact (ih (h.change hfits.1) hfits.2).trans (kind_change h.root.1 c)

theorem isTree_after {changes} (hfits : empty.Fits changes) : (empty.after changes).IsTree where
  parent := (regular_empty.after hfits).parent_lt
  root := by
    intro id hnone
    have hregular := regular_empty.after hfits
    rcases Nat.eq_zero_or_pos id.index with hzero | hpos
    · obtain rfl : id = globalScope := congrArg ScopeId.mk hzero
      exact kind_globalScope_after regular_empty hfits
    · rcases Nat.lt_or_ge id.index (empty.after changes).scopes.size with hlt | hge
      · obtain ⟨p, hp, -⟩ := hregular.parent id hpos hlt
        cases hp.symm.trans hnone
      · rw [scope_eq_default _ hge]
        rfl

/-! ### Walks -/

/-- From the parents to the scopes below them. -/
theorem IsTree.induction (h : t.IsTree) {P : ScopeId → Prop} (root : ∀ id, (t.scope id).parent = none → P id)
    (step : ∀ id p, (t.scope id).parent = some p → P p → P id) (id : ScopeId) : P id := by
  induction hn : id.index using Nat.strong_induction_on generalizing id with
  | _ n ih =>
    subst hn
    cases hparent : (t.scope id).parent with
    | none => exact root id hparent
    | some p => exact step id p hparent (ih p.index (h.parent hparent) p rfl)

theorem ancestorsFrom_of_root (steps : Nat) (hnone : (t.scope id).parent = none) : t.ancestorsFrom (steps + 1) id = [id] := by
  rw [ancestorsFrom, hnone]

theorem ancestorsFrom_of_parent (steps : Nat) (hp : (t.scope id).parent = some p) :
    t.ancestorsFrom (steps + 1) id = id :: t.ancestorsFrom steps p := by
  rw [ancestorsFrom, hp]

theorem ancestors_of_root (hnone : (t.scope id).parent = none) : t.ancestors id = [id] :=
  ancestorsFrom_of_root id.index hnone

theorem IsTree.ancestorsFrom_eq (h : t.IsTree) {steps : Nat} (hsteps : id.index < steps) :
    t.ancestorsFrom steps id = t.ancestors id := by
  induction id using h.induction generalizing steps with
  | root id hnone =>
    obtain ⟨steps, rfl⟩ := Nat.exists_eq_add_of_lt hsteps
    rw [ancestors_of_root hnone, ancestorsFrom_of_root _ hnone]
  | step id p hp ih =>
    obtain ⟨more, rfl⟩ := Nat.exists_eq_add_of_lt hsteps
    have hlt := h.parent hp
    rw [ancestors, ancestorsFrom_of_parent _ hp, ancestorsFrom_of_parent _ hp, ih (by omega), ih hlt]

theorem IsTree.ancestors_of_parent (h : t.IsTree) (hp : (t.scope id).parent = some p) :
    t.ancestors id = id :: t.ancestors p := by
  rw [ancestors, ancestorsFrom_of_parent _ hp, h.ancestorsFrom_eq (h.parent hp)]

theorem ancestors_eq_cons (t : ScopeTable) (id : ScopeId) : t.ancestors id = id :: (t.ancestors id).tail := rfl

theorem self_mem_ancestors (t : ScopeTable) (id : ScopeId) : id ∈ t.ancestors id := mem_cons_self

theorem IsTree.index_le (h : t.IsTree) {a : ScopeId} (ha : a ∈ t.ancestors id) : a.index ≤ id.index := by
  induction id using h.induction with
  | root id hnone =>
    rw [ancestors_of_root hnone, mem_singleton] at ha
    rw [ha]
  | step id p hp ih =>
    rw [h.ancestors_of_parent hp] at ha
    rcases mem_cons.1 ha with rfl | ha
    · exact Nat.le_refl _
    · exact Nat.le_of_lt (Nat.lt_of_le_of_lt (ih ha) (h.parent hp))

theorem IsTree.sorted (h : t.IsTree) (id : ScopeId) : (t.ancestors id).Pairwise fun a b => b.index < a.index := by
  induction id using h.induction with
  | root id hnone =>
    rw [ancestors_of_root hnone]
    exact pairwise_singleton _ _
  | step id p hp ih =>
    rw [h.ancestors_of_parent hp]
    exact pairwise_cons.2 ⟨fun a ha => Nat.lt_of_le_of_lt (h.index_le ha) (h.parent hp), ih⟩

/-! ### The nearest scope of a sort -/

/-- The nearest scope of a sort, from the given one on. -/
def nearest (t : ScopeTable) (sort : ScopeId → Bool) (id : ScopeId) : ScopeId :=
  ((t.ancestors id).find? sort).getD id

section
variable {sort : ScopeId → Bool}

theorem nearest_of_pos (hid : sort id) : t.nearest sort id = id := by
  rw [nearest, ancestors_eq_cons, find?_cons_of_pos hid, Option.getD_some]

theorem IsTree.find_ancestors (h : t.IsTree) (hroot : ∀ id, (t.scope id).parent = none → sort id) (id : ScopeId) :
    (t.ancestors id).find? sort = some (t.nearest sort id) := by
  have hsome : ∃ a, (t.ancestors id).find? sort = some a := by
    induction id using h.induction with
    | root id hnone => exact ⟨id, by rw [ancestors_of_root hnone, find?_cons_of_pos (hroot id hnone)]⟩
    | step id p hp ih =>
      rw [h.ancestors_of_parent hp, find?_cons]
      split
      · exact ⟨id, rfl⟩
      · exact ih
  obtain ⟨a, ha⟩ := hsome
  rw [nearest, ha, Option.getD_some]

theorem IsTree.nearest_of_parent (h : t.IsTree) (hroot : ∀ id, (t.scope id).parent = none → sort id)
    (hid : sort id = false) (hp : (t.scope id).parent = some p) : t.nearest sort id = t.nearest sort p := by
  rw [nearest, h.ancestors_of_parent hp, find?_cons_of_neg (ne_true_of_eq_false hid), h.find_ancestors hroot p,
    Option.getD_some]

theorem IsTree.nearest_mem (h : t.IsTree) (hroot : ∀ id, (t.scope id).parent = none → sort id) (id : ScopeId) :
    t.nearest sort id ∈ t.ancestors id :=
  mem_of_find?_eq_some (h.find_ancestors hroot id)

end

theorem IsTree.moduleScope_mem (h : t.IsTree) (id : ScopeId) : t.moduleScope id ∈ t.ancestors id :=
  h.nearest_mem (fun id hnone => by simp [hnone]) id

theorem IsTree.moduleScope_of_parent (h : t.IsTree) (hid : (t.scope id).kind ≠ .module)
    (hp : (t.scope id).parent = some p) : t.moduleScope id = t.moduleScope p :=
  h.nearest_of_parent (fun id hnone => by simp [hnone]) (by simp [hid, hp]) hp

theorem enclosingBlock_of_ne (hid : (t.scope id).kind ≠ .comprehension) : t.enclosingBlock id = id :=
  nearest_of_pos (bne_iff_ne.2 hid)

theorem IsTree.enclosingBlock_of_parent (h : t.IsTree) (hid : (t.scope id).kind = .comprehension)
    (hp : (t.scope id).parent = some p) : t.enclosingBlock id = t.enclosingBlock p :=
  h.nearest_of_parent (fun id hnone => by simp [h.root hnone]) (by simp [hid]) hp

/-! ### Lookups -/

/-- The bindings of a name in the nearest scope that has one, whatever is declared. -/
def lookupFrom (t : ScopeTable) (id : ScopeId) (name : String) : Option (List BindingId) :=
  (t.ancestors id).findSome? (t.lookupLocal · name)

theorem lookup_eq (t : ScopeTable) (id : ScopeId) (name : String) :
    t.lookup id name = t.lookupFrom (if t.isGlobal id name then t.moduleScope id else id) name := rfl

theorem lookupLocal_of_mem (hb : b ∈ t.slot id name) :
    t.lookupLocal id name = some (t.slot id name) :=
  if_neg fun hempty => ne_nil_of_mem hb (List.isEmpty_iff.1 hempty)

theorem slot_of_lookupLocal (h : t.lookupLocal id name = some ids) :
    t.slot id name = ids ∧ ids ≠ [] := by
  rw [lookupLocal, Option.ite_none_left_eq_some, List.isEmpty_iff] at h
  obtain ⟨hne, heq⟩ := h
  obtain rfl := Option.some.inj heq
  exact ⟨rfl, hne⟩

theorem lookupFrom_of_bound (h : t.lookupLocal id name = some ids) :
    t.lookupFrom id name = some ids := by
  rw [lookupFrom, ancestors_eq_cons, findSome?_cons, h]

/-- What a lookup finds is the slot of a scope on its way. -/
theorem exists_of_lookupFrom (h : t.lookupFrom id name = some ids) :
    ∃ a ∈ t.ancestors id, t.slot a name = ids ∧ ids ≠ [] := by
  obtain ⟨a, ha, hids⟩ := exists_of_findSome?_eq_some h
  exact ⟨a, ha, slot_of_lookupLocal hids⟩

/-- The scopes that are passed on the way to a scope. -/
def before (t : ScopeTable) (id goal : ScopeId) : List ScopeId := (t.ancestors id).takeWhile (· != goal)

theorem before_self (t : ScopeTable) (id : ScopeId) : t.before id id = [] := by
  rw [before, ancestors_eq_cons, takeWhile_cons_of_neg (by simp)]

theorem IsTree.before_of_parent (h : t.IsTree) {goal} (hne : id ≠ goal)
    (hp : (t.scope id).parent = some p) : t.before id goal = id :: t.before p goal := by
  rw [before, h.ancestors_of_parent hp, takeWhile_cons_of_pos (by simpa using hne), before]

/-- The walk goes on from a scope that is on it. -/
theorem IsTree.ancestors_eq_append (h : t.IsTree) {goal : ScopeId} (hgoal : goal ∈ t.ancestors id) :
    t.ancestors id = t.before id goal ++ t.ancestors goal := by
  induction id using h.induction with
  | root id hroot =>
    rw [ancestors_of_root hroot, mem_singleton] at hgoal
    rw [hgoal, before_self, nil_append]
  | step id p hp ih =>
    by_cases hid : id = goal
    · rw [hid, before_self, nil_append]
    · rw [h.ancestors_of_parent hp] at hgoal ⊢
      have hmore := ih ((mem_cons.1 hgoal).resolve_left (Ne.symm hid))
      rw [h.before_of_parent hid hp, cons_append, ← hmore]

theorem IsTree.lookupFrom_of_unbound (h : t.IsTree) {goal} (hgoal : goal ∈ t.ancestors id)
    (hnone : ∀ a ∈ t.before id goal, t.lookupLocal a name = none) :
    t.lookupFrom id name = t.lookupFrom goal name := by
  rw [lookupFrom, h.ancestors_eq_append hgoal, findSome?_append, findSome?_eq_none_iff.2 hnone, Option.none_or,
    lookupFrom]

theorem IsTree.lookupFrom_of_passed (h : t.IsTree) {goal a} (hgoal : goal ∈ t.ancestors id)
    (ha : a ∈ t.before id goal) (hbound : t.lookupLocal a name ≠ none) :
    ∃ c ∈ t.before id goal, t.lookupFrom id name = some (t.slot c name) ∧ t.slot c name ≠ [] := by
  rw [lookupFrom, h.ancestors_eq_append hgoal, findSome?_append]
  cases hfound : (t.before id goal).findSome? (t.lookupLocal · name) with
  | none => exact absurd (findSome?_eq_none_iff.1 hfound a ha) hbound
  | some ids =>
    obtain ⟨c, hc, hids⟩ := exists_of_findSome?_eq_some hfound
    obtain ⟨rfl, hne⟩ := slot_of_lookupLocal hids
    exact ⟨c, hc, Option.some_or, hne⟩

theorem ne_of_mem_before (ha : a ∈ t.before id goal) : a ≠ goal := by
  simpa using mem_takeWhile_imp ha

/-- The walk does not come back to what it has passed. -/
theorem IsTree.not_mem_ancestors (h : t.IsTree) {goal a} (hgoal : goal ∈ t.ancestors id)
    (ha : a ∈ t.before id goal) : a ∉ t.ancestors goal := by
  have hsorted := h.sorted id
  rw [h.ancestors_eq_append hgoal, pairwise_append] at hsorted
  exact fun hmem => Nat.lt_irrefl _ (hsorted.2.2 a ha a hmem)

theorem Regular.scope_eq (h : t.Regular) {c} (ha : b ∈ t.slot a name) (hc : b ∈ t.slot c name) :
    a = c := by
  have hslots : (a, name) = (c, name) := (h.home b (h.member a name b ha).2.1).unique ha hc
  exact congrArg Prod.fst hslots

/-! ### Comprehensions -/

theorem IsTree.enclosingBlock_mem (h : t.IsTree) (id : ScopeId) : t.enclosingBlock id ∈ t.ancestors id :=
  h.nearest_mem (fun id hnone => by simp [h.root hnone]) id

/-- A comprehension is in the module that its block is in. -/
theorem IsTree.moduleScope_enclosingBlock (h : t.IsTree) (id : ScopeId) :
    t.moduleScope (t.enclosingBlock id) = t.moduleScope id := by
  induction id using h.induction with
  | root id hnone => rw [enclosingBlock_of_ne (by simp [h.root hnone])]
  | step id p hp ih =>
    by_cases hid : (t.scope id).kind = .comprehension
    · rw [h.enclosingBlock_of_parent hid hp, ih, h.moduleScope_of_parent (by simp [hid]) hp]
    · rw [enclosingBlock_of_ne hid]

theorem lookupFrom_moduleScope_eq_iff (h : t.IsTree) (hregular : t.Regular) :
    t.lookupFrom (t.moduleScope id) name = t.lookupFrom id name ↔
      ∀ a ∈ t.before id (t.moduleScope id), t.lookupLocal a name = none := by
  have hmodule := h.moduleScope_mem id
  refine ⟨fun heq a ha => Classical.byContradiction fun hbound => ?_, fun hnone => ?_⟩
  · obtain ⟨c, hc, hfound, hne⟩ := h.lookupFrom_of_passed hmodule ha hbound
    obtain ⟨d, hd, hslot, -⟩ := exists_of_lookupFrom (heq.trans hfound)
    obtain ⟨b, hb⟩ := exists_mem_of_ne_nil _ hne
    obtain rfl := hregular.scope_eq hb (hslot ▸ hb)
    exact h.not_mem_ancestors hmodule hc hd
  · exact (h.lookupFrom_of_unbound hmodule hnone).symm

/-- In every table, a name that is bound in no comprehension on the way to the block around them is
looked up from the comprehension as from the block, if both or neither of them declare it global, or
no scope between the block and its module binds it; otherwise the lookups differ. What is declared
nonlocal makes no difference. -/
theorem comprehension_reads_as_its_block {changes : List Change} (hfits : empty.Fits changes)
    (ht : empty.after changes = t) {c : ScopeId}
    (hunbound : ∀ a ∈ t.before c (t.enclosingBlock c), t.lookupLocal a name = none) :
    t.lookup c name = t.lookup (t.enclosingBlock c) name ↔
      t.isGlobal c name = t.isGlobal (t.enclosingBlock c) name ∨
      ∀ a ∈ t.before (t.enclosingBlock c) (t.moduleScope (t.enclosingBlock c)), t.lookupLocal a name = none := by
  have htree : t.IsTree := ht ▸ isTree_after hfits
  have hregular : t.Regular := ht ▸ regular_empty.after hfits
  have hblock := htree.lookupFrom_of_unbound (htree.enclosingBlock_mem c) hunbound
  have hmodule := htree.moduleScope_enclosingBlock c
  have hiff : t.lookupFrom (t.moduleScope (t.enclosingBlock c)) name = t.lookupFrom (t.enclosingBlock c) name ↔ _ :=
    lookupFrom_moduleScope_eq_iff htree hregular
  rw [lookup_eq, lookup_eq, ← hmodule]
  cases t.isGlobal c name <;> cases t.isGlobal (t.enclosingBlock c) name
  · simpa using hblock
  · simpa [hblock, eq_comm] using hiff
  · simpa using hiff
  · simp

/-- A function binds a name globally and looks it up in two nested comprehensions. -/
def nestedClauses : List Change :=
  [.newScope .module ⟨0⟩ "m", .newScope .function ⟨1⟩ "m.f", .newScope .function ⟨2⟩ "m.f.g", .declareGlobal ⟨3⟩ "x",
    .insert ⟨⟨1⟩, "x", default, .prim .int, .variable⟩, .newScope .comprehension ⟨3⟩ "m.f.g",
    .newScope .comprehension ⟨4⟩ "m.f.g"]

theorem comprehension_reads_as_its_block_nestedClauses :
    let t := empty.after nestedClauses
    empty.Fits nestedClauses ∧ (∀ a ∈ t.before ⟨5⟩ (t.enclosingBlock ⟨5⟩), t.lookupLocal a "x" = none) ∧
      t.enclosingBlock ⟨5⟩ = ⟨3⟩ ∧ t.isGlobal ⟨3⟩ "x" ∧ t.lookup ⟨5⟩ "x" = t.lookup ⟨3⟩ "x" := by
  have hfits : empty.Fits nestedClauses := by decide +kernel
  have hunbound : ∀ a ∈ (empty.after nestedClauses).before ⟨5⟩ ((empty.after nestedClauses).enclosingBlock ⟨5⟩),
      (empty.after nestedClauses).lookupLocal a "x" = none := by decide +kernel
  refine ⟨hfits, hunbound, by decide +kernel, by decide +kernel, ?_⟩
  exact (comprehension_reads_as_its_block hfits rfl hunbound).2 (.inr (by decide +kernel))

/-- The name is found in the outer function, although the block declares it global. -/
def hiddenGlobal : List Change :=
  [.newScope .module ⟨0⟩ "m", .newScope .function ⟨1⟩ "m.f", .insert ⟨⟨2⟩, "x", default, .prim .int, .variable⟩,
    .newScope .function ⟨2⟩ "m.f.g", .declareGlobal ⟨3⟩ "x", .newScope .comprehension ⟨3⟩ "m.f.g"]

theorem comprehension_misses_global_declaration :
    let t := empty.after hiddenGlobal
    empty.Fits hiddenGlobal ∧ (t.scope ⟨4⟩).kind = .comprehension ∧ t.enclosingBlock ⟨4⟩ = ⟨3⟩ ∧
      t.lookupLocal ⟨4⟩ "x" = none ∧ t.lookup ⟨4⟩ "x" = some [⟨0⟩] ∧ t.lookup ⟨3⟩ "x" = none := by
  decide +kernel

/-! ### Assignments -/

/-- Walks depend on nothing but parents. -/
theorem ancestors_congr {t' : ScopeTable} (h : ∀ id, (t'.scope id).parent = (t.scope id).parent) (id : ScopeId) :
    t'.ancestors id = t.ancestors id := by
  have hfrom : ∀ steps id, t'.ancestorsFrom steps id = t.ancestorsFrom steps id := by
    intro steps
    induction steps with
    | zero => exact fun _ => rfl
    | succ steps ih =>
      intro id
      rw [ancestorsFrom, ancestorsFrom, h]
      cases (t.scope id).parent with
      | none => rfl
      | some p => exact congrArg (id :: ·) (ih p)
  exact hfrom _ id

theorem ancestors_insert (id : ScopeId) :
    (t.insert scope name node ty kind).1.ancestors id = t.ancestors id := by
  refine ancestors_congr (fun id => ?_) id
  obtain ⟨table, heq⟩ := t.exists_table_insert scope name node ty kind id
  rw [heq]

theorem IsTree.insert (h : t.IsTree) (scope : ScopeId) (node : Span) (ty : Ty) (kind : BindingKind) :
    (t.insert scope name node ty kind).1.IsTree := by
  refine ⟨fun {id p} hp => ?_, fun {id} hnone => ?_⟩
  all_goals obtain ⟨table, heq⟩ := t.exists_table_insert scope name node ty kind id
  · rw [heq] at hp
    exact h.parent hp
  · rw [heq] at hnone ⊢
    exact h.root hnone

theorem lookupLocal_insert_of_ne {scope} (hne : scope ≠ id) (node : Span) (ty : Ty)
    (kind : BindingKind) :
    (t.insert scope name node ty kind).1.lookupLocal id name = t.lookupLocal id name := by
  rw [lookupLocal, lookupLocal, t.slot_insert_of_ne fun h => hne h.1]

/-- What is assigned to a scope is found from a scope below it, if the name is not bound between
them. -/
theorem lookupFrom_insert_iff (h : t.IsTree) (hregular : t.Regular) (hid : id.index < t.scopes.size)
    {target} (htarget : target ∈ t.ancestors id) (name : String) (node : Span) (ty : Ty)
    (kind : BindingKind) :
    (∃ ids, (t.insert target name node ty kind).1.lookupFrom id name = some ids ∧
      (t.insert target name node ty kind).2.id ∈ ids) ↔ ∀ a ∈ t.before id target, t.lookupLocal a name = none := by
  have hlt : target.index < t.scopes.size := Nat.lt_of_le_of_lt (h.index_le htarget) hid
  have hmem := t.mem_slot_insert hlt name node ty kind
  have hregular' := hregular.insert hlt name node ty kind
  have htree : (t.insert target name node ty kind).1.IsTree := h.insert target node ty kind
  have hbefore : (t.insert target name node ty kind).1.before id target = t.before id target := by
    rw [before, ancestors_insert, before]
  have hancestor : target ∈ (t.insert target name node ty kind).1.ancestors id := by rwa [ancestors_insert]
  refine ⟨fun ⟨ids, hids, hwritten⟩ a ha => Classical.byContradiction fun hbound => ?_, fun hnone => ?_⟩
  · rw [← lookupLocal_insert_of_ne (ne_of_mem_before ha).symm node ty kind] at hbound
    obtain ⟨c, hc, hfound, -⟩ := htree.lookupFrom_of_passed hancestor (hbefore ▸ ha) hbound
    obtain rfl := Option.some.inj (hids.symm.trans hfound)
    exact ne_of_mem_before hc (hregular'.scope_eq hwritten hmem)
  · refine ⟨_, ?_, hmem⟩
    rw [htree.lookupFrom_of_unbound hancestor fun a ha => ?_]
    · exact lookupFrom_of_bound (lookupLocal_of_mem hmem)
    · rw [lookupLocal_insert_of_ne (ne_of_mem_before ha).symm]
      exact hnone a (hbefore ▸ ha)

theorem lookup_insert (scope : ScopeId) (node : Span) (ty : Ty) (kind : BindingKind) (id : ScopeId) :
    (t.insert scope name node ty kind).1.lookup id name = (t.insert scope name node ty kind).1.lookupFrom
      (if t.isGlobal id name then t.moduleScope id else id) name := by
  obtain ⟨table, heq⟩ := t.exists_table_insert scope name node ty kind id
  have hglobal : (t.insert scope name node ty kind).1.isGlobal id name = t.isGlobal id name := by
    rw [isGlobal, heq, isGlobal]
  have hmodule : (t.insert scope name node ty kind).1.moduleScope id = t.moduleScope id := by
    rw [moduleScope, ancestors_insert, moduleScope]
    congr 2
    funext a
    obtain ⟨table, heq⟩ := t.exists_table_insert scope name node ty kind a
    rw [heq]
  rw [lookup_eq, hglobal, hmodule]

/-- On the way to the target of a nonlocal name, only comprehensions and the scope itself may bind the name.
-/
theorem targetScope_of_nonlocal (hglobal : t.isGlobal id name = false) (hnonlocal : t.isNonlocal id name) :
    t.targetScope id name ∈ t.ancestors id ∧ ∀ a ∈ t.before id (t.targetScope id name),
      a = id ∨ (t.scope a).kind = .comprehension ∨ t.lookupLocal a name = none := by
  rw [targetScope, if_neg (ne_true_of_eq_false hglobal), if_pos hnonlocal]
  cases hfind : ((t.ancestors id).tail.takeWhile t.passesNonlocal).find? fun a =>
      (t.scope a).kind == .function && (t.lookupLocal a name).isSome with
  | none =>
    rw [Option.getD_none, before_self]
    exact ⟨t.self_mem_ancestors id, forall_mem_nil _⟩
  | some target =>
    obtain ⟨-, passed, rest, hsplit, hpassed⟩ := find?_eq_some_iff_append.1 hfind
    obtain ⟨more, hmore⟩ := takeWhile_prefix (l := (t.ancestors id).tail) t.passesNonlocal
    have hway : t.ancestors id = (id :: passed) ++ target :: (rest ++ more) := by
      rw [ancestors_eq_cons, ← hmore, hsplit, cons_append, append_assoc, cons_append]
    rw [Option.getD_some, before, hway]
    refine ⟨mem_append_right _ mem_cons_self, fun a ha => ?_⟩
    have hmem : a ∈ id :: passed := by
      rw [takeWhile_append, takeWhile_cons_of_neg (a := target) (by simp), append_nil] at ha
      split at ha
      · exact ha
      · exact ( takeWhile_prefix _).subset ha
    rcases mem_cons.1 hmem with rfl | ha
    · exact .inl rfl
    · have hpasses := mem_takeWhile_imp (hsplit ▸ mem_append_left (target :: rest) ha :
        a ∈ (t.ancestors id).tail.takeWhile t.passesNonlocal)
      have hunbound := hpassed a ha
      cases hkind : (t.scope a).kind <;> simp_all [passesNonlocal]

theorem IsTree.targetScope_mem (h : t.IsTree) (id : ScopeId) (name : String) : t.targetScope id name ∈ t.ancestors id := by
  by_cases hglobal : t.isGlobal id name
  · rw [targetScope, if_pos hglobal]
    exact h.moduleScope_mem id
  · by_cases hnonlocal : t.isNonlocal id name
    · exact (targetScope_of_nonlocal (Bool.eq_false_iff.2 hglobal) hnonlocal).1
    · rw [targetScope, if_neg hglobal, if_neg hnonlocal]
      exact t.self_mem_ancestors id

/-- In every table, what is inserted where an assignment to a name goes is found when the name is looked
up from the same scope, except for a nonlocal name that is not global: it is found if and only if
neither the scope nor a comprehension on the way to the function binds it. -/
theorem reads_see_writes {changes : List Change} (hfits : empty.Fits changes) (ht : empty.after changes = t) {s : ScopeId}
    (hs : s.index < t.scopes.size) (name : String) (node : Span) (ty : Ty) (kind : BindingKind) :
    let written := t.insert (t.targetScope s name) name node ty kind
    (∃ ids, written.1.lookup s name = some ids ∧ written.2.id ∈ ids) ↔
      (t.isNonlocal s name → t.isGlobal s name = false → ∀ a ∈ t.before s (t.targetScope s name),
        a = s ∨ (t.scope a).kind = .comprehension → t.lookupLocal a name = none) := by
  intro written
  have htree : t.IsTree := ht ▸ isTree_after hfits
  have hregular : t.Regular := ht ▸ regular_empty.after hfits
  rw [lookup_insert]
  by_cases hglobal : t.isGlobal s name
  · -- both start from the module
    have htarget : t.targetScope s name = t.moduleScope s := by rw [targetScope, if_pos hglobal]
    have hmodule := Nat.lt_of_le_of_lt (htree.index_le (htree.moduleScope_mem s)) hs
    have hiff := lookupFrom_insert_iff htree hregular hmodule (t.self_mem_ancestors _) name node ty kind
    simp only [written, htarget, if_pos hglobal]
    exact ⟨fun _ _ hnot => absurd hglobal (ne_true_of_eq_false hnot), fun _ => hiff.2 (by simp [before_self])⟩
  · rw [if_neg hglobal]
    rw [Bool.not_eq_true] at hglobal
    by_cases hnonlocal : t.isNonlocal s name
    · obtain ⟨htarget, hbefore⟩ := targetScope_of_nonlocal hglobal hnonlocal
      refine (lookupFrom_insert_iff htree hregular hs htarget name node ty kind).trans ⟨fun hnone _ _ a ha _ => hnone a ha, ?_⟩
      intro hnone a ha
      rcases hbefore a ha with hself | hkind | hunbound
      · exact hnone hnonlocal hglobal a ha (.inl hself)
      · exact hnone hnonlocal hglobal a ha (.inr hkind)
      · exact hunbound
    · have htarget : t.targetScope s name = s := by
        rw [targetScope, if_neg (ne_true_of_eq_false hglobal), if_neg hnonlocal]
      have hiff := lookupFrom_insert_iff htree hregular hs (t.self_mem_ancestors _) name node ty kind
      simp only [written, htarget]
      exact ⟨fun _ hnot => absurd hnot hnonlocal, fun _ => hiff.2 (by simp [before_self])⟩

/-- A function declares a name nonlocal that the function around it binds. -/
def nonlocalName : List Change :=
  [.newScope .module ⟨0⟩ "m", .newScope .function ⟨1⟩ "m.f", .insert ⟨⟨2⟩, "x", default, .prim .int, .variable⟩,
    .newScope .comprehension ⟨2⟩ "m.f", .newScope .function ⟨3⟩ "m.f.g", .declareNonlocal ⟨4⟩ "x"]

theorem reads_see_writes_nonlocalName :
    let t := empty.after nonlocalName
    let written := t.insert (t.targetScope ⟨4⟩ "x") "x" default (.prim .str) .variable
    empty.Fits nonlocalName ∧ t.isNonlocal ⟨4⟩ "x" ∧ t.targetScope ⟨4⟩ "x" = ⟨2⟩ ∧
      ∃ ids, written.1.lookup ⟨4⟩ "x" = some ids ∧ written.2.id ∈ ids := by
  have hfits : empty.Fits nonlocalName := by decide +kernel
  refine ⟨hfits, by decide +kernel, by decide +kernel, ?_⟩
  refine (reads_see_writes hfits rfl (by decide +kernel) "x" default (.prim .str) .variable).2 fun _ _ => ?_
  decide +kernel

end TypeInfer.ScopeTable
