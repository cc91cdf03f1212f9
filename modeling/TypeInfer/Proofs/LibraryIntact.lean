/-
The library is left intact. When an analysis starts, the state is confined to what is made later
(`Analysis.confined_start`), and demands keep it so. The states between the first and the last only
grow, so they have the library as it was (`Analysis.KeepsLibrary.between`).
-/
import TypeInfer.Proofs.Confinement
import TypeInfer.Proofs.Growth

namespace TypeInfer

variable {s t u : Analysis} (work : Workspace) (config : Config)

/-! ### The start -/

/-- Tables with nothing but the library spare it. -/
theorem Definitions.Draft.Closed.confined {d : Draft} (h : d.Closed) (work : Workspace) (config : Config) (library : Library) :
    Analysis.Confined d.scopes { work, config, library, scopes := d.scopes, types := d.types } where
  scopes := by
    refine ⟨Nat.le_refl _, Nat.le_refl _, fun _ _ => rfl, fun _ _ => .refl _, fun id name hid b hb => ?_,
      fun id parent hid _ hparent => ?_, fun id _ => h.unentered id⟩
    · rw [ScopeTable.slot, d.scopes.scope_eq_default hid, show (default : Scope).table = {} from rfl, Std.TreeMap.getD_emptyc] at hb
      contradiction
    · rw [d.scopes.scope_eq_default hid] at hparent
      contradiction
  cls c hc := absurd ((h.builtin c).1.symm.trans hc) Bool.noConfusion
  module m hm := by
    rw [h.unfiled] at hm
    contradiction
  loaded := List.forall_mem_nil _
  closure f definition hbody := absurd hbody (h.native f definition)

theorem Analysis.scopes_fresh :
    (Analysis.fresh work config).scopes = Library.installed.2.scopes := by
  unfold Analysis.fresh
  cases Library.installed
  rfl

theorem Analysis.confined_start {work : Workspace} {config : Config} (hstart : Analysis.start work config = .ok s) :
    s.Confined s.scopes := by
  obtain ⟨w, heq, -⟩ := Analysis.start_cases hstart
  rw [heq, Analysis.scopes_fresh, Analysis.fresh_eq]
  exact Library.closed_installed.1.confined w config Library.installed.1

/-! ### Scopes of the library -/

theorem Binding.GrowsInto.isReferred {b c : Binding} (h : b.GrowsInto c) (hty : c.ty = b.ty) : b.IsReferred c := by
  obtain ⟨added, hrefs⟩ := h.refs
  refine ⟨added, ?_⟩
  rw [hrefs, ← h.name, ← h.node, ← h.kind, ← h.qname, ← hty]

/-- The scopes of the library: the global one and those of its classes and modules. -/
inductive Analysis.IsLibraryScope (s : Analysis) : ScopeId → Prop where
  | global : IsLibraryScope s ScopeTable.globalScope
  | cls {c : ClassId} (builtin : (s.types.cls c).builtin) : IsLibraryScope s (s.types.cls c).scope
  | module {m : ModuleId} (unfiled : (s.types.module m).file = none) : IsLibraryScope s (s.types.module m).scope

theorem Analysis.IsLibraryScope.lt {id} (h : s.IsLibraryScope id) {code} (hs : s.Closed code) :
    id.index < s.scopes.scopes.size := by
  cases h with
  | global => exact hs.tables.global
  | cls builtin => exact (hs.tables.cls _).scope
  | module unfiled => exact hs.tables.module _

/-- The scopes of the library have the same names with the same bindings, but for the places that refer to
them. -/
structure Analysis.KeepsLibrary (s t : Analysis) : Prop where
  names : ∀ id, s.IsLibraryScope id → ∀ name, name ∈ (t.scopes.scope id).table ↔ name ∈ (s.scopes.scope id).table
  slot : ∀ id, s.IsLibraryScope id → ∀ name, t.scopes.slot id name = s.scopes.slot id name
  binding : ∀ id, s.IsLibraryScope id → ∀ name, ∀ b ∈ s.scopes.slot id name,
    (s.scopes.binding b).IsReferred (t.scopes.binding b)

namespace Analysis.KeepsLibrary

variable {code : Code}

theorem of_confined (hs : s.Closed code) (ht : t.Confined s.scopes) : s.KeepsLibrary t := by
  have hscope : ∀ id, s.IsLibraryScope id → t.scopes.scope id = s.scopes.scope id := fun id hid =>
    ht.scopes.scope id (Nat.not_le.2 (hid.lt hs))
  refine ⟨fun id hid name => by rw [hscope id hid], fun id hid name => ?_, fun id hid name b hb => ?_⟩
  · rw [ScopeTable.slot, ScopeTable.slot, hscope id hid]
  · exact ht.scopes.binding b (Nat.not_le.2 (hs.tables.slot hb))

/-- What is kept from first to last is kept in between. -/
theorem between (hs : s.Closed code) (h : s.KeepsLibrary u) (hbefore : s.GrowsInto t)
    (hafter : t.GrowsInto u) : s.KeepsLibrary t where
  names id hid name :=
    ⟨fun hname => (h.names id hid name).1 (hafter.scopes.names id name hname), hbefore.scopes.names id name⟩
  slot id hid name := by
    have hafter := hafter.scopes.slot id name
    rw [h.slot id hid name] at hafter
    exact ((hbefore.scopes.slot id name).eq_of_length_le hafter.length_le).symm
  binding id hid name b hb := by
    have hlt := hs.tables.slot hb
    have hgrown := hbefore.scopes.binding b hlt
    have hgrows := hafter.scopes.binding b (Nat.lt_of_lt_of_le hlt hbefore.scopes.size)
    obtain ⟨refs, hlast⟩ := h.binding id hid name b hb
    have hty : (t.scopes.binding b).ty = (s.scopes.binding b).ty := by
      obtain ⟨more, hmore⟩ := hgrown.ty
      obtain ⟨more', hmore'⟩ := hgrows.ty
      have hend : (t.scopes.binding b).ty.merge more' = (s.scopes.binding b).ty := by rw [← hmore', hlast]
      refine le_antisymm ?_ ?_
      · exact hend ▸ le_sup_left
      · exact hmore ▸ le_sup_left
    exact hgrown.isReferred hty

end Analysis.KeepsLibrary

/-! ### The program -/

/-- Whatever is demanded of an analysis, the scopes of the library keep the names that they started
with, with the same bindings, of the same kinds and types, at all points that are passed; only
places that refer to these are added. -/
theorem library_is_left_intact {work : Workspace} {config : Config} {s t : Analysis} {demands : List Demand} {depth : Nat}
    (hstart : Analysis.start work config = .ok s)
    (hrun : (demands.forM (Demand.run ⟨Infer.apply depth, Infer.load depth⟩ depth)).run s = some ((), t)) :
    s.KeepsLibrary t ∧ (∃ points, Trace .all s points t) ∧
    ∀ points, Trace .all s points t → ∀ point ∈ points, s.KeepsLibrary point.state := by
  have hclosed := Analysis.closed_all hstart
  have hstays := Demand.keeps (G := .own s.scopes) demands depth s (Analysis.confined_start hstart) () t hrun
  have hkeeps : s.KeepsLibrary t := .of_confined hclosed hstays.holds
  refine ⟨hkeeps, Demand.exists_trace_all hclosed hrun, fun points htrace point hpoint => ?_⟩
  have hmem : point.state ∈ points.map Point.state := List.mem_map_of_mem hpoint
  exact hkeeps.between hclosed ((List.pairwise_cons.1 htrace.passes.pairwise).1 _ hmem)
    (htrace.passes.last _ (List.mem_cons_of_mem s hmem))

/-- Code that assigns to the library in every way there is, and defines its names again. -/
def Workspace.meddling : Workspace where
  files := ({} : FileTree).addFile ⟨"/p/main.py"⟩
    "import sys\nfrom os import *\nsys.x = 1\nint.y = 2\nlen = 3\ndef f():\n    global print\n    print = 4\nf()\nclass int:\n    pass\n"

theorem library_is_left_intact_meddling : ∃ (depth : Nat) (s t : Analysis),
    Analysis.start Workspace.meddling .hermetic = .ok s ∧
    ([Demand.grant (.project ⟨"/p"⟩), .finish].forM
      (Demand.run ⟨Infer.apply depth, Infer.load depth⟩ depth)).run s = some ((), t) ∧
    s.KeepsLibrary t ∧ ∃ points, Trace .all s points t ∧ ∀ point ∈ points, s.KeepsLibrary point.state := by
  have hbuilt : Workspace.meddling.files.Built := .addFile (.empty rfl rfl rfl) _ _
  obtain ⟨s, hstart⟩ : ∃ s, Analysis.start Workspace.meddling .hermetic = .ok s := ⟨_, Analysis.start_hermetic _⟩
  obtain ⟨depth, t, hrun⟩ := Demand.exists_run hbuilt hstart ⟨"/p"⟩
  obtain ⟨hkeeps, ⟨points, htrace⟩, hall⟩ := library_is_left_intact hstart hrun
  exact ⟨depth, s, t, hstart, hrun, hkeeps, points, htrace, hall points htrace⟩

end TypeInfer
