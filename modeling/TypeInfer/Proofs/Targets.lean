/-
What is assigned to can be assigned to. Reading a text checks every target (`hasBlock_of_parse`),
and binding a target has a case for each kind that passes, so in the code of such trees no node is
found malformed.
-/
import TypeInfer.Proofs.Findings

namespace TypeInfer

variable {w : Workspace} {d : Diagnostic}

/-! ### Trees of texts -/

/-- The code in which only what can be assigned to is assigned to. -/
def Code.assignable : Code where
  Has n := ∀ m ∈ n.tree, ∀ e ∈ m.targets, e.isAssignable
  child hn hc m hm := hn m (Node.mem_tree.2 (.inr ⟨_, hc, hm⟩))

theorem Code.assignsRightly_assignable : Code.assignable.AssignsRightly :=
  fun n hn => hn n (Node.mem_tree_self n)

theorem hasBlock_of_parse {source m} (h : parse source = .ok m) :
    Code.assignable.HasBlock m.body := by
  obtain ⟨tokens, ts, rest, -, -, hderives, -⟩ := Grammar.derives_of_parse h
  intro s hs n hn e he
  obtain ⟨before, own, after, -, hfits⟩ := hderives.exists_stretch_of_tree (List.mem_map_of_mem hs) hn
  exact hfits.targets e he

theorem Workspace.holds_assignable (hcache : w.cache.entries = [])
    (hown : w.EntriesOwn fun _ => True) : w.Holds Code.assignable where
  remembered e he := by simp [hcache] at he
  stored path content text m there reads := by
    obtain ⟨path', content', -, -, -, hparse⟩ := hown.made trivial trivial there reads
    exact hasBlock_of_parse hparse
  sources p text m _ _ hparse := hasBlock_of_parse hparse

theorem Workspace.entriesOwn_of_no_dir {Known} (h : w.cache.dir = none) : w.EntriesOwn Known := by
  intro path content text _ _ there
  simp [entryText?, TreeCache.entryPath?, h] at there

/-! ### No node is found malformed -/

/-- Something else than a malformed node was found. -/
def Diagnostic.IsUsual (d : Diagnostic) : Prop := d.code ≠ Diagnostic.Code.malformedNode

theorem Diagnostic.IsFault.isUsual (h : d.IsFault) : d.IsUsual := by
  intro hcode
  rw [IsFault, hcode] at h
  revert h
  decide

theorem Diagnostic.isUsual_of_isFinal (h : Diagnostic.Code.isFinal d.code) : d.IsUsual := by
  intro hcode
  rw [hcode] at h
  revert h
  decide

theorem Diagnostic.OfFile.isUsual (h : d.OfFile) : d.IsUsual := by
  rcases h with hfault | hcode
  · exact hfault.isUsual
  · rw [IsUsual, hcode]
    decide

/-- No node was found malformed. -/
abbrev Analysis.NoneMalformed (s : Analysis) : Prop := s.AllFound Diagnostic.IsUsual

namespace Analysis.NoneMalformed

variable {s t : Analysis} {code : Code} (hcode : code.AssignsRightly)
include hcode

theorem run (h : s.NoneMalformed) (hrun : Run code s t) : t.NoneMalformed :=
  AllFound.run (fun _ _ hd => hd hcode) (fun _ => Diagnostic.OfFile.isUsual) h hrun

theorem session (h : s.NoneMalformed) (hsession : Session code s t) : t.NoneMalformed :=
  AllFound.session (fun _ _ hd => hd hcode) (fun _ => Diagnostic.OfFile.isUsual)
    (fun _ => Diagnostic.isUsual_of_isFinal) h hsession

end Analysis.NoneMalformed

/-! ### Sessions -/

theorem Analysis.closed_start {work config s} (hstart : Analysis.start work config = .ok s)
    (hcache : config.diskCache = false ∨ s.work.EntriesOwn fun _ => True) :
    s.Closed Code.assignable ∧ s.NoneMalformed := by
  obtain ⟨w, heq, hentries, hdir, -⟩ := Analysis.start_cases hstart
  rw [heq, Analysis.work_fresh] at hcache
  have hown : w.EntriesOwn fun _ => True := by
    rcases hcache with hoff | hown
    · exact Workspace.entriesOwn_of_no_dir (hdir hoff)
    · exact hown
  rw [heq]
  exact ⟨Analysis.closed_fresh config (Workspace.holds_assignable hentries hown), .fresh w config⟩

/-- Whatever projects are loaded and whenever the analysis is ended, no node is found malformed, if trees
are not stored or the stored ones are the cache's own. -/
theorem no_malformed_nodes {work : Workspace} {config : Config} {s t : Analysis} {commands : List Command}
    (hstart : Analysis.start work config = .ok s)
    (hcache : config.diskCache = false ∨ s.work.EntriesOwn fun _ => True)
    (hrun : (commands.forM Command.run).run s = some ((), t)) :
    (∀ d ∈ t.diagnostics, d.code ≠ Diagnostic.Code.malformedNode) ∧
    (∀ source m, parse source = .ok m → ∀ st ∈ m.body, ∀ n ∈ (Node.stmt st).tree, ∀ e ∈ n.targets, e.isAssignable) ∧
    ∀ (target : Expr) (ty : Ty) (scope : ScopeId) (depth : Nat) (u : Analysis), target.isAssignable →
      (∀ n ∈ (Node.expr target).tree, ∀ e ∈ n.targets, e.isAssignable) →
      scope.index < t.scopes.scopes.size → ty.Within t.sizes →
      (Infer.bindTarget ⟨Infer.apply depth, Infer.load depth⟩ target ty scope).run t = some ((), u) →
      ∀ d ∈ u.diagnostics, d.code ≠ Diagnostic.Code.malformedNode := by
  obtain ⟨hclosed, hnone⟩ := Analysis.closed_start hstart hcache
  have hcode := Code.assignsRightly_assignable
  have hsession := session_of_commands hclosed hrun
  have ht := hnone.session hcode hsession
  refine ⟨ht.diagnostics, fun source m hparse => hasBlock_of_parse hparse,
    fun target ty scope depth u htarget hnodes hscope hty hbind => ?_⟩
  have hfollows := Setting.follows_partly Code.assignable t depth
  have hruns := Setting.runs_bindTarget hfollows.applies target ⟨hnodes, fun _ => htarget⟩ hscope hty
  have hends := hruns (hsession.closed hclosed) (.refl t)
  exact (ht.run hcode (hends.of_run hbind).1).diagnostics

/-- Targets of every form, nested, in each statement that has targets. -/
def Workspace.nestedTargets : Workspace where
  files := ({} : FileTree).addFile ⟨"/p/main.py"⟩
    "(a, [b, *c]), d = e = [1, 2], 3\nfor d.f, (g, a[0]) in e:\n    b += 1\nwith d as [*a]:\n    c: int = [x for x, *y in e]\n"

theorem no_malformed_nodes_nestedTargets : ∃ depth t,
    ([.analyze ⟨"/p"⟩ depth, .finish depth].forM Command.run).run
      (Analysis.fresh { Workspace.nestedTargets with cache := {} } .hermetic) = some ((), t) ∧
    ∀ d ∈ t.diagnostics, d.code ≠ Diagnostic.Code.malformedNode := by
  let work : Workspace := { Workspace.nestedTargets with cache := {} }
  have hrooted : work.files.Rooted := (FileTree.Built.addFile (.empty rfl rfl rfl) _ _).rooted
  have hclosed := Analysis.closed_fresh .hermetic (Workspace.holds_trees (w := work) hrooted rfl)
  have hfiles : (Analysis.fresh work .hermetic).files.Rooted := by
    rw [Analysis.files_fresh]
    exact hrooted
  obtain ⟨depth, hends⟩ := hclosed.ends (Code.finite_ofModules _) hfiles
  obtain ⟨t, ht⟩ := hends ⟨"/p"⟩ depth (Nat.le_refl depth)
  have hrun : ([.analyze ⟨"/p"⟩ depth, .finish depth].forM Command.run).run (Analysis.fresh work .hermetic) =
      some ((), t) := by
    simpa [Command.run] using ht
  have huncached : ¬Config.hermetic.diskCache = true := Bool.false_ne_true
  have hstart : Analysis.start Workspace.nestedTargets .hermetic = .ok (Analysis.fresh work .hermetic) := by
    rw [Analysis.start, if_neg huncached]
  exact ⟨depth, t, hrun, (no_malformed_nodes hstart (.inl rfl) hrun).1⟩

end TypeInfer
