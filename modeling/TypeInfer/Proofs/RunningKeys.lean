/-
Applications in progress. Their keys are distinct, and made of places in the trees that were loaded,
of modules and of what the library has. So applications nest no deeper than there are such keys, and
these are computed without regard to the classes and functions that were made (`CallKey.ofTrees`).
-/
import TypeInfer.Proofs.Growth
import TypeInfer.Proofs.Recount

namespace TypeInfer

open List

/-! ### Keys in progress -/

/-- The keys of the applications in progress are distinct, and each is that of a function and of a type for
each of its parameters. -/
structure Analysis.AppliesApart (s : Analysis) : Prop where
  nodup : s.running.Nodup
  applying : ∀ key ∈ s.running, ∃ f d signature, s.IsApplying f d signature ∧ signature.length = d.params.length ∧
    key = s.callKey d signature

variable {code : Code} {start s t : Analysis} {trees : List Module}

namespace Analysis.AppliesApart

theorem applying_later (h : s.AppliesApart) (hextends : s.Extends t) (hrunning : ∀ key ∈ s.running, key ∈ t.running) :
    ∀ key ∈ s.running, ∃ f d signature, t.IsApplying f d signature ∧ signature.length = d.params.length ∧
      key = t.callKey d signature := by
  intro key hkey
  obtain ⟨f, d, signature, happlying, hlength, rfl⟩ := h.applying key hkey
  exact ⟨f, d, signature, happlying.later hextends hrunning, hlength, (hextends.callKey d happlying.within).symm⟩

theorem later (h : s.AppliesApart) (hextends : s.Extends t) (hrunning : t.running = s.running) : t.AppliesApart where
  nodup := hrunning ▸ h.nodup
  applying := by
    have hlater := h.applying_later hextends fun key hkey => hrunning ▸ hkey
    rwa [← hrunning] at hlater

theorem enterCall {f d signature dir} (h : s.AppliesApart) (hbody : (s.types.function f).body = .source d)
    (hf : f.index < s.types.funs.size) (hsignature : ∀ ty ∈ signature, ty.Within s.sizes)
    (hlength : signature.length = d.params.length) (hidle : s.running.contains (s.callKey d signature) = false) :
    (s.enterCall f (s.callKey d signature) dir).AppliesApart := by
  have hextends : s.Extends (s.enterCall f (s.callKey d signature) dir) := Rests.enterCall.toExtends
  have hnew : s.callKey d signature ∉ s.running := by simpa using hidle
  refine ⟨nodup_cons.2 ⟨hnew, h.nodup⟩, forall_mem_cons.2 ⟨?_, ?_⟩⟩
  · exact ⟨f, d, signature, .enterCall hbody hf hsignature dir, hlength, (hextends.callKey d hsignature).symm⟩
  · exact h.applying_later hextends fun key hkey => mem_cons_of_mem _ hkey

end Analysis.AppliesApart

theorem Enters.appliesApart (h : Enters code s t) (hs : s.AppliesApart) : t.AppliesApart := by
  cases h with
  | call body there hsignature hlength unknown idle => exact hs.enterCall body there hsignature hlength idle
  | load new opens => exact hs.later (Analysis.Rests.begun s _).toExtends rfl
  | loaded new opens run => exact hs.later (Enters.loaded new opens run).growsInto.toExtends run.stacks.running

/-- In every state the guard against recursion keeps the keys in progress apart. -/
theorem Reachable.appliesApart (h : Reachable code start s) (hstart : start.running = []) : s.AppliesApart := by
  induction h with
  | start =>
    constructor
    · rw [hstart]
      exact nodup_nil
    · rw [hstart]
      exact forall_mem_nil _
  | session before session ih =>
    obtain ⟨l, hl⟩ := session.exists_trace
    exact ih.later hl.growsInto.toExtends hl.running
  | enter before enters ih => exact enters.appliesApart ih
  | @forget s work before holds ih =>
    have hgrows : s.GrowsInto { s with work } := .of_same rfl rfl
    exact ih.later hgrows.toExtends rfl

/-! ### Keys and trees -/

/-- The keys that applications can have when these trees are loaded and there are so many modules. -/
def CallKey.ofTrees (trees : List Module) (modules : Nat) : List CallKey :=
  CallKey.all (trees.flatMap Module.nodes) { Library.sizes with modules }

/-- The keys of the applications in progress are distinct and come from the trees, so that no more applications
are in progress than there are such keys. -/
structure Analysis.KeysFrom (trees : List Module) (s : Analysis) : Prop where
  nodup : s.running.Nodup
  known : ∀ key ∈ s.running, key ∈ CallKey.ofTrees trees s.types.modules.size
  depth : s.running.length ≤ (CallKey.ofTrees trees s.types.modules.size).length

theorem Analysis.AppliesApart.keysFrom (h : s.AppliesApart) (hs : s.Closed .all)
    (hdefined : DefinedIn (.ofModules trees) s.types) : s.KeysFrom trees := by
  have hsited : Sited (.ofModules trees) s.types := { hs.sited with toDefinedIn := hdefined }
  have hknown : ∀ key ∈ s.running, key ∈ CallKey.ofTrees trees s.types.modules.size := by
    intro key hkey
    obtain ⟨f, d, signature, happlying, hlength, rfl⟩ := h.applying key hkey
    have hkey := hsited.known_callKey (z := { Library.sizes with modules := s.types.modules.size }) (Nat.le_refl _)
      (Nat.le_refl _) (Nat.le_refl _) happlying.body happlying.within hlength
    exact hkey.mem_all fun _ hn => hn
  exact ⟨h.nodup, hknown, (subperm_of_subset h.nodup hknown).length_le⟩

/-! ### The program -/

def Block.tree? : Block → Option Module
  | .file _ tree => some tree
  | .body _ => none

/-- The trees of the files that were entered. -/
def loadedTrees (history : List Event) : List Module := (entered history).filterMap Block.tree?

theorem InCode.of_start {work config history} (hstart : Analysis.start work config = .ok s) :
    InCode (.ofModules (loadedTrees history)) [] history s := by
  refine ⟨Mark.allIn_nil, fun b hb => ?_, Analysis.defined_start hstart⟩
  cases b with
  | file path tree => exact fun _ => Code.hasBlock_ofModules (mem_filterMap.2 ⟨_, hb, rfl⟩)
  | body d => trivial

/-- In every reachable state the keys of applications in progress are distinct. They come from the trees that the
definitions so far stand in. When projects are loaded and the analysis is ended, these are the loaded trees: to watch
all applications and loads for it makes no difference. -/
theorem call_keys_come_from_loaded_trees {work : Workspace} {config : Config} {s t u : Analysis} {roots : List Path}
    {depth : Nat} (hstart : Analysis.start work config = .ok s)
    (hload : (roots.forM (Infer.analyze · depth)).run s = some ((), t))
    (hfinish : (Infer.finish depth).run t = some ((), u)) :
    (∀ v, Reachable .all s v → v.running.Nodup ∧
      ∀ trees, DefinedIn (.ofModules trees) v.types → v.KeysFrom trees) ∧
    ∃ history, Recounts history s u ∧
      let calls := Infer.guardedCalls (Analysis.KeysFrom (loadedTrees history)) depth
      (roots.forM (Infer.analyzeWith calls.load)).run s = some ((), t) ∧
      (Infer.finishWith calls.apply depth).run t = some ((), u) := by
  have hclosed := Analysis.closed_all hstart
  have hidle : s.running = [] := by
    obtain ⟨w, heq, -⟩ := Analysis.start_cases hstart
    rw [heq, Analysis.fresh_eq]
  have hapart : ∀ v, Reachable .all s v → v.AppliesApart := fun v hv => hv.appliesApart hidle
  have hkeys : ∀ trees v, Reachable .all s v → DefinedIn (.ofModules trees) v.types → v.KeysFrom trees :=
    fun trees v hv => (hapart v hv).keysFrom (hv.closed hclosed)
  refine ⟨fun v hv => ⟨(hapart v hv).nodup, fun trees => hkeys trees v hv⟩, ?_⟩
  let watchers : Watchers := ⟨List Module, .ofModules, fun trees => Infer.guardedCalls (Analysis.KeysFrom trees) depth⟩
  have hfollows : (Setting.watching .all s depth watchers).FollowsOn s := fun v hv =>
    Setting.follows_guarded (fun trees w hw => hkeys trees w ((Reachable.start.work hv).reaches hw)) depth
  have hopen : t.finished = false := by
    rw [(projects_of_roots hclosed hload).settings.1]
    obtain ⟨w, heq, -⟩ := Analysis.start_cases hstart
    rw [heq, Analysis.fresh_eq]
  obtain ⟨hwork, loading, hloading, hsame⟩ := (Setting.leadsOn_roots hfollows trivial roots hclosed).of_run hload
  have hends := (hfollows.later hwork).ends_finishWith trivial depth (hwork.closed hclosed) hopen
  obtain ⟨v, ⟨-, ending, hending, hsame'⟩, rfl⟩ := hends.of_run hfinish
  have hfinishing := hloading.trans (.aside (sameRecords_finishing t))
  have hin : InCode (.ofModules (loadedTrees (loading ++ [] ++ ending))) ([] ++ [] ++ []) (loading ++ [] ++ ending) s :=
    .of_start hstart
  refine ⟨_, .of_history hstart (hfinishing.trans hending), hsame _ hin.first.first, ?_⟩
  exact Infer.run_finishWith_of hopen (hsame' _ (hin.rest hfinishing))

theorem call_keys_come_from_loaded_trees_selfFeeding : ∃ depth s t u history,
    Analysis.start Workspace.selfFeeding .hermetic = .ok s ∧
    ([⟨"/p"⟩].forM (Infer.analyze · depth)).run s = some ((), t) ∧ (Infer.finish depth).run t = some ((), u) ∧
    Recounts history s u ∧
    ([⟨"/p"⟩].forM (Infer.analyzeWith (Infer.guardedCalls (Analysis.KeysFrom (loadedTrees history)) depth).load)).run s =
      some ((), t) := by
  have hbuilt : Workspace.selfFeeding.files.Built := .addFile (.addFile (.empty rfl rfl rfl) _ _) _ _
  obtain ⟨s, hstart⟩ : ∃ s, Analysis.start Workspace.selfFeeding .hermetic = .ok s := ⟨_, Analysis.start_hermetic _⟩
  obtain ⟨depth, t, u, hanalyze, hfinish⟩ := exists_analysis hbuilt hstart ⟨"/p"⟩
  have hload : ([⟨"/p"⟩].forM (Infer.analyze · depth)).run s = some ((), t) := by
    rw [Infer.run_forM_cons, hanalyze]
    rfl
  obtain ⟨-, history, hrecounts, hsame, -⟩ := call_keys_come_from_loaded_trees hstart hload hfinish
  exact ⟨depth, s, t, u, history, hstart, hload, hfinish, hrecounts, hsame⟩

end TypeInfer
