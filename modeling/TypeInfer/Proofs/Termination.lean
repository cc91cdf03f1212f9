/-
An analysis ends. Loading a project walks down a tree of directories. Ending the analysis applies
uncalled functions in rounds, each place once, so the rounds come to an end. Between these, code is
run within a depth that suffices for all of it.
-/
import Mathlib.Data.Set.Finite.List
import TypeInfer.Proofs.Depth

namespace TypeInfer

open List

variable {code : Code} {s : Analysis} (root : Path) {work : Workspace} {config : Config}

/-! ### Walking a tree of directories -/

namespace FileTree

variable {t : FileTree}

/-- The directories that are at least as deep as a path. -/
def below (t : FileTree) (p : Path) : Nat :=
  t.dirs.countP fun d => p.components.length ≤ d.components.length

theorem below_lt_nesting (t : FileTree) (p : Path) : t.below p < t.nesting :=
  Nat.lt_succ_of_le countP_le_length

theorem below_lt {dir p} (hdir : dir ∈ t.dirs) (h : dir.components.length < p.components.length) :
    t.below p < t.below dir := by
  have hmono : ∀ dirs : List Path, dirs.countP (fun d => p.components.length ≤ d.components.length) ≤
      dirs.countP fun d => dir.components.length ≤ d.components.length := by
    refine fun dirs => countP_mono_left fun d _ hd => ?_
    simp only [decide_eq_true_eq] at hd ⊢
    omega
  obtain ⟨before, after, hdirs⟩ := append_of_mem hdir
  have hbefore := hmono before
  have hafter := hmono after
  have hp : ¬ p.components.length ≤ dir.components.length := Nat.not_le.2 h
  simp only [below, hdirs, countP_append, countP_cons, hp, Nat.le_refl, decide_true, decide_false]
  simp only [Bool.false_eq_true, if_false, if_true]
  omega

theorem Rooted.list (h : t.Rooted) {p q entries} (hlist : t.list p = .ok entries) (hq : q ∈ entries) :
    t.below (t.fullPath q) < t.below (t.fullPath p) := by
  unfold FileTree.list at hlist
  split at hlist
  · contradiction
  · dsimp only at hlist
    split at hlist
    · rename_i hdir
      obtain rfl := Except.ok.inj hlist
      rw [mem_mergeSort] at hq
      obtain ⟨hmem, hchild⟩ := mem_filter.1 hq
      have hresolved : q.IsResolved := by
        rcases mem_append.1 hmem with hmem | hmem
        · obtain ⟨f, hf, rfl⟩ := mem_map.1 hmem
          exact h.files f hf
        · exact h.dirs q hmem
      simp only [isChild, Bool.and_eq_true, beq_iff_eq] at hchild
      rw [t.fullPath_of_isResolved hresolved]
      exact below_lt (contains_iff_mem.1 hdir) (hresolved.parent hchild.1).2
    · contradiction

end FileTree

/-- The state after a project was named, which only the first one does. -/
def Analysis.named (s : Analysis) (root : Path) : Analysis :=
  { s with project := s.project <|> some (s.files.projectDir (s.files.fullPath root)) }

theorem Analysis.Closed.named (h : s.Closed code) (root : Path) : (s.named root).Closed code :=
  { h with }

namespace Setting

variable {F : Setting} {s : Analysis}

theorem runs_loadWithin (hload : F.Loads) (levels : Nat) {p}
    (hlevels : F.stuck ∨ s.files.Rooted ∧ s.files.below (s.files.fullPath p) < levels) :
    F.Runs [] (fun c => Infer.loadWithin c.load levels p) s := by
  induction levels generalizing p s with
  | zero => exact fun _ _ => hlevels.resolve_right fun h => Nat.not_lt_zero _ h.2
  | succ levels ih =>
    refine .get_bind ?_
    dsimp only
    split
    · split
      · rename_i entries hlist
        refine runs_forM fun q hq t hrun => ih (hlevels.imp_right fun ⟨hrooted, hbelow⟩ => ?_)
        refine ⟨hrun.files.rooted hrooted, ?_⟩
        rw [hrun.files.fullPath, FileTree.below, hrun.files.dirs]
        exact Nat.lt_of_lt_of_le (hrooted.list hlist hq) (Nat.le_of_lt_succ hbelow)
      · exact runs_log rfl
    · split
      · rename_i hsource
        exact (hload.source hsource).discard
      · exact .pure trivial

theorem ends_analyzeWith (root : Path) (hs : s.Closed F.code)
    (hfollows : (F.rebase (s.named root)).Follows) (hfiles : F.stuck ∨ s.files.Rooted) :
    F.Ends (Infer.analyzeWith F.calls.load root) s fun _ t =>
      Run F.code (s.named root) t ∧ F.watchers.Retraces [] (fun c => Infer.analyzeWith c.load root) s () t := by
  refine .get_bind (.modify_bind ?_)
  have hruns : (F.rebase (s.named root)).Runs [] (fun c => do
      Infer.log (.loadingTree (s.files.countSources s.files.nesting (s.files.fullPath root)) (s.files.fullPath root))
      Infer.loadWithin c.load s.files.nesting (s.files.fullPath root)) (s.named root) := by
    refine (runs_log rfl).bind fun _ t hrun _ => runs_loadWithin hfollows.loads _ (hfiles.imp_right fun hrooted => ?_)
    refine ⟨hrun.files.rooted hrooted, ?_⟩
    rw [FileTree.below, hrun.files.dirs]
    exact FileTree.below_lt_nesting ..
  refine (hruns (hs.named root) (.refl _)).mono fun _ t ⟨ht, _, hback⟩ => ⟨ht, ?_⟩
  exact hback.comes_down { SameRecords.refl s with } fun _ => rfl

/-! ### Functions that no call reached -/

theorem within_placeholderReceiver? {code} (h : s.Closed code) (f : FunId) :
    OptionAll (Ty.Within s.sizes) (Infer.placeholderReceiver? (s.types.function f)) := by
  have hf := h.tables.function f
  unfold Infer.placeholderReceiver?
  split
  · rename_i howner _
    exact optionAll_some.2 (hf.selfType.getD (Ty.within_inst.2 (hf.owner _ howner)))
  · rename_i howner _
    exact optionAll_some.2 (hf.selfType.getD (Ty.within_inst.2 (hf.owner _ howner)))
  · rename_i howner _
    exact optionAll_some.2 (Ty.within_cls.2 (hf.owner _ howner))
  · exact optionAll_none

theorem within_placeholder {z} (params : List Param) (hasReceiver : Bool) :
    (CallArgs.placeholder params hasReceiver).Within z := by
  refine ⟨fun t ht => ?_, fun k hk => ?_⟩
  · obtain ⟨_, -, rfl⟩ := mem_map.1 ht
    exact Ty.within_unknown
  · obtain ⟨_, -, rfl⟩ := mem_map.1 hk
    exact Ty.within_unknown

theorem ends_applyPlaceholder {f} (d : FunctionDef) (hs : s.Closed F.code)
    (hf : f.index < s.types.funs.size)
    (hfollows : (F.rebase (s.log (.applyingUncalled (s.types.function f).qname))).Follows) :
    F.Ends (Infer.applyPlaceholder F.calls.apply f d) s fun _ t =>
      Run F.code (s.log (.applyingUncalled (s.types.function f).qname)) t ∧
        F.watchers.Retraces [] (fun c => Infer.applyPlaceholder c.apply f d) s () t := by
  refine .get_bind (.modify_bind ?_)
  let started := s.log (.applyingUncalled (s.types.function f).qname)
  let receiver := Infer.placeholderReceiver? (s.types.function f)
  have hgives : (F.rebase started).Gives [] (fun c => c.apply f receiver (.placeholder d.params receiver.isSome)) started :=
    hfollows.applies hf (within_placeholderReceiver? hs f) (within_placeholder ..)
  refine (hgives.discard (hs.log _) (.refl started)).mono fun _ t ⟨ht, _, hback⟩ => ⟨ht, ?_⟩
  exact hback.comes_down (.log s _) fun _ => rfl

end Setting

namespace Bounds

variable {code : Code} {b : Bounds code} {s : Analysis} {depth : Nat} {d : FunctionDef}

theorem Holds.ends_analyze (h : b.Holds s) (hdepth : b.left s < depth) (root : Path) :
    (b.setting depth s).Ends (Infer.analyze root depth) s fun _ t => b.Holds t ∧ b.left t ≤ b.left s := by
  have hnamed : b.Holds (s.named root) := { h with closed := h.closed.named root }
  refine (Setting.ends_analyzeWith (F := b.setting depth s) root h.closed (hnamed.follows hdepth) (.inr h.rooted)).mono
    fun _ t ⟨hrun, _⟩ => ?_
  have hleft : b.left t ≤ b.left (s.named root) := left_le hrun
  exact ⟨hnamed.run hrun, hleft⟩

/-! ### Rounds -/

/-- The places of definitions, by the keys of their applications. -/
def places (b : Bounds code) : Finset Span := b.keys.image CallKey.site

theorem mem_places (b : Bounds code) (hd : code.Has (.function d)) : d.span.plain ∈ b.places := by
  refine Finset.mem_image.2 ⟨⟨d.span.plain, (List.replicate d.params.length SiteTy.unknown).map SiteTy.plain⟩, ?_, rfl⟩
  refine b.known _ ⟨d, _, hd, length_replicate, fun t ht => ?_, rfl⟩
  rw [eq_of_mem_replicate ht]
  exact ⟨nodup_nil, nofun⟩

/-- The places that were not applied yet. -/
def unapplied (b : Bounds code) (applied : List Span) : Finset Span :=
  b.places.filter fun place => applied.contains place = false

theorem unapplied_lt (b : Bounds code) {applied} (hd : code.Has (.function d))
    (happlied : applied.contains d.span.plain = false) :
    (b.unapplied (d.span.plain :: applied)).card < (b.unapplied applied).card := by
  refine Finset.card_lt_card ((Finset.ssubset_iff_of_subset fun place hmem => ?_).2 ⟨d.span.plain, ?_, fun hmem => ?_⟩)
  · obtain ⟨hmem, hplace⟩ := Finset.mem_filter.1 hmem
    rw [contains_cons, Bool.or_eq_false_iff] at hplace
    exact Finset.mem_filter.2 ⟨hmem, hplace.2⟩
  · exact Finset.mem_filter.2 ⟨b.mem_places hd, happlied⟩
  · have hplace := (Finset.mem_filter.1 hmem).2
    simp at hplace

theorem Holds.log (h : b.Holds s) (e : LogEvent) : b.Holds (s.log e) :=
  { h with closed := h.closed.log e }

theorem Holds.ends_applyBatch (h : b.Holds s) (hdepth : b.left s < depth) {batch}
    (applied : List Span) (hbatch : ∀ f ∈ batch, f.index < s.types.funs.size) :
    (b.setting depth s).Ends (Infer.applyBatch (Infer.apply depth) batch applied) s fun applied' t => b.Holds t ∧ b.left t ≤ b.left s ∧
      ((b.unapplied applied').card < (b.unapplied applied).card ∨ applied' = applied ∧ t = s) := by
  induction batch generalizing s applied with
  | nil => exact ⟨h, Nat.le_refl _, .inr ⟨rfl, rfl⟩⟩
  | cons f more ih =>
    obtain ⟨hf, hmore⟩ := forall_mem_cons.1 hbatch
    refine .get_bind ?_
    dsimp only
    split
    · exact ih h hdepth applied hmore
    · rename_i d hd
      split
      · exact ih h hdepth applied hmore
      · rename_i hskip
        rw [Bool.or_eq_true, not_or, Bool.not_eq_true, Bool.not_eq_true] at hskip
        have hcode : code.Has (.function d) := h.closed.definition hd
        have hunapplied := b.unapplied_lt hcode hskip.2
        have hstarted := h.log (.applyingUncalled (s.types.function f).qname)
        refine (Setting.ends_applyPlaceholder (F := b.setting depth s) d h.closed hf (hstarted.follows hdepth)).bind fun _ t ⟨hrun, _⟩ => ?_
        have hleft : b.left t ≤ b.left (s.log _) := left_le hrun
        have hmore : ∀ f ∈ more, f.index < t.types.funs.size := fun f hf =>
          Nat.lt_of_lt_of_le (hmore f hf) hrun.sizes.funs
        refine (ih (hstarted.run hrun) (Nat.lt_of_le_of_lt hleft hdepth) (d.span.plain :: applied) hmore).mono
          fun applied' u ⟨hu, hleft', happlied⟩ => ⟨hu, Nat.le_trans hleft' hleft, .inl ?_⟩
        rcases happlied with hlt | ⟨rfl, -⟩
        · exact Nat.lt_trans hlt hunapplied
        · exact hunapplied

/-- Rounds end: each but the last two applies a place that was not applied before. -/
theorem Holds.ends_applyUncalled (h : b.Holds s) (hdepth : b.left s < depth) {rounds} (pass : Nat)
    (applied : List Span)
    (hrounds : s.uncalled = [] ∧ 0 < rounds ∨ (b.unapplied applied).card + 1 < rounds) :
    (b.setting depth s).Ends (Infer.applyUncalled (Infer.apply depth) rounds pass applied) s fun _ _ => True := by
  induction rounds generalizing s pass applied with
  | zero => omega
  | succ rounds ih =>
    refine .get_bind ?_
    dsimp only
    split
    · exact trivial
    · rename_i hbatch
      have hcard : (b.unapplied applied).card < rounds := by
        rcases hrounds with ⟨hnil, -⟩ | hcard
        · simp [hnil] at hbatch
        · omega
      let emptied : Analysis := { s with uncalled := [] }
      have hclosed : emptied.Closed code :=
        { h.closed with uncalled := nofun }
      have hemptied : b.Holds emptied := { h with closed := hclosed }
      have hstarted := hemptied.log (.uncalledPass pass s.uncalled.length)
      refine .modify_bind (.modify_bind ?_)
      refine (hstarted.ends_applyBatch hdepth applied h.closed.uncalled).bind fun applied' t ⟨ht, hleft, happlied⟩ => ?_
      refine ih ht (Nat.lt_of_le_of_lt hleft hdepth) _ _ ?_
      rcases happlied with hlt | ⟨rfl, rfl⟩
      · exact .inr (by omega)
      · exact .inl ⟨rfl, by omega⟩

theorem Holds.ends_finish (h : b.Holds s) (hdepth : b.left s < depth) (hrounds : b.places.card + 1 < depth) :
    (b.setting depth s).Ends (Infer.finish depth) s fun _ _ => True := by
  refine .get_bind ?_
  split
  · exact trivial
  · let finished : Analysis := { s with finished := true }
    have hclosed : finished.Closed code :=
      { h.closed with }
    have hfinished : b.Holds finished := { h with closed := hclosed }
    have hstarted := (hfinished.log (.loaded finished.callCount)).log .uncalledStart
    have hunapplied : (b.unapplied []).card ≤ b.places.card := Finset.card_filter_le ..
    refine .modify_bind (.get_bind (.modify_bind (.modify_bind ?_)))
    refine (hstarted.ends_applyUncalled hdepth 1 [] (.inr (by omega))).bind fun _ t _ => ?_
    refine .modify_bind (.get_bind ?_)
    dsimp only
    split <;> exact trivial

end Bounds

/-! ### All code of a workspace -/

namespace FileTree

/-- The trees of the source files, and the trees that are stored. -/
def trees (t : FileTree) : List Module :=
  t.files.filterMap (fun f => (parseText f.2 f.1).toOption) ++ t.files.filterMap fun f => Module.ofText? f.2

end FileTree

theorem Code.hasBlock_ofModules {ms m} (h : m ∈ ms) : (Code.ofModules ms).HasBlock m.body :=
  fun st hst => mem_flatMap.2 ⟨m, h, mem_flatMap.2 ⟨.stmt st, mem_map_of_mem hst, Node.mem_tree_self _⟩⟩

theorem Code.finite_ofModules (ms : List Module) : {n | (Code.ofModules ms).Has n}.Finite := finite_toSet _

theorem Workspace.holds_trees {w : Workspace} (hrooted : w.files.Rooted) (hcache : w.cache.entries = []) :
    w.Holds (.ofModules w.files.trees) where
  remembered e he := by simp [hcache] at he
  stored path content text m htext hm := by
    obtain ⟨entry, -, htext⟩ := Option.bind_eq_some_iff.1 htext
    exact Code.hasBlock_ofModules (mem_append_right _ (mem_filterMap.2 ⟨_, mem_of_lookup htext, hm⟩))
  sources p text m _ htext hm := by
    rw [FileTree.file?, hrooted.fullPath] at htext
    refine Code.hasBlock_ofModules (mem_append_left _ (mem_filterMap.2 ⟨_, mem_of_lookup htext, ?_⟩))
    rw [hm]
    rfl

theorem Code.IsProper.of_finite (h : {n | code.Has n}.Finite) : code.IsProper := by
  have hinfinite : Infinite Node := by
    refine Infinite.of_injective (fun n : Nat => Node.expr (.none { (default : Span) with start := n })) fun m n heq => ?_
    exact congrArg Span.start (Expr.none.inj (Node.expr.inj heq))
  exact h.exists_notMem

theorem Analysis.Closed.exists_bounds (h : s.Closed code) (hcode : {n | code.Has n}.Finite)
    (hrooted : s.files.Rooted) : ∃ b : Bounds code, b.Holds s := by
  let sources := (s.files.files.map Prod.fst).toFinset
  let sizes : Sizes := { Library.sizes with modules := s.types.modules.size + sources.card }
  let b : Bounds code :=
    { sources, sizes, keys := (CallKey.all hcode.toFinset.toList sizes).toFinset
      classes := Nat.le_refl _, funs := Nat.le_refl _
      known := fun _ hkey => mem_toFinset.2 (hkey.mem_all fun n hn => Finset.mem_toList.2 (hcode.mem_toFinset.2 hn))
      proper := .of_finite hcode }
  refine ⟨b, h, hrooted, fun p _ hexists => ?_, Nat.add_le_add_left (Finset.card_filter_le ..) _⟩
  rw [FileTree.fileExists, FileTree.file?, hrooted.fullPath] at hexists
  obtain ⟨text, htext⟩ := Option.isSome_iff_exists.1 hexists
  exact mem_toFinset.2 (mem_map.2 ⟨_, mem_of_lookup htext, rfl⟩)

theorem Analysis.start_cases (h : Analysis.start work config = .ok s) :
    ∃ w : Workspace, s = Analysis.fresh w config ∧ w.cache.entries = [] ∧ (config.diskCache = false → w.cache.dir = none) ∧
      (w.files = work.files ∨ work.files.makeDirs (cacheDir work.files config) = .ok w.files) := by
  -- `split` would evaluate the library inside `fresh`, so the cases are taken by hand.
  rw [Analysis.start] at h
  by_cases hdisk : config.diskCache
  · rw [if_pos hdisk] at h
    dsimp only at h
    cases hfiles : work.files.makeDirs (cacheDir work.files config) with
    | error cause => rw [hfiles] at h; exact nomatch h
    | ok files =>
      rw [hfiles] at h
      let cached : Workspace :=
        { files, cache := { dir := some (cacheDir work.files config) },
          journal := work.journal.push (.cacheAt (cacheDir work.files config)) }
      exact ⟨cached, (Except.ok.inj h).symm, rfl, by simp [hdisk], .inr rfl⟩
  · rw [if_neg hdisk] at h
    let uncached : Workspace := { work with cache := {} }
    exact ⟨uncached, (Except.ok.inj h).symm, rfl, fun _ => rfl, .inl rfl⟩

theorem Analysis.start_eq_ok (hrooted : work.files.Rooted) (h : Analysis.start work config = .ok s) :
    ∃ w : Workspace, w.files.Rooted ∧ w.cache.entries = [] ∧ s = Analysis.fresh w config := by
  obtain ⟨w, heq, hcache, -, hfiles⟩ := Analysis.start_cases h
  refine ⟨w, ?_, hcache, heq⟩
  rcases hfiles with hsame | hmade
  · rwa [hsame]
  · exact hrooted.makeDirs hmade

/-- From a closed state with finite code, loading and ending has a result from some depth on. -/
theorem Analysis.Closed.ends {code : Code} {s : Analysis} (h : s.Closed code) (hcode : {n | code.Has n}.Finite)
    (hrooted : s.files.Rooted) : ∃ enough, ∀ root depth, enough ≤ depth → ∃ t, (do
      Infer.analyze root depth
      Infer.finish depth : Infer Unit).run s = some ((), t) := by
  obtain ⟨b, hb⟩ := h.exists_bounds hcode hrooted
  refine ⟨b.left s + b.places.card + 2, fun root depth hdepth => ?_⟩
  have hends : (b.setting depth s).Ends (do
      Infer.analyze root depth
      Infer.finish depth) s fun _ _ => True :=
    (hb.ends_analyze (by omega) root).bind fun _ t ⟨ht, hleft⟩ => ht.ends_finish (by omega) (by omega)
  unfold Setting.Ends at hends
  split at hends
  · contradiction
  · rename_i t hrun
    exact ⟨t, hrun⟩

/-- A project of files that can be built is loaded and the analysis ended within some depth. -/
theorem exists_analysis (hfiles : work.files.Built) (hstart : Analysis.start work config = .ok s)
    (root : Path) :
    ∃ depth t u, (Infer.analyze root depth).run s = some ((), t) ∧ (Infer.finish depth).run t = some ((), u) := by
  obtain ⟨w, hrooted, hcache, heq⟩ := Analysis.start_eq_ok hfiles.rooted hstart
  have hclosed : s.Closed (.ofModules w.files.trees) := by
    rw [heq]
    exact Analysis.closed_fresh config (Workspace.holds_trees hrooted hcache)
  have hroot : s.files.Rooted := by
    rw [heq, Analysis.files_fresh]
    exact hrooted
  obtain ⟨depth, hends⟩ := hclosed.ends (Code.finite_ofModules _) hroot
  obtain ⟨u, hrun⟩ := hends root depth (Nat.le_refl depth)
  rw [StateT.run_bind] at hrun
  obtain ⟨⟨⟨⟩, t⟩, hload, hfinish⟩ := Option.bind_eq_some_iff.1 hrun
  exact ⟨depth, t, u, hload, hfinish⟩

theorem Analysis.start_hermetic (work : Workspace) :
    Analysis.start work .hermetic = .ok (Analysis.fresh { work with cache := {} } .hermetic) := by
  have huncached : ¬ Config.hermetic.diskCache = true := Bool.false_ne_true
  rw [Analysis.start, if_neg huncached]

/-- Two files that import each other, and a function that feeds itself new functions. -/
def Workspace.selfFeeding : Workspace where
  files := (({} : FileTree).addFile ⟨"/p/main.py"⟩ "import other\ndef f(g):\n    return f(lambda: g)\nf(1)\n").addFile
    ⟨"/p/other.py"⟩ "import main\n"

end TypeInfer
