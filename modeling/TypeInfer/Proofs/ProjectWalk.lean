/-
Loading a project loads its source files. Directories are listed on the way, between loads, which
may store trees but leave directories and source files as they are; so the walk comes to the source
files that were there at the start, in order (`Walks.run_loadWithin`). To load a settled file again
does nothing.
-/
import TypeInfer.Proofs.Listing
import TypeInfer.Proofs.Packages

namespace TypeInfer

open List

variable {code : Code} {s t : Analysis}

/-! ### The tree during a run -/

/-- Trees were stored in the directory since the first tree of files was there. -/
inductive FileTree.Stored (dir : Option Path) (t : FileTree) : FileTree → Prop where
  | none : Stored dir t t
  | next {u v : FileTree} {entry : Path} {key text : String} (before : Stored dir t u)
      (place : dir.map (·.child (key ++ ".json")) = some entry) (write : u.write entry text = .ok v) : Stored dir t v

namespace FileTree.Stored

variable {dir : Option Path} {t u v : FileTree}

theorem trans (h : t.Stored dir u) (h' : u.Stored dir v) : t.Stored dir v := by
  induction h' with
  | none => exact h
  | next before place write ih => exact .next ih place write

theorem built (h : t.Stored dir u) (ht : t.Built) : u.Built := by
  induction h with
  | none => exact ht
  | next before place write ih => exact .write ih write

theorem apart (h : t.Stored dir u) (ht : t.Apart)
    (hclear : ∀ key entry, dir.map (·.child (key ++ ".json")) = some entry → t.fullPath entry ∉ t.dirs) :
    u.Apart ∧ u.dirs = t.dirs ∧ ∀ p, u.fullPath p = t.fullPath p := by
  induction h with
  | none => exact ⟨ht, rfl, fun _ => rfl⟩
  | @next u v entry key text before place write ih =>
    obtain ⟨hapart, hdirs, hfull⟩ := ih
    rw [write_eq_putFile write]
    refine ⟨fun p hp => ?_, hdirs, hfull⟩
    change p ∉ u.dirs
    obtain ⟨f, hf, rfl⟩ := mem_map.1 hp
    rcases mem_append.1 hf with hf | hf
    · exact hapart f.1 (mem_map_of_mem (mem_filter.1 hf).1)
    · rw [mem_singleton.1 hf, hdirs, hfull]
      exact hclear key entry place

end FileTree.Stored

/-- Asking for the tree of a file stores it, if anything. -/
theorem Workspace.stored_after (w : Workspace) (path : Path) :
    (w.after path).cache.dir = w.cache.dir ∧ w.files.Stored w.cache.dir (w.after path).files := by
  have hproduced : ∀ {content r}, Produced w path content (fileKey path content) r →
      r.2.cache.dir = w.cache.dir ∧ w.files.Stored w.cache.dir r.2.files := by
    intro content r hr
    cases hr with
    | stored => exact ⟨rfl, .none⟩
    | faulty => exact ⟨rfl, .none⟩
    | parsed _ changed =>
      rcases changed with rfl | ⟨entry, hentry, hwrite⟩
      · exact ⟨rfl, .none⟩
      · exact ⟨rfl, .next .none hentry hwrite⟩
  have hanswered := answered_treeOf w path
  rw [after]
  generalize ((Workspace.treeOf path).run w).run = r at hanswered
  cases hanswered with
  | unreadable reads => exact ⟨rfl, .none⟩
  | remembered reads there key => exact ⟨rfl, .none⟩
  | failed reads produced => exact hproduced produced
  | produced reads produced =>
    have hstored := hproduced produced
    exact hstored

theorem Run.stored (h : Run code s t) :
    t.work.cache.dir = s.work.cache.dir ∧ s.files.Stored s.work.cache.dir t.files := by
  have hopened : ∀ (s : Analysis) (file : Path), (s.opened file).work.cache.dir = s.work.cache.dir ∧
      s.files.Stored s.work.cache.dir (s.opened file).files := fun s file => (s.opening file).work.stored_after file
  let Stores (s t : Analysis) : Prop := t.work.cache.dir = s.work.cache.dir ∧ s.files.Stored s.work.cache.dir t.files
  have htrans : ∀ {s t u : Analysis}, Stores s t → Stores t u → Stores s u := by
    rintro s t u ⟨hdir, hstored⟩ ⟨hdir', hstored'⟩
    rw [hdir] at hdir' hstored'
    exact ⟨hdir', hstored.trans hstored'⟩
  refine h.relates (R := Stores) (fun _ => ⟨rfl, .none⟩) htrans (fun h => ?_) (fun _ _ _ _ ih => ih)
    (fun _ _ _ _ _ => hopened _ _) fun _ _ ih => htrans (hopened _ _) ih
  obtain ⟨_, _, _, _, _, _, _, _, _, _, rfl, -, -⟩ := h.frame
  exact ⟨rfl, .none⟩

theorem Projects.built (h : Projects code s t) (hs : s.files.Built) : t.files.Built := by
  induction h with
  | none s => exact hs
  | next root run rest ih => exact ih (run.stored.2.built hs)

/-! ### Walking the tree -/

namespace Infer

/-- Loads files, one after the other. -/
def loadEach (load : Path → Infer Loaded) (files : List Path) : Infer Unit := files.forM fun file => discard (load file)

/-- The tree can be built and listed, no path is both a file and a directory, and loading a source file
leaves the directories and the source files as they are. -/
structure Tidy (load : Path → Infer Loaded) (states : Analysis → Prop) : Prop where
  built : ∀ {s}, states s → s.files.Built
  listed : ∀ {s}, states s → s.files.denyList = []
  apart : ∀ {s}, states s → s.files.Apart
  kept : ∀ {s t file r}, states s → file.isSourceFile → (load file).run s = some (r, t) →
    states t ∧ s.files.SameSources t.files

/-- The same with trees in which other files than source files may stand where directories do, if loading
files again does nothing. -/
structure Walks (load : Path → Infer Loaded) (states : Analysis → Prop) : Prop where
  built : ∀ {s}, states s → s.files.Built
  listed : ∀ {s}, states s → s.files.denyList = []
  apart : ∀ {s}, states s → ∀ file ∈ s.files.filePaths, file.isSourceFile → file ∉ s.files.dirs
  kept : ∀ {s t file r}, states s → file.isSourceFile → (load file).run s = some (r, t) →
    states t ∧ s.files.SameSources t.files
  once : (∀ {s}, states s → s.files.Apart) ∨
    ∀ {s t files}, states s → (∀ file ∈ files, file ∈ s.files.filePaths ∧ file.isSourceFile) →
      (loadEach load files).run s = some ((), t) → (loadEach load files).run t = some ((), t)

theorem Tidy.walks {load : Path → Infer Loaded} {states : Analysis → Prop} (h : Tidy load states) : Walks load states :=
  { h with apart := fun hs file hfile _ => h.apart hs file hfile, once := .inl h.apart }

theorem run_loadEach_cons (load : Path → Infer Loaded) (file : Path) (files : List Path) (s : Analysis) :
    (loadEach load (file :: files)).run s = ((load file).run s).bind fun r => (loadEach load files).run r.2 := by
  rw [loadEach, run_forM_cons, run_discard, Option.bind_map]
  rfl

theorem run_loadEach_append (load : Path → Infer Loaded) (files more : List Path) (s : Analysis) :
    (loadEach load (files ++ more)).run s = ((loadEach load files).run s).bind fun r => (loadEach load more).run r.2 := by
  induction files generalizing s with
  | nil => rfl
  | cons file files ih =>
    rw [cons_append, run_loadEach_cons, run_loadEach_cons, Option.bind_assoc]
    exact congrArg _ (funext fun r => ih r.2)

theorem run_loadWithin_file (load : Path → Infer Loaded) (levels : Nat) {p}
    (hp : s.files.dirExists p = false) :
    (loadWithin load (levels + 1) p).run s = (loadEach load (if p.isSourceFile then [p] else [])).run s := by
  rw [loadWithin, run_get_bind]
  dsimp only
  rw [hp, if_neg Bool.false_ne_true]
  split
  · rw [run_loadEach_cons, run_discard]
    cases (load p).run s <;> rfl
  · rfl

theorem run_loadWithin_dir (load : Path → Infer Loaded) (levels : Nat) {p}
    (hlisted : s.files.denyList = []) (hp : s.files.dirExists p) :
    (loadWithin load (levels + 1) p).run s =
      ((s.files.entries (s.files.fullPath p)).forM (loadWithin load levels)).run s := by
  rw [loadWithin, run_get_bind]
  dsimp only
  rw [if_pos hp, FileTree.list_eq hlisted hp]

namespace Walks

variable {load : Path → Infer Loaded} {states : Analysis → Prop}

section

variable (h : Walks load states)
include h

theorem nested (hs : states s) : s.files.Nested := (h.built hs).nested

theorem kept_loadEach {files} (hs : states s) (hfiles : ∀ file ∈ files, file.isSourceFile)
    (hrun : (loadEach load files).run s = some ((), t)) : states t ∧ s.files.SameSources t.files := by
  induction files generalizing s with
  | nil =>
    cases hrun
    exact ⟨hs, .refl _⟩
  | cons file files ih =>
    obtain ⟨hfile, hfiles⟩ := forall_mem_cons.1 hfiles
    rw [run_loadEach_cons] at hrun
    obtain ⟨⟨r, u⟩, hload, hrest⟩ := Option.bind_eq_some_iff.1 hrun
    obtain ⟨hu, hsame⟩ := h.kept hs hfile hload
    obtain ⟨ht, hsame'⟩ := ih hu hfiles hrest
    exact ⟨ht, hsame.trans hsame'⟩

theorem run_entries {walk : Path → Infer Unit} {base : FileTree} {entries : List Path}
    (hresolved : ∀ e ∈ entries, e.IsResolved) (hsorted : entries.Pairwise fun a b => compare a b ≠ .gt)
    (hnodup : (∀ {s}, states s → s.files.Apart) → entries.Nodup)
    (hwalk : ∀ e ∈ entries, ∀ s, states s → base.SameSources s.files → (walk e).run s = (loadEach load (base.sourcesBelow e)).run s)
    (hs : states s) (hsame : base.SameSources s.files) :
    (entries.forM walk).run s = (loadEach load (entries.dedup.flatMap base.sourcesBelow)).run s := by
  induction entries generalizing s with
  | nil => rfl
  | cons e entries ih =>
    obtain ⟨hwalk_e, hwalk⟩ := forall_mem_cons.1 hwalk
    have hrest := (pairwise_cons.1 hsorted).2
    have ih := fun {s : Analysis} => ih (s := s) (fun q hq => hresolved q (mem_cons_of_mem e hq)) hrest
      (fun hapart => (nodup_cons.1 (hnodup hapart)).2) hwalk
    have hsources : ∀ file ∈ base.sourcesBelow e, file.isSourceFile := fun file hfile =>
      (FileTree.source_of_mem_sourcesBelow hfile).2
    rw [run_forM_cons, hwalk_e s hs hsame]
    by_cases hmem : e ∈ entries
    · obtain ⟨more, rfl⟩ := FileTree.eq_cons_of_sorted hresolved hsorted hmem
      rw [dedup_cons_of_mem hmem, ← ih hs hsame, run_forM_cons, hwalk_e s hs hsame]
      cases hfirst : (loadEach load (base.sourcesBelow e)).run s with
      | none => rfl
      | some r =>
        -- the entry is listed again: what is below it was loaded just before
        obtain ⟨⟨⟩, t⟩ := r
        obtain ⟨ht, hsame'⟩ := h.kept_loadEach hs hsources hfirst
        have hagain : (loadEach load (base.sourcesBelow e)).run t = some ((), t) := by
          rcases h.once with hapart | hagain
          · exact absurd hmem (nodup_cons.1 (hnodup hapart)).1
          · refine hagain hs (fun file hfile => ?_) hfirst
            obtain ⟨hfile, hsource⟩ := FileTree.source_of_mem_sourcesBelow hfile
            exact ⟨(hsame.mem_filePaths hsource).2 hfile, hsource⟩
        rw [Option.bind_some, Option.bind_some, run_forM_cons, hwalk_e t ht (hsame.trans hsame'), hagain, Option.bind_some]
    · rw [dedup_cons_of_notMem hmem, flatMap_cons, run_loadEach_append]
      cases hfirst : (loadEach load (base.sourcesBelow e)).run s with
      | none => rfl
      | some r =>
        obtain ⟨⟨⟩, t⟩ := r
        obtain ⟨ht, hsame'⟩ := h.kept_loadEach hs hsources hfirst
        exact ih ht (hsame.trans hsame')

/-- The walk loads the source files below a directory, in order. -/
theorem run_loadWithin (levels : Nat) {p : Path} (hs : states s) (hp : s.files.dirExists p)
    (hlevels : s.files.below (s.files.fullPath p) < levels) :
    (loadWithin load levels p).run s = (loadEach load (s.files.sourcesBelow (s.files.fullPath p))).run s := by
  induction levels generalizing p s with
  | zero => exact absurd hlevels (Nat.not_lt_zero _)
  | succ levels ih =>
    have hnested := h.nested hs
    have hdir : s.files.fullPath p ∈ s.files.dirs := contains_iff_mem.1 hp
    have hmem : ∀ e ∈ s.files.entries (s.files.fullPath p), e ∈ s.files.filePaths ++ s.files.dirs := fun e he =>
      ((hnested.mem_entries_iff (hnested.rooted.dirs _ hdir)).1 he).1
    rw [run_loadWithin_dir load levels (h.listed hs) hp, hnested.sourcesBelow_dir hdir (h.apart hs)]
    refine h.run_entries (fun e he => hnested.isResolved (hmem e he)) (FileTree.pairwise_sorted _)
      (fun hapart => hnested.nodup_entries (hapart hs) _) (fun e he t ht hsame => ?_) hs (.refl _)
    -- an entry is met in a later state, with the directories and source files of the first one
    have hfull : t.files.fullPath e = e := t.files.fullPath_of_isResolved (hnested.isResolved (hmem e he))
    have hbelow := hnested.rooted.list (FileTree.list_eq (h.listed hs) hp) he
    have hexists : t.files.dirExists e ↔ e ∈ s.files.dirs := by
      rw [FileTree.dirExists, hfull, contains_iff_mem, hsame.dirs]
    by_cases hedir : e ∈ s.files.dirs
    · have hlevels' : t.files.below (t.files.fullPath e) < levels := by
        rw [FileTree.below, hsame.dirs, hsame.fullPath]
        exact Nat.lt_of_lt_of_le hbelow (Nat.le_of_lt_succ hlevels)
      rw [ih ht (hexists.2 hedir) hlevels', hfull, hsame.sourcesBelow hnested (h.nested ht)]
    · have hefile := (mem_append.1 (hmem e he)).resolve_right hedir
      obtain ⟨deeper, rfl⟩ : ∃ deeper, levels = deeper + 1 := ⟨levels - 1, by omega⟩
      have hnot : t.files.dirExists e = false := Bool.eq_false_iff.2 fun hthere => hedir (hexists.1 hthere)
      rw [run_loadWithin_file load deeper hnot, hnested.sourcesBelow_file hefile hedir]

end

end Walks

end Infer

/-! ### Files that are settled -/

/-- Loading a source file is a run that gives an answer. -/
theorem run_of_load {depth file r} (hs : s.Closed code) (hsource : file.isSourceFile)
    (hload : (Infer.load depth file).run s = some (r, t)) :
    Run code s t ∧ t.Answers (t.files.fullPath file) r := by
  obtain ⟨ht, hr, -⟩ := ((Setting.follows_partly code s depth).loads (.inl hsource) hs (.refl s)).of_run hload
  exact ⟨ht, hr⟩

theorem settled_of_load {depth file r} (hs : s.Closed code) (hidle : s.importing = [])
    (hrooted : s.files.Rooted) (hsource : file.isSourceFile) (hfile : file ∈ s.files.filePaths)
    (hload : (Infer.load depth file).run s = some (r, t)) : Run code s t ∧ t.settled file := by
  obtain ⟨hrun, hanswers⟩ := run_of_load hs hsource hload
  have hfull : t.files.fullPath file = file := by
    obtain ⟨f, hf, rfl⟩ := mem_map.1 hfile
    exact t.files.fullPath_of_isResolved (hrooted.files f hf)
  refine ⟨hrun, ?_⟩
  rw [hfull] at hanswers
  cases r with
  | ok m => simp [Analysis.settled, hanswers.2]
  | error failure =>
    cases failure with
    | notFound =>
      have hthere : t.files.fileExists file :=
        (FileTree.fileExists_iff hfull).2 ((hrun.files.mem_filePaths hsource).2 hfile)
      have habsent : t.files.fileExists file = false := hanswers
      rw [habsent] at hthere
      contradiction
    | cycle =>
      have himporting : t.importing.contains file := hanswers
      rw [hrun.stacks.importing, hidle] at himporting
      contradiction
    | unparsable =>
      have hfailed : t.hasFailed file := hanswers
      simp [Analysis.settled, hfailed]

/-- To load a settled file does nothing. -/
theorem run_load_settled (depth : Nat) {file} (hidle : s.importing = [])
    (hfull : s.files.fullPath file = file) (hthere : s.files.fileExists file)
    (hsettled : s.settled file) : ∃ r, (Infer.load (depth + 1) file).run s = some (r, s) := by
  have hends : (Setting.ofDepth .all False s depth).Ends (Infer.load (depth + 1) file) s fun _ t => t = s := by
    refine .get_bind ?_
    dsimp only
    rw [hfull]
    split
    · rename_i habsent
      simp [hthere] at habsent
    · split
      · rfl
      · rename_i hunnamed
        split
        · rfl
        · rename_i hfaultless
          simp [Analysis.settled, hidle, hunnamed, hfaultless] at hsettled
  unfold Setting.Ends at hends
  cases hrun : (Infer.load (depth + 1) file).run s with
  | none =>
    rw [hrun] at hends
    exact hends.elim
  | some r =>
    rw [hrun] at hends
    obtain rfl : r.2 = s := hends
    exact ⟨r.1, rfl⟩

theorem run_loadEach_settled (depth : Nat) {files} (hidle : s.importing = [])
    (hfiles : ∀ file ∈ files, s.files.fullPath file = file ∧ s.files.fileExists file ∧ s.settled file) :
    (Infer.loadEach (Infer.load (depth + 1)) files).run s = some ((), s) := by
  induction files with
  | nil => rfl
  | cons file files ih =>
    obtain ⟨⟨hfull, hthere, hsettled⟩, hfiles⟩ := forall_mem_cons.1 hfiles
    obtain ⟨r, hload⟩ := run_load_settled depth hidle hfull hthere hsettled
    rw [Infer.run_loadEach_cons, hload, Option.bind_some, ih hfiles]

namespace Analysis

/-- What holds between the loads of a walk: no load is going on, the tree can be built and
listed, and no source file stands where a directory does. -/
structure BetweenLoads (s : Analysis) : Prop where
  closed : s.Closed .all
  idle : s.importing = []
  built : s.files.Built
  listed : s.files.denyList = []
  apart : ∀ file ∈ s.files.filePaths, file.isSourceFile → file ∉ s.files.dirs

namespace BetweenLoads

variable {depth : Nat} {files : List Path}

theorem run (h : s.BetweenLoads) (hrun : Run .all s t) : t.BetweenLoads := by
  refine ⟨hrun.closed h.closed, by rw [hrun.stacks.importing, h.idle], hrun.stored.2.built h.built, ?_, fun file hfile hsource => ?_⟩
  · obtain ⟨kept, hkept⟩ := hrun.files.rest
    rw [hkept]
    exact h.listed
  · rw [hrun.files.dirs]
    exact h.apart file ((hrun.files.mem_filePaths hsource).1 hfile) hsource

/-- Loading source files is a run that settles them. -/
theorem settles (h : s.BetweenLoads) (hfiles : ∀ file ∈ files, file ∈ s.files.filePaths ∧ file.isSourceFile)
    (hload : (Infer.loadEach (Infer.load depth) files).run s = some ((), t)) :
    Run .all s t ∧ ∀ file ∈ files, t.settled file := by
  induction files generalizing s with
  | nil =>
    cases hload
    exact ⟨.refl _, by simp⟩
  | cons file files ih =>
    obtain ⟨⟨hfile, hsource⟩, hfiles⟩ := forall_mem_cons.1 hfiles
    rw [Infer.run_loadEach_cons] at hload
    obtain ⟨⟨r, u⟩, hfirst, hrest⟩ := Option.bind_eq_some_iff.1 hload
    obtain ⟨hrun, hsettled⟩ := settled_of_load h.closed h.idle h.built.rooted hsource hfile hfirst
    have hkept : ∀ file ∈ files, file ∈ u.files.filePaths ∧ file.isSourceFile := fun file hfile => by
      obtain ⟨hmem, hsource⟩ := hfiles file hfile
      exact ⟨(hrun.files.mem_filePaths hsource).2 hmem, hsource⟩
    obtain ⟨hrun', hsettled'⟩ := ih (h.run hrun) hkept hrest
    exact ⟨hrun.trans hrun', forall_mem_cons.2 ⟨hrun'.settled hsettled, hsettled'⟩⟩

/-- Loading source files again does nothing. -/
theorem again (h : s.BetweenLoads) (hfiles : ∀ file ∈ files, file ∈ s.files.filePaths ∧ file.isSourceFile)
    (hload : (Infer.loadEach (Infer.load depth) files).run s = some ((), t)) :
    (Infer.loadEach (Infer.load depth) files).run t = some ((), t) := by
  cases depth with
  | zero =>
    cases files with
    | nil => rfl
    | cons file files =>
      rw [Infer.run_loadEach_cons] at hload
      contradiction
  | succ depth =>
    obtain ⟨hrun, hsettled⟩ := h.settles hfiles hload
    refine run_loadEach_settled depth (h.run hrun).idle fun file hfile => ?_
    obtain ⟨hmem, hsource⟩ := hfiles file hfile
    have hfull : t.files.fullPath file = file :=
      t.files.fullPath_of_isResolved (h.built.nested.isResolved (mem_append_left _ hmem))
    exact ⟨hfull, (FileTree.fileExists_iff hfull).2 ((hrun.files.mem_filePaths hsource).2 hmem), hsettled file hfile⟩

theorem walks (depth : Nat) : Infer.Walks (Infer.load depth) BetweenLoads where
  built h := h.built
  listed h := h.listed
  apart h := h.apart
  kept h hsource hload := by
    obtain ⟨hrun, -⟩ := run_of_load h.closed hsource hload
    exact ⟨h.run hrun, hrun.files⟩
  once := .inr again

end BetweenLoads

/-- No directory stands where a tree would be stored. -/
def HasRoom (s : Analysis) : Prop :=
  ∀ key entry, s.work.cache.entryPath? key = some entry → s.files.fullPath entry ∉ s.files.dirs

theorem BetweenLoads.tidy (depth : Nat) :
    Infer.Tidy (Infer.load depth) fun s => s.BetweenLoads ∧ s.files.Apart ∧ s.HasRoom where
  built h := h.1.built
  listed h := h.1.listed
  apart h := h.2.1
  kept h hsource hload := by
    obtain ⟨hbetween, hapart, hroom⟩ := h
    obtain ⟨hrun, -⟩ := run_of_load hbetween.closed hsource hload
    obtain ⟨hdir, hstored⟩ := hrun.stored
    obtain ⟨hapart', hdirs, hfull⟩ := hstored.apart hapart hroom
    refine ⟨⟨hbetween.run hrun, hapart', fun key entry hentry => ?_⟩, hrun.files⟩
    rw [TreeCache.entryPath?, hdir] at hentry
    rw [hdirs, hfull]
    exact hroom key entry hentry

/-- A settled file that has its name alone was loaded or has failed, not both. -/
theorem Orderly.loaded_or_failed {before : Nat} {waiting : List Path} {file : Path} (h : s.Orderly before)
    (hhomed : s.Homed waiting) (hidle : s.importing = []) (hsettled : s.settled file) (howns : s.OwnsName file) :
    (file ∈ s.loaded ∧ s.hasFailed file = false) ∨ (file ∉ s.loaded ∧ s.hasFailed file) := by
  by_cases hloaded : file ∈ s.loaded
  · exact .inl ⟨hloaded, h.faultless file hloaded⟩
  · refine .inr ⟨hloaded, ?_⟩
    rw [Analysis.settled, hidle, Bool.or_eq_true, Bool.or_eq_true] at hsettled
    rcases hsettled with (himporting | hnamed) | hfailed
    · contradiction
    · obtain ⟨m, hm⟩ := Option.isSome_iff_exists.1 hnamed
      obtain ⟨hqname, other, hother, hfile⟩ := h.modules _ (mem_of_lookup hm)
      have hsame : other.moduleQname = file.moduleQname := (hhomed.titled m other hfile).1.symm.trans hqname
      exact absurd (howns other hother hsame ▸ hother) hloaded
    · exact hfailed

end Analysis

theorem Projects.importing (h : Projects code s t) : t.importing = s.importing := by
  induction h with
  | none s => rfl
  | next root run rest ih => exact ih.trans run.stacks.importing

/-! ### Projects -/

namespace Analysis

variable {work : Workspace} {config : Config}

theorem built_of_start (hfiles : work.files.Built) (h : Analysis.start work config = .ok s) : s.files.Built := by
  obtain ⟨w, heq, -, -, hmade⟩ := Analysis.start_cases h
  rw [heq, files_fresh]
  rcases hmade with hsame | hmade
  · rwa [hsame]
  · exact .makeDirs hfiles hmade

theorem importing_of_start (h : Analysis.start work config = .ok s) : s.importing = [] := by
  obtain ⟨w, heq, -⟩ := Analysis.start_cases h
  rw [heq, fresh_eq]

theorem ordered_of_start (hfiles : work.files.Built) (h : Analysis.start work config = .ok s) :
    ∃ before, s.Orderly before ∧ s.Homed [] := by
  obtain ⟨w, hrooted, -, heq⟩ := Analysis.start_eq_ok hfiles.rooted h
  rw [heq]
  exact ⟨_, .fresh w config, .fresh config hrooted⟩

/-- After projects were loaded there is a depth from which on any other one is loaded. -/
theorem exists_enough {roots : List Path} {depth₀ : Nat} (hfiles : work.files.Built)
    (hstart : Analysis.start work config = .ok s) (hload : (roots.forM (Infer.analyze · depth₀)).run s = some ((), t)) :
    ∃ enough, ∀ root depth, enough ≤ depth → ∃ u, (Infer.analyze root depth).run t = some ((), u) := by
  obtain ⟨w, hrooted, hcache, heq⟩ := Analysis.start_eq_ok hfiles.rooted hstart
  have hclosed : s.Closed (.ofModules w.files.trees) := by
    rw [heq]
    exact Analysis.closed_fresh config (Workspace.holds_trees hrooted hcache)
  have hprojects := projects_of_roots hclosed hload
  have hbuilt := hprojects.built (built_of_start hfiles hstart)
  obtain ⟨enough, hends⟩ := (hprojects.work.closed hclosed).ends (Code.finite_ofModules _) hbuilt.rooted
  refine ⟨enough, fun root depth hdepth => ?_⟩
  obtain ⟨v, hrun⟩ := hends root depth hdepth
  rw [StateT.run_bind] at hrun
  obtain ⟨⟨⟨⟩, u⟩, hanalyze, -⟩ := Option.bind_eq_some_iff.1 hrun
  exact ⟨u, hanalyze⟩

/-- Loading a project settles its source files. -/
theorem BetweenLoads.settled_of_analyze {depth : Nat} {root : Path} (h : s.BetweenLoads) (hroot : s.files.dirExists root)
    (hanalyze : (Infer.analyze root depth).run s = some ((), t)) :
    ∀ file ∈ s.files.sourcesBelow (s.files.fullPath root), t.settled file := by
  let event := LogEvent.loadingTree (s.files.countSources s.files.nesting (s.files.fullPath root)) (s.files.fullPath root)
  let started := (s.named root).log event
  have hstarted : started.BetweenLoads := { h with closed := (h.closed.named root).log event }
  have hfull : started.files.fullPath (s.files.fullPath root) = s.files.fullPath root := h.built.rooted.fullPath root
  have hdir : started.files.dirExists (s.files.fullPath root) := by
    rw [FileTree.dirExists, hfull]
    exact hroot
  have hwalk := (BetweenLoads.walks depth).run_loadWithin _ hstarted hdir (started.files.below_lt_nesting _)
  rw [Infer.analyze, Infer.analyzeWith, Infer.run_get_bind, Infer.run_modify_bind, Infer.log, Infer.run_modify_bind] at hanalyze
  rw [hfull] at hwalk
  exact (hstarted.settles (fun _ => FileTree.source_of_mem_sourcesBelow) (hwalk.symm.trans hanalyze)).2

end Analysis

/-- A directory and a file beside it whose names agree up to a dash, a file without a tree, a file
that the others ask for, and one that is no source file. -/
def Workspace.crossed : Workspace where
  files := ((((({} : FileTree).addFile ⟨"/p/a-b.py"⟩ "import broken\nimport a.c\n").addFile ⟨"/p/a/c.py"⟩ "import z\n").addFile
    ⟨"/p/broken.py"⟩ "def (:\n").addFile ⟨"/p/z.py"⟩ "x = 1\n").addFile ⟨"/p/notes.txt"⟩ ""

end TypeInfer
