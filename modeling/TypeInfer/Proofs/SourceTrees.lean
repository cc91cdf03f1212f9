/-
Trees of source files. As long as the stored trees are right, the tree that a workspace comes up
with is the one that the text parses to (`Workspace.Serves.treeOf`). So the blocks that a run enters
belong to the trees of the files as they were at the start (`exists_tree_of_entered`).
-/
import TypeInfer.Proofs.DistinctSpans
import TypeInfer.Proofs.Recount

namespace TypeInfer

open List

namespace FileTree

/-- The file, given by its full path, is a source file with the text. -/
structure IsSource (t : FileTree) (file : Path) (text : String) : Prop where
  source : file.isSourceFile
  full : ∃ p, file = t.fullPath p
  there : t.file? file = some text

/-- The tree is the one that the text of the file parses to. -/
def HasTree (t : FileTree) (file : Path) (tree : Module) : Prop :=
  ∃ text, t.IsSource file text ∧ parseText text file = .ok tree

variable {t t' : FileTree} {file : Path} {text : String} {tree tree' : Module}

theorem SameSources.isSource (h : t.SameSources t') : t'.IsSource file text ↔ t.IsSource file text := by
  have hthere : file.isSourceFile → t'.file? file = t.file? file := fun hsource => by
    rw [file?, file?, h.fullPath, h.sources _ (t.isSourceFile_fullPath hsource)]
  constructor
  · rintro ⟨hsource, ⟨p, hp⟩, ht⟩
    exact ⟨hsource, ⟨p, hp.trans (h.fullPath p)⟩, (hthere hsource).symm.trans ht⟩
  · rintro ⟨hsource, ⟨p, hp⟩, ht⟩
    exact ⟨hsource, ⟨p, hp.trans (h.fullPath p).symm⟩, (hthere hsource).trans ht⟩

theorem HasTree.unique (h : t.HasTree file tree) (h' : t.HasTree file tree') : tree = tree' := by
  obtain ⟨text, hsource, hparse⟩ := h
  obtain ⟨text', hsource', hparse'⟩ := h'
  obtain rfl := Option.some.inj (hsource.there.symm.trans hsource'.there)
  exact Except.ok.inj (hparse.symm.trans hparse')

theorem HasTree.isResolved (h : t.HasTree file tree) (hrooted : t.Rooted) : file.IsResolved := by
  obtain ⟨text, hsource, -⟩ := h
  obtain ⟨p, rfl⟩ := hsource.full
  exact isResolved_fullPath hrooted.cwd p

/-- The code of all source files. -/
def code (t : FileTree) : Code where
  Has n := ∃ file tree, t.HasTree file tree ∧ n ∈ tree.nodes
  child := by
    rintro n c ⟨file, tree, htree, hn⟩ hc
    obtain ⟨root, hroot, hn⟩ := mem_flatMap.1 hn
    exact ⟨file, tree, htree, mem_flatMap.2 ⟨root, hroot, Node.mem_tree_of_child hn hc⟩⟩

theorem HasTree.hasBlock (h : t.HasTree file tree) : t.code.HasBlock tree.body := fun st hst =>
  ⟨file, tree, h, mem_flatMap.2 ⟨.stmt st, mem_map_of_mem hst, Node.mem_tree_self _⟩⟩

end FileTree

namespace Workspace

/-- No two source files have one key, and what is stored under it is its tree or unreadable. -/
structure StoresRightly (w : Workspace) : Prop where
  apart : ∀ file file' text text', w.files.IsSource file text → w.files.IsSource file' text' →
    fileKey file text = fileKey file' text' → file = file'
  right : ∀ file text stored tree, w.files.IsSource file text → w.entryText? (fileKey file text) = some stored →
    Module.ofText? stored = some tree → parseText text file = .ok tree

/-- The workspace comes up with the trees of the source files. -/
structure Serves (files : FileTree) (w : Workspace) : Prop where
  same : files.SameSources w.files
  remembered : ∀ e ∈ w.cache.entries, files.HasTree e.path e.tree
  stored : w.cache.dir = none ∨ w.StoresRightly

variable {w w' : Workspace} {files : FileTree} {path : Path} {content : String} {tree : Module}

theorem Serves.congr (h : w.Serves files) (hfiles : w'.files = w.files) (hdir : w'.cache.dir = w.cache.dir)
    (hremembered : ∀ e ∈ w'.cache.entries, files.HasTree e.path e.tree) : w'.Serves files := by
  have hentry : ∀ key, w'.entryText? key = w.entryText? key := fun key => by
    simp only [entryText?, TreeCache.entryPath?, hfiles, hdir]
  refine ⟨hfiles.symm ▸ h.same, hremembered, hdir.symm ▸ h.stored.imp_right fun hright => ⟨?_, ?_⟩⟩
  · rw [hfiles]
    exact hright.apart
  · intro file text stored tree hsource there
    rw [hfiles] at hsource
    rw [hentry] at there
    exact hright.right file text stored tree hsource there

/-- Storing the tree of a source file does no harm. -/
theorem StoresRightly.write (h : w.StoresRightly) (hsource : w.files.IsSource path content)
    (hparse : parseText content path = .ok tree) {entry}
    (hentry : w.cache.entryPath? (fileKey path content) = some entry)
    (hwrite : w.files.write entry tree.toText = .ok files) : { w with files }.StoresRightly := by
  obtain ⟨dir, hdir, rfl⟩ := Option.map_eq_some_iff.1 hentry
  have hsame : w.files.SameSources files := .write hwrite
  refine ⟨fun file file' text text' hfile hfile' => ?_, fun file text stored m hfile there reads => ?_⟩
  · exact h.apart file file' text text' (hsame.isSource.1 hfile) (hsame.isSource.1 hfile')
  · have hfile := hsame.isSource.1 hfile
    simp only [entryText?, TreeCache.entryPath?, hdir, Option.map_some, Option.bind_some] at there
    rw [FileTree.write_eq_putFile hwrite, FileTree.file?_putFile] at there
    split at there
    · -- the entry is the new one, so the file is the same
      rename_i hplace
      have hname := FileTree.fullPath_child_inj (isName_entry _ _) (isName_entry _ _) hplace
      have hkey : fileKey file text = fileKey path content := by
        rw [← String.toList_inj] at hname ⊢
        simpa using hname
      have hpath : file = path := h.apart file path text content hfile hsource hkey
      subst hpath
      have htext : text = content := Option.some.inj (hfile.there.symm.trans hsource.there)
      rw [← Option.some.inj there] at reads
      rw [htext, ← (Module.ofText?_toText_eq_some.1 reads).2]
      exact hparse
    · refine h.right file text stored m hfile ?_ reads
      simpa [entryText?, TreeCache.entryPath?, hdir] using there

theorem Serves.of_produced (h : w.Serves files) (hsource : w.files.IsSource path content) {r}
    (hr : Produced w path content (fileKey path content) r) :
    r.2.Serves files ∧ ∀ tree, r.1 = .ok tree → files.HasTree path tree := by
  have hfile := h.same.isSource.1 hsource
  cases hr with
  | @stored text tree journal there reads =>
    refine ⟨h.congr rfl rfl h.remembered, fun m hm => ?_⟩
    obtain rfl := Except.ok.inj hm
    rcases h.stored with hnone | hright
    · simp [entryText?, TreeCache.entryPath?, hnone] at there
    · exact ⟨content, hfile, hright.right path content text tree hsource there reads⟩
  | faulty parses =>
    exact ⟨h.congr rfl rfl h.remembered, fun m hm => by cases hm⟩
  | @parsed tree files' journal parses changed =>
    refine ⟨?_, fun m hm => Except.ok.inj hm ▸ ⟨content, hfile, parses⟩⟩
    rcases changed with rfl | ⟨entry, hentry, hwrite⟩
    · exact h.congr rfl rfl h.remembered
    · have hsame : w.files.SameSources files' := by
        obtain ⟨dir, -, rfl⟩ := Option.map_eq_some_iff.1 hentry
        exact .write hwrite
      refine ⟨h.same.trans hsame, h.remembered, h.stored.imp_right fun hright => ?_⟩
      have hwritten := hright.write hsource parses hentry hwrite
      exact ⟨hwritten.apart, hwritten.right⟩

/-- Asking for the tree of a source file gives its tree. -/
theorem Serves.treeOf (h : w.Serves files) (hrooted : files.Rooted) {p}
    (hsource : (w.files.fullPath p).isSourceFile) :
    (w.after (w.files.fullPath p)).Serves files ∧
      ∀ tree, ((Workspace.treeOf (w.files.fullPath p)).run w).run.1 = .ok tree → files.HasTree (w.files.fullPath p) tree := by
  have hread : ∀ {content}, w.files.read (w.files.fullPath p) = .ok content → w.files.IsSource (w.files.fullPath p) content :=
    fun hread => ⟨hsource, ⟨p, rfl⟩, FileTree.file?_of_read hread⟩
  have hanswered := answered_treeOf w (w.files.fullPath p)
  rw [after]
  generalize ((Workspace.treeOf (w.files.fullPath p)).run w).run = r at hanswered
  cases hanswered with
  | unreadable reads => exact ⟨h, fun m hm => by cases hm⟩
  | @remembered content e reads there key same =>
    refine ⟨h.congr rfl rfl h.remembered, fun m hm => ?_⟩
    obtain rfl := Except.ok.inj hm
    have htree := h.remembered e there
    have hpath : (w.files.fullPath p).IsResolved := FileTree.isResolved_fullPath (h.same.rooted hrooted).cwd p
    rwa [(htree.isResolved hrooted).eq_of_same hpath same] at htree
  | failed reads produced => exact ⟨(h.of_produced (hread reads) produced).1, fun m hm => by cases hm⟩
  | @produced content tree w' reads produced =>
    obtain ⟨hserves, htree⟩ := h.of_produced (hread reads) produced
    refine ⟨hserves.congr rfl rfl fun e he => ?_, htree⟩
    rcases mem_cons.1 he with rfl | he
    · exact htree tree rfl
    · exact hserves.remembered e (mem_filter.1 he).1

end Workspace

theorem supplies_serves {files} (hrooted : files.Rooted) :
    Supplies (Workspace.Serves files) files.HasTree where
  journal h := h.congr rfl rfl h.remembered
  after h hsource := (h.treeOf hrooted hsource).1
  tree h hsource := (h.treeOf hrooted hsource).2 _

theorem exists_tree_of_entered {work config s t history} (hfiles : work.files.Built)
    (hstart : Analysis.start work config = .ok s)
    (hcache : config.diskCache = false ∨ s.work.StoresRightly) (h : History [] history s t) :
    s.files.Rooted ∧ ∀ b ∈ entered history, ∃ file tree, s.files.HasTree file tree ∧
      (b = .file file tree ∨ ∃ d, .function d ∈ tree.nodes ∧ b = .body d) := by
  obtain ⟨w, hrooted, hentries, heq⟩ := Analysis.start_eq_ok hfiles.rooted hstart
  obtain ⟨w', heq', -, hdir, -⟩ := Analysis.start_cases hstart
  have hwork : s.work = w := by rw [heq, Analysis.work_fresh]
  have hrooted : s.files.Rooted := by rwa [Analysis.files, hwork]
  have hserves : s.work.Serves s.files := by
    refine ⟨.refl _, by simp [hwork, hentries], hcache.imp_left fun hoff => ?_⟩
    rw [heq', Analysis.work_fresh]
    exact hdir hoff
  obtain ⟨-, hblocks⟩ := h.supplied (supplies_serves hrooted) (fun b _ => .of_all (fun _ _ htree => htree.hasBlock) b)
    ⟨hserves, Analysis.defined_start hstart⟩ Mark.allIn_nil
  refine ⟨hrooted, fun b hb => ?_⟩
  have hin := hblocks b hb
  cases b with
  | file path tree => exact ⟨path, tree, hin, .inl rfl⟩
  | body d =>
    obtain ⟨file, tree, htree, hd⟩ := hin
    exact ⟨file, tree, htree, .inr ⟨d, hd, rfl⟩⟩

end TypeInfer
