/-
The cache of trees cannot be told from parsing each time: a tree is kept under a key that it was
made from (`Made`). Keys are digests, so this needs the digests of the texts that come up to be
distinct, and that the stored entries are the cache's own.
-/
import Mathlib.Logic.Relation
import TypeInfer.Proofs.Files
import TypeInfer.Proofs.StoredTree
import TypeInfer.TreeCache

namespace TypeInfer

open List

variable (path : Path) (content : String)

/-! ### Keys -/

namespace Digest

variable {c : Char} {s : String}

theorem hexByte_alphanum {n} (h : c ∈ hexByte n) : c.isAlphanum := by
  have hdigit : ∀ m < 16, (Nat.digitChar m).isAlphanum := by decide
  simp only [hexByte, mem_cons, not_mem_nil, or_false] at h
  rcases h with rfl | rfl <;> exact hdigit _ (Nat.mod_lt _ (by decide))

theorem ofText_alphanum (h : c ∈ (ofText s).toList) : c.isAlphanum := by
  simp only [ofText, ofBytes, String.toList_ofList, mem_flatMap, hexWord, mem_append] at h
  obtain ⟨_, _, ((h | h) | h) | h⟩ := h <;> exact hexByte_alphanum h

theorem not_mem_ofText (hc : c.isAlphanum = false) : c ∉ (ofText s).toList := by
  intro h
  rw [ofText_alphanum h] at hc
  contradiction

end Digest

theorem fileKey_toList :
    (fileKey path content).toList =
      (Digest.ofText path.text).toList ++ '.' :: (Digest.ofText content).toList := by
  simp [fileKey]

theorem fileKey_inj {path path' content content'}
    (h : fileKey path content = fileKey path' content') :
    Digest.ofText path.text = Digest.ofText path'.text ∧ Digest.ofText content = Digest.ofText content' := by
  have hdot : ∀ s, '.' ∉ (Digest.ofText s).toList := fun s => Digest.not_mem_ofText (by decide)
  have hsplit := congrArg (fun k : String => Text.splitOn '.' k.toList) h
  simp only [fileKey_toList, Text.splitOn_append, Text.splitOn_of_not_mem (hdot _), cons_append,
    nil_append, List.cons.injEq, and_true, String.toList_inj] at hsplit
  exact hsplit

/-- The name of the file that stores an entry. -/
theorem isName_entry : Path.IsName (fileKey path content ++ ".json") := by
  have hlast : (fileKey path content ++ ".json").toList.getLast? = some 'n' := by simp
  refine ⟨?_, ?_, ?_, ?_⟩
  · have hslash : ∀ s, '/' ∉ (Digest.ofText s).toList := fun s => Digest.not_mem_ofText (by decide)
    simp [fileKey, hslash]
  all_goals
    intro h
    rw [h] at hlast
    simp at hlast

/-! ### What one call does -/

namespace Workspace

variable {w : Workspace} {path : Path} {content key : String} {tree : Module}

/-- What parsing the present content of a file gives. -/
def parsed (w : Workspace) (path : Path) : Except TreeError Module :=
  match w.files.read path with
  | .error cause => .error (.unreadable path cause)
  | .ok content => (parseText content path).mapError (.faulty path)

/-- What a call for the tree of a file leaves. -/
def after (w : Workspace) (path : Path) : Workspace := ((treeOf path).run w).run.2

/-- A new cache over the same directory. -/
def reopen (w : Workspace) : Workspace := { w with cache := { dir := w.cache.dir } }

/-- The text stored under a key, if the cache has a directory and the entry is there. -/
def entryText? (w : Workspace) (key : String) : Option String := (w.cache.entryPath? key).bind w.files.file?

theorem run_storedTree? (w : Workspace) (key : String) :
    ∃ found journal, ((storedTree? key).run w).run = (found, { w with journal }) ∧
      ∀ tree, found = some tree → ∃ text, w.entryText? key = some text ∧ Module.ofText? text = some tree := by
  have hnone : ∃ found journal, (none, w) = (found, { w with journal }) ∧ ∀ tree : Module, found = some tree →
      ∃ text, w.entryText? key = some text ∧ Module.ofText? text = some tree :=
    ⟨none, w.journal, rfl, nofun⟩
  cases hentry : w.cache.entryPath? key with
  | none => simpa [storedTree?, hentry] using hnone
  | some entry =>
    cases hthere : w.files.fileExists entry with
    | false => simpa [storedTree?, hentry, hthere] using hnone
    | true =>
      cases hread : w.files.read entry with
      | error cause => simpa [storedTree?, hentry, hthere, hread] using hnone
      | ok text =>
        have htext : w.entryText? key = some text := by
          rw [entryText?, hentry, Option.bind_some, FileTree.file?_of_read hread]
        cases htree : Module.ofText? text with
        | none =>
          refine ⟨none, w.journal.push (.corruptEntry entry), ?_, nofun⟩
          simp [storedTree?, hentry, hthere, hread, htree, log]
        | some tree =>
          refine ⟨some tree, w.journal, ?_, ?_⟩
          · simp [storedTree?, hentry, hthere, hread, htree]
          · rintro _ ⟨⟩
            exact ⟨text, htext, htree⟩

theorem run_store (w : Workspace) (key : String) (tree : Module) :
    ∃ files journal, ((store key tree).run w).run = ((), { w with files, journal }) ∧
      (files = w.files ∨
        ∃ entry, w.cache.entryPath? key = some entry ∧ w.files.write entry tree.toText = .ok files) := by
  cases hentry : w.cache.entryPath? key with
  | none => exact ⟨w.files, w.journal, by simp [store, hentry], .inl rfl⟩
  | some entry =>
    cases hwrite : w.files.write entry tree.toText with
    | error cause =>
      refine ⟨w.files, w.journal.push (.entryNotWritten entry cause), ?_, .inl rfl⟩
      simp [store, hentry, hwrite, log]
    | ok files => exact ⟨files, w.journal, by simp [store, hentry, hwrite], .inr ⟨entry, rfl, hwrite⟩⟩

/-- How a tree that is not in memory comes about: read from the store, or parsed, and stored if
faultless. -/
inductive Produced (w : Workspace) (path : Path) (content key : String) :
    Except TreeError Module × Workspace → Prop where
  | stored {text tree journal} (there : w.entryText? key = some text)
      (reads : Module.ofText? text = some tree) :
      Produced w path content key
        (.ok tree, { w with journal, cache.stats.diskHits := w.cache.stats.diskHits + 1 })
  | faulty {faults journal} (parses : parseText content path = .error faults) :
      Produced w path content key
        (.error (.faulty path faults), { w with journal, cache.stats.parses := w.cache.stats.parses + 1 })
  | parsed {tree files journal} (parses : parseText content path = .ok tree)
      (changed : files = w.files ∨
        ∃ entry, w.cache.entryPath? key = some entry ∧ w.files.write entry tree.toText = .ok files) :
      Produced w path content key
        (.ok tree, { w with files, journal, cache.stats.parses := w.cache.stats.parses + 1 })

theorem produced_produce (w : Workspace) (path : Path) (content key : String) :
    Produced w path content key ((produce path content key).run w).run := by
  obtain ⟨found, journal, hrun, hfound⟩ := run_storedTree? w key
  rw [produce, StateT.run_bind, Id.run_bind, hrun]
  cases found with
  | some tree =>
    obtain ⟨text, there, reads⟩ := hfound tree rfl
    exact .stored there reads
  | none =>
    cases hparse : parseText content path with
    | error faults => exact .faulty hparse
    | ok tree =>
      obtain ⟨files, journal', hstore, hchanged⟩ :=
        run_store { w with journal, cache.stats.parses := w.cache.stats.parses + 1 } key tree
      simp only [countHit, StateT.run_bind, StateT.run_modify, Id.run_bind, pure_bind, hstore,
        StateT.run_pure, Id.run_pure]
      exact .parsed hparse hchanged

/-- The ways in which a call for a tree ends. -/
inductive Answered (w : Workspace) (path : Path) : Except TreeError Module × Workspace → Prop where
  | unreadable {cause} (reads : w.files.read path = .error cause) :
      Answered w path (.error (.unreadable path cause), w)
  | remembered {content e} (reads : w.files.read path = .ok content) (there : e ∈ w.cache.entries)
      (key : e.key = fileKey path content) (same : e.path.same path) :
      Answered w path (.ok e.tree, { w with cache.stats.memoryHits := w.cache.stats.memoryHits + 1 })
  | failed {content e w'} (reads : w.files.read path = .ok content)
      (produced : Produced w path content (fileKey path content) (.error e, w')) :
      Answered w path (.error e, w')
  | produced {content tree w'} (reads : w.files.read path = .ok content)
      (produced : Produced w path content (fileKey path content) (.ok tree, w')) :
      Answered w path
        (.ok tree, { w' with cache := w'.cache.remember ⟨path, fileKey path content, tree⟩ })

theorem answered_treeOf (w : Workspace) (path : Path) : Answered w path ((treeOf path).run w).run := by
  cases hread : w.files.read path with
  | error cause => 
    simp only [treeOf, StateT.run_bind, StateT.run_get, pure_bind, hread, StateT.run_pure, Id.run_pure]
    exact .unreadable hread
  | ok content =>
    have hproduced := produced_produce w path content (fileKey path content)
    cases hmemory : (w.cache.entry? path).filter (·.key == fileKey path content) with
    | some e =>
      obtain ⟨hfound, hkey⟩ := Option.filter_eq_some_iff.1 hmemory
      simp only [treeOf, StateT.run_bind, StateT.run_get, pure_bind, hread, hmemory, countHit,
        StateT.run_modify, StateT.run_pure, Id.run_pure]
      have hsame : e.path.same path := find?_some (p := fun e : CacheEntry => e.path.same path) hfound
      exact .remembered hread (mem_of_find?_eq_some hfound) (by simpa using hkey) hsame
    | none =>
      simp only [treeOf, StateT.run_bind, StateT.run_get, pure_bind, hread, hmemory, Id.run_bind]
      cases hrun : ((produce path content (fileKey path content)).run w).run with
      | mk result w' =>
        rw [hrun] at hproduced
        cases result with
        | error e => exact .failed hread hproduced
        | ok tree => exact .produced hread hproduced

end Workspace

/-- One of the counters is one higher, the others are as before. -/
def CacheStats.CountedOnce (before after : CacheStats) : Prop :=
  after = { before with parses := before.parses + 1 } ∨
    after = { before with memoryHits := before.memoryHits + 1 } ∨
    after = { before with diskHits := before.diskHits + 1 }

namespace Workspace

theorem Produced.counted {w path content key r} (h : Produced w path content key r) :
    CacheStats.CountedOnce w.cache.stats r.2.cache.stats := by
  cases h with
  | stored there reads => exact .inr (.inr rfl)
  | faulty parses => exact .inl rfl
  | parsed parses changed => exact .inl rfl

theorem Answered.counted {w path content r} (h : Answered w path r)
    (hread : w.files.read path = .ok content) :
    CacheStats.CountedOnce w.cache.stats r.2.cache.stats := by
  cases h with
  | unreadable reads => simp [reads] at hread
  | remembered reads there key => exact .inr (.inl rfl)
  | failed reads produced => exact produced.counted
  | produced reads produced => exact produced.counted

theorem Answered.unchanged {w path cause r} (h : Answered w path r)
    (hread : w.files.read path = .error cause) : r.2 = w := by
  cases h with
  | unreadable reads => rfl
  | remembered reads there key => simp [reads] at hread
  | failed reads produced => simp [reads] at hread
  | produced reads produced => simp [reads] at hread

/-! ### Trees under the keys they were made from -/

/-- Under the key stands a tree that was parsed from a path and a content with that key. -/
def Made (Known : String → Prop) (key : String) (tree : Module) : Prop :=
  ∃ path content, Known path.text ∧ Known content ∧ key = fileKey path content ∧
    parseText content path = .ok tree

/-- The stored entries for texts that come up are the cache's own, or cannot be read back. -/
def EntriesOwn (Known : String → Prop) (w : Workspace) : Prop :=
  ∀ path content text, Known path.text → Known content → w.entryText? (fileKey path content) = some text →
    Module.ofText? text = none ∨ ∃ tree, Made Known (fileKey path content) tree ∧ text = tree.toText

structure Faithful (Known : String → Prop) (w : Workspace) : Prop where
  memory : ∀ e ∈ w.cache.entries, Made Known e.key e.tree
  disk : w.EntriesOwn Known

variable {w : Workspace} {path : Path} {content key : String} {tree : Module}

/-- What can happen to a cache and the files it is used on. `Known` are the texts
that come up: the paths that are asked for, and the contents they then have. -/
inductive Step (Known : String → Prop) : Workspace → Workspace → Prop where
  | ask {w : Workspace} (path : Path) (known : Known path.text)
      (content : ∀ content, w.files.read path = .ok content → Known content) :
      Step Known w (w.after path)
  | edit {w : Workspace} (files : FileTree) (own : { w with files }.EntriesOwn Known) : Step Known w { w with files }
  | close {w : Workspace} : Step Known w (forget.run w).run.2
  | clear {w : Workspace} : Step Known w (clearCache.run w).run.2
  | reopen {w : Workspace} : Step Known w w.reopen

section

variable {Known : String → Prop}

theorem Made.of_parse (hp : Known path.text) (hc : Known content) (h : parseText content path = .ok tree) :
    Made Known (fileKey path content) tree :=
  ⟨path, content, hp, hc, rfl, h⟩

/-- As digests are distinct, the tree under a key is the one that its text parses to. -/
theorem Made.parse (distinct : ∀ a b, Known a → Known b → Digest.ofText a = Digest.ofText b → a = b)
    (hp : Known path.text) (hc : Known content) (h : Made Known (fileKey path content) tree) :
    parseText content path = .ok tree := by
  obtain ⟨path', content', hp', hc', hkey, hparse⟩ := h
  obtain ⟨hpath, hcontent⟩ := fileKey_inj hkey
  have hpath : path = path' := by
    obtain ⟨text⟩ := path
    obtain ⟨text'⟩ := path'
    exact congrArg Path.mk (distinct _ _ hp hp' hpath)
  rw [hpath, distinct _ _ hc hc' hcontent]
  exact hparse

section

variable (h : w.EntriesOwn Known)
include h

theorem EntriesOwn.made (hp : Known path.text) (hc : Known content) {text}
    (there : w.entryText? (fileKey path content) = some text) (reads : Module.ofText? text = some tree) :
    Made Known (fileKey path content) tree := by
  rcases h path content text hp hc there with hnone | ⟨tree', hmade, rfl⟩
  · rw [hnone] at reads
    contradiction
  · rwa [← (Module.ofText?_toText_eq_some.1 reads).2]

/-- A tree that is stored changes no entry but its own. -/
theorem EntriesOwn.write {entry files} (hmade : Made Known key tree) (hentry : w.cache.entryPath? key = some entry)
    (hwrite : w.files.write entry tree.toText = .ok files) : { w with files }.EntriesOwn Known := by
  intro path content text hp hc there
  obtain ⟨path', content', hp', hc', rfl, hparse⟩ := hmade
  simp only [TreeCache.entryPath?, Option.map_eq_some_iff] at hentry
  obtain ⟨dir, hdir, rfl⟩ := hentry
  rw [FileTree.write_eq_putFile hwrite] at there
  simp only [entryText?, TreeCache.entryPath?, hdir, Option.map_some, Option.bind_some,
    FileTree.file?_putFile] at there
  split at there
  · rename_i hsame
    have hname := FileTree.fullPath_child_inj (isName_entry _ _) (isName_entry _ _) hsame
    have hkey : fileKey path content = fileKey path' content' := by
      rw [← String.toList_inj] at hname ⊢
      simpa using hname
    exact .inr ⟨tree, hkey ▸ .of_parse hp' hc' hparse, (Option.some.inj there).symm⟩
  · refine h path content text hp hc ?_
    simpa [entryText?, TreeCache.entryPath?, hdir] using there

/-- Fewer entries are the cache's own as before. -/
theorem EntriesOwn.mono {w' : Workspace}
    (hfewer : ∀ key text, w'.entryText? key = some text → w.entryText? key = some text) : w'.EntriesOwn Known :=
  fun path content text hp hc there => h path content text hp hc (hfewer _ _ there)

end

theorem Faithful.of_produced (inv : w.Faithful Known) {r : Except TreeError Module × Workspace}
    (hp : Known path.text) (hc : Known content) (h : Produced w path content (fileKey path content) r) :
    r.2.Faithful Known := by
  cases h with
  | stored there reads => exact ⟨inv.memory, inv.disk⟩
  | faulty parses => exact ⟨inv.memory, inv.disk⟩
  | parsed parses changed =>
    refine ⟨inv.memory, ?_⟩
    rcases changed with rfl | ⟨entry, hentry, hwrite⟩
    · exact inv.disk
    · exact (inv.disk.write (.of_parse hp hc parses) hentry hwrite).mono fun _ _ there => there

theorem Produced.made (inv : w.Faithful Known) {w'} (hp : Known path.text) (hc : Known content)
    (h : Produced w path content (fileKey path content) (.ok tree, w')) :
    Made Known (fileKey path content) tree := by
  cases h with
  | stored there reads => exact inv.disk.made hp hc there reads
  | parsed parses changed => exact .of_parse hp hc parses

theorem Faithful.of_answered (inv : w.Faithful Known) {r} (hp : Known path.text)
    (hc : ∀ content, w.files.read path = .ok content → Known content) (h : Answered w path r) :
    r.2.Faithful Known := by
  cases h with
  | unreadable reads => exact inv
  | remembered reads there key => exact ⟨inv.memory, inv.disk⟩
  | failed reads produced => exact inv.of_produced hp (hc _ reads) produced
  | @produced content tree w' reads produced =>
    have inv' := inv.of_produced hp (hc _ reads) produced
    refine ⟨?_, inv'.disk⟩
    intro e he
    rcases mem_cons.1 he with rfl | he
    · exact produced.made inv hp (hc _ reads)
    · exact inv'.memory e (mem_filter.1 he).1

/-- Clearing leaves nothing in memory and adds no file. -/
theorem clearCache_eq (w : Workspace) :
    ∃ files, (clearCache.run w).run.2 = { w with files, cache.entries := [] } ∧
      ∀ key text, { w with files }.entryText? key = some text → w.entryText? key = some text := by
  cases hdir : w.cache.dir with
  | none => exact ⟨w.files, by simp [clearCache, forget, hdir], fun _ _ h => h⟩
  | some dir =>
    cases hremove : w.files.removeDir dir with
    | error cause => exact ⟨w.files, by simp [clearCache, forget, hdir, hremove], fun _ _ h => h⟩
    | ok files =>
      have hfewer : ∀ key text, { w with files }.entryText? key = some text → w.entryText? key = some text := by
        intro key text h
        simp only [entryText?, Option.bind_eq_some_iff] at h ⊢
        obtain ⟨entry, hentry, htext⟩ := h
        exact ⟨entry, hentry, FileTree.file?_of_file?_removeDir hremove htext⟩
      cases hmake : files.makeDirs dir with
      | error cause => exact ⟨files, by simp [clearCache, forget, hdir, hremove, hmake], hfewer⟩
      | ok files' =>
        refine ⟨files', by simp [clearCache, forget, hdir, hremove, hmake], ?_⟩
        rw [FileTree.makeDirs_eq_addDirs hmake]
        exact hfewer

theorem Faithful.step {w' : Workspace} (inv : w.Faithful Known) (h : Step Known w w') : w'.Faithful Known := by
  cases h with
  | ask path known content => exact inv.of_answered known content (answered_treeOf w path)
  | edit files own => exact ⟨inv.memory, own⟩
  | close => exact ⟨nofun, inv.disk⟩
  | clear =>
    obtain ⟨files, hrun, hfewer⟩ := clearCache_eq w
    rw [hrun]
    exact ⟨nofun, inv.disk.mono hfewer⟩
  | reopen => exact ⟨nofun, inv.disk⟩

theorem Faithful.session {w'} (inv : w.Faithful Known) (h : Relation.ReflTransGen (Step Known) w w') :
    w'.Faithful Known := by
  induction h with
  | refl => exact inv
  | tail _ hstep ih => exact ih.step hstep

/-- A call answers what the parser answers. -/
theorem Answered.parsed
    (distinct : ∀ a b, Known a → Known b → Digest.ofText a = Digest.ofText b → a = b)
    (inv : w.Faithful Known) {r} (hp : Known path.text)
    (hc : ∀ content, w.files.read path = .ok content → Known content) (h : Answered w path r) :
    r.1 = w.parsed path := by
  cases h with
  | unreadable reads => simp [Workspace.parsed, reads]
  | remembered reads there key =>
    have hmade := inv.memory _ there
    rw [key] at hmade
    rw [Workspace.parsed, reads]
    dsimp only
    rw [hmade.parse distinct hp (hc _ reads)]
    rfl
  | failed reads produced =>
    cases produced with
    | faulty parses =>
      rw [Workspace.parsed, reads]
      dsimp only
      rw [parses]
      rfl
  | produced reads produced =>
    have hmade := produced.made inv hp (hc _ reads)
    rw [Workspace.parsed, reads]
    dsimp only
    rw [hmade.parse distinct hp (hc _ reads)]
    rfl

end

end Workspace

open Workspace in
/-- After any calls, edits, closing, clearing and reopening, a call for the tree of a
file answers what parsing its present content gives, and counts once if the file
can be read. -/
theorem cache_is_transparent {Known : String → Prop}
    (distinct : ∀ a b, Known a → Known b → Digest.ofText a = Digest.ofText b → a = b)
    {start w : Workspace} (fresh : start.cache.entries = []) (own : start.EntriesOwn Known)
    (session : Relation.ReflTransGen (Step Known) start w)
    {path : Path} (known : Known path.text)
    (content : ∀ content, w.files.read path = .ok content → Known content) :
    ((treeOf path).run w).run.1 = w.parsed path ∧
      if (w.files.read path).isOk then CacheStats.CountedOnce w.cache.stats (w.after path).cache.stats
      else w.after path = w := by
  have inv : w.Faithful Known := Faithful.session ⟨by rw [fresh]; nofun, own⟩ session
  have answered := answered_treeOf w path
  refine ⟨answered.parsed distinct inv known content, ?_⟩
  cases hread : w.files.read path with
  | ok text => exact answered.counted hread
  | error cause => exact answered.unchanged hread

namespace Workspace

variable (content : String)

/-- A tree with one file, beside the directory of the cache. -/
def oneFile (content : String) : FileTree := { files := [(⟨"/x"⟩, content)], dirs := [⟨"/"⟩, ⟨"/c"⟩] }

theorem read_oneFile : (oneFile content).read ⟨"x"⟩ = .ok content := by
  have hfull : (oneFile content).fullPath ⟨"x"⟩ = ⟨"/x"⟩ := by
    change (Path.mk "/").resolveFrom ⟨"x"⟩ = ⟨"/x"⟩
    decide +kernel
  have hfile : (oneFile content).file? ⟨"x"⟩ = some content := by
    rw [FileTree.file?, hfull]
    rfl
  rw [FileTree.read, hfile]
  rfl

theorem entriesOwn_oneFile (Known : String → Prop) (content : String) (cache : TreeCache)
    (journal : Array LogEvent) : (Workspace.mk (oneFile content) cache journal).EntriesOwn Known := by
  intro path content' text _ _ there
  simp only [entryText?, TreeCache.entryPath?, Option.bind_eq_some_iff, Option.map_eq_some_iff] at there
  obtain ⟨entry, ⟨dir, _, rfl⟩, hfile⟩ := there
  have hx : (oneFile content).fullPath (dir.child (fileKey path content' ++ ".json")) = ⟨"/x"⟩ := by
    cases hne : (oneFile content).fullPath (dir.child (fileKey path content' ++ ".json")) == ⟨"/x"⟩ with
    | true => exact beq_iff_eq.1 hne
    | false =>
      rw [FileTree.file?, show (oneFile content).files = [(⟨"/x"⟩, content)] from rfl, lookup_cons, hne] at hfile
      contradiction
  have htext := congrArg Path.text hx
  rw [FileTree.text_fullPath_child _ _ (isName_entry path content'), ← String.toList_inj] at htext
  have hlast := congrArg List.getLast? htext
  simp at hlast

def unasked : Workspace := { files := oneFile "x", cache := { dir := some ⟨"c"⟩ } }

/-- The file was asked for once, then edited. -/
def edited : Workspace := { unasked.after ⟨"x"⟩ with files := oneFile "y" }

end Workspace

open Workspace in
/-- After an edit the tree in memory is not taken. -/
theorem cache_is_transparent_after_edit :
    ((treeOf ⟨"x"⟩).run edited).run.1 = edited.parsed ⟨"x"⟩ ∧
      if (edited.files.read ⟨"x"⟩).isOk then
        CacheStats.CountedOnce edited.cache.stats (edited.after ⟨"x"⟩).cache.stats
      else edited.after ⟨"x"⟩ = edited := by
  have distinct : Digest.ofText "x" ≠ Digest.ofText "y" := by decide +kernel
  let Known (s : String) : Prop := s = "x" ∨ s = "y"
  have hx : ∀ content, (oneFile "x").read ⟨"x"⟩ = .ok content → Known content := by
    intro content h
    rw [read_oneFile] at h
    exact .inl (Except.ok.inj h).symm
  have hy : ∀ content, (oneFile "y").read ⟨"x"⟩ = .ok content → Known content := by
    intro content h
    rw [read_oneFile] at h
    exact .inr (Except.ok.inj h).symm
  have hask : Step Known unasked (unasked.after ⟨"x"⟩) := .ask ⟨"x"⟩ (.inl rfl) hx
  have hedit : Step Known (unasked.after ⟨"x"⟩) edited := .edit (oneFile "y") (entriesOwn_oneFile Known _ _ _)
  refine @cache_is_transparent Known ?_ unasked edited rfl (entriesOwn_oneFile Known _ _ _)
    (.tail (.single hask) hedit) ⟨"x"⟩ (.inl rfl) hy
  rintro a b (rfl | rfl) (rfl | rfl) h
  · rfl
  · exact absurd h distinct
  · exact absurd h.symm distinct
  · rfl

end TypeInfer
