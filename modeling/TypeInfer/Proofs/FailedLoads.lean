/-
Loads that fail. A load fails in four ways (`FailedLoad`), and these are all. Only one of them
enters the file, and leaves it again before anything of it is made; so a failed load leaves the
state as it was, but for the record of failures and the cache.
-/
import TypeInfer.Proofs.ProjectWalk

namespace TypeInfer

/-- The ways in which a load of a file fails, and the states that it leaves. -/
inductive FailedLoad (s : Analysis) (file : Path) : LoadFailure → Analysis → Prop where
  | missing (absent : s.files.fileExists file = false) : FailedLoad s file .notFound (s.log (.fileMissing file))
  | known (present : s.files.fileExists file) (unnamed : s.modules.lookup file.moduleQname = none)
      (failed : s.hasFailed file) : FailedLoad s file .unparsable s
  | cycle (present : s.files.fileExists file) (unnamed : s.modules.lookup file.moduleQname = none)
      (faultless : s.hasFailed file = false) (busy : s.importing.contains file) :
      FailedLoad s file .cycle (s.log (.importCycle file))
  | unread {e : TreeError} (present : s.files.fileExists file) (unnamed : s.modules.lookup file.moduleQname = none)
      (faultless : s.hasFailed file = false) (idle : s.importing.contains file = false)
      (fails : s.openedTree file = .error e) :
      FailedLoad s file .unparsable (s.unread file (e.event file) (e.diagnostics file))

variable {s t : Analysis} {file path : Path} {failure : LoadFailure} {e : TreeError}

/-! ### The failing exits are all there are -/

namespace FailedLoad

variable {c : Calls}

theorem not_of_openedTree {tree} (h : s.openedTree file = .ok tree) :
    (Infer.loadNew c file file.moduleQname).run s ≠ some (.error failure, t) := by
  intro hrun
  rw [Infer.run_loadNew_ok h] at hrun
  obtain ⟨r, -, hrun⟩ := Option.bind_eq_some_iff.1 hrun
  obtain ⟨r', -, hrun⟩ := Option.bind_eq_some_iff.1 hrun
  cases hrun

theorem of_run (h : (Infer.loadFile c path).run s = some (.error failure, t)) :
    FailedLoad s (s.files.fullPath path) failure t := by
  unfold Infer.loadFile at h
  rw [Infer.run_get_bind] at h
  dsimp only at h
  split at h
  · rename_i habsent
    cases h
    exact .missing (by simpa using habsent)
  · rename_i hpresent
    have hpresent : s.files.fileExists (s.files.fullPath path) := by simpa using hpresent
    split at h
    · cases h
    · rename_i hunnamed
      split at h
      · rename_i hfailed
        cases h
        exact .known hpresent hunnamed hfailed
      · rename_i hfaultless
        split at h
        · rename_i hbusy
          cases h
          exact .cycle hpresent hunnamed (Bool.eq_false_iff.2 hfaultless) hbusy
        · rename_i hidle
          cases htree : s.openedTree (s.files.fullPath path) with
          | error e =>
            cases (Infer.run_loadNew_error htree).symm.trans h
            exact .unread hpresent hunnamed (Bool.eq_false_iff.2 hfaultless) (Bool.eq_false_iff.2 hidle) htree
          | ok tree => exact absurd h (not_of_openedTree htree)

theorem run (h : FailedLoad s (s.files.fullPath path) failure t) :
    (Infer.loadFile c path).run s = some (.error failure, t) := by
  unfold Infer.loadFile
  rw [Infer.run_get_bind]
  cases h with
  | missing absent => simp only [absent]; rfl
  | known present unnamed failed => simp only [present, unnamed, failed]; rfl
  | cycle present unnamed faultless busy => simp only [present, unnamed, faultless, busy]; rfl
  | unread present unnamed faultless idle fails =>
    simp only [present, unnamed, faultless, idle]
    exact Infer.run_loadNew_error fails

end FailedLoad

/-- A load fails just in the ways that are listed. -/
theorem Infer.run_load_error {depth} : (load (depth + 1) path).run s = some (.error failure, t) ↔
    FailedLoad s (s.files.fullPath path) failure t := by
  rw [load]
  exact ⟨.of_run, FailedLoad.run⟩

/-! ### What a failed load leaves -/

/-- Files and trees in memory are the same; what is counted and logged may differ. -/
structure Workspace.KeepsTrees (w w' : Workspace) : Prop where
  files : w'.files = w.files
  dir : w'.cache.dir = w.cache.dir
  entries : w'.cache.entries = w.cache.entries

theorem Workspace.Answered.error {w w'} (h : Answered w file (.error e, w')) :
    w.parsed file = .error e ∧ w.KeepsTrees w' := by
  cases h with
  | unreadable reads =>
    refine ⟨?_, rfl, rfl, rfl⟩
    rw [Workspace.parsed, reads]
  | failed reads produced =>
    cases produced with
    | faulty parses =>
      refine ⟨?_, rfl, rfl, rfl⟩
      rw [Workspace.parsed, reads]
      simp only [parses, Except.mapError]

namespace Analysis

theorem openedTree_error (h : s.openedTree file = .error e) :
    s.work.parsed file = .error e ∧ s.work.KeepsTrees (s.opened file).work := by
  have hanswered := Workspace.answered_treeOf (s.opening file).work file
  rw [show ((Workspace.treeOf file).run (s.opening file).work).run = (.error e, (s.opened file).work) from
    Prod.ext h rfl] at hanswered
  obtain ⟨hparsed, hkeeps⟩ := hanswered.error
  exact ⟨hparsed, hkeeps.files, hkeeps.dir, hkeeps.entries⟩

theorem unread_eq (s : Analysis) (file : Path) (event : LogEvent) (faults : List Diagnostic) :
    s.unread file event faults =
      { s with work := ((s.opened file).log event).work, failures := s.failures ++ [(file, faults)] } := by
  have himporting : (((s.opened file).log event).addFailure file faults).importing.erase file = s.importing :=
    List.erase_cons_head ..
  rw [unread, leaveFile, himporting]
  rfl

/-- What a failed load tells of a file, and what it puts on record: only a file without a tree is recorded,
once and with the reasons. -/
def Recorded (s : Analysis) (file : Path) (t : Analysis) : LoadFailure → Prop
  | .notFound => s.files.fileExists file = false ∧ t.failures = s.failures ∧ t.work.cache = s.work.cache
  | .cycle => s.importing.contains file ∧ t.failures = s.failures ∧ t.work.cache = s.work.cache
  | .unparsable => s.hasFailed file ∧ t = s ∨ s.hasFailed file = false ∧
      ∃ e, s.work.parsed file = .error e ∧ t.failures = s.failures ++ [(file, e.diagnostics file)]

end Analysis

theorem FailedLoad.intact (h : FailedLoad s file failure t) :
    t = { s with work := t.work, failures := t.failures } ∧ s.work.KeepsTrees t.work := by
  cases h with
  | missing _ => exact ⟨rfl, rfl, rfl, rfl⟩
  | known _ _ _ => exact ⟨rfl, rfl, rfl, rfl⟩
  | cycle _ _ _ _ => exact ⟨rfl, rfl, rfl, rfl⟩
  | unread _ _ _ _ fails =>
    obtain ⟨-, hkeeps⟩ := Analysis.openedTree_error fails
    rw [Analysis.unread_eq]
    exact ⟨rfl, hkeeps.files, hkeeps.dir, hkeeps.entries⟩

theorem FailedLoad.recorded (h : FailedLoad s file failure t) : s.Recorded file t failure := by
  cases h with
  | missing absent => exact ⟨absent, rfl, rfl⟩
  | known _ _ failed => exact .inl ⟨failed, rfl⟩
  | cycle _ _ _ busy => exact ⟨busy, rfl, rfl⟩
  | unread _ _ faultless _ fails => exact .inr ⟨faultless, _, (Analysis.openedTree_error fails).1, rfl⟩

/-- A load that fails changes nothing but the record of failures and the workspace, and of the workspace
neither the files nor the trees that are kept. A file gets on record just when it has no tree. -/
theorem failed_loads_leave_no_trace {depth : Nat} (h : (Infer.load depth path).run s = some (.error failure, t)) :
    t = { s with work := t.work, failures := t.failures } ∧ s.work.KeepsTrees t.work ∧
      s.Recorded (s.files.fullPath path) t failure := by
  cases depth with
  | zero => contradiction
  | succ depth =>
    have hfailed := Infer.run_load_error.1 h
    exact ⟨hfailed.intact.1, hfailed.intact.2, hfailed.recorded⟩

/-- A file with a syntax error. -/
def Workspace.halfWritten : Workspace where
  files := ({} : FileTree).addFile ⟨"/p/bad.py"⟩ "def (:\n"

theorem failed_loads_leave_no_trace_halfWritten : ∃ s t : Analysis,
    Analysis.start Workspace.halfWritten .hermetic = .ok s ∧
    (Infer.load 1 ⟨"/p/bad.py"⟩).run s = some (.error .unparsable, t) ∧
    t = { s with work := t.work, failures := t.failures } ∧ s.work.KeepsTrees t.work ∧
    t.failures.map Prod.fst = [⟨"/p/bad.py"⟩] := by
  obtain ⟨s, hstart, hwork, hmodules, hfailures, himporting⟩ : ∃ s, Analysis.start Workspace.halfWritten .hermetic = .ok s ∧
      s.work = Workspace.halfWritten ∧ s.modules = [] ∧ s.failures = [] ∧ s.importing = [] := by
    refine ⟨_, Analysis.start_hermetic _, Analysis.work_fresh _ _, ?_, ?_, ?_⟩ <;> rw [Analysis.fresh_eq]
  have hfile : s.files.fullPath ⟨"/p/bad.py"⟩ = ⟨"/p/bad.py"⟩ := by
    rw [Analysis.files, hwork]
    decide +kernel
  have hfaultless : s.hasFailed ⟨"/p/bad.py"⟩ = false := by rw [Analysis.hasFailed, hfailures, List.any_nil]
  obtain ⟨e, he⟩ : ∃ e, s.openedTree ⟨"/p/bad.py"⟩ = .error e := by
    have hopening : (s.opening ⟨"/p/bad.py"⟩).work = { s.work with journal := s.work.journal.push (.loading ⟨"/p/bad.py"⟩) } :=
      rfl
    have hbad : (s.openedTree ⟨"/p/bad.py"⟩).toBool = false := by
      rw [Analysis.openedTree, hopening, hwork]
      decide +kernel
    cases htree : s.openedTree ⟨"/p/bad.py"⟩ with
    | error e => exact ⟨e, rfl⟩
    | ok tree => cases htree ▸ hbad
  obtain ⟨t, hfailed⟩ : ∃ t, FailedLoad s (s.files.fullPath ⟨"/p/bad.py"⟩) .unparsable t := by
    rw [hfile]
    refine ⟨_, .unread ?_ (by rw [hmodules]; rfl) hfaultless (by rw [himporting]; rfl) he⟩
    rw [Analysis.files, hwork]
    decide +kernel
  have hrun : (Infer.load 1 ⟨"/p/bad.py"⟩).run s = some (.error .unparsable, t) := Infer.run_load_error.2 hfailed
  obtain ⟨hintact, hkeeps, hrecorded⟩ := failed_loads_leave_no_trace hrun
  refine ⟨s, t, hstart, hrun, hintact, hkeeps, ?_⟩
  rw [hfile] at hrecorded
  rcases hrecorded with ⟨hknown, -⟩ | ⟨-, _, -, hnew⟩
  · rw [hfaultless] at hknown
    contradiction
  · rw [hnew, hfailures]
    rfl

end TypeInfer
