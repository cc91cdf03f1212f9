/-
Each file is interpreted at most once: the loaded files, those without a tree and those being
loaded keep it from being opened again. `Analysis.Orderly` says how these go together, and watching
the loads of an analysis for it makes no difference (`files_are_loaded_once`).
-/
import TypeInfer.Proofs.Journal
import TypeInfer.Proofs.Watched

namespace TypeInfer

open List

variable {code : Code} {s t u : Analysis} {m : ModuleId}

/-! ### What is put on record for files -/

/-- The files that the cache was asked for, in order. -/
def Analysis.asked (s : Analysis) : List Path :=
  s.work.journal.toList.filterMap fun
    | .loading file => some file
    | _ => none

theorem Quietly.asked (h : Quietly s.work.journal t.work.journal) : t.asked = s.asked := by
  refine h.filterMap fun e he => ?_
  cases e <;> simp_all [LogEvent.entersCode]

theorem Analysis.asked_opened (s : Analysis) (file : Path) : (s.opened file).asked = s.asked ++ [file] := by
  have hopened : (s.opened file).asked = (s.log (.loading file)).asked := Quietly.asked (s.quietly_opened file)
  rw [hopened]
  simp [Analysis.asked, Analysis.log]

/-- The two states do not differ in what was loaded and how it went. -/
structure SameLoads (s t : Analysis) : Prop where
  loaded : t.loaded = s.loaded
  failures : t.failures = s.failures
  importing : t.importing = s.importing
  named : t.modules = s.modules
  modules : t.types.modules = s.types.modules
  asked : t.asked = s.asked

theorem Step.loads (h : Step code s t) : SameLoads s t := by
  have hasked := h.quietly.asked
  obtain ⟨_, _, _, _, _, _, _, _, _, _, rfl, -, -⟩ := h.frame
  exact ⟨rfl, rfl, rfl, rfl, rfl, hasked⟩

/-- The module that a load makes is that of the file. -/
theorem Analysis.module_begun (s : Analysis) (file : Path) : ∃ scope, (s.begun file).types.module s.nextModule =
    { name := file.moduleName, qname := file.moduleQname, file := some file, scope } :=
  ⟨_, (TypeStore.module_addModule ..).trans (if_pos rfl)⟩

theorem Analysis.module_begun_eq {file} (hm : m.index < s.types.modules.size) :
    (s.begun file).types.module m = s.types.module m :=
  (TypeStore.module_addModule ..).trans (if_neg (Nat.ne_of_lt hm))

theorem Run.module_eq (h : Run code s t) (hm : m.index < s.types.modules.size) :
    t.types.module m = s.types.module m := by
  let Keeps (s t : Analysis) : Prop := m.index < s.types.modules.size →
    m.index < t.types.modules.size ∧ t.types.module m = s.types.module m
  have hkeeps : Keeps s t := by
    refine h.relates (fun _ hm => ⟨hm, rfl⟩) (fun ih ih' hm => ?_) (fun h hm => ?_) (fun _ _ _ _ ih => ih)
      (fun _ _ _ _ _ hm => ⟨hm, rfl⟩) fun {s t file} _ _ ih hm => ?_
    · obtain ⟨hm, heq⟩ := ih hm
      obtain ⟨hm, heq'⟩ := ih' hm
      exact ⟨hm, heq'.trans heq⟩
    · obtain ⟨_, _, _, _, _, _, _, _, _, _, rfl, -, -⟩ := h.frame
      exact ⟨hm, rfl⟩
    · obtain ⟨hm', heq⟩ := ih (Nat.lt_of_lt_of_le hm (s.sizes_begun file).modules)
      exact ⟨hm', heq.trans (Analysis.module_begun_eq hm)⟩
  exact (hkeeps hm).2

/-! ### Order among loads -/

namespace Analysis

/-- No file was interpreted twice: loaded files are distinct, have trees and modules and are not being
loaded, and the cache was not asked for a file again. -/
structure LoadsOnce (before : Nat) (s : Analysis) : Prop where
  distinct : s.loaded.Nodup
  faultless : ∀ file ∈ s.loaded, s.hasFailed file = false
  idle : ∀ file ∈ s.loaded, file ∉ s.importing
  failed : ∀ file, s.hasFailed file ↔ file ∈ s.failuresByFile.map Prod.fst
  reasons : (s.failuresByFile.map Prod.fst).Nodup
  modules : ∀ e ∈ s.modules, (s.types.module e.2).qname = e.1 ∧
    ∃ file ∈ s.loaded, (s.types.module e.2).file = some file
  asked : (s.asked.drop before).Nodup

/-- How loaded files, files without a tree and files being loaded go together. -/
structure Orderly (before : Nat) (s : Analysis) : Prop where
  distinct : s.loaded.Nodup
  faultless : ∀ file ∈ s.loaded, s.hasFailed file = false
  idle : ∀ file ∈ s.loaded, file ∉ s.importing
  reasons : (s.failures.map Prod.fst).Nodup
  modules : ∀ e ∈ s.modules, (s.types.module e.2).qname = e.1 ∧
    ∃ file ∈ s.loaded, (s.types.module e.2).file = some file
  asked : (s.asked.drop before).Nodup
  started : before ≤ s.asked.length
  made : ∀ e ∈ s.modules, e.2.index < s.types.modules.size
  named : ∀ file ∈ s.loaded, s.modules.lookup file.moduleQname ≠ none
  trying : ∀ file ∈ s.importing, s.hasFailed file = false
  settled : ∀ file ∈ s.asked.drop before, file ∈ s.loaded ∨ s.hasFailed file ∨ file ∈ s.importing

theorem hasFailed_iff {file} : s.hasFailed file ↔ file ∈ s.failures.map Prod.fst := by
  simp [hasFailed]

theorem hasFailed_addFailure {file other faults} :
    (s.addFailure other faults).hasFailed file ↔ s.hasFailed file ∨ other = file := by
  simp [hasFailed, addFailure]

namespace Orderly

variable {before : Nat} {file : Path}

section

variable (h : s.Orderly before)
include h

theorem loadsOnce : s.LoadsOnce before := by
  have hperm : (s.failuresByFile.map Prod.fst).Perm (s.failures.map Prod.fst) := (mergeSort_perm ..).map Prod.fst
  refine { h with failed := fun file => ?_, reasons := hperm.nodup_iff.2 h.reasons }
  rw [hasFailed_iff, hperm.mem_iff]

theorem congr (hsame : SameLoads s t) : t.Orderly before := by
  obtain ⟨hloaded, hfailures, himporting, hnamed, hmodules, hasked⟩ := hsame
  have hfailed : ∀ file, t.hasFailed file = s.hasFailed file := fun file => by rw [hasFailed, hasFailed, hfailures]
  have hmodule : ∀ m, t.types.module m = s.types.module m := fun m => by rw [TypeStore.module, TypeStore.module, hmodules]
  constructor
  · rw [hloaded]
    exact h.distinct
  · simp only [hloaded, hfailed]
    exact h.faultless
  · rw [hloaded, himporting]
    exact h.idle
  · rw [hfailures]
    exact h.reasons
  · simp only [hnamed, hmodule, hloaded]
    exact h.modules
  · rw [hasked]
    exact h.asked
  · rw [hasked]
    exact h.started
  · rw [hnamed, hmodules]
    exact h.made
  · rw [hloaded, hnamed]
    exact h.named
  · simp only [himporting, hfailed]
    exact h.trying
  · simp only [hasked, hloaded, himporting, hfailed]
    exact h.settled

/-- A file that may be loaded was not loaded, and the cache was not asked for it. -/
theorem not_mem_loaded (hnew : s.IsNew code file) : file ∉ s.loaded :=
  fun hloaded => h.named file hloaded hnew.unnamed

theorem not_mem_asked (hnew : s.IsNew code file) : file ∉ s.asked.drop before := by
  intro hasked
  rcases h.settled file hasked with hloaded | hfailed | himporting
  · exact h.not_mem_loaded hnew hloaded
  · exact Bool.false_ne_true (hnew.faultless.symm.trans hfailed)
  · exact hnew.not_mem_importing himporting

/-- Asking the cache for a file that may be loaded. -/
theorem nodup_asked_opened (hnew : s.IsNew code file) :
    (s.opened file).asked.drop before = s.asked.drop before ++ [file] ∧ ((s.opened file).asked.drop before).Nodup := by
  have hdrop : (s.opened file).asked.drop before = s.asked.drop before ++ [file] := by
    rw [asked_opened, drop_append_of_le_length h.started]
  refine ⟨hdrop, ?_⟩
  rw [hdrop, nodup_append]
  refine ⟨h.asked, nodup_singleton file, fun other hother file' hfile => ?_⟩
  rw [mem_singleton.1 hfile]
  rintro rfl
  exact h.not_mem_asked hnew hother

theorem begun (hnew : s.IsNew code file) : (s.begun file).Orderly before := by
  obtain ⟨hdrop, hnodup⟩ := h.nodup_asked_opened hnew
  have hfile := h.not_mem_loaded hnew
  refine ⟨h.distinct, h.faultless, fun other hother => ?_, h.reasons, fun e he => ?_, hnodup, ?_, fun e he => ?_, h.named,
    ?_, fun other hother => ?_⟩
  · refine not_mem_cons_of_ne_of_not_mem ?_ (h.idle other hother)
    rintro rfl
    exact hfile hother
  · rw [module_begun_eq (h.made e he)]
    exact h.modules e he
  · change before ≤ (s.opened file).asked.length
    rw [asked_opened, length_append]
    exact Nat.le_add_right_of_le h.started
  · exact Nat.lt_of_lt_of_le (h.made e he) (s.sizes_begun file).modules
  · exact forall_mem_cons.2 ⟨hnew.faultless, h.trying⟩
  · rw [show (s.begun file).asked = (s.opened file).asked from rfl, hdrop] at hother
    rcases mem_append.1 hother with hother | hother
    · exact (h.settled other hother).imp_right (.imp_right (mem_cons_of_mem file))
    · rw [mem_singleton.1 hother]
      exact .inr (.inr mem_cons_self)

end

theorem ended (h : t.Orderly before) (hnew : s.IsNew code file) (hrun : Run code (s.begun file) t) :
    (s.ended file t).Orderly before := by
  have himporting : t.importing = file :: s.importing := hrun.stacks.importing
  have hfile : file ∈ t.importing := himporting ▸ mem_cons_self
  have hleft : (s.ended file t).importing = s.importing := hrun.stacks.ended.importing
  obtain ⟨scope, hmade⟩ := s.module_begun file
  have hmodule : t.types.module s.nextModule = _ := (hrun.module_eq (s.nextModule_lt_begun file)).trans hmade
  constructor
  case distinct =>
    refine nodup_append.2 ⟨h.distinct, nodup_singleton file, fun other hother file' hfile' => ?_⟩
    rw [mem_singleton.1 hfile']
    rintro rfl
    exact h.idle other hother hfile
  case faultless =>
    exact forall_mem_append.2 ⟨h.faultless, forall_mem_singleton.2 (h.trying file hfile)⟩
  case idle =>
    rw [hleft]
    refine forall_mem_append.2 ⟨fun other hother hin => h.idle other hother ?_, forall_mem_singleton.2 hnew.not_mem_importing⟩
    rw [himporting]
    exact mem_cons_of_mem file hin
  case reasons => exact h.reasons
  case modules =>
    refine forall_mem_cons.2 ⟨?_, fun e he => ?_⟩
    · exact ⟨congrArg ModuleType.qname hmodule, file, mem_append_right _ mem_cons_self,
        congrArg ModuleType.file hmodule⟩
    · obtain ⟨hqname, other, hother, hof⟩ := h.modules e he
      exact ⟨hqname, other, mem_append_left _ hother, hof⟩
  case asked => exact h.asked
  case started => exact h.started
  case made => exact forall_mem_cons.2 ⟨hrun.module (s.nextModule_lt_begun file), h.made⟩
  case named =>
    intro other hother
    change ((file.moduleQname, s.nextModule) :: t.modules).lookup other.moduleQname ≠ none
    rw [lookup_cons]
    split
    · exact Option.some_ne_none _
    · rename_i hne
      rcases mem_append.1 hother with hother | hother
      · exact h.named other hother
      · rw [mem_singleton.1 hother] at hne
        simp at hne
  case trying =>
    rw [hleft]
    exact fun other hother => h.trying other (himporting ▸ mem_cons_of_mem file hother)
  case settled =>
    intro other hother
    rw [hleft]
    rcases h.settled other hother with hloaded | hfailed | hin
    · exact .inl (mem_append_left _ hloaded)
    · exact .inr (.inl hfailed)
    · rw [himporting] at hin
      rcases mem_cons.1 hin with rfl | hin
      · exact .inl (mem_append_right _ mem_cons_self)
      · exact .inr (.inr hin)

section

variable (h : s.Orderly before)
include h

theorem unread (hnew : s.IsNew code file) {event} (aside : event.entersCode = false) (faults : List Diagnostic) :
    (s.unread file event faults).Orderly before := by
  have hfailed : ∀ other, (s.unread file event faults).hasFailed other ↔ s.hasFailed other ∨ file = other :=
    fun other => hasFailed_addFailure
  have hstill : ∀ other, s.hasFailed other = false → other ≠ file → (s.unread file event faults).hasFailed other = false := by
    intro other hfaultless hne
    rw [← Bool.not_eq_true, hfailed, not_or, hfaultless]
    exact ⟨Bool.false_ne_true, hne.symm⟩
  have hleft : (s.unread file event faults).importing = s.importing := erase_cons_head ..
  have hasked : (s.unread file event faults).asked = (s.opened file).asked := by
    have hlogged : ((s.opened file).log event).asked = (s.opened file).asked := Quietly.asked (.push _ aside)
    exact hlogged
  obtain ⟨hdrop, hnodup⟩ := h.nodup_asked_opened hnew
  constructor
  case distinct => exact h.distinct
  case faultless =>
    refine fun other hother => hstill other (h.faultless other hother) ?_
    rintro rfl
    exact h.not_mem_loaded hnew hother
  case idle =>
    rw [hleft]
    exact h.idle
  case reasons =>
    change ((s.failures ++ [(file, faults)]).map Prod.fst).Nodup
    rw [map_append, nodup_append]
    refine ⟨h.reasons, nodup_singleton file, fun other hother file' hfile' => ?_⟩
    rw [mem_singleton.1 hfile']
    rintro rfl
    exact Bool.false_ne_true (hnew.faultless.symm.trans (hasFailed_iff.2 hother))
  case modules => exact h.modules
  case asked =>
    rw [hasked]
    exact hnodup
  case started =>
    rw [hasked, asked_opened, length_append]
    exact Nat.le_add_right_of_le h.started
  case made => exact h.made
  case named => exact h.named
  case trying =>
    rw [hleft]
    refine fun other hother => hstill other (h.trying other hother) ?_
    rintro rfl
    exact hnew.not_mem_importing hother
  case settled =>
    intro other hother
    rw [hasked, hdrop] at hother
    rw [hleft, hfailed]
    rcases mem_append.1 hother with hother | hother
    · exact (h.settled other hother).imp_right (.imp_left .inl)
    · exact .inr (.inl (.inr (mem_singleton.1 hother).symm))

/-- A run keeps the order among loads. -/
theorem run (hrun : Run code s t) : t.Orderly before := by
  refine hrun.relates (R := fun s t => s.Orderly before → t.Orderly before) (fun _ => id) (fun ih ih' h => ih' (ih h))
    (fun hstep h => h.congr hstep.loads) (fun _ _ _ _ ih h => ?_) (fun _ faults new _ aside h => h.unread new aside faults)
    (fun new run ih h => (ih (h.begun new)).ended new run) h
  exact (ih (h.congr ⟨rfl, rfl, rfl, rfl, rfl, rfl⟩)).congr ⟨rfl, rfl, rfl, rfl, rfl, rfl⟩

theorem enters (henters : Enters code s t) : t.Orderly before := by
  cases henters with
  | call body there hsignature hlength unknown idle => exact h.congr ⟨rfl, rfl, rfl, rfl, rfl, rfl⟩
  | load new opens => exact h.begun new
  | loaded new opens run => exact ((h.begun new).run run).ended new run

theorem reaches (hreaches : Reaches code s t) : t.Orderly before := by
  induction hreaches with
  | start => exact h
  | run reached run ih => exact ih.run run
  | enter reached enters ih => exact ih.enters enters

/-- So does work, seen from where the cache was asked last. -/
theorem work (hwork : Work code s t) : ∃ before', t.Orderly before' := by
  induction hwork generalizing before with
  | refl s => exact ⟨before, h⟩
  | trans _ _ ih ih' =>
    obtain ⟨_, ht⟩ := ih h
    exact ih' ht
  | run run => exact ⟨before, h.run run⟩
  | name project => exact ⟨before, h.congr ⟨rfl, rfl, rfl, rfl, rfl, rfl⟩⟩
  | takeUncalled => exact ⟨before, h.congr ⟨rfl, rfl, rfl, rfl, rfl, rfl⟩⟩
  | finish => exact ⟨before, h.congr ⟨rfl, rfl, rfl, rfl, rfl, rfl⟩⟩
  | @log s e =>
    have hnone : (s.log e).asked.drop (s.log e).asked.length = [] := drop_length
    exact ⟨(s.log e).asked.length, h.distinct, h.faultless, h.idle, h.reasons, h.modules, by simp [hnone], Nat.le_refl _,
      h.made, h.named, h.trying, by simp [hnone]⟩

end

theorem fresh (work : Workspace) (config : Config) :
    (Analysis.fresh work config).Orderly (Analysis.fresh work config).asked.length := by
  have hloaded : (Analysis.fresh work config).loaded = [] := by rw [Analysis.fresh_eq]
  have hfailures : (Analysis.fresh work config).failures = [] := by rw [Analysis.fresh_eq]
  have himporting : (Analysis.fresh work config).importing = [] := by rw [Analysis.fresh_eq]
  have hmodules : (Analysis.fresh work config).modules = [] := by rw [Analysis.fresh_eq]
  constructor
  all_goals simp [hloaded, hfailures, himporting, hmodules]

end Orderly

end Analysis

/-! ### Requests -/

/-- What may be asked of an analysis before it is ended: to load a project, or a file. -/
inductive Request where
  | project (root : Path)
  | file (path : Path)

/-- Grants a request by means of the given load of a file. -/
def Request.run (load : Path → Infer Loaded) : Request → Infer Unit
  | .project root => Infer.analyzeWith load root
  | .file path => discard (load path)

/-- An analysis in order may be watched for it. -/
theorem Analysis.Orderly.watch {before} (h : s.Orderly before) (hs : s.Closed code) :
    Watch code s (Analysis.LoadsOnce before) :=
  ⟨hs, fun _ hreaches => (h.reaches hreaches).loadsOnce⟩

theorem Request.watched {request : Request} {before depth : Nat} (h : s.Orderly before) (hs : s.Closed .all)
    (hrun : (request.run (Infer.load depth)).run s = some ((), t)) :
    (request.run (Infer.watchedCalls (Analysis.LoadsOnce before) depth).load).run s = some ((), t) ∧
      t.Orderly before ∧ t.Closed .all := by
  cases request with
  | project root =>
    have hnamed : (s.named root).Orderly before := h.congr ⟨rfl, rfl, rfl, rfl, rfl, rfl⟩
    have hclosed := hs.named root
    obtain ⟨hsame, hrun⟩ := ((hnamed.watch hclosed).follows depth).analyzeWith hs hrun
    exact ⟨hsame, hnamed.run hrun, hrun.closed hclosed⟩
  | file path =>
    obtain ⟨r, hload⟩ := Infer.run_discard_eq_some.1 hrun
    obtain ⟨hsame, hrun⟩ := ((h.watch hs).follows depth).load hs (.inr fun _ => trivial) hload
    exact ⟨Infer.run_discard_eq_some.2 ⟨r, hsame⟩, h.run hrun, hrun.closed hs⟩

/-- A package and a module of it that import each other, and a file without a tree. -/
def Workspace.mutualImports : Workspace where
  files := ((({} : FileTree).addFile ⟨"/p/pkg/__init__.py"⟩ "import broken\nfrom . import part\n").addFile
    ⟨"/p/pkg/part.py"⟩ "import pkg.part\nimport broken\nimport pkg\n").addFile ⟨"/p/broken.py"⟩ "def (:\n"

end TypeInfer
