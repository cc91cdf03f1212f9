/-
How often a problem is reported. Reports at the end come once. An import that fails is reported each
time it is run; it stands in one block only, so it is not reported more often than that block was
entered (`reports_repeat_with_applications`).
-/
import TypeInfer.Proofs.ImportSites
import TypeInfer.Proofs.LoadedOnce
import TypeInfer.Proofs.Lookups
import TypeInfer.Proofs.SourceTrees

namespace TypeInfer

open List

variable (file : Path) (history : List Event) (s : Analysis)

/-! ### Counting in lists of lists -/

section

variable {α β : Type} {as : List α} {f : α → List β} {p : β → Bool}

theorem countP_flatMap_le {q} (h : ∀ a ∈ as, (f a).countP p ≤ if q a then 1 else 0) :
    (as.flatMap f).countP p ≤ as.countP q := by
  induction as with
  | nil => exact Nat.le_refl 0
  | cons a as ih =>
    obtain ⟨ha, has⟩ := forall_mem_cons.1 h
    rw [flatMap_cons, countP_append, countP_cons, Nat.add_comm]
    exact Nat.add_le_add (ih has) ha

theorem sublist_flatMap {a} (ha : a ∈ as) : (f a).Sublist (as.flatMap f) := by
  obtain ⟨before, after, rfl⟩ := append_of_mem ha
  rw [flatMap_append, flatMap_cons]
  exact (sublist_append_left _ _).trans (sublist_append_right _ _)

theorem eq_of_countP_flatMap_le_one (h : (as.flatMap f).countP p ≤ 1) {a b} (ha : a ∈ as)
    (hb : b ∈ as) (hpa : 0 < (f a).countP p) (hpb : 0 < (f b).countP p) : a = b := by
  induction as with
  | nil => cases ha
  | cons c as ih =>
    rw [flatMap_cons, countP_append] at h
    rcases mem_cons.1 ha with rfl | hmem
    · rcases mem_cons.1 hb with rfl | hmem
      · rfl
      · have hle := (sublist_flatMap (f := f) hmem).countP_le (p := p)
        omega
    · rcases mem_cons.1 hb with rfl | hmem'
      · have hle := (sublist_flatMap (f := f) hmem).countP_le (p := p)
        omega
      · exact ih (by omega) hmem hmem'

end

/-! ### Blocks with a problem -/

namespace Block

def file? : Block → Option Path
  | .file path _ => some path
  | .body _ => none

/-- The block is the body of a function that stands at the given place. -/
def isBodyAt (span : Span) : Block → Bool
  | .file _ _ => false
  | .body d => d.span.same span

end Block

/-- The blocks of a file with the given tree. -/
def Module.blocks (file : Path) (tree : Module) : List Block := .file file tree :: tree.functions.map .body

theorem Module.flatMap_blocks (tree : Module) :
    (tree.blocks file).flatMap Block.marks = tree.marks := by
  rw [blocks, flatMap_cons, flatMap_map]
  rfl

/-- The block is one of a source file. -/
def FileTree.HasBlock (files : FileTree) (b : Block) : Prop := ∃ file tree, files.HasTree file tree ∧ b ∈ tree.blocks file

section

variable {files : FileTree} {code : String} {span : Span} {b b' : Block}

theorem FileTree.HasBlock.countP_le_one (h : files.HasBlock b) : b.marks.countP (Mark.isAt code span) ≤ 1 := by
  obtain ⟨file, tree, ⟨text, -, hparse⟩, hb⟩ := h
  have hle := (sublist_flatMap (f := Block.marks) hb).countP_le (p := Mark.isAt code span)
  rw [tree.flatMap_blocks] at hle
  exact Nat.le_trans hle (countP_marks_le_one hparse code span)

theorem FileTree.HasTree.problem_of_isAt {file tree} (h : files.HasTree file tree)
    (hb : b ∈ tree.blocks file) (hat : 0 < b.marks.countP (Mark.isAt code span)) :
    (code = Diagnostic.Code.moduleNotFound ∨ code = Diagnostic.Code.importedNameNotFound) ∧ file.same span.file := by
  obtain ⟨text, -, hparse⟩ := h
  obtain ⟨mark, hmark, hat⟩ := countP_pos_iff.1 hat
  have hmark : mark ∈ tree.marks := by
    rw [← tree.flatMap_blocks file]
    exact mem_flatMap.2 ⟨b, hb, hmark⟩
  cases mark with
  | problem code' span' =>
    simp only [Mark.isAt, Bool.and_eq_true, beq_iff_eq] at hat
    obtain ⟨rfl, hsame⟩ := hat
    obtain ⟨hcode, hfile⟩ := problem_of_mem_marks hparse hmark
    refine ⟨hcode, Path.same_iff.2 ?_⟩
    have hpath : span'.file = file := hfile
    rw [← hpath]
    exact congrArg Prod.fst (Span.same_iff.1 hsame)
  | _ => cases hat

/-- A problem stands in one block only. -/
theorem FileTree.HasBlock.eq_of_isAt (hrooted : files.Rooted) (h : files.HasBlock b) (h' : files.HasBlock b')
    (hat : 0 < b.marks.countP (Mark.isAt code span)) (hat' : 0 < b'.marks.countP (Mark.isAt code span)) : b = b' := by
  obtain ⟨file, tree, htree, hb⟩ := h
  obtain ⟨file', tree', htree', hb'⟩ := h'
  have hfile := Path.same_iff.1 (htree.problem_of_isAt hb hat).2
  have hfile' := Path.same_iff.1 (htree'.problem_of_isAt hb' hat').2
  obtain rfl := (htree.isResolved hrooted).eq_of_same (htree'.isResolved hrooted) (Path.same_iff.2 (hfile.trans hfile'.symm))
  obtain rfl := htree.unique htree'
  obtain ⟨text, -, hparse⟩ := htree
  have hle := countP_marks_le_one hparse code span
  rw [← tree.flatMap_blocks file] at hle
  exact eq_of_countP_flatMap_le_one hle hb hb' hat hat'

/-- In blocks of distinct source files a problem is met once at most, or as often as the body of one
function is among them. -/
theorem countP_blocks_le (hrooted : files.Rooted) {blocks : List Block} (hblocks : ∀ b ∈ blocks, files.HasBlock b)
    (hdistinct : (blocks.filterMap Block.file?).Nodup) (code : String) (span : Span) :
    (blocks.flatMap Block.marks).countP (Mark.isAt code span) = 0 ∨
    (code = Diagnostic.Code.moduleNotFound ∨ code = Diagnostic.Code.importedNameNotFound) ∧
      ((blocks.flatMap Block.marks).countP (Mark.isAt code span) ≤ 1 ∨
        ∃ f : FunctionDef, (∃ mark ∈ (Block.body f).marks, mark.isAt code span) ∧
          (blocks.flatMap Block.marks).countP (Mark.isAt code span) ≤ blocks.countP (Block.isBodyAt f.span)) := by
  rcases Nat.eq_zero_or_pos ((blocks.flatMap Block.marks).countP (Mark.isAt code span)) with hzero | hpos
  · exact .inl hzero
  obtain ⟨mark, hmark, hat⟩ := countP_pos_iff.1 hpos
  obtain ⟨b, hb, hmark⟩ := mem_flatMap.1 hmark
  have hbat : 0 < b.marks.countP (Mark.isAt code span) := countP_pos_iff.2 ⟨mark, hmark, hat⟩
  -- all blocks with the problem are this one
  have hle : ∀ q : Block → Bool, q b → (blocks.flatMap Block.marks).countP (Mark.isAt code span) ≤ blocks.countP q := by
    intro q hq
    refine countP_flatMap_le fun b' hb' => ?_
    rcases Nat.eq_zero_or_pos (b'.marks.countP (Mark.isAt code span)) with hzero | hpos
    · rw [hzero]
      exact Nat.zero_le _
    · obtain rfl := (hblocks b hb).eq_of_isAt hrooted (hblocks b' hb') hbat hpos
      rw [if_pos hq]
      exact (hblocks b hb).countP_le_one
  obtain ⟨file, tree, htree, hof⟩ := hblocks b hb
  refine .inr ⟨(htree.problem_of_isAt hof hbat).1, ?_⟩
  cases b with
  | file path tree' =>
    refine .inl (Nat.le_trans (hle (fun b => b.file? == some path) (beq_self_eq_true _)) ?_)
    have hcount := nodup_iff_count_le_one.1 hdistinct path
    rw [List.count, countP_filterMap] at hcount
    refine Nat.le_trans (countP_mono_left fun b' _ hb' => ?_) hcount
    cases b' <;> simp_all [Block.file?]
  | body f =>
    exact .inr ⟨f, ⟨mark, hmark, hat⟩, hle (Block.isBodyAt f.span) (Span.same_iff.2 rfl)⟩

end

/-! ### Reports -/

/-- The problems are the same: they have one code, message and place. -/
def Diagnostic.alike (d e : Diagnostic) : Bool := d.code == e.code && d.message == e.message && d.span.same e.span

theorem Diagnostic.alike_iff {d e : Diagnostic} :
    d.alike e ↔ d.code = e.code ∧ d.message = e.message ∧ d.span.place = e.span.place := by
  rw [alike, Bool.and_eq_true, Bool.and_eq_true, beq_iff_eq, beq_iff_eq, Span.same_iff, and_assoc]

namespace Analysis

variable (s : Analysis) (d : Diagnostic)

/-- A name that is not found is reported once. -/
theorem countP_unresolvedErrors_le_one : (s.unresolvedSites.map unresolvedError).countP d.alike ≤ 1 := by
  have hcount := nodup_iff_count_le_one.1 s.nodup_unresolvedSites d.span.place
  rw [List.count, countP_map] at hcount
  rw [countP_map]
  refine Nat.le_trans (countP_mono_left fun entry _ hlike => ?_) hcount
  exact beq_iff_eq.2 (Diagnostic.alike_iff.1 hlike).2.2.symm

/-- A definition that is not used is reported once. -/
theorem countP_unusedWarnings_le_one : (s.unusedSites.map unusedWarning).countP d.alike ≤ 1 := by
  rw [countP_map]
  rcases Nat.eq_zero_or_pos (s.unusedSites.countP (d.alike ∘ unusedWarning)) with hzero | hpos
  · rw [hzero]
    exact Nat.zero_le 1
  · obtain ⟨⟨node, name⟩, -, hsite⟩ := countP_pos_iff.1 hpos
    have hle : s.unusedSites.countP (d.alike ∘ unusedWarning) ≤ s.unusedSites.countP (DefinitionSite.same (node, name)) := by
      refine countP_mono_left fun site' _ hsite' => DefinitionSite.same_iff.2 ?_
      obtain ⟨-, hmessage, hplace⟩ := Diagnostic.alike_iff.1 hsite
      obtain ⟨-, hmessage', hplace'⟩ := Diagnostic.alike_iff.1 hsite'
      have hname : name = site'.2 := (String.append_right_inj _).1 (hmessage.symm.trans hmessage')
      exact Prod.ext (hplace.symm.trans hplace') hname
    refine Nat.le_trans hle ?_
    rw [countP_unusedSites]
    split <;> decide

theorem countP_unusedWarnings_of_code (hcode : d.code ≠ Diagnostic.Code.unusedVariable) :
    (s.unusedSites.map unusedWarning).countP d.alike = 0 := by
  rw [countP_map]
  exact countP_eq_zero.2 fun site _ hlike => hcode (Diagnostic.alike_iff.1 hlike).1

theorem countP_unresolvedErrors_of_code (hcode : d.code ≠ Diagnostic.Code.unresolvedName) :
    (s.unresolvedSites.map unresolvedError).countP d.alike = 0 := by
  rw [countP_map]
  exact countP_eq_zero.2 fun site _ hlike => hcode (Diagnostic.alike_iff.1 hlike).1

/-- What is reported at the end. -/
def finalReports : List Diagnostic :=
  (if s.config.reportUnused then s.unusedSites.map unusedWarning else []) ++
    (s.unresolvedSites.map unresolvedError).filter (!·.span.isSynthetic)

theorem countP_finalReports_le : s.finalReports.countP d.alike ≤
    (s.unusedSites.map unusedWarning).countP d.alike + (s.unresolvedSites.map unresolvedError).countP d.alike := by
  rw [finalReports, countP_append]
  refine Nat.add_le_add ?_ filter_sublist.countP_le
  split
  · exact Nat.le_refl _
  · exact Nat.zero_le _

/-- At the end, nothing is reported twice. -/
theorem countP_finalReports_le_one : s.finalReports.countP d.alike ≤ 1 := by
  have hle := s.countP_finalReports_le d
  by_cases hcode : d.code = Diagnostic.Code.unusedVariable
  · have honce := s.countP_unusedWarnings_le_one d
    have hnone := s.countP_unresolvedErrors_of_code d (by rw [hcode]; decide)
    omega
  · have honce := s.countP_unresolvedErrors_le_one d
    have hnone := s.countP_unusedWarnings_of_code d hcode
    omega

/-- At the end, no problem with an import is reported. -/
theorem countP_finalReports_of_import
    (hcode : d.code = Diagnostic.Code.moduleNotFound ∨ d.code = Diagnostic.Code.importedNameNotFound) :
    s.finalReports.countP d.alike = 0 := by
  have hle := s.countP_finalReports_le d
  have hwarnings := s.countP_unusedWarnings_of_code d (by rcases hcode with h | h <;> rw [h] <;> decide)
  have herrors := s.countP_unresolvedErrors_of_code d (by rcases hcode with h | h <;> rw [h] <;> decide)
  omega

end Analysis

def Event.report? : Event → Option Diagnostic
  | .report d => some d
  | _ => none

theorem perm_found_records : (history.foldl Event.record s).found.Perm
    ((history.filterMap Event.report?).filter (!·.span.isSynthetic) ++ s.found) := by
  induction history generalizing s with
  | nil => exact .refl _
  | cons event history ih =>
    refine (ih _).trans ?_
    cases event with
    | report d =>
      refine ((s.perm_found_report d).append_left _).trans ?_
      have hsplit : ((Event.report d :: history).filterMap Event.report?).filter (!·.span.isSynthetic) =
          [d].filter (!·.span.isSynthetic) ++ (history.filterMap Event.report?).filter (!·.span.isSynthetic) :=
        filter_append [d] _
      rw [hsplit, ← append_assoc]
      exact perm_append_comm.append_right _
    | lookup site name found => cases found <;> exact .refl _
    | _ => exact .refl _

theorem countP_reports_le (d : Diagnostic) :
    (history.filterMap Event.report?).countP d.alike ≤ (history.filterMap Event.mark?).countP (Mark.isAt d.code d.span) := by
  rw [countP_filterMap, countP_filterMap]
  refine countP_mono_left fun event _ hlike => ?_
  cases event with
  | report e =>
    obtain ⟨hcode, -, hplace⟩ := Diagnostic.alike_iff.1 (show d.alike e from hlike)
    have hsame : e.span.same d.span := Span.same_iff.2 hplace.symm
    simp [Event.mark?, Mark.isAt, hcode, hsame]
  | _ => cases hlike

/-- The body of a function at the given place was entered. -/
def Event.entersBody (span : Span) : Event → Bool
  | .enter b => b.isBodyAt span
  | _ => false

theorem countP_entered (history : List Event) (span : Span) :
    (entered history).countP (Block.isBodyAt span) = history.countP (Event.entersBody span) := by
  rw [entered, countP_filterMap]
  refine countP_congr fun event _ => ?_
  cases event <;> simp [Event.block?, Event.entersBody]

theorem filterMap_entered :
    (entered history).filterMap Block.file? = history.filterMap Event.file? := by
  rw [entered, filterMap_filterMap]
  refine filterMap_congr fun event _ => ?_
  cases event with
  | enter b => cases b <;> rfl
  | _ => rfl

theorem Analysis.sublist_problemsIn (s : Analysis) (file : Path) : (s.problemsIn file).Sublist s.found := by
  rcases Ordered.getD_cases s.problems file [] with hnone | ⟨entry, hentry, hfound⟩
  · rw [Analysis.problemsIn, hnone]
    exact nil_sublist _
  · rw [Analysis.problemsIn, ← hfound]
    exact sublist_flatMap (f := Prod.snd) hentry

section

variable {work : Workspace} {config : Config} {s v : Analysis} {history : List Event}

theorem nodup_files_entered (hstart : Analysis.start work config = .ok s) (hhistory : History [] history s v)
    (hwork : Work .all s v) : ((entered history).filterMap Block.file?).Nodup := by
  obtain ⟨w, heq, -⟩ := Analysis.start_cases hstart
  have horderly : s.Orderly s.asked.length := by
    rw [heq]
    exact .fresh w config
  have hloaded : s.loaded = [] := by rw [heq, Analysis.fresh_eq]
  obtain ⟨before, horderly⟩ := horderly.work hwork
  have hperm := hhistory.perm_loaded
  rw [hloaded, nil_append] at hperm
  rw [filterMap_entered]
  exact hperm.nodup_iff.1 horderly.distinct

theorem countP_found_le {u : Analysis} (hstart : Analysis.start work config = .ok s) (hhistory : History [] history s v)
    (hrecounts : Recounts history s u) (d : Diagnostic) :
    v.found.countP d.alike ≤ ((entered history).flatMap Block.marks).countP (Mark.isAt d.code d.span) := by
  obtain ⟨w, heq, -⟩ := Analysis.start_cases hstart
  have hproblems := (hhistory.records s (.refl s)).problems
  have hnone : s.found = [] := by
    have hproblems : s.problems = ∅ := by rw [heq, Analysis.fresh_eq]
    rw [Analysis.found, Analysis.problemsByFile, hproblems]
    rfl
  have hfound := perm_found_records history s
  rw [hnone, append_nil, Analysis.found, Analysis.problemsByFile, hproblems] at hfound
  calc v.found.countP d.alike
    _ = ((history.filterMap Event.report?).filter (!·.span.isSynthetic)).countP d.alike := hfound.countP_eq _
    _ ≤ (history.filterMap Event.report?).countP d.alike := filter_sublist.countP_le
    _ ≤ (history.filterMap Event.mark?).countP (Mark.isAt d.code d.span) := countP_reports_le history d
    _ = ((entered history).flatMap Block.marks).countP (Mark.isAt d.code d.span) := hrecounts.marks.countP_eq _

end

namespace Analysis

variable {s : Analysis} {file : Path} {p : Diagnostic → Bool}

theorem countP_problemsIn_report (d : Diagnostic) :
    (s.problemsIn file).countP p ≤ ((s.report d).problemsIn file).countP p := by
  unfold report
  split
  · exact Nat.le_refl _
  · rw [problemsIn, problemsIn, Ordered.getD_update]
    split
    · rename_i hsame
      rw [Std.TreeMap.getD_congr hsame, countP_append]
      exact Nat.le_add_right ..
    · exact Nat.le_refl _

theorem countP_problemsIn_reports {α : Type} (l : List α) (d : α → Diagnostic) :
    (s.problemsIn file).countP p ≤ ((l.foldl (fun s a => s.report (d a)) s).problemsIn file).countP p := by
  induction l generalizing s with
  | nil => exact Nat.le_refl _
  | cons a l ih => exact Nat.le_trans (countP_problemsIn_report (d a)) ih

theorem countP_problemsIn_sortProblems : (s.sortProblems.problemsIn file).countP p = (s.problemsIn file).countP p := by
  rw [problemsIn, sortProblems, Std.TreeMap.getD_map', Option.pmap_eq_map, problemsIn, Std.TreeMap.getD_eq_getD_getElem?]
  cases s.problems[file]? with
  | none => rfl
  | some found => exact (mergeSort_perm ..).countP_eq p

/-- What was found stays found at the end. -/
theorem countP_problemsIn_concluded : (s.problemsIn file).countP p ≤ (s.concluded.problemsIn file).countP p := by
  have hunresolved : (s.problemsIn file).countP p ≤ (s.reportUnresolved.problemsIn file).countP p :=
    countP_problemsIn_reports s.unresolvedSites unresolvedError
  have hreported : (s.problemsIn file).countP p ≤ (s.reported.problemsIn file).countP p := by
    unfold reported
    split
    · exact Nat.le_trans hunresolved (countP_problemsIn_reports s.reportUnresolved.unusedSites unusedWarning)
    · exact hunresolved
  exact Nat.le_trans hreported (countP_problemsIn_sortProblems (s := s.reported)).ge

end Analysis

theorem run_finish_of_uncalled {s} (depth : Nat) (hopen : s.finished = false)
    (hnone : s.uncalled = []) :
    (Infer.finish (depth + 1)).run s = some ((), s.finishing.concluded) := by
  have hempty : s.finishing.uncalled.isEmpty := List.isEmpty_iff.2 hnone
  rw [Infer.finish, Infer.run_finishWith hopen, Infer.applyUncalled, Infer.run_get_bind, if_pos hempty]
  rfl

/-- A function with two kinds of arguments whose body imports what is not there. -/
def Workspace.importInBody : Workspace where
  files := ({} : FileTree).addFile ⟨"/p/main.py"⟩ "def f(a):\n    import missing\n    return a\nf(1)\nf(\"s\")\n"

theorem Workspace.exists_load_importInBody : ∃ t,
    ([⟨"/p/main.py"⟩].forM (Infer.analyze · 4)).run (Analysis.fresh { importInBody with cache := {} } .hermetic) =
      some ((), t) ∧ t.finished = false ∧ t.uncalled = [] ∧
    ∃ d ∈ t.problemsIn ⟨"/p/main.py"⟩, (t.problemsIn ⟨"/p/main.py"⟩).countP d.alike = 2 := by
  rw [Analysis.fresh_eq]
  exact Infer.exists_of_any (by decide +kernel)

/-- So it is found twice when the analysis has ended. -/
theorem Workspace.exists_analysis_importInBody : ∃ (t u : Analysis) (d : Diagnostic),
    ([⟨"/p/main.py"⟩].forM (Infer.analyze · 4)).run (Analysis.fresh { importInBody with cache := {} } .hermetic) =
      some ((), t) ∧ (Infer.finish 4).run t = some ((), u) ∧ 2 ≤ (u.problemsIn ⟨"/p/main.py"⟩).countP d.alike := by
  obtain ⟨t, hload, hopen, huncalled, d, -, hcount⟩ := exists_load_importInBody
  have hstays : (t.problemsIn ⟨"/p/main.py"⟩).countP d.alike ≤ (t.finishing.concluded.problemsIn ⟨"/p/main.py"⟩).countP d.alike :=
    Analysis.countP_problemsIn_concluded (s := t.finishing)
  exact ⟨t, _, d, hload, run_finish_of_uncalled 3 hopen huncalled, hcount ▸ hstays⟩

end TypeInfer
