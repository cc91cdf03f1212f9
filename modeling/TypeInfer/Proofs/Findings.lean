/-
What is found. A file without a tree is put on record with its faults, and problems are
reported where code is run and when the analysis ends. So what holds of all that each of
these finds, holds of all that is found in a session (`AllFound.session`).
-/
import TypeInfer.Cli.Command
import TypeInfer.Proofs.ReadBlock
import TypeInfer.Proofs.Session

namespace TypeInfer

open List

/-- All that was found, in files without a tree and in the code. -/
structure Analysis.AllFound (P : Diagnostic → Prop) (s : Analysis) : Prop where
  failures : ∀ f ∈ s.failures, ∀ d : Diagnostic, d ∈ f.2 → P d
  problems : ∀ (file : Path) (found : List Diagnostic), s.problems[file]? = some found → ∀ d ∈ found, P d

/-- What is wrong with a file that has no tree. -/
def Diagnostic.OfFile (d : Diagnostic) : Prop := d.IsFault ∨ d.code = Diagnostic.Code.unreadableFile

/-- What is put on record for a file without a tree. -/
theorem Analysis.LacksTree.ofFile {s : Analysis} {file : Path} {faults : List Diagnostic}
    (h : s.LacksTree file faults) : ∀ d ∈ faults, d.OfFile := by
  obtain ⟨e, htree, rfl⟩ := h
  have hanswered := Workspace.answered_treeOf (s.opening file).work file
  rw [Analysis.openedTree] at htree
  generalize ((Workspace.treeOf file).run (s.opening file).work).run = r at hanswered htree
  cases hanswered with
  | unreadable reads =>
    obtain rfl := Except.error.inj htree
    intro d hd
    rw [mem_singleton.1 hd]
    exact .inr rfl
  | remembered reads there key => cases htree
  | failed reads produced =>
    obtain rfl := Except.error.inj htree
    cases produced with
    | faulty parses => exact fun d hd => .inl (Grammar.isFault_of_parse parses d hd)
  | produced reads produced => cases htree

namespace Analysis.AllFound

variable {P : Diagnostic → Prop} {s t : Analysis}

section

variable (h : s.AllFound P)
include h

theorem diagnostics : ∀ d ∈ s.diagnostics, P d := by
  intro d hd
  obtain ⟨⟨file, found⟩, hfile, hd⟩ := mem_flatMap.1 hd
  rcases mem_append.1 hfile with hfile | hfile
  · exact h.failures _ (mem_mergeSort.1 hfile) d hd
  · have hfound := (Std.TreeMap.mem_toList_iff_getKey?_eq_some_and_getElem?_eq_some.1 hfile).2
    exact h.problems file found hfound d hd

theorem problemsIn (file : Path) : ∀ d ∈ s.problemsIn file, P d := by
  intro d hd
  rw [Analysis.problemsIn, Std.TreeMap.getD_eq_getD_getElem?] at hd
  cases hfound : s.problems[file]? with
  | none => simp [hfound] at hd
  | some found => exact h.problems file found hfound d (by simpa [hfound] using hd)

theorem report {d} (hd : P d) : (s.report d).AllFound P := by
  unfold Analysis.report
  split
  · exact h
  · refine ⟨h.failures, fun file found hfound => ?_⟩
    rw [Ordered.update, Std.TreeMap.getElem?_insert] at hfound
    split at hfound
    · obtain rfl := Option.some.inj hfound
      exact forall_mem_append.2 ⟨h.problemsIn d.span.file, by simpa using hd⟩
    · exact h.problems file found hfound

theorem sortProblems : s.sortProblems.AllFound P := by
  refine ⟨h.failures, fun file found hfound => ?_⟩
  obtain ⟨file', -, hmem⟩ := Std.TreeMap.getElem?_eq_some_iff_exists_compare_eq_eq_and_mem_toList.1 hfound
  rw [Analysis.sortProblems, Std.TreeMap.toList_map] at hmem
  obtain ⟨⟨file'', old⟩, hold, heq⟩ := mem_map.1 hmem
  obtain ⟨rfl, rfl⟩ := Prod.mk.inj heq
  intro d hd
  have hfound := (Std.TreeMap.mem_toList_iff_getKey?_eq_some_and_getElem?_eq_some.1 hold).2
  exact h.problems _ old hfound d (mem_mergeSort.1 hd)

end

theorem fresh (work : Workspace) (config : Config) : (Analysis.fresh work config).AllFound P := by
  have hfailures : (Analysis.fresh work config).failures = [] := by rw [Analysis.fresh_eq]
  have hproblems : (Analysis.fresh work config).problems = ∅ := by rw [Analysis.fresh_eq]
  refine ⟨fun f hf => ?_, fun file found hfound => ?_⟩
  · rw [hfailures] at hf
    cases hf
  · rw [hproblems, Std.TreeMap.getElem?_emptyc] at hfound
    cases hfound

section

variable {code : Code} (hlocal : ∀ d : Diagnostic, Diagnostic.Code.isFinal d.code = false →
  (code.AssignsRightly → d.code ≠ Diagnostic.Code.malformedNode) → P d)
include hlocal

theorem step (h : s.AllFound P) (hstep : Step code s t) : t.AllFound P := by
  cases hstep with
  | report d hearly hd => exact h.report (hlocal d hearly hd)
  | refer node hids =>
    obtain ⟨references, scopes, he⟩ := s.addReferences_eq node _
    rw [he]
    exact ⟨h.failures, h.problems⟩
  | bind name node kind hscope hty =>
    obtain ⟨references, scopes, he⟩ := s.bind_eq _ name node _ kind
    rw [he]
    exact ⟨h.failures, h.problems⟩
  | addReturn hty =>
    unfold Analysis.addReturn
    split <;> exact ⟨h.failures, h.problems⟩
  | _ => exact ⟨h.failures, h.problems⟩

variable (hfile : ∀ d : Diagnostic, d.OfFile → P d)
include hfile

theorem run (h : s.AllFound P) (hrun : Run code s t) : t.AllFound P := by
  refine hrun.relates (R := fun s t => s.AllFound P → t.AllFound P) (fun _ => id) (fun ih ih' h => ih' (ih h))
    (fun hstep h => h.step hlocal hstep) (fun _ _ _ _ ih h => ?_) (fun _ _ _ hfails _ h => ?_) (fun _ _ ih h => ?_) h
  · have hleft := ih ⟨h.failures, h.problems⟩
    exact ⟨hleft.failures, hleft.problems⟩
  · refine ⟨forall_mem_append.2 ⟨h.failures, ?_⟩, h.problems⟩
    simpa using fun d hd => hfile d (hfails.ofFile d hd)
  · have hleft := ih ⟨h.failures, h.problems⟩
    exact ⟨hleft.failures, hleft.problems⟩

theorem work (h : s.AllFound P) (hwork : Work code s t) : t.AllFound P := by
  induction hwork with
  | refl s => exact h
  | trans _ _ ih ih' => exact ih' (ih h)
  | run hrun => exact h.run hlocal hfile hrun
  | name project => exact ⟨h.failures, h.problems⟩
  | takeUncalled => exact ⟨h.failures, h.problems⟩
  | finish => exact ⟨h.failures, h.problems⟩
  | log e => exact ⟨h.failures, h.problems⟩

theorem session (hfinal : ∀ d : Diagnostic, Diagnostic.Code.isFinal d.code → P d) (h : s.AllFound P)
    (hsession : Session code s t) : t.AllFound P := by
  induction hsession with
  | trans _ _ ih ih' => exact ih' (ih h)
  | work hwork => exact h.work hlocal hfile hwork
  | report d hd => exact h.report (hfinal d hd)
  | sort => exact h.sortProblems

end

end Analysis.AllFound

end TypeInfer
