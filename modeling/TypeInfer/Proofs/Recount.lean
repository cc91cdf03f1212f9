/-
What the history of an analysis tells: the marks of the code that was entered, the files, the calls
and what was put on record. An analysis that is made and ended has a history (`exists_recount`).
-/
import TypeInfer.Proofs.Session

namespace TypeInfer

open List

variable {s t : Analysis} {l : List Mark} {e : List Event}

/-! ### What happens in the blocks -/

/-- The mark that stands for the event in the code. -/
def Event.mark? : Event → Option Mark
  | .lookup site name _ => some (.read site name)
  | .define d => some (.define d)
  | .cls d => some (.cls d)
  | .report d => some (.problem d.code d.span)
  | .pass code span => some (.problem code span)
  | .enter _ => none

theorem perm_append_append_comm {α : Type} (a b c d : List α) : ((a ++ b) ++ (c ++ d)).Perm ((a ++ c) ++ (b ++ d)) := by
  simp only [append_assoc]
  refine List.Perm.append_left a ?_
  simp only [← append_assoc]
  exact perm_append_comm.append_right d

/-- What happens is what the marks of the code and of the entered blocks stand for. -/
theorem History.perm_marks (h : History l e s t) :
    (e.filterMap Event.mark?).Perm (l ++ (entered e).flatMap Block.marks) := by
  induction h with
  | aside same => exact .refl _
  | @trans _ _ _ l l' e e' _ _ ih ih' =>
    rw [filterMap_append, entered_append, flatMap_append]
    exact (ih.append ih').trans (perm_append_append_comm ..)
  | found site there => exact .refl _
  | missed site absent => exact .refl _
  | define d defaults scope => exact .refl _
  | cls d bases scope => exact .refl _
  | report code message span => exact .refl _
  | pass code span => exact .refl _
  | call body run ih => exact ih
  | unread event faults full source => exact .refl _
  | load full source opens run ih => exact ih

/-- The file whose code was entered. -/
def Event.file? : Event → Option Path
  | .enter (.file path _) => some path
  | _ => none

theorem History.perm_loaded (h : History l e s t) : t.loaded.Perm (s.loaded ++ e.filterMap Event.file?) := by
  have hnone : ∀ u : Analysis, u.loaded.Perm (u.loaded ++ []) := fun u => .of_eq (append_nil _).symm
  induction h with
  | aside same =>
    rw [same.loaded]
    exact hnone _
  | trans _ _ ih ih' =>
    rw [filterMap_append, ← append_assoc]
    exact ih'.trans (ih.append_right _)
  | @found s _ _ ids site there =>
    obtain ⟨references, scopes, heq⟩ := s.addReferences_eq site ids
    rw [heq]
    exact hnone s
  | missed site absent => exact hnone _
  | define d defaults scope => exact hnone _
  | cls d bases scope => exact hnone _
  | @report s code message span =>
    obtain ⟨problems, heq⟩ := s.report_eq (Diagnostic.error code message span)
    rw [heq]
    exact hnone s
  | pass code span => exact hnone _
  | call body run ih => exact ih
  | unread event faults full source => exact hnone _
  | @load s t file tree e full source opens run ih =>
    have hended : (t.loaded ++ [file]).Perm (s.loaded ++ (e.filterMap Event.file? ++ [file])) := by
      rw [← append_assoc]
      exact ih.append_right [file]
    exact hended.trans (List.Perm.append_left _ perm_append_comm)

/-- The body of a function was entered. -/
def Event.isCall : Event → Bool
  | .enter (.body _) => true
  | _ => false

/-- The bodies that are entered are counted as calls. -/
theorem History.callCount (h : History l e s t) : t.callCount = s.callCount + e.countP Event.isCall := by
  induction h with
  | aside same => exact same.callCount
  | trans _ _ ih ih' => rw [ih', ih, countP_append, Nat.add_assoc]
  | @found s _ _ ids site there =>
    obtain ⟨references, scopes, heq⟩ := s.addReferences_eq site ids
    rw [heq]
    rfl
  | missed site absent => rfl
  | define d defaults scope => rfl
  | cls d bases scope => rfl
  | @report s code message span =>
    obtain ⟨problems, heq⟩ := s.report_eq (Diagnostic.error code message span)
    rw [heq]
    rfl
  | pass code span => rfl
  | @call s t f d key dir signature e body run ih =>
    have hentered : t.callCount = s.callCount + 1 + e.countP Event.isCall := ih
    change t.callCount = _
    rw [hentered, countP_cons_of_pos rfl, Nat.add_assoc, Nat.add_comm 1]
  | unread event faults full source => rfl
  | load full source opens run ih => exact ih

/-! ### Analyses -/

theorem sameRecords_finishing (s : Analysis) : SameRecords s s.finishing :=
  { SameRecords.refl s with work := ⟨_, rfl⟩ }

theorem exists_history {s t u : Analysis} {roots : List Path} {depth : Nat} (hs : s.Closed .all)
    (hopen : s.finished = false) (hload : (roots.forM (Infer.analyze · depth)).run s = some ((), t))
    (hfinish : (Infer.finish depth).run t = some ((), u)) :
    ∃ history v, History [] history s v ∧ Work .all s v ∧ u = v.concluded := by
  have hfollows : (Setting.partly .all s depth).FollowsOn s := Setting.followsOn_partly s depth
  obtain ⟨hwork, loading, hloading, -⟩ := (Setting.leadsOn_roots hfollows trivial roots hs).of_run hload
  have hopen := (projects_of_roots hs hload).settings.1.trans hopen
  have hends := (hfollows.later hwork).ends_finishWith trivial depth (hwork.closed hs) hopen
  obtain ⟨v, ⟨hv, ending, hending, -⟩, rfl⟩ := hends.of_run hfinish
  exact ⟨_, v, (hloading.trans (.aside (sameRecords_finishing t))).trans hending, hwork.trans hv, rfl⟩

/-! ### What is put on record -/

/-- What an event puts on record. -/
def Event.record (s : Analysis) : Event → Analysis
  | .lookup site _ true => s.addResolved site
  | .lookup site name false => s.addUnresolved site name
  | .report d => s.report d
  | _ => s

/-- The names that were looked up and the problems are the same in both states. -/
structure SameFindings (s t : Analysis) : Prop where
  resolved : t.resolved = s.resolved
  unresolved : t.unresolved = s.unresolved
  problems : t.problems = s.problems

theorem SameFindings.refl (s : Analysis) : SameFindings s s := ⟨rfl, rfl, rfl⟩

theorem SameFindings.report {s t : Analysis} (h : SameFindings s t) (d : Diagnostic) :
    SameFindings (s.report d) (t.report d) := by
  unfold Analysis.report
  split
  · exact h
  · exact ⟨h.resolved, h.unresolved, by simp only [h.problems]⟩

theorem History.records (h : History l e s t) (s' : Analysis) (hs : SameFindings s s') :
    SameFindings t (e.foldl Event.record s') := by
  induction h generalizing s' with
  | aside same =>
    exact ⟨hs.resolved.trans same.resolved.symm, hs.unresolved.trans same.unresolved.symm,
      hs.problems.trans same.problems.symm⟩
  | trans _ _ ih ih' =>
    rw [foldl_append]
    exact ih' _ (ih s' hs)
  | @found s _ _ ids site there =>
    obtain ⟨references, scopes, heq⟩ := s.addReferences_eq site ids
    rw [heq]
    exact ⟨congrArg (·.insert site) hs.resolved, hs.unresolved, hs.problems⟩
  | @missed s _ name site absent =>
    refine ⟨hs.resolved, ?_, hs.problems⟩
    simp only [foldl_cons, foldl_nil, Event.record, Analysis.addUnresolved, hs.unresolved]
  | define d defaults scope => exact { hs with }
  | cls d bases scope => exact { hs with }
  | report code message span => exact hs.report _
  | pass code span => exact hs
  | call body run ih =>
    have hleft := ih s' { hs with }
    exact { hleft with }
  | unread event faults full source => exact { hs with }
  | load full source opens run ih =>
    have hleft := ih s' { hs with }
    exact { hleft with }

/-- The history of the whole analysis: it enters the loaded files and as many bodies as were applied, and in
these just what their marks stand for happens. -/
structure Recounts (history : List Event) (s u : Analysis) : Prop where
  leads : ∃ v, History [] history s v ∧ u = v.concluded
  files : u.loaded.Perm (history.filterMap Event.file?)
  calls : u.stats.functionsCalled = history.countP Event.isCall
  marks : (history.filterMap Event.mark?).Perm ((entered history).flatMap Block.marks)

theorem Recounts.of_history {work config history v} (hstart : Analysis.start work config = .ok s)
    (h : History [] history s v) : Recounts history s v.concluded := by
  obtain ⟨w, heq, -⟩ := Analysis.start_cases hstart
  have hloaded : s.loaded = [] := by rw [heq, Analysis.fresh_eq]
  have hcount : s.callCount = 0 := by rw [heq, Analysis.fresh_eq]
  obtain ⟨problems, stats, hconcluded⟩ := v.concluded_eq
  have hfiles := h.perm_loaded
  have hcalls := h.callCount
  rw [hloaded, nil_append] at hfiles
  rw [hcount, Nat.zero_add] at hcalls
  refine ⟨⟨v, h, rfl⟩, ?_, ?_, h.perm_marks⟩
  · rw [hconcluded]
    exact hfiles
  · rw [hconcluded]
    exact hcalls

/-- An analysis that is made and ended has a history. -/
theorem exists_recount {work : Workspace} {config : Config} {s t u : Analysis} {roots : List Path} {depth : Nat}
    (hstart : Analysis.start work config = .ok s) (hload : (roots.forM (Infer.analyze · depth)).run s = some ((), t))
    (hfinish : (Infer.finish depth).run t = some ((), u)) :
    ∃ history v, Recounts history s u ∧ History [] history s v ∧ Work .all s v ∧ u = v.concluded := by
  obtain ⟨w, heq, -⟩ := Analysis.start_cases hstart
  have hopen : s.finished = false := by rw [heq, Analysis.fresh_eq]
  obtain ⟨history, v, hhistory, hwork, rfl⟩ := exists_history (Analysis.closed_all hstart) hopen hload hfinish
  exact ⟨history, v, .of_history hstart hhistory, hhistory, hwork, rfl⟩

end TypeInfer
