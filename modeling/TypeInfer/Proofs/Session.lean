/-
Whole sessions: any commands that load projects and end the analysis, one after the other. `Work`
lists the changes that come before the reports, and `Session` adds the reports. Commands that have
a result are a session (`session_of_commands`).
-/
import TypeInfer.Proofs.Termination

namespace TypeInfer

/-- What commands do to the state of an analysis before the reports are made. -/
inductive Work (code : Code) : Analysis → Analysis → Prop where
  | refl (s : Analysis) : Work code s s
  | trans {s t u : Analysis} (first : Work code s t) (rest : Work code t u) : Work code s u
  | run {s t : Analysis} (run : Run code s t) : Work code s t
  | name {s : Analysis} (project : Option Path) : Work code s { s with project }
  | takeUncalled {s : Analysis} : Work code s { s with uncalled := [] }
  | finish {s : Analysis} : Work code s { s with finished := true }
  | log {s : Analysis} (e : LogEvent) : Work code s (s.log e)

/-- What commands do to the state of an analysis. -/
inductive Session (code : Code) : Analysis → Analysis → Prop where
  | trans {s t u : Analysis} (first : Session code s t) (rest : Session code t u) : Session code s u
  | work {s t : Analysis} (work : Work code s t) : Session code s t
  | report {s : Analysis} (d : Diagnostic) (hfinal : Diagnostic.Code.isFinal d.code) : Session code s (s.report d)
  | sort {s : Analysis} : Session code s s.sortProblems

/-- One thing that is asked of an analysis, and how deep applications and loads may nest. -/
inductive Command where
  | analyze (root : Path) (depth : Nat)
  | finish (depth : Nat)

def Command.run : Command → Infer Unit
  | .analyze root depth => Infer.analyze root depth
  | .finish depth => Infer.finish depth

variable {code : Code} {s t : Analysis}

theorem Work.closed (h : Work code s t) (hs : s.Closed code) : t.Closed code := by
  induction h with
  | refl s => exact hs
  | trans _ _ ih ih' => exact ih' (ih hs)
  | run run => exact run.closed hs
  | name project =>
    exact { hs with }
  | takeUncalled => exact { hs with uncalled := nofun }
  | finish => exact { hs with }
  | log e => exact hs.log e

theorem Session.closed (h : Session code s t) (hs : s.Closed code) : t.Closed code := by
  induction h with
  | trans _ _ ih ih' => exact ih' (ih hs)
  | work work => exact work.closed hs
  | report d hfinal => exact hs.report d
  | sort => exact { hs with }

theorem Session.relates {R : Analysis → Analysis → Prop} (trans : ∀ {s t u}, R s t → R t u → R s u)
    (run : ∀ {s t}, Run code s t → R s t)
    (aside : ∀ (s : Analysis) project uncalled finished problems journal,
      R s { s with project, uncalled, finished, problems, work := { s.work with journal } })
    (h : Session code s t) : R s t := by
  induction h with
  | trans _ _ ih ih' => exact trans ih ih'
  | work h =>
    induction h with
    | trans _ _ ih ih' => exact trans ih ih'
    | run h => exact run h
    | _ => exact aside ..
  | report d hfinal =>
    unfold Analysis.report
    split <;> exact aside ..
  | sort => exact aside ..

theorem Work.sizes (h : Work code s t) : s.sizes ≤ t.sizes :=
  (Session.work h).relates (R := fun s t => s.sizes ≤ t.sizes) Sizes.le_trans Run.sizes fun s _ _ _ _ _ => Sizes.le_refl s.sizes

theorem Analysis.closed_all {work config} (h : Analysis.start work config = .ok s) :
    s.Closed .all := by
  obtain ⟨w, heq, -⟩ := Analysis.start_cases h
  rw [heq]
  exact Analysis.closed_fresh config (Workspace.holds_of_all (fun _ => trivial) w)

theorem Analysis.defined_start {work config} (h : Analysis.start work config = .ok s) : DefinedIn code s.types := by
  obtain ⟨w, heq, -⟩ := Analysis.start_cases h
  rw [heq]
  exact (Analysis.sited_fresh w config).toDefinedIn

/-! ### Calls of any depth -/

namespace Setting

/-- The setting in which nothing is asked of what has no result. -/
def partly (code : Code) (base : Analysis) (depth : Nat) : Setting := .ofDepth code True base depth

theorem follows_partly (code : Code) (base : Analysis) (depth : Nat) : (partly code base depth).Follows := by
  induction depth generalizing base with
  | zero => exact ⟨fun _ _ _ _ _ => trivial, fun _ _ _ => trivial⟩
  | succ depth ih => exact follows_ofDepth fun _ base _ _ _ => ih base

/-- If the action has a result, work leads there. -/
def LeadsOn (F : Setting) (s : Analysis) {α : Type} (m : Calls → Infer α) : Prop :=
  F.Ends (m F.calls) s fun a t => Work F.code s t ∧ F.watchers.Retraces [] m s a t

variable {F : Setting}

section

variable {α β : Type} {m : Calls → Infer α}

theorem LeadsOn.bind {f : α → Calls → Infer β} (hm : F.LeadsOn s m)
    (hf : ∀ a t, Work F.code s t → F.LeadsOn t (f a)) : F.LeadsOn s fun c => m c >>= fun a => f a c :=
  Ends.bind hm fun a t ⟨ht, hback⟩ => (hf a t ht).mono fun _ _ ⟨hu, hback'⟩ => ⟨ht.trans hu, hback.bind hback'⟩

theorem leadsOn_pure (a : α) : F.LeadsOn s fun _ => pure a := ⟨.refl s, .aside rfl (.refl s)⟩

theorem LeadsOn.get_bind {f : Analysis → Calls → Infer β} (h : F.LeadsOn s (f s)) :
    F.LeadsOn s fun c => get >>= fun s => f s c := h

theorem LeadsOn.modify_bind {g : Analysis → Analysis} {n : Calls → Infer β} (hg : Work F.code s (g s))
    (hsame : SameRecords s (g s)) (hn : F.LeadsOn (g s) n) : F.LeadsOn s fun c => modify g >>= fun _ => n c :=
  Ends.modify_bind (hn.mono fun _ _ ⟨ht, hback⟩ => ⟨hg.trans ht, hback.comes_down hsame fun _ => rfl⟩)

end

/-- From each state that work leads to, the calls follow the setting. -/
def FollowsOn (F : Setting) (s : Analysis) : Prop := ∀ t, Work F.code s t → (F.rebase t).Follows

theorem FollowsOn.later (h : F.FollowsOn s) (ht : Work F.code s t) : F.FollowsOn t := fun u hu => h u (ht.trans hu)

theorem leadsOn_applyPlaceholder (h : F.FollowsOn s) {f : FunId} (d : FunctionDef) (hs : s.Closed F.code)
    (hf : f.index < s.types.funs.size) : F.LeadsOn s fun c => Infer.applyPlaceholder c.apply f d :=
  (ends_applyPlaceholder d hs hf (h _ (.log _))).mono fun _ _ ⟨hrun, hback⟩ => ⟨.trans (.log _) (.run hrun), hback⟩

theorem leadsOn_applyBatch (h : F.FollowsOn s) (batch : List FunId) (applied : List Span) (hs : s.Closed F.code)
    (hbatch : ∀ f ∈ batch, f.index < s.types.funs.size) : F.LeadsOn s fun c => Infer.applyBatch c.apply batch applied := by
  induction batch generalizing s applied with
  | nil => exact leadsOn_pure applied
  | cons f more ih =>
    obtain ⟨hf, hmore⟩ := List.forall_mem_cons.1 hbatch
    refine .get_bind ?_
    dsimp only
    split
    · exact ih h applied hs hmore
    · split
      · exact ih h applied hs hmore
      · refine (leadsOn_applyPlaceholder h _ hs hf).bind fun _ t ht => ?_
        exact ih (h.later ht) _ (ht.closed hs) fun g hg => Nat.lt_of_lt_of_le (hmore g hg) ht.sizes.funs

theorem leadsOn_applyUncalled (h : F.FollowsOn s) (hstuck : F.stuck) (rounds pass : Nat) (applied : List Span)
    (hs : s.Closed F.code) : F.LeadsOn s fun c => Infer.applyUncalled c.apply rounds pass applied := by
  induction rounds generalizing s pass applied with
  | zero => exact hstuck
  | succ rounds ih =>
    refine .get_bind ?_
    dsimp only
    split
    · exact leadsOn_pure ()
    · have hstarted : Work F.code s ({ s with uncalled := [] }.log (.uncalledPass pass s.uncalled.length)) :=
        .trans .takeUncalled (.log _)
      have hclosed := hstarted.closed hs
      refine .modify_bind .takeUncalled { SameRecords.refl s with } (.modify_bind (.log _) (.log _ _) ?_)
      refine (leadsOn_applyBatch (h.later hstarted) _ applied hclosed hs.uncalled).bind fun applied' t ht => ?_
      exact ih ((h.later hstarted).later ht) _ _ (ht.closed hclosed)

theorem leadsOn_analyze (h : F.FollowsOn s) (hstuck : F.stuck) (root : Path) (hs : s.Closed F.code) :
    F.LeadsOn s fun c => Infer.analyzeWith c.load root :=
  (ends_analyzeWith root hs (h _ (.name _)) (.inl hstuck)).mono
    fun _ _ ⟨hrun, hback⟩ => ⟨.trans (.name _) (.run hrun), hback⟩

theorem leadsOn_roots (h : F.FollowsOn s) (hstuck : F.stuck) (roots : List Path) (hs : s.Closed F.code) :
    F.LeadsOn s fun c => roots.forM (Infer.analyzeWith c.load) := by
  induction roots generalizing s with
  | nil => exact leadsOn_pure ()
  | cons root roots ih =>
    exact (leadsOn_analyze h hstuck root hs).bind fun _ t ht => ih (h.later ht) (ht.closed hs)

end Setting

/-! ### Commands -/

open Setting (partly follows_partly)

theorem Setting.followsOn_partly (base : Analysis) (depth : Nat) : (partly code base depth).FollowsOn s :=
  fun t _ => follows_partly code t depth

/-- Loading a project is naming it and a run. -/
theorem run_of_analyze {root depth} (hs : s.Closed code) (hrun : (Infer.analyze root depth).run s = some ((), t)) :
    Run code (s.named root) t := by
  have hends := Setting.ends_analyzeWith (F := partly code s depth) root hs (follows_partly code _ depth) (.inl trivial)
  exact (hends.of_run hrun).1

theorem session_reports {α : Type} (l : List α) {d : α → Diagnostic} (hd : ∀ a, Diagnostic.Code.isFinal (d a).code) :
    Session code s (l.foldl (fun s a => s.report (d a)) s) := by
  induction l generalizing s with
  | nil => exact .work (.refl s)
  | cons a l ih => exact .trans (.report (d a) (hd a)) ih

theorem session_reportUnresolved : Session code s s.reportUnresolved :=
  session_reports _ fun _ => (by decide : Diagnostic.Code.isFinal Diagnostic.Code.unresolvedName)

theorem session_reportUnused : Session code s s.reportUnused :=
  session_reports _ fun _ => (by decide : Diagnostic.Code.isFinal Diagnostic.Code.unusedVariable)

/-- The state in which an analysis that ends applies the functions that no call reached. -/
def Analysis.finishing (s : Analysis) : Analysis :=
  ({ s with finished := true }.log (.loaded s.callCount)).log .uncalledStart

/-- The reports at the end of an analysis. -/
def Analysis.reported (s : Analysis) : Analysis :=
  if s.reportUnresolved.config.reportUnused then s.reportUnresolved.reportUnused else s.reportUnresolved

/-- The state in which an analysis has ended. -/
def Analysis.concluded (s : Analysis) : Analysis :=
  s.reported.sortProblems.log (.summary s.reported.sortProblems.stats)

theorem work_finishing : Work code s s.finishing := .trans .finish (.trans (.log _) (.log _))

theorem session_concluded : Session code s s.concluded := by
  have hreported : Session code s s.reported := by
    unfold Analysis.reported
    split
    · exact .trans session_reportUnresolved session_reportUnused
    · exact session_reportUnresolved
  exact .trans hreported (.trans .sort (.work (.log _)))

theorem Analysis.reports_eq {α : Type} (l : List α) (d : α → Diagnostic) (s : Analysis) :
    ∃ problems, l.foldl (fun s a => s.report (d a)) s = { s with problems } := by
  induction l generalizing s with
  | nil => exact ⟨s.problems, rfl⟩
  | cons a l ih =>
    obtain ⟨problems, heq⟩ := s.report_eq (d a)
    obtain ⟨problems', heq'⟩ := ih (s.report (d a))
    exact ⟨problems', by rw [List.foldl_cons, heq', heq]⟩

/-- The reports change nothing but the problems. -/
theorem Analysis.reported_eq (s : Analysis) : ∃ problems, s.reported = { s with problems } := by
  obtain ⟨problems, heq⟩ : ∃ problems, s.reportUnresolved = { s with problems } := Analysis.reports_eq _ _ s
  unfold Analysis.reported
  split
  · obtain ⟨problems', heq'⟩ : ∃ problems', s.reportUnresolved.reportUnused = { s.reportUnresolved with problems := problems' } :=
      Analysis.reports_eq _ _ _
    exact ⟨problems', by rw [heq', heq]⟩
  · exact ⟨problems, heq⟩

theorem Analysis.concluded_eq (s : Analysis) : ∃ problems stats,
    s.concluded = { s with problems }.log (.summary stats) := by
  obtain ⟨problems, heq⟩ := s.reported_eq
  rw [Analysis.concluded, heq]
  exact ⟨_, _, rfl⟩

/-- To end an analysis is to apply the uncalled functions and to make the reports. -/
theorem Infer.run_finishWith {apply : Application} {rounds : Nat} (hopen : s.finished = false) :
    (finishWith apply rounds).run s = ((applyUncalled apply rounds 1 []).run s.finishing).bind fun r =>
      (pure () : Infer Unit).run r.2.concluded := by
  rw [finishWith, run_get_bind, if_neg (by simp [hopen])]
  simp only [log, run_modify_bind, run_get_bind]
  rw [StateT.run_bind]
  change Option.bind _ _ = Option.bind _ _
  congr 1
  funext r
  simp only [run_modify_bind, run_get_bind]
  split
  · rename_i hunused
    rw [Analysis.concluded, Analysis.reported, if_pos hunused]
    rfl
  · rename_i hunused
    rw [Analysis.concluded, Analysis.reported, if_neg hunused]
    rfl

theorem Infer.run_finishWith_of {apply rounds} (hopen : s.finished = false)
    (hrounds : (applyUncalled apply rounds 1 []).run s.finishing = some ((), t)) :
    (finishWith apply rounds).run s = some ((), t.concluded) := by
  rw [run_finishWith hopen, hrounds]
  rfl

theorem ends_finish {F : Setting} {rounds : Nat} {Q : Analysis → Prop} (hopen : s.finished = false)
    (hrounds : F.Ends (Infer.applyUncalled F.calls.apply rounds 1 []) s.finishing fun _ u => Q u) :
    F.Ends (Infer.finishWith F.calls.apply rounds) s fun _ t => ∃ u, Q u ∧ t = u.concluded :=
  .comes_down (Infer.run_finishWith hopen) hrounds fun _ u hu => ⟨u, hu, rfl⟩

/-- To end an analysis is work, and then to make the reports. -/
theorem Setting.FollowsOn.ends_finishWith {F : Setting} (h : F.FollowsOn s) (hstuck : F.stuck) (rounds : Nat)
    (hs : s.Closed F.code) (hopen : s.finished = false) :
    F.Ends (Infer.finishWith F.calls.apply rounds) s fun _ t => ∃ u, (Work F.code s u ∧
      F.watchers.Retraces [] (fun c => Infer.applyUncalled c.apply rounds 1 []) s.finishing () u) ∧ t = u.concluded := by
  have hrounds := leadsOn_applyUncalled (h.later work_finishing) hstuck rounds 1 [] (work_finishing.closed hs)
  exact ends_finish hopen (hrounds.mono fun _ _ ⟨hu, hback⟩ => ⟨work_finishing.trans hu, hback⟩)

/-! ### Sessions -/

theorem concluded_of_finish {depth} (hs : s.Closed code) (hopen : s.finished = false)
    (hrun : (Infer.finish depth).run s = some ((), t)) : ∃ u, Work code s u ∧ t = u.concluded := by
  have hends := (Setting.followsOn_partly s depth).ends_finishWith trivial depth hs hopen
  obtain ⟨u, ⟨hu, -⟩, ht⟩ := hends.of_run hrun
  exact ⟨u, hu, ht⟩

theorem session_of_command (command : Command) (hs : s.Closed code) (hrun : command.run.run s = some ((), t)) :
    Session code s t := by
  cases command with
  | analyze root depth => exact .work (.trans (.name _) (.run (run_of_analyze hs hrun)))
  | finish depth =>
    cases hopen : s.finished with
    | true =>
      rw [Command.run, Infer.finish, Infer.finishWith, Infer.run_get_bind, if_pos hopen] at hrun
      cases hrun
      exact .work (.refl s)
    | false =>
      obtain ⟨u, hu, rfl⟩ := concluded_of_finish hs hopen hrun
      exact .trans (.work hu) session_concluded

/-- Commands that have a result are a session. -/
theorem session_of_commands {commands : List Command} (hs : s.Closed code)
    (hrun : (commands.forM Command.run).run s = some ((), t)) : Session code s t := by
  induction commands generalizing s with
  | nil =>
    cases hrun
    exact .work (.refl _)
  | cons command commands ih =>
    rw [Infer.run_forM_cons] at hrun
    obtain ⟨⟨⟨⟩, u⟩, hfirst, hrest⟩ := Option.bind_eq_some_iff.1 hrun
    have hu := session_of_command command hs hfirst
    exact .trans hu (ih (hu.closed hs) hrest)

/-- Projects are loaded, one after the other. -/
inductive Projects (code : Code) : Analysis → Analysis → Prop where
  | none (s : Analysis) : Projects code s s
  | next {s t u : Analysis} (root : Path) (run : Run code (s.named root) t) (rest : Projects code t u) : Projects code s u

theorem projects_of_roots {roots : List Path} {depth : Nat} (hs : s.Closed code)
    (hrun : (roots.forM (Infer.analyze · depth)).run s = some ((), t)) : Projects code s t := by
  induction roots generalizing s with
  | nil =>
    cases hrun
    exact .none _
  | cons root roots ih =>
    rw [Infer.run_forM_cons] at hrun
    obtain ⟨⟨⟨⟩, u⟩, hfirst, hrest⟩ := Option.bind_eq_some_iff.1 hrun
    have hu := run_of_analyze hs hfirst
    exact .next root hu (ih (hu.closed (hs.named root)) hrest)

theorem Projects.work (h : Projects code s t) : Work code s t := by
  induction h with
  | none s => exact .refl s
  | next root run rest ih => exact .trans (.trans (.name _) (.run run)) ih

theorem Projects.settings (h : Projects code s t) : t.finished = s.finished ∧ t.config = s.config := by
  induction h with
  | none s => exact ⟨rfl, rfl⟩
  | next root run rest ih => exact ⟨ih.1.trans run.settings.finished, ih.2.trans run.settings.config⟩

theorem Infer.exists_of_any {m : Infer Unit} {P : Analysis → Prop} [DecidablePred P]
    (h : (m.run s).any (fun r => decide (P r.2))) : ∃ t, m.run s = some ((), t) ∧ P t := by
  obtain ⟨⟨⟨⟩, t⟩, hrun, ht⟩ := (Option.any_eq_true ..).1 h
  exact ⟨t, hrun, of_decide_eq_true ht⟩

end TypeInfer
