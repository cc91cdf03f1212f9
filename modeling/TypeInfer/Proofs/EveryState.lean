/-
Every state of an analysis. `Reachable` lists the states in which an analysis can be, also within
an application or a load. The program itself can be watched for what holds in all of them
(`Demand.watched_all`).
-/
import TypeInfer.Proofs.LoadedOnce

namespace TypeInfer

/-! ### Reachable states -/

/-- The states in which an analysis can be from the start on, where the trees that are kept may be lost at
any time. -/
inductive Reachable (code : Code) (start : Analysis) : Analysis → Prop where
  | start : Reachable code start start
  | session {s t : Analysis} (before : Reachable code start s) (session : Session code s t) : Reachable code start t
  | enter {s t : Analysis} (before : Reachable code start s) (enters : Enters code s t) : Reachable code start t
  | forget {s : Analysis} {work : Workspace} (before : Reachable code start s) (holds : work.Holds code) :
      Reachable code start { s with work }

variable {code : Code} {start s t : Analysis}

namespace Reachable

section

variable (h : Reachable code start s)
include h

theorem closed (hstart : start.Closed code) : s.Closed code := by
  induction h with
  | start => exact hstart
  | session before session ih => exact session.closed ih
  | enter before enters ih => exact enters.closed ih
  | forget before holds ih =>
    exact { ih with work := holds }

theorem work (hwork : Work code s t) : Reachable code start t := h.session (.work hwork)

theorem reaches (hreaches : Reaches code s t) : Reachable code start t := by
  induction hreaches with
  | start => exact h
  | run before run ih => exact ih.work (.run run)
  | enter before enters ih => exact ih.enter enters

theorem watch {P} (hstart : start.Closed code) (hall : ∀ u, Reachable code start u → P u) : Watch code s P :=
  ⟨h.closed hstart, fun u hu => hall u (h.reaches hu)⟩

end

end Reachable

/-- The states in which an analysis can be from the start on, as long as it is not ended. -/
inductive Underway (code : Code) (start : Analysis) : Analysis → Prop where
  | start : Underway code start start
  | name {s : Analysis} (before : Underway code start s) (project : Option Path) : Underway code start { s with project }
  | reach {s t : Analysis} (before : Underway code start s) (reaches : Reaches code s t) : Underway code start t
  | forget {s : Analysis} {work : Workspace} (before : Underway code start s) (holds : work.Holds code) :
      Underway code start { s with work }

theorem Reachable.underway (h : Reachable code start s) (hunderway : Underway code s t) : Reachable code start t := by
  induction hunderway with
  | start => exact h
  | name before project ih => exact ih.work (.name project)
  | reach before reaches ih => exact ih.reaches reaches
  | forget before holds ih => exact ih.forget holds

namespace Underway

theorem closed (h : Underway code start s) (hstart : start.Closed code) : s.Closed code :=
  (Reachable.start.underway h).closed hstart

theorem watch {P} (h : Underway code start s) (hstart : start.Closed code)
    (hall : ∀ u, Underway code start u → P u) : Watch code s P :=
  ⟨h.closed hstart, fun u hu => hall u (h.reach hu)⟩

end Underway

/-! ### Applications and loads watched -/

namespace Infer

open Classical in
/-- The action, without a result unless the conditions hold of the state before it, and of its result and
the state after it. -/
noncomputable def checked {α : Type} (before : Analysis → Prop) (m : Infer α) (after : α → Analysis → Prop) : Infer α := do
  guard (before (← get))
  let a ← m
  guard (after a (← get))
  return a

theorem run_checked {α : Type} {before : Analysis → Prop} {after : α → Analysis → Prop} {m : Infer α} {s t : Analysis}
    {a : α} : (checked before m after).run s = some (a, t) ↔ before s ∧ m.run s = some (a, t) ∧ after a t := by
  by_cases hs : before s
  · cases hm : m.run s with
    | none => simp [checked, guard, hs, hm]
    | some r =>
      by_cases hr : after r.1 r.2
      all_goals
        simp [checked, guard, hs, hm, hr]
        rintro rfl
        exact hr
  · simp [checked, guard, hs]

/-- Applications and loads, each of them watched, of what is there to types that are there. -/
noncomputable def guardedCalls (P : Analysis → Prop) : Nat → Calls
  | 0 => ⟨fun _ _ _ => outOfDepth, fun _ => outOfDepth⟩
  | depth + 1 =>
    ⟨fun f receiver args => checked
        (fun s => P s ∧ f.index < s.types.funs.size ∧ OptionAll (Ty.Within s.sizes) receiver ∧ args.Within s.sizes)
        (applyFunction (guardedCalls P depth) f receiver args) (fun ty t => P t ∧ ty.Within t.sizes),
      fun path => checked P (loadFile (guardedCalls P depth) path) (fun r t => P t ∧ Setting.LoadedIn t r)⟩

end Infer

/-- To watch applications and loads for what holds in all states that are reached, if all that was defined is in
some code, makes no difference where all that happens is in the code. -/
theorem Setting.follows_guarded {ι : Type} {given : ι → Code} {P : ι → Analysis → Prop} {base : Analysis}
    (hall : ∀ i s, Reaches code base s → DefinedIn (given i) s.types → P i s) (depth : Nat) :
    (Setting.watching code base depth ⟨ι, given, fun i => Infer.guardedCalls (P i) depth⟩).Follows := by
  induction depth generalizing base with
  | zero => exact follows_watching_zero base _
  | succ depth ih =>
    refine .next (F := .watching code base depth ⟨ι, given, fun i => Infer.guardedCalls (P i) depth⟩)
      (fun s _ hs base' henters => ?_) (fun hs hf hreceiver hargs hdefined ht hdefined' hty hrun => ?_)
      fun hs hdefined ht hdefined' hr hrun => ?_
    · exact ih fun i u hu => hall i u (.trans (.enter (.run .start hs) henters) hu)
    · have hreached : Reaches code base _ := .run .start hs
      exact Infer.run_checked.2 ⟨⟨hall _ _ hreached hdefined, hf, hreceiver, hargs⟩, hrun,
        hall _ _ (hreached.run ht) hdefined', hty⟩
    · have hreached : Reaches code base _ := .run .start hs
      exact Infer.run_checked.2 ⟨hall _ _ hreached hdefined, hrun, hall _ _ (hreached.run ht) hdefined', hr⟩

theorem Watch.guarded {P : Analysis → Prop} (h : Watch code s P) (depth : Nat) :
    (Setting.watching code s depth (.one (Infer.guardedCalls P depth))).Follows :=
  Setting.follows_guarded (fun _ u hu _ => h.holds u hu) depth

/-! ### Demands -/

/-- What may be asked of an analysis: a request, the end, and to forget trees. -/
inductive Demand where
  | grant (request : Request)
  | finish
  | close
  | clearCache

/-- Meets a demand by means of the given calls. To end takes at most so many rounds. -/
def Demand.run (calls : Calls) (rounds : Nat) : Demand → Infer Unit
  | .grant request => request.run calls.load
  | .finish => Infer.finishWith calls.apply rounds
  | .close => modify Analysis.close
  | .clearCache => modify fun s => s.clearCache.2

namespace Demand

variable {demand : Demand} {P : Analysis → Prop} {depth : Nat}

theorem watched_underway (hopen : demand ≠ .finish) (hstart : start.Closed .all)
    (hall : ∀ u, Underway .all start u → P u) (hs : Underway .all start s)
    (hrun : (demand.run ⟨Infer.apply depth, Infer.load depth⟩ depth).run s = some ((), t)) :
    (demand.run (Infer.guardedCalls P depth) depth).run s = some ((), t) ∧ Underway .all start t := by
  have hforget : ∀ work, Underway .all start { s with work } :=
    fun work => hs.forget (Workspace.holds_of_all (fun _ => trivial) work)
  cases demand with
  | grant request =>
    cases request with
    | project root =>
      have hnamed := hs.name (s.named root).project
      obtain ⟨hsame, hrun⟩ := ((hnamed.watch hstart hall).guarded depth).analyzeWith (hs.closed hstart) hrun
      exact ⟨hsame, hnamed.reach (.run .start hrun)⟩
    | file path =>
      obtain ⟨r, hload⟩ := Infer.run_discard_eq_some.1 hrun
      obtain ⟨hsame, hrun⟩ := ((hs.watch hstart hall).guarded depth).load (hs.closed hstart) (.inr fun _ => trivial) hload
      exact ⟨Infer.run_discard_eq_some.2 ⟨r, hsame⟩, hs.reach (.run .start hrun)⟩
  | finish => exact absurd rfl hopen
  | close =>
    cases hrun
    exact ⟨rfl, hforget _⟩
  | clearCache =>
    cases hrun
    exact ⟨rfl, hforget _⟩

theorem watched (hstart : start.Closed .all) (hall : ∀ u, Reachable .all start u → P u) (hs : Reachable .all start s)
    (hrun : (demand.run ⟨Infer.apply depth, Infer.load depth⟩ depth).run s = some ((), t)) :
    (demand.run (Infer.guardedCalls P depth) depth).run s = some ((), t) ∧ Reachable .all start t := by
  have hclosed := hs.closed hstart
  have hopen : demand ≠ .finish →
      (demand.run (Infer.guardedCalls P depth) depth).run s = some ((), t) ∧ Reachable .all start t := by
    intro hopen
    obtain ⟨hsame, ht⟩ := watched_underway hopen hclosed (fun u hu => hall u (hs.underway hu)) .start hrun
    exact ⟨hsame, hs.underway ht⟩
  cases demand with
  | grant request => exact hopen (by rintro ⟨⟩)
  | finish =>
    refine ⟨?_, hs.session (session_of_command (.finish depth) hclosed hrun)⟩
    cases hfinished : s.finished with
    | true =>
      rw [run, Infer.finishWith, Infer.run_get_bind, if_pos hfinished] at hrun ⊢
      exact hrun
    | false =>
      have hfollows : (Setting.watching .all s depth (.one (Infer.guardedCalls P depth))).FollowsOn s :=
        fun u hu => ((hs.work hu).watch hstart hall).guarded depth
      obtain ⟨u, ⟨-, hback⟩, rfl⟩ := (hfollows.ends_finishWith trivial depth hclosed hfinished).of_run hrun
      exact Infer.run_finishWith_of hfinished hback.one
  | close => exact hopen (by rintro ⟨⟩)
  | clearCache => exact hopen (by rintro ⟨⟩)

/-- If each demand leads on within some states, and does the same when watched, all of them do. -/
theorem forM_watched {demands : List Demand} {R : Analysis → Prop} (hall : ∀ u, R u → P u)
    (hstep : ∀ demand ∈ demands, ∀ s t, R s → (demand.run ⟨Infer.apply depth, Infer.load depth⟩ depth).run s = some ((), t) →
      (demand.run (Infer.guardedCalls P depth) depth).run s = some ((), t) ∧ R t)
    (hs : R s) (hrun : (demands.forM (run ⟨Infer.apply depth, Infer.load depth⟩ depth)).run s = some ((), t)) :
    (demands.forM fun demand => Infer.watched P (demand.run (Infer.guardedCalls P depth) depth)).run s = some ((), t) ∧
      R t := by
  induction demands generalizing s with
  | nil =>
    cases hrun
    exact ⟨rfl, hs⟩
  | cons demand demands ih =>
    obtain ⟨hdemand, hrest⟩ := List.forall_mem_cons.1 hstep
    rw [List.forM, StateT.run_bind] at hrun ⊢
    obtain ⟨⟨⟨⟩, u⟩, hfirst, hmore⟩ := Option.bind_eq_some_iff.1 hrun
    obtain ⟨hsame, hu⟩ := hdemand s u hs hfirst
    obtain ⟨hsame', ht⟩ := ih hrest hu hmore
    exact ⟨Option.bind_eq_some_iff.2 ⟨_, Infer.run_watched (hall s hs) hsame (hall u hu), hsame'⟩, ht⟩

/-- Demands other than to end lead to a state before the end, and do the same when watched. -/
theorem watched_all_underway {demands : List Demand} (hopen : ∀ demand ∈ demands, demand ≠ .finish)
    (hstart : start.Closed .all) (hall : ∀ u, Underway .all start u → P u) (hs : Underway .all start s)
    (hrun : (demands.forM (run ⟨Infer.apply depth, Infer.load depth⟩ depth)).run s = some ((), t)) :
    (demands.forM fun demand => Infer.watched P (demand.run (Infer.guardedCalls P depth) depth)).run s = some ((), t) ∧
      Underway .all start t :=
  forM_watched hall (fun demand hdemand _ _ hs hrun => watched_underway (hopen demand hdemand) hstart hall hs hrun) hs hrun

/-- Demands lead to a reachable state, and do the same when watched. -/
theorem watched_all {demands : List Demand} (hstart : start.Closed .all) (hall : ∀ u, Reachable .all start u → P u)
    (hs : Reachable .all start s)
    (hrun : (demands.forM (run ⟨Infer.apply depth, Infer.load depth⟩ depth)).run s = some ((), t)) :
    (demands.forM fun demand => Infer.watched P (demand.run (Infer.guardedCalls P depth) depth)).run s = some ((), t) ∧
      Reachable .all start t :=
  forM_watched hall (fun _ _ _ _ hs hrun => watched hstart hall hs hrun) hs hrun

theorem exists_run {work config} (hfiles : work.files.Built)
    (hstart : Analysis.start work config = .ok s) (root : Path) : ∃ depth t,
    ([grant (.project root), finish].forM (run ⟨Infer.apply depth, Infer.load depth⟩ depth)).run s = some ((), t) := by
  obtain ⟨depth, t, u, hanalyze, hfinish⟩ := exists_analysis hfiles hstart root
  refine ⟨depth, u, ?_⟩
  rw [List.forM, StateT.run_bind]
  refine Option.bind_eq_some_iff.2 ⟨((), t), hanalyze, ?_⟩
  rw [List.forM, StateT.run_bind]
  exact Option.bind_eq_some_iff.2 ⟨((), u), hfinish, rfl⟩

end Demand

end TypeInfer
