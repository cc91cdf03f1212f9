/-
The account of applications: their number is that of the results on record and of those in
progress (`Analysis.Accounted`). A `Ledger` lists what was entered: no function is applied to the
same types twice. Functions that were not called wait until the analysis ends (`Analysis.Awaits`).
-/
import Mathlib.Algebra.BigOperators.Intervals
import TypeInfer.Proofs.Coverage
import TypeInfer.Proofs.Growth

namespace TypeInfer

open Finset (range)

/-! ### Results on record -/

namespace TypeStore

/-- How many results of functions are on record. -/
def arrowCount (s : TypeStore) : Nat := ∑ i ∈ range s.funs.size, (s.function ⟨i⟩).arrows.length

variable {s t : TypeStore}

/-- Counting beyond the last function makes no difference. -/
theorem arrowCount_eq {n} (h : s.funs.size ≤ n) :
    s.arrowCount = ∑ i ∈ range n, (s.function ⟨i⟩).arrows.length := by
  refine Finset.sum_subset (Finset.range_subset_range.2 h) fun i _ hi => ?_
  rw [s.function_eq_default (Nat.not_lt.1 fun hlt => hi (Finset.mem_range.2 hlt))]
  rfl

theorem arrowCount_congr (h : ∀ f, (t.function f).arrows = (s.function f).arrows) : t.arrowCount = s.arrowCount := by
  rw [arrowCount_eq (Nat.le_max_left t.funs.size s.funs.size), arrowCount_eq (Nat.le_max_right t.funs.size s.funs.size)]
  exact Finset.sum_congr rfl fun i _ => by rw [h]

/-- One more result of one function. -/
theorem arrowCount_append {f arrow}
    (hother : ∀ g, f ≠ g → (t.function g).arrows = (s.function g).arrows)
    (hf : (t.function f).arrows = (s.function f).arrows ++ [arrow]) :
    t.arrowCount = s.arrowCount + 1 := by
  let n := max (f.index + 1) (max t.funs.size s.funs.size)
  have hmem : f.index ∈ range n := Finset.mem_range.2 (Nat.le_max_left ..)
  have hrest : ∑ i ∈ (range n).erase f.index, (t.function ⟨i⟩).arrows.length =
      ∑ i ∈ (range n).erase f.index, (s.function ⟨i⟩).arrows.length := by
    refine Finset.sum_congr rfl fun i hi => ?_
    rw [hother ⟨i⟩ fun heq => (Finset.mem_erase.1 hi).1 (by rw [heq])]
  rw [arrowCount_eq (n := n) (by omega), arrowCount_eq (s := s) (n := n) (by omega),
    ← Finset.add_sum_erase _ _ hmem, ← Finset.add_sum_erase (a := f.index) _ _ hmem, hrest]
  have hlength : (t.function ⟨f.index⟩).arrows.length = (s.function ⟨f.index⟩).arrows.length + 1 := by
    simpa using congrArg List.length hf
  omega

end TypeStore

variable {code : Code} {start s t u : Analysis}

/-! ### Counting along a run -/

theorem Point.filterMap_call (u v : Analysis) (application : FunId × List Ty) (l : List Point) :
    (⟨u, some application⟩ :: (l ++ [⟨v, none⟩])).filterMap Point.entered = application :: l.filterMap Point.entered := by
  simp

theorem Point.filterMap_load (u v : Analysis) (l l' : List Point) :
    (⟨u, none⟩ :: (l ++ ⟨v, none⟩ :: l')).filterMap Point.entered = l.filterMap Point.entered ++ l'.filterMap Point.entered := by
  simp

namespace Trace

variable {l : List Point}

/-- Each application that a run enters is counted once, and leaves one result. -/
theorem counts (h : Trace code s l t) : t.callCount = s.callCount + (l.filterMap Point.entered).length ∧
    t.types.arrowCount = s.types.arrowCount + (l.filterMap Point.entered).length := by
  induction h with
  | refl s => exact ⟨rfl, rfl⟩
  | trans _ _ ih ih' =>
    rw [List.filterMap_append, List.length_append]
    omega
  | step h =>
    refine ⟨?_, TypeStore.arrowCount_congr h.arrows⟩
    obtain ⟨_, _, _, _, _, _, _, _, _, _, rfl, -, -⟩ := h.frame
    rfl
  | aside same => exact ⟨same.callCount, by rw [same.types]; rfl⟩
  | @call s t f d signature l body there hsignature unknown idle run ih =>
    have hcalls : t.callCount = s.callCount + 1 + (l.filterMap Point.entered).length := ih.1
    have henter := TypeStore.arrowCount_congr fun g =>
      s.arrows_enterCall f g (s.callKey d signature) d.span.file.parentOrEmpty
    have hf := run.lt_of_enterCall there
    have hleave := TypeStore.arrowCount_append (fun g hne => t.arrows_leaveCall_of_ne hne (s.callKey d signature) signature s.dir)
      (t.arrows_leaveCall hf (s.callKey d signature) s.dir (run.arrow?_eq_none body there hsignature unknown))
    rw [Point.filterMap_call, List.length_cons]
    refine ⟨?_, ?_⟩
    · change t.callCount = _
      omega
    · omega
  | @load s t u file l l' run join ih ih' =>
    have hcalls : t.callCount = s.callCount + (l.filterMap Point.entered).length := ih.1
    have harrows : t.types.arrowCount = s.types.arrowCount + (l.filterMap Point.entered).length := ih.2
    have hcalls' : u.callCount = t.callCount + (l'.filterMap Point.entered).length := ih'.1
    have harrows' : u.types.arrowCount = t.types.arrowCount + (l'.filterMap Point.entered).length := ih'.2
    rw [Point.filterMap_load, List.length_append]
    omega

theorem nodup_arrows (h : Trace code s l t) (hs : ∀ f, ((s.types.function f).arrows.map Prod.fst).Nodup) :
    ∀ f, ((t.types.function f).arrows.map Prod.fst).Nodup := by
  induction h with
  | refl s => exact hs
  | trans _ _ ih ih' => exact ih' (ih hs)
  | step h =>
    intro f
    rw [h.arrows]
    exact hs f
  | aside same =>
    rw [same.types]
    exact hs
  | @call s t f d signature l body there hsignature unknown idle run ih =>
    have hinner := ih fun g => by
      rw [s.arrows_enterCall]
      exact hs g
    have hf := run.lt_of_enterCall there
    have hunknown := run.arrow?_eq_none body there hsignature unknown
    intro g
    by_cases hfun : f = g
    · subst hfun
      rw [t.arrows_leaveCall hf _ _ hunknown, List.map_append]
      refine List.nodup_append'.2 ⟨hinner f, List.nodup_singleton _, ?_⟩
      rw [List.map_singleton, List.disjoint_singleton, List.mem_map]
      rintro ⟨arrow, harrow, hsame⟩
      have hne := List.lookup_eq_none_iff.1 hunknown arrow harrow
      simp [hsame] at hne
    · rw [t.arrows_leaveCall_of_ne hfun]
      exact hinner g
  | load run join ih ih' => exact ih' (ih hs)

end Trace

/-! ### Entered once -/

/-- The function was applied to the types, or is being applied. -/
def Analysis.HasEntered (s : Analysis) (application : FunId × List Ty) : Prop :=
  ((s.types.function application.1).arrow? application.2).isSome ∨ ∃ d, s.IsApplying application.1 d application.2

namespace Analysis.HasEntered

variable {application : FunId × List Ty}

theorem later (h : s.HasEntered application) (hgrows : s.GrowsInto t) (hrunning : ∀ key ∈ s.running, key ∈ t.running) :
    t.HasEntered application := by
  rcases h with hknown | ⟨d, happlying⟩
  · obtain ⟨ret, hret⟩ := Option.isSome_iff_exists.1 hknown
    exact .inl (Option.isSome_iff_exists.2 ⟨ret, hgrows.arrow _ _ ret hret⟩)
  · exact .inr ⟨d, happlying.later hgrows.toExtends hrunning⟩

theorem trace {l} (h : s.HasEntered application) (htrace : Trace code s l t) :
    t.HasEntered application :=
  h.later htrace.growsInto fun key hkey => by rwa [htrace.running]

end Analysis.HasEntered

/-- What is about to be entered was not entered before. -/
theorem Analysis.not_hasEntered {f d signature} (hbody : (s.types.function f).body = .source d)
    (hunknown : (s.types.function f).arrow? signature = none)
    (hidle : s.running.contains (s.callKey d signature) = false) :
    ¬ s.HasEntered (f, signature) := by
  rintro (hknown | ⟨d', happlying⟩)
  · simp [hunknown] at hknown
  · obtain rfl : d = d' := FunBody.source.inj (hbody.symm.trans happlying.body)
    simp [happlying.running] at hidle

/-- The applications that are entered between two states are distinct and new, and what they return is on
record in the end. -/
structure EntersOnce (s : Analysis) (applied : List (FunId × List Ty)) (t : Analysis) : Prop where
  distinct : applied.Nodup
  new : ∀ application ∈ applied, ¬ s.HasEntered application
  known : ∀ application ∈ applied, ((t.types.function application.1).arrow? application.2).isSome

namespace EntersOnce

variable {l l' : List (FunId × List Ty)}

theorem none (s t : Analysis) : EntersOnce s [] t := ⟨List.nodup_nil, List.forall_mem_nil _, List.forall_mem_nil _⟩

/-- From an earlier state to a later one. -/
theorem widen {s' t'} (h : EntersOnce s l t)
    (hbefore : ∀ application, s'.HasEntered application → s.HasEntered application)
    (hafter : t.GrowsInto t') : EntersOnce s' l t' := by
  refine ⟨h.distinct, fun application hmem hentered => h.new application hmem (hbefore application hentered),
    fun application hmem => ?_⟩
  obtain ⟨ret, hret⟩ := Option.isSome_iff_exists.1 (h.known application hmem)
  exact Option.isSome_iff_exists.2 ⟨ret, hafter.arrow _ _ ret hret⟩

theorem append (h : EntersOnce s l t) (h' : EntersOnce t l' u)
    (hkept : ∀ application, s.HasEntered application → t.HasEntered application) (hgrows : t.GrowsInto u) :
    EntersOnce s (l ++ l') u where
  distinct := by
    refine List.nodup_append'.2 ⟨h.distinct, h'.distinct, fun application hmem hmem' => ?_⟩
    exact h'.new application hmem' (.inl (h.known application hmem))
  new := List.forall_mem_append.2 ⟨h.new, (h'.widen hkept (.of_same rfl rfl)).new⟩
  known := List.forall_mem_append.2 ⟨(h.widen (fun _ => id) hgrows).known, h'.known⟩

end EntersOnce

/-- A run enters each application once. -/
theorem Trace.entersOnce {l} (h : Trace code s l t) :
    EntersOnce s (l.filterMap Point.entered) t := by
  induction h with
  | refl s => exact .none s s
  | @trans s t u l l' first rest ih ih' =>
    rw [List.filterMap_append]
    exact ih.append ih' (fun _ hentered => hentered.trace first) rest.growsInto
  | step h => exact .none _ _
  | aside same => exact .none _ _
  | @call s t f d signature l body there hsignature unknown idle run ih =>
    have hf := run.lt_of_enterCall there
    have hunknown := run.arrow?_eq_none body there hsignature unknown
    have hinner : EntersOnce s _ _ := ih.widen
      (fun _ hentered => hentered.later .enterCall fun key hkey => List.mem_cons_of_mem _ hkey)
      (.leaveCall hf (s.callKey d signature) s.dir hunknown)
    have hentered : ((s.enterCall f (s.callKey d signature) d.span.file.parentOrEmpty).HasEntered (f, signature)) :=
      .inr ⟨d, .enterCall body there hsignature _⟩
    rw [Point.filterMap_call]
    refine ⟨List.nodup_cons.2 ⟨fun hmem => ih.new _ hmem hentered, hinner.distinct⟩,
      List.forall_mem_cons.2 ⟨Analysis.not_hasEntered body unknown idle, hinner.new⟩, List.forall_mem_cons.2 ⟨?_, hinner.known⟩⟩
    rw [FunType.arrow?, t.arrows_leaveCall hf _ _ hunknown, List.lookup_append]
    simp
  | @load s t u file l l' run join ih ih' =>
    have hbegun : ∀ application, s.HasEntered application → (s.begun file).HasEntered application :=
      fun _ hentered => hentered.later (.begun s file) fun _ hkey => hkey
    have hended : t.GrowsInto (s.ended file t) := .of_same rfl rfl
    rw [Point.filterMap_load]
    refine (ih.widen hbegun hended).append ih' (fun application hentered => ?_) join.growsInto
    exact ((hbegun application hentered).trace run).later hended fun _ hkey => hkey

/-- The applications that were entered on the way from the start to a state, in their order. -/
inductive Ledger (code : Code) (start : Analysis) : List (FunId × List Ty) → Analysis → Prop where
  | start : Ledger code start [] start
  | pass {s t : Analysis} {applied : List (FunId × List Ty)} {points : List Point} (before : Ledger code start applied s)
      (trace : Trace code s points t) : Ledger code start (applied ++ points.filterMap Point.entered) t
  | enter {s : Analysis} {applied : List (FunId × List Ty)} {f : FunId} {d : FunctionDef} {signature : List Ty}
      (before : Ledger code start applied s) (body : (s.types.function f).body = .source d)
      (there : f.index < s.types.funs.size) (hsignature : ∀ ty ∈ signature, ty.Within s.sizes)
      (unknown : (s.types.function f).arrow? signature = none)
      (idle : s.running.contains (s.callKey d signature) = false) :
      Ledger code start (applied ++ [(f, signature)]) (s.enterCall f (s.callKey d signature) d.span.file.parentOrEmpty)
  | begin {s : Analysis} {applied : List (FunId × List Ty)} (before : Ledger code start applied s) (file : Path) :
      Ledger code start applied (s.begun file)

theorem Reachable.exists_ledger (h : Reachable code start s) : ∃ applied, Ledger code start applied s := by
  induction h with
  | start => exact ⟨[], .start⟩
  | session before session ih =>
    obtain ⟨applied, hledger⟩ := ih
    obtain ⟨points, htrace⟩ := session.exists_trace
    exact ⟨_, hledger.pass htrace⟩
  | enter before enters ih =>
    obtain ⟨applied, hledger⟩ := ih
    cases enters with
    | call body there hsignature hlength unknown idle => exact ⟨_, hledger.enter body there hsignature unknown idle⟩
    | load new opens => exact ⟨_, hledger.begin _⟩
    | loaded new opens run =>
      obtain ⟨points, htrace⟩ := run.exists_trace
      exact ⟨_, ((hledger.begin _).pass htrace).pass (.aside ⟨rfl, rfl, rfl, rfl⟩)⟩
  | forget before holds ih =>
    obtain ⟨applied, hledger⟩ := ih
    exact ⟨_, hledger.pass (.aside ⟨rfl, rfl, rfl, rfl⟩)⟩

namespace Ledger

variable {applied : List (FunId × List Ty)}

/-- No application is entered twice. -/
theorem nodup (h : Ledger code start applied s) : applied.Nodup ∧ ∀ application ∈ applied, s.HasEntered application := by
  induction h with
  | start => exact ⟨List.nodup_nil, List.forall_mem_nil _⟩
  | pass before trace ih =>
    obtain ⟨hdistinct, hentered⟩ := ih
    have honce := trace.entersOnce
    refine ⟨List.nodup_append'.2 ⟨hdistinct, honce.distinct, fun application hmem hmem' => ?_⟩,
      List.forall_mem_append.2 ⟨fun application hmem => (hentered application hmem).trace trace,
        fun application hmem => .inl (honce.known application hmem)⟩⟩
    exact honce.new application hmem' (hentered application hmem)
  | enter before body there hsignature unknown idle ih =>
    obtain ⟨hdistinct, hentered⟩ := ih
    refine ⟨?_, List.forall_mem_append.2 ⟨fun application hmem => ?_, List.forall_mem_singleton.2 ?_⟩⟩
    · refine List.nodup_append'.2 ⟨hdistinct, List.nodup_singleton _, List.disjoint_singleton.2 fun hmem => ?_⟩
      exact Analysis.not_hasEntered body unknown idle (hentered _ hmem)
    · exact (hentered application hmem).later .enterCall fun key hkey => List.mem_cons_of_mem _ hkey
    · exact .inr ⟨_, .enterCall body there hsignature _⟩
  | begin before file ih =>
    exact ⟨ih.1, fun application hmem => (ih.2 application hmem).later (.begun _ file) fun _ hkey => hkey⟩

theorem callCount (h : Ledger code start applied s) : s.callCount = start.callCount + applied.length := by
  induction h with
  | start => rfl
  | pass before trace ih =>
    rw [trace.counts.1, ih, List.length_append]
    omega
  | @enter s applied f d signature before body there hsignature unknown idle ih =>
    change s.callCount + 1 = _
    rw [ih, List.length_append]
    rfl
  | begin before file ih => exact ih

end Ledger

/-! ### The account of a state -/

/-- Of the functions of the program, those that were called have returned. -/
def Analysis.AllReturned (s : Analysis) : Prop :=
  ∀ f d, (s.types.function f).body = .source d → ((s.types.function f).called ↔ (s.types.function f).arrows ≠ [])

/-- Functions were applied once for each result on record and application in progress. Where none is in
progress, whoever was called has returned. -/
structure Analysis.Accounted (s : Analysis) : Prop where
  count : s.callCount = s.types.arrowCount + s.running.length
  distinct : ∀ f, ((s.types.function f).arrows.map Prod.fst).Nodup
  allReturned : s.running = [] → s.AllReturned

theorem Ledger.count {applied} (h : Ledger code start applied s)
    (hstart : start.callCount = start.types.arrowCount + start.running.length) :
    s.callCount = s.types.arrowCount + s.running.length := by
  induction h with
  | start => exact hstart
  | pass before trace ih =>
    obtain ⟨hcalls, harrows⟩ := trace.counts
    rw [hcalls, harrows, trace.running, ih]
    omega
  | @enter s applied f d signature before body there hsignature unknown idle ih =>
    have henter := TypeStore.arrowCount_congr fun g =>
      s.arrows_enterCall f g (s.callKey d signature) d.span.file.parentOrEmpty
    rw [henter]
    change s.callCount + 1 = _
    rw [ih]
    rfl
  | begin before file ih => exact ih

theorem Ledger.nodup_arrows {applied} (h : Ledger code start applied s)
    (hstart : ∀ f, ((start.types.function f).arrows.map Prod.fst).Nodup) :
    ∀ f, ((s.types.function f).arrows.map Prod.fst).Nodup := by
  induction h with
  | start => exact hstart
  | pass before trace ih => exact trace.nodup_arrows ih
  | enter before body there hsignature unknown idle ih =>
    intro f
    rw [Analysis.arrows_enterCall]
    exact ih f
  | begin before file ih => exact ih

theorem Session.outlives (h : Session code s t) (f : FunId) : (s.types.function f).Outlives (t.types.function f) :=
  h.relates (R := fun s t => (s.types.function f).Outlives (t.types.function f)) .trans
    (fun run => (Accounts.run run).outlives f) fun _ _ _ _ _ _ => .of_same rfl rfl

/-- A session that starts where all have returned ends so. -/
theorem Session.allReturned (h : Session code s t) (hs : s.AllReturned) : t.AllReturned := by
  obtain ⟨points, htrace⟩ := h.exists_trace
  refine fun f d hbody => (h.outlives f).called_iff ?_
  by_cases hf : f.index < s.types.funs.size
  · exact hs f d ((htrace.rests.body f hf).symm.trans hbody)
  · -- it was made meanwhile
    rw [s.types.function_eq_default (Nat.not_lt.1 hf)]
    exact iff_of_false Bool.false_ne_true fun harrows => harrows rfl

theorem Reachable.allReturned (h : Reachable code start s) (hstart : start.AllReturned) (hidle : s.running = []) : s.AllReturned := by
  induction h with
  | start => exact hstart
  | session before session ih =>
    obtain ⟨points, htrace⟩ := session.exists_trace
    exact session.allReturned (ih (htrace.running.symm.trans hidle))
  | @enter s t before enters ih =>
    cases enters with
    | call body there hsignature hlength unknown idle => exact absurd hidle (List.cons_ne_nil _ _)
    | load new opens => exact ih hidle
    | @loaded t file tree new opens run =>
      have hbegun : (s.begun file).AllReturned := ih (run.stacks.running.symm.trans hidle)
      have hended : t.AllReturned := Session.allReturned (.work (.run run)) hbegun
      exact hended
  | forget before holds ih => exact ih hidle

theorem Reachable.accounted (h : Reachable code start s) (hstart : start.Accounted) (hidle : start.running = []) :
    s.Accounted := by
  obtain ⟨applied, hledger⟩ := h.exists_ledger
  exact ⟨hledger.count hstart.count, hledger.nodup_arrows hstart.distinct, h.allReturned (hstart.allReturned hidle)⟩

/-! ### Functions that wait -/

/-- Those that wait are the functions of the program that were not called. -/
def Analysis.Awaits (s : Analysis) : Prop :=
  ∀ f, f ∈ s.uncalled ↔ (∃ d, (s.types.function f).body = .source d) ∧ (s.types.function f).called = false

namespace Analysis.Awaits

section

variable (h : s.Awaits)
include h

theorem of_same (huncalled : t.uncalled = s.uncalled)
    (hbody : ∀ f, (t.types.function f).body = (s.types.function f).body)
    (hcalled : ∀ f, (t.types.function f).called = (s.types.function f).called) : t.Awaits := by
  intro f
  rw [huncalled, hbody, hcalled]
  exact h f

theorem modifyFun {f g} (huncalled : t.uncalled = s.uncalled) (htypes : t.types = s.types.modifyFun f g)
    (hbody : ∀ fn, (g fn).body = fn.body) (hcalled : ∀ fn, (g fn).called = fn.called) : t.Awaits := by
  refine h.of_same huncalled (fun i => ?_) fun i => ?_ <;> rw [htypes, s.types.function_modifyFun] <;> split
  · exact hbody _
  · rfl
  · exact hcalled _
  · rfl

/-- A function that is defined waits. -/
theorem addFun {f d} (hbody : f.body = .source d) (hcalled : f.called = false) : (s.addFun f).1.Awaits := by
  intro g
  have hfun : (s.addFun f).1.types.function g = if g.index = s.types.funs.size then f else s.types.function g :=
    s.types.function_addFun f g
  have huncalled : (s.addFun f).1.uncalled = Ordered.insert ⟨s.types.funs.size⟩ s.uncalled := rfl
  rw [hfun, huncalled, Ordered.mem_insert]
  split
  · rename_i hnew
    exact iff_of_true (.inl (by cases g; simpa using hnew)) ⟨⟨d, hbody⟩, hcalled⟩
  · rename_i hold
    rw [h g]
    exact or_iff_right fun heq => hold (by rw [heq])

/-- A function that is entered waits no longer. -/
theorem enterCall {f} (hf : f.index < s.types.funs.size) (key : CallKey) (dir : Path) :
    (s.enterCall f key dir).Awaits := by
  intro g
  have hfun := s.types.function_modifyFun f g fun fn => { fn with called := true }
  have huncalled : (s.enterCall f key dir).uncalled = s.uncalled.filter (· != f) := rfl
  rw [huncalled, List.mem_filter, h g, bne_iff_ne]
  by_cases hfg : f = g
  · subst hfg
    rw [Analysis.enterCall, hfun, if_pos ⟨rfl, hf⟩]
    simp
  · rw [Analysis.enterCall, hfun, if_neg fun heq => hfg heq.1]
    exact and_iff_left (Ne.symm hfg)

theorem step (hstep : Step code s t) : t.Awaits := by
  rcases hstep.functions with ⟨hfuns, huncalled⟩ | ⟨d, defaults, scope, rfl⟩ | ⟨f, receiver, rfl⟩
  · have hfun : ∀ f, t.types.function f = s.types.function f := fun f => by
      rw [TypeStore.function, TypeStore.function, hfuns]
    exact h.of_same huncalled (fun f => by rw [hfun]) fun f => by rw [hfun]
  · exact h.addFun rfl rfl
  · exact h.modifyFun rfl rfl (fun _ => rfl) fun _ => rfl

theorem run (hrun : Run code s t) : t.Awaits := by
  refine hrun.relates (R := fun s t => s.Awaits → t.Awaits) (fun _ => id) (fun ih ih' h => ih' (ih h))
    (fun hstep h => h.step hstep) (fun _ _ _ there ih h => ?_) (fun _ _ _ _ _ => id) (fun _ _ ih => ih) h
  exact (ih (h.enterCall there _ _)).modifyFun rfl rfl (fun _ => rfl) fun _ => rfl

theorem enters (henters : Enters code s t) : t.Awaits := by
  cases henters with
  | call body there hsignature hlength unknown idle => exact h.enterCall there _ _
  | load new opens => exact h
  | @loaded t file tree new opens run =>
    have hbegun : (s.begun file).Awaits := h
    have ht : t.Awaits := hbegun.run run
    exact ht

theorem reaches (hreaches : Reaches code s t) : t.Awaits := by
  induction hreaches with
  | start => exact h
  | run before run ih => exact ih.run run
  | enter before enters ih => exact ih.enters enters

end

end Analysis.Awaits

theorem Underway.awaits (h : Underway code start s) (hstart : start.Awaits) : s.Awaits := by
  induction h with
  | start => exact hstart
  | name before project ih => exact ih
  | reach before reaches ih => exact ih.reaches reaches
  | forget before holds ih => exact ih

/-! ### The program -/

/-- When an analysis starts, no function was applied and none waits. -/
structure Analysis.Unapplied (s : Analysis) : Prop where
  idle : s.running = []
  uncounted : s.callCount = 0
  arrows : ∀ f, (s.types.function f).arrows = []
  native : ∀ f d, (s.types.function f).body ≠ .source d
  uncalled : s.uncalled = []

namespace Analysis.Unapplied

theorem fresh (work : Workspace) (config : Config) : (Analysis.fresh work config).Unapplied where
  idle := by rw [Analysis.fresh_eq]
  uncounted := by rw [Analysis.fresh_eq]
  arrows f := by
    have htypes : (Analysis.fresh work config).types = Library.installed.2.types := by rw [Analysis.fresh_eq]
    rw [htypes]
    exact Library.closed_installed.1.unapplied f
  native := Analysis.native_fresh work config
  uncalled := by rw [Analysis.fresh_eq]

theorem of_start {work config} (h : Analysis.start work config = .ok s) : s.Unapplied := by
  obtain ⟨w, heq, -⟩ := Analysis.start_cases h
  rw [heq]
  exact fresh w config

theorem accounted (h : s.Unapplied) : s.Accounted where
  count := by
    have hnone : s.types.arrowCount = 0 := Finset.sum_eq_zero fun i _ => by rw [h.arrows]; rfl
    rw [h.uncounted, hnone, h.idle]
    rfl
  distinct f := by
    rw [h.arrows]
    exact List.nodup_nil
  allReturned _ f d hbody := absurd hbody (h.native f d)

theorem awaits (h : s.Unapplied) : s.Awaits := by
  intro f
  rw [h.uncalled]
  exact iff_of_false (List.not_mem_nil) fun hwaits => hwaits.1.elim (h.native f)

end Analysis.Unapplied

/-- In every state that an analysis can be in, as many functions were applied as there are results on
record and applications in progress, none to the same types twice. Where none is in progress, the
functions of the program that were called are those that returned; before the analysis is ended, the
others wait. The program may be watched for all this. -/
theorem applications_are_accounted_for {work : Workspace} {config : Config} {s t u : Analysis} {early late : List Demand}
    {depth : Nat} (hstart : Analysis.start work config = .ok s) (hopen : ∀ demand ∈ early, demand ≠ .finish)
    (hearly : (early.forM (Demand.run ⟨Infer.apply depth, Infer.load depth⟩ depth)).run s = some ((), t))
    (hlate : (late.forM (Demand.run ⟨Infer.apply depth, Infer.load depth⟩ depth)).run t = some ((), u)) :
    (∀ v, Reachable .all s v → v.Accounted ∧ ∃ applied, Ledger .all s applied v) ∧
    (∀ applied v, Ledger .all s applied v → applied.Nodup ∧ v.callCount = applied.length) ∧
    (∀ v, Underway .all s v → v.Awaits) ∧
    (early.forM fun demand => Infer.watched (fun v => v.Accounted ∧ v.Awaits)
      (demand.run (Infer.guardedCalls (fun v => v.Accounted ∧ v.Awaits) depth) depth)).run s = some ((), t) ∧
    (late.forM fun demand => Infer.watched Analysis.Accounted
      (demand.run (Infer.guardedCalls Analysis.Accounted depth) depth)).run t = some ((), u) ∧
    ∃ applied, Ledger .all s applied u := by
  have hclosed := Analysis.closed_all hstart
  have hnone := Analysis.Unapplied.of_start hstart
  have haccounted : ∀ v, Reachable .all s v → v.Accounted := fun v hv => hv.accounted hnone.accounted hnone.idle
  have hawaits : ∀ v, Underway .all s v → v.Awaits := fun v hv => hv.awaits hnone.awaits
  obtain ⟨hsame, ht⟩ := Demand.watched_all_underway (P := fun v => v.Accounted ∧ v.Awaits) hopen hclosed
    (fun v hv => ⟨haccounted v (Reachable.start.underway hv), hawaits v hv⟩) .start hearly
  obtain ⟨hsame', hu⟩ := Demand.watched_all hclosed haccounted (Reachable.start.underway ht) hlate
  refine ⟨fun v hv => ⟨haccounted v hv, hv.exists_ledger⟩, fun applied v hledger => ⟨hledger.nodup.1, ?_⟩, hawaits,
    hsame, hsame', hu.exists_ledger⟩
  rw [hledger.callCount, hnone.uncounted, Nat.zero_add]

/-- A function that is called with two types, and one that is not called. -/
def Workspace.calledTwice : Workspace where
  files := ({} : FileTree).addFile ⟨"/p/main.py"⟩
    "def same(x):\n    return x\ndef idle():\n    return same(1)\nv = same(1)\nv = same('a')\nv = same(2)\n"

theorem applications_are_accounted_for_calledTwice : ∃ depth s t u applied,
    Analysis.start Workspace.calledTwice .hermetic = .ok s ∧
    ([Demand.grant (.project ⟨"/p"⟩)].forM (Demand.run ⟨Infer.apply depth, Infer.load depth⟩ depth)).run s = some ((), t) ∧
    ([Demand.finish].forM (Demand.run ⟨Infer.apply depth, Infer.load depth⟩ depth)).run t = some ((), u) ∧
    ([Demand.grant (.project ⟨"/p"⟩)].forM fun demand => Infer.watched (fun v => v.Accounted ∧ v.Awaits)
      (demand.run (Infer.guardedCalls (fun v => v.Accounted ∧ v.Awaits) depth) depth)).run s = some ((), t) ∧
    Ledger .all s applied u ∧ applied.Nodup ∧ u.callCount = applied.length := by
  have hbuilt : Workspace.calledTwice.files.Built := .addFile (.empty rfl rfl rfl) _ _
  obtain ⟨s, hstart⟩ : ∃ s, Analysis.start Workspace.calledTwice .hermetic = .ok s := ⟨_, Analysis.start_hermetic _⟩
  obtain ⟨depth, u, hrun⟩ := Demand.exists_run hbuilt hstart ⟨"/p"⟩
  rw [List.forM, StateT.run_bind] at hrun
  obtain ⟨⟨⟨⟩, t⟩, hload, hfinish⟩ := Option.bind_eq_some_iff.1 hrun
  have hearly : ([Demand.grant (.project ⟨"/p"⟩)].forM (Demand.run ⟨Infer.apply depth, Infer.load depth⟩ depth)).run s =
      some ((), t) := by
    rw [List.forM, StateT.run_bind]
    exact Option.bind_eq_some_iff.2 ⟨((), t), hload, rfl⟩
  obtain ⟨-, honce, -, hsame, -, applied, hledger⟩ :=
    applications_are_accounted_for hstart (List.forall_mem_singleton.2 Demand.noConfusion) hearly hfinish
  obtain ⟨hnodup, hcount⟩ := honce applied u hledger
  exact ⟨depth, s, t, u, applied, hstart, hearly, hfinish, hsame, hledger, hnodup, hcount⟩

end TypeInfer
