/-
Watching an analysis. A watched load has no result unless the state is as said when the load is
entered and when it returns. If all states that are reached are so, watching makes no difference
(`Watch.follows`).
-/
import TypeInfer.Proofs.Session

namespace TypeInfer

/-! ### Watched loads -/

namespace Infer

open Classical in
/-- The action, without a result unless the state is as said when it starts and ends. -/
noncomputable def watched {α : Type} (P : Analysis → Prop) (m : Infer α) : Infer α := do
  guard (P (← get))
  let a ← m
  guard (P (← get))
  return a

/-- Applications and loads, with each load watched. -/
noncomputable def watchedCalls (P : Analysis → Prop) : Nat → Calls
  | 0 => ⟨fun _ _ _ => outOfDepth, fun _ => outOfDepth⟩
  | depth + 1 =>
    ⟨applyFunction (watchedCalls P depth), fun path => watched P (loadFile (watchedCalls P depth) path)⟩

theorem run_watched {α : Type} {P : Analysis → Prop} {m : Infer α} {s t : Analysis} {a : α} (hs : P s)
    (hrun : m.run s = some (a, t)) (ht : P t) : (watched P m).run s = some (a, t) := by
  simp [watched, guard, hs, hrun, ht]

theorem run_discard {α : Type} (m : Infer α) (s : Analysis) : (discard m).run s = (m.run s).map fun r => ((), r.2) := by
  change ((fun _ => ()) <$> m).run s = _
  rw [StateT.run_map]
  rfl

theorem run_discard_eq_some {α : Type} {m : Infer α} {s t : Analysis} :
    (discard m).run s = some ((), t) ↔ ∃ a, m.run s = some (a, t) := by
  simp [run_discard]

end Infer

/-- The states in which the analysis can be, from the start on. -/
inductive Reaches (code : Code) (start : Analysis) : Analysis → Prop where
  | start : Reaches code start start
  | run {s t : Analysis} (before : Reaches code start s) (run : Run code s t) : Reaches code start t
  | enter {s t : Analysis} (before : Reaches code start s) (enters : Enters code s t) : Reaches code start t

variable {code : Code} {start s t : Analysis}

theorem Reaches.closed (h : Reaches code start s) (hstart : start.Closed code) : s.Closed code := by
  induction h with
  | start => exact hstart
  | run before run ih => exact run.closed ih
  | enter before enters ih => exact enters.closed ih

theorem Reaches.trans {u : Analysis} (h : Reaches code start s) (h' : Reaches code s u) : Reaches code start u := by
  induction h' with
  | start => exact h
  | run before run ih => exact ih.run run
  | enter before enters ih => exact ih.enter enters

/-! ### One who watches -/

/-- One who watches all code. -/
def Watchers.one (c : Calls) : Watchers := ⟨Unit, fun _ => .all, fun _ => c⟩

theorem Watchers.Retraces.one {α : Type} {c : Calls} {m : Calls → Infer α} {a : α}
    (h : (Watchers.one c).Retraces [] m s a t) : (m c).run s = some (a, t) := by
  obtain ⟨e, -, hsame⟩ := h
  exact hsame () (.all e s)

namespace Setting

/-- The setting with the calls of a depth, which are watched. -/
def watching (code : Code) (base : Analysis) (depth : Nat) (W : Watchers) : Setting :=
  { partly code base depth with watchers := W }

theorem follows_watching_zero (base : Analysis) (W : Watchers) : (watching code base 0 W).Follows :=
  ⟨fun _ _ _ _ _ => trivial, fun _ _ _ => trivial⟩

namespace Follows

variable {depth : Nat} {c : Calls}

theorem analyzeWith {root} (h : (watching code (s.named root) depth (.one c)).Follows) (hs : s.Closed code)
    (hrun : (Infer.analyze root depth).run s = some ((), t)) :
    (Infer.analyzeWith c.load root).run s = some ((), t) ∧ Run code (s.named root) t := by
  have hends := ends_analyzeWith (F := watching code s depth (.one c)) root hs h (.inl trivial)
  obtain ⟨ht, hback⟩ := hends.of_run hrun
  exact ⟨hback.one, ht⟩

theorem load {path r} (h : (watching code s depth (.one c)).Follows) (hs : s.Closed code) (hreads : code.Reads path)
    (hrun : (Infer.load depth path).run s = some (r, t)) : (c.load path).run s = some (r, t) ∧ Run code s t := by
  obtain ⟨ht, -, e, -, hsame⟩ := (h.loads hreads hs (.refl s)).of_run hrun
  exact ⟨(hsame () (.all e s)).2, ht⟩

end Follows

end Setting

/-- An analysis in which all that is reached is as said. -/
structure Watch (code : Code) (start : Analysis) (P : Analysis → Prop) : Prop where
  closed : start.Closed code
  holds : ∀ s, Reaches code start s → P s

theorem Watch.reaches {P : Analysis → Prop} (h : Watch code start P) (hs : Reaches code start s) : Watch code s P :=
  ⟨hs.closed h.closed, fun u hu => h.holds u (hs.trans hu)⟩

/-- To watch the loads for what holds in all states that are reached makes no difference. -/
theorem Watch.follows {P : Analysis → Prop} (h : Watch code s P) (depth : Nat) :
    (Setting.watching code s depth (.one (Infer.watchedCalls P depth))).Follows := by
  induction depth generalizing s with
  | zero => exact Setting.follows_watching_zero s _
  | succ depth ih =>
    refine .next (F := .watching code s depth (.one (Infer.watchedCalls P depth))) (fun t _ ht base hbase => ?_)
      (fun _ _ _ _ _ _ _ _ hrun => hrun) fun hs _ ht _ _ hrun => ?_
    · exact ih (h.reaches (.enter (.run .start ht) hbase))
    · have hreached : Reaches code s _ := .run .start hs
      exact Infer.run_watched (h.holds _ hreached) hrun (h.holds _ (hreached.run ht))

end TypeInfer
