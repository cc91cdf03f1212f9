/-
What is put on record while code is run. Only loads put on record that a file is read, and only the
end of the analysis that an uncalled function is applied (`Run.placeholders`).
-/
import TypeInfer.Proofs.Run

namespace TypeInfer

/-- The second record goes on from the first one, and no code was entered meanwhile. -/
def Quietly (j j' : Array LogEvent) : Prop :=
  ∃ events : List LogEvent, j'.toList = j.toList ++ events ∧ ∀ e ∈ events, e.entersCode = false

namespace Quietly

variable {j j' k : Array LogEvent}

theorem refl (j : Array LogEvent) : Quietly j j := ⟨[], by simp, by simp⟩

theorem trans (h : Quietly j j') (h' : Quietly j' k) : Quietly j k := by
  obtain ⟨events, hj, hevents⟩ := h
  obtain ⟨events', hk, hevents'⟩ := h'
  exact ⟨events ++ events', by rw [hk, hj, List.append_assoc], List.forall_mem_append.2 ⟨hevents, hevents'⟩⟩

theorem push (j : Array LogEvent) {e} (he : e.entersCode = false) : Quietly j (j.push e) :=
  ⟨[e], by simp, by simpa using he⟩

theorem filterMap {α : Type} (h : Quietly j j') {pick : LogEvent → Option α}
    (hpick : ∀ e, e.entersCode = false → pick e = none) : j'.toList.filterMap pick = j.toList.filterMap pick := by
  obtain ⟨events, hj, hevents⟩ := h
  have hnone : events.filterMap pick = [] := List.filterMap_eq_nil_iff.2 fun e he => hpick e (hevents e he)
  rw [hj, List.filterMap_append, hnone, List.append_nil]

end Quietly

/-! ### The cache -/

namespace Workspace

variable (key : String) (path : Path)

/-- The action enters no code. -/
def Quiet {α : Type} (m : Action α) : Prop := ∀ w, Quietly w.journal (m.run w).run.2.journal

variable {α β : Type}

theorem Quiet.bind {m : Action α} {f : α → Action β} (hm : Quiet m) (hf : ∀ a, Quiet (f a)) : Quiet (m >>= f) :=
  fun w => (hm w).trans (hf _ _)

theorem Quiet.get_bind {f : Workspace → Action β} (hf : ∀ w, Quiet (f w)) : Quiet (get >>= f) := fun w => hf w w

theorem quiet_pure (a : α) : Quiet (pure a : Action α) := fun w => .refl w.journal

theorem quiet_modify {g : Workspace → Workspace} (hg : ∀ w, (g w).journal = w.journal) : Quiet (modify g) := by
  intro w
  have hsame : ((modify g : Action Unit).run w).run.2.journal = w.journal := hg w
  rw [hsame]
  exact .refl w.journal

theorem quiet_log {e : LogEvent} (he : e.entersCode = false) : Quiet (log e) := fun w => .push w.journal he

theorem quiet_countHit (f : CacheStats → CacheStats) : Quiet (countHit f) := quiet_modify fun _ => rfl

theorem quiet_storedTree? : Quiet (storedTree? key) := by
  refine .get_bind fun w => ?_
  split
  · exact quiet_pure none
  · split
    · exact quiet_pure none
    · split
      · exact quiet_pure none
      · split
        · exact quiet_pure _
        · exact (quiet_log rfl).bind fun _ => quiet_pure none

theorem quiet_store (tree : Module) : Quiet (store key tree) := by
  intro w
  cases hentry : w.cache.entryPath? key with
  | none => simpa [store, hentry] using Quietly.refl w.journal
  | some entry =>
    cases hwrite : w.files.write entry tree.toText with
    | ok files => simpa [store, hentry, hwrite] using Quietly.refl w.journal
    | error cause =>
      have hlog : Quietly w.journal (w.journal.push (.entryNotWritten entry cause)) := .push w.journal rfl
      simpa [store, hentry, hwrite, log] using hlog

theorem quiet_produce (content key : String) : Quiet (produce path content key) := by
  refine (quiet_storedTree? key).bind fun found => ?_
  split
  · exact (quiet_log rfl).bind fun _ => (quiet_countHit _).bind fun _ => quiet_pure _
  · refine (quiet_countHit _).bind fun _ => ?_
    split
    · exact quiet_pure _
    · exact (quiet_store key _).bind fun _ => quiet_pure _

/-- Asking for a tree enters no code. -/
theorem quiet_treeOf : Quiet (treeOf path) := by
  refine .get_bind fun w => ?_
  split
  · exact quiet_pure _
  · dsimp only
    split
    · exact (quiet_countHit _).bind fun _ => quiet_pure _
    · refine (quiet_produce _ _ _).bind fun result => ?_
      split
      · exact quiet_pure _
      · refine Quiet.bind (quiet_modify fun _ => ?_) fun _ => quiet_pure _
        rfl

end Workspace

/-! ### Runs -/

variable {code : Code} {s t : Analysis}

theorem Step.quietly (h : Step code s t) : Quietly s.work.journal t.work.journal := by
  cases h with
  | log e he => exact .push s.work.journal he
  | refer node hids =>
    obtain ⟨references, scopes, heq⟩ := s.addReferences_eq node _
    rw [heq]
    exact .refl _
  | bind name node kind hscope hty =>
    obtain ⟨references, scopes, heq⟩ := s.bind_eq _ name node _ kind
    rw [heq]
    exact .refl _
  | report d hlocal hd =>
    unfold Analysis.report
    split <;> exact .refl _
  | addReturn hty =>
    unfold Analysis.addReturn
    split <;> exact .refl _
  | _ => exact .refl _

theorem Analysis.quietly_opened (s : Analysis) (file : Path) :
    Quietly (s.work.journal.push (.loading file)) (s.opened file).work.journal :=
  Workspace.quiet_treeOf file (s.opening file).work

/-- The uncalled functions that were applied, by name and in order. -/
def Analysis.placeholders (s : Analysis) : List String :=
  s.work.journal.toList.filterMap fun
    | .applyingUncalled qname => some qname
    | _ => none

theorem Quietly.placeholders (h : Quietly s.work.journal t.work.journal) : t.placeholders = s.placeholders := by
  refine h.filterMap fun e he => ?_
  cases e <;> simp_all [LogEvent.entersCode]

theorem Analysis.placeholders_opened (s : Analysis) (file : Path) : (s.opened file).placeholders = s.placeholders := by
  have hopened : (s.opened file).placeholders = (s.log (.loading file)).placeholders :=
    Quietly.placeholders (s.quietly_opened file)
  rw [hopened]
  simp [Analysis.placeholders, Analysis.log]

/-- Running code applies no uncalled function. -/
theorem Run.placeholders (h : Run code s t) : t.placeholders = s.placeholders := by
  refine h.relates (R := fun s t => t.placeholders = s.placeholders) (fun _ => rfl) (fun ih ih' => ih'.trans ih)
    (fun h => h.quietly.placeholders) (fun _ _ _ _ ih => ih) (fun {s file} event _ _ _ haside => ?_)
    fun {s _ file} _ _ ih => ih.trans (s.placeholders_opened file)
  have hlogged : ((s.opened file).log event).placeholders = (s.opened file).placeholders :=
    Quietly.placeholders (.push _ haside)
  exact hlogged.trans (s.placeholders_opened file)

end TypeInfer
