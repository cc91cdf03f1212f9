/-
No definition is left out. What a run does to functions is said once (`Accounts`): calls are never
taken back, whoever was called returned, and who was not called waits. From this follows where each
round of the end stands (`Stands`).
-/
import TypeInfer.Proofs.Journal
import TypeInfer.Proofs.Session

namespace TypeInfer

open List

instance : Std.LawfulEqOrd FunId where
  compare_self {f} := Nat.compare_eq_eq.2 (Eq.refl f.index)
  eq_of_compare {f g} h := by
    have hindex : f.index = g.index := Nat.compare_eq_eq.1 h
    cases f
    cases g
    exact congrArg FunId.mk hindex

/-! ### What becomes of functions -/

/-- What became of a function: it is still called if it was, and still has returned. If it
was called meanwhile it returned, and it returned only if it was called. -/
structure FunType.Outlives (f g : FunType) : Prop where
  called : f.called → g.called
  arrows : f.arrows ≠ [] → g.arrows ≠ []
  returned : g.called → f.called ∨ g.arrows ≠ []
  applied : g.arrows ≠ [] → f.arrows ≠ [] ∨ g.called

namespace FunType.Outlives

variable {f g k : FunType}

theorem of_same (hcalled : g.called = f.called) (harrows : g.arrows = f.arrows) : f.Outlives g where
  called h := by rwa [hcalled]
  arrows h := by rwa [harrows]
  returned h := .inl (by rwa [← hcalled])
  applied h := .inl (by rwa [← harrows])

theorem of_returned (hcalled : g.called) (harrows : g.arrows ≠ []) : f.Outlives g :=
  ⟨fun _ => hcalled, fun _ => harrows, fun _ => .inr harrows, fun _ => .inr hcalled⟩

theorem trans (h : f.Outlives g) (h' : g.Outlives k) : f.Outlives k where
  called hf := h'.called (h.called hf)
  arrows hf := h'.arrows (h.arrows hf)
  returned hk := by
    rcases h'.returned hk with hg | hk
    · exact (h.returned hg).imp_right h'.arrows
    · exact .inr hk
  applied hk := by
    rcases h'.applied hk with hg | hk
    · exact (h.applied hg).imp_right h'.called
    · exact .inr hk

theorem called_iff (h : f.Outlives g) (hf : f.called ↔ f.arrows ≠ []) : g.called ↔ g.arrows ≠ [] := by
  refine ⟨fun hcalled => ?_, fun harrows => ?_⟩
  · exact (h.returned hcalled).elim (fun hcalled => h.arrows (hf.1 hcalled)) id
  · exact (h.applied harrows).elim (fun harrows => h.called (hf.2 harrows)) id

end FunType.Outlives

/-- What became of the functions of the first state. They keep their definitions and names; one that was
not called waits, unless it was there before and did not wait then. -/
structure Accounts (s t : Analysis) : Prop where
  size : s.types.funs.size ≤ t.types.funs.size
  body : ∀ f : FunId, f.index < s.types.funs.size → (t.types.function f).body = (s.types.function f).body
  qname : ∀ f : FunId, f.index < s.types.funs.size → (t.types.function f).qname = (s.types.function f).qname
  outlives : ∀ f, (s.types.function f).Outlives (t.types.function f)
  waits : ∀ f : FunId, f.index < t.types.funs.size →
    (t.types.function f).called ∨ f ∈ t.uncalled ∨ f.index < s.types.funs.size ∧ f ∉ s.uncalled

variable {code : Code} {s t u : Analysis} {f : FunId} {place : Span}

namespace Accounts

theorem trans (h : Accounts s t) (h' : Accounts t u) : Accounts s u where
  size := Nat.le_trans h.size h'.size
  body f hf := (h'.body f (Nat.lt_of_lt_of_le hf h.size)).trans (h.body f hf)
  qname f hf := (h'.qname f (Nat.lt_of_lt_of_le hf h.size)).trans (h.qname f hf)
  outlives f := (h.outlives f).trans (h'.outlives f)
  waits f hf := by
    rcases h'.waits f hf with hcalled | hwaits | ⟨hthere, hnot⟩
    · exact .inl hcalled
    · exact .inr (.inl hwaits)
    · rcases h.waits f hthere with hcalled | hwaits | hold
      · exact .inl ((h'.outlives f).called hcalled)
      · exact absurd hwaits hnot
      · exact .inr (.inr hold)

/-- Who did not wait before does not wait now. -/
theorem waits_of_eq (huncalled : t.uncalled = s.uncalled) (hf : f.index < s.types.funs.size) :
    (t.types.function f).called ∨ f ∈ t.uncalled ∨ f.index < s.types.funs.size ∧ f ∉ s.uncalled := by
  rw [huncalled]
  by_cases hmem : f ∈ s.uncalled
  · exact .inr (.inl hmem)
  · exact .inr (.inr ⟨hf, hmem⟩)

theorem of_funs (hfuns : t.types.funs = s.types.funs) (huncalled : t.uncalled = s.uncalled) : Accounts s t := by
  have hfun : ∀ f, t.types.function f = s.types.function f := fun f => by
    rw [TypeStore.function, TypeStore.function, hfuns]
  refine ⟨by rw [hfuns], fun f _ => by rw [hfun], fun f _ => by rw [hfun], fun f => ?_, fun f hf => ?_⟩
  · exact .of_same (by rw [hfun]) (by rw [hfun])
  · exact waits_of_eq huncalled (by rwa [← hfuns])

theorem addFun (s : Analysis) {f} (hcalled : f.called = false) (harrows : f.arrows = []) :
    Accounts s (s.addFun f).1 := by
  have hfun : ∀ g : FunId, (s.addFun f).1.types.function g =
      if g.index = s.types.funs.size then f else s.types.function g := s.types.function_addFun f
  have hsize : (s.addFun f).1.types.funs.size = s.types.funs.size + 1 := Array.size_push ..
  refine ⟨by omega, fun g hg => ?_, fun g hg => ?_, fun g => ?_, fun g hg => ?_⟩
  · rw [hfun, if_neg (Nat.ne_of_lt hg)]
  · rw [hfun, if_neg (Nat.ne_of_lt hg)]
  · rw [hfun]
    split
    · rename_i hnew
      rw [s.types.function_eq_default (Nat.le_of_eq hnew.symm)]
      exact .of_same hcalled harrows
    · exact .of_same rfl rfl
  · have huncalled : (s.addFun f).1.uncalled = Ordered.insert ⟨s.types.funs.size⟩ s.uncalled := rfl
    rw [huncalled, Ordered.mem_insert]
    by_cases hnew : g.index = s.types.funs.size
    · exact .inr (.inl (.inl (by cases g; simpa using hnew)))
    · by_cases hmem : g ∈ s.uncalled
      · exact .inr (.inl (.inr hmem))
      · exact .inr (.inr ⟨by omega, hmem⟩)

theorem addReceiver (s : Analysis) (f : FunId) (receiver : Ty) : Accounts s (s.addReceiver f receiver) := by
  have hsize : (s.addReceiver f receiver).types.funs.size = s.types.funs.size := TypeStore.size_modifyFun ..
  have hfun : ∀ g, ∃ selfType, (s.addReceiver f receiver).types.function g = { s.types.function g with selfType } := by
    intro g
    rw [Analysis.addReceiver, TypeStore.function_modifyFun]
    split
    · exact ⟨_, rfl⟩
    · exact ⟨_, rfl⟩
  have huncalled : (s.addReceiver f receiver).uncalled = s.uncalled := rfl
  refine ⟨by omega, fun g _ => ?_, fun g _ => ?_, fun g => ?_, fun g hg => waits_of_eq huncalled (by omega)⟩
  · obtain ⟨_, heq⟩ := hfun g
    rw [heq]
  · obtain ⟨_, heq⟩ := hfun g
    rw [heq]
  · obtain ⟨_, heq⟩ := hfun g
    rw [heq]
    exact .of_same rfl rfl

theorem step (h : Step code s t) : Accounts s t := by
  rcases h.functions with ⟨hfuns, huncalled⟩ | ⟨d, defaults, scope, rfl⟩ | ⟨f, receiver, rfl⟩
  · exact of_funs hfuns huncalled
  · exact addFun s rfl rfl
  · exact addReceiver s f receiver

/-- A function that was applied was called and returned. -/
theorem called_leaveCall {key dir} (signature : List Ty) (back : Option Path)
    (hf : f.index < s.types.funs.size) (h : Accounts (s.enterCall f key dir) t) :
    ((t.leaveCall f key signature back).types.function f).called ∧
      ((t.leaveCall f key signature back).types.function f).arrows ≠ [] := by
  have hentered : ((s.enterCall f key dir).types.function f).called := by
    rw [Analysis.enterCall, TypeStore.function_modifyFun, if_pos ⟨rfl, hf⟩]
  have hsize : (s.enterCall f key dir).types.funs.size = s.types.funs.size := TypeStore.size_modifyFun ..
  have hft : f.index < t.types.funs.size := Nat.lt_of_lt_of_le (by omega) h.size
  have hleft : (t.leaveCall f key signature back).types.function f =
      (t.types.function f).setArrow signature t.returned := by
    rw [Analysis.leaveCall, TypeStore.function_modifyFun, if_pos ⟨rfl, hft⟩]
  rw [hleft]
  exact ⟨(h.outlives f).called hentered, by simp [FunType.setArrow]⟩

theorem call {key dir} (signature : List Ty) (back : Option Path) (hf : f.index < s.types.funs.size)
    (h : Accounts (s.enterCall f key dir) t) : Accounts s (t.leaveCall f key signature back) := by
  obtain ⟨hcalled, harrows⟩ := h.called_leaveCall signature back hf
  have hentered : ∀ g, ∃ called, (s.enterCall f key dir).types.function g = { s.types.function g with called } ∧
      (g ≠ f → called = (s.types.function g).called) := by
    intro g
    by_cases hg : f = g ∧ g.index < s.types.funs.size
    · exact ⟨true, (s.types.function_modifyFun ..).trans (if_pos hg), fun hne => absurd hg.1.symm hne⟩
    · exact ⟨_, (s.types.function_modifyFun ..).trans (if_neg hg), fun _ => rfl⟩
  have hleft : ∀ g, ∃ arrows, (t.leaveCall f key signature back).types.function g = { t.types.function g with arrows } ∧
      (g ≠ f → arrows = (t.types.function g).arrows) := by
    intro g
    by_cases hg : f = g ∧ g.index < t.types.funs.size
    · exact ⟨_, (t.types.function_modifyFun ..).trans (if_pos hg), fun hne => absurd hg.1.symm hne⟩
    · exact ⟨_, (t.types.function_modifyFun ..).trans (if_neg hg), fun _ => rfl⟩
  have hsize : (s.enterCall f key dir).types.funs.size = s.types.funs.size := TypeStore.size_modifyFun ..
  have hsize' : (t.leaveCall f key signature back).types.funs.size = t.types.funs.size := TypeStore.size_modifyFun ..
  refine ⟨?_, fun g hg => ?_, fun g hg => ?_, fun g => ?_, fun g hg => ?_⟩
  · rw [hsize', ← hsize]
    exact h.size
  · obtain ⟨_, heq, -⟩ := hentered g
    obtain ⟨_, heq', -⟩ := hleft g
    have hbody := h.body g (by rwa [hsize])
    rw [heq']
    exact hbody.trans (by rw [heq])
  · obtain ⟨_, heq, -⟩ := hentered g
    obtain ⟨_, heq', -⟩ := hleft g
    have hqname := h.qname g (by rwa [hsize])
    rw [heq']
    exact hqname.trans (by rw [heq])
  · by_cases hfg : g = f
    · subst hfg
      exact .of_returned hcalled harrows
    · obtain ⟨called, heq, hsame⟩ := hentered g
      obtain ⟨arrows, heq', hsame'⟩ := hleft g
      have hbefore : (s.types.function g).Outlives ((s.enterCall f key dir).types.function g) :=
        .of_same (by rw [heq]; exact hsame hfg) (by rw [heq])
      have hafter : (t.types.function g).Outlives ((t.leaveCall f key signature back).types.function g) :=
        .of_same (by rw [heq']) (by rw [heq']; exact hsame' hfg)
      exact (hbefore.trans (h.outlives g)).trans hafter
  · by_cases hfg : g = f
    · subst hfg
      exact .inl hcalled
    · obtain ⟨_, heq', -⟩ := hleft g
      rcases h.waits g (by omega) with hg | hg | ⟨hg, hnot⟩
      · exact .inl (by rw [heq']; exact hg)
      · exact .inr (.inl hg)
      · refine .inr (.inr ⟨by omega, fun hmem => hnot ?_⟩)
        exact mem_filter.2 ⟨hmem, by simpa using hfg⟩

theorem run (h : Run code s t) : Accounts s t := by
  refine h.relates (fun _ => of_funs rfl rfl) trans step (fun _ _ _ there ih => ih.call _ _ there)
    (fun _ _ _ _ _ => of_funs rfl rfl) fun {s t file} _ _ ih => ?_
  have hbegun : Accounts s (s.begun file) := of_funs rfl rfl
  have hended : Accounts t (s.ended file t) := of_funs rfl rfl
  exact (hbegun.trans ih).trans hended

end Accounts

/-! ### Places of definitions -/

/-- The place of the definition of a function; library functions have none. -/
def FunType.place? (f : FunType) : Option Span := f.definition?.map fun d => d.span.plain

theorem TypeStore.lt_of_place? {types : TypeStore} (h : (types.function f).place? = some place) :
    f.index < types.funs.size := by
  refine Nat.lt_of_not_le fun hle => ?_
  rw [types.function_eq_default hle] at h
  contradiction

theorem Accounts.place? (h : Accounts s t) (hf : f.index < s.types.funs.size) :
    (t.types.function f).place? = (s.types.function f).place? := by
  rw [FunType.place?, FunType.definition?, h.body f hf]
  rfl

theorem Accounts.place?_cases (h : Accounts s t) (ht : (t.types.function f).place? = some place) :
    (s.types.function f).place? = some place ∨ (s.types.function f).called = false ∧ (s.types.function f).arrows = [] := by
  by_cases hf : f.index < s.types.funs.size
  · exact .inl ((h.place? hf).symm.trans ht)
  · rw [s.types.function_eq_default (Nat.not_lt.1 hf)]
    exact .inr ⟨rfl, rfl⟩

/-! ### Where the rounds stand -/

/-- No application is in progress. Each definition was called, waits, is in the batch at hand, or has its
place among those applied. -/
structure Analysis.Stands (s : Analysis) (batch : List FunId) (applied : List Span) : Prop where
  idle : s.running = []
  returned : ∀ f place, (s.types.function f).place? = some place →
    ((s.types.function f).called ↔ (s.types.function f).arrows ≠ [])
  reached : ∀ f place, (s.types.function f).place? = some place →
    (s.types.function f).called ∨ f ∈ s.uncalled ∨ f ∈ batch ∨ place ∈ applied
  made : ∀ place ∈ applied, ∃ f, (s.types.function f).place? = some place ∧ (s.types.function f).called ∧
    (s.types.function f).arrows ≠ []

/-- The record goes on with the functions that were applied, one at each of the places. -/
def Analysis.Says (s : Analysis) (before : List String) (applied : List Span) : Prop :=
  ∃ placed : List FunId, s.placeholders = before ++ placed.map (fun f => (s.types.function f).qname) ∧
    placed.map (fun f => (s.types.function f).place?) = applied.reverse.map some

namespace Analysis.Stands

variable {batch : List FunId} {applied : List Span}

/-- Running code keeps where the rounds stand. -/
theorem run (h : s.Stands batch applied) (hrun : Run code s t) : t.Stands batch applied := by
  have haccounts := Accounts.run hrun
  refine ⟨hrun.stacks.running.trans h.idle, fun f place hf => ?_, fun f place hf => ?_, fun place hplace => ?_⟩
  · refine (haccounts.outlives f).called_iff ?_
    rcases haccounts.place?_cases hf with hs | ⟨hcalled, harrows⟩
    · exact h.returned f place hs
    · simp [hcalled, harrows]
  · rcases haccounts.waits f (TypeStore.lt_of_place? hf) with hcalled | hwaits | ⟨hthere, hnot⟩
    · exact .inl hcalled
    · exact .inr (.inl hwaits)
    · rcases h.reached f place ((haccounts.place? hthere).symm.trans hf) with hcalled | hwaits | hrest
      · exact .inl ((haccounts.outlives f).called hcalled)
      · exact absurd hwaits hnot
      · exact .inr (.inr hrest)
  · obtain ⟨f, hf, hcalled, harrows⟩ := h.made place hplace
    have houtlives := haccounts.outlives f
    exact ⟨f, (haccounts.place? (TypeStore.lt_of_place? hf)).trans hf, houtlives.called hcalled, houtlives.arrows harrows⟩

theorem log (h : s.Stands batch applied) (e : LogEvent) : (s.log e).Stands batch applied :=
  { h with }

/-- A function that need not be applied is passed over. -/
theorem skip (h : s.Stands (f :: batch) applied)
    (hf : ∀ place, (s.types.function f).place? = some place → (s.types.function f).called ∨ place ∈ applied) :
    s.Stands batch applied := by
  refine { h with reached := fun g place hg => ?_ }
  rcases h.reached g place hg with hcalled | hwaits | hbatch | hplace
  · exact .inl hcalled
  · exact .inr (.inl hwaits)
  · rcases mem_cons.1 hbatch with rfl | hmem
    · exact (hf place hg).imp_right fun hplace => .inr (.inr hplace)
    · exact .inr (.inr (.inl hmem))
  · exact .inr (.inr (.inr hplace))

/-- A function was applied at its place. -/
theorem apply (h : s.Stands (f :: batch) applied) (hplace : (s.types.function f).place? = some place)
    (hcalled : (s.types.function f).called) (harrows : (s.types.function f).arrows ≠ []) :
    s.Stands batch (place :: applied) := by
  have hskip := h.skip fun _ _ => .inl hcalled
  refine ⟨h.idle, h.returned, fun g place' hg => ?_, forall_mem_cons.2 ⟨⟨f, hplace, hcalled, harrows⟩, h.made⟩⟩
  rcases hskip.reached g place' hg with hg | hg | hg | hg
  · exact .inl hg
  · exact .inr (.inl hg)
  · exact .inr (.inr (.inl hg))
  · exact .inr (.inr (.inr (mem_cons_of_mem place hg)))

theorem take (h : s.Stands [] applied) : { s with uncalled := [] }.Stands s.uncalled applied := by
  refine { h with reached := fun f place hf => ?_ }
  rcases h.reached f place hf with hcalled | hwaits | hbatch | hplace
  · exact .inl hcalled
  · exact .inr (.inr (.inl hwaits))
  · contradiction
  · exact .inr (.inr (.inr hplace))

end Analysis.Stands

namespace Analysis.Says

variable {before : List String} {applied : List Span}

theorem run (h : s.Says before applied) (hrun : Run code s t) : t.Says before applied := by
  have haccounts := Accounts.run hrun
  obtain ⟨placed, hnames, hplaces⟩ := h
  have hthere : ∀ f ∈ placed, f.index < s.types.funs.size := by
    intro f hf
    have hplace : (s.types.function f).place? ∈ applied.reverse.map some := by
      rw [← hplaces]
      exact mem_map_of_mem hf
    obtain ⟨place, -, heq⟩ := mem_map.1 hplace
    exact TypeStore.lt_of_place? heq.symm
  refine ⟨placed, ?_, ?_⟩
  · rw [hrun.placeholders, hnames]
    exact congrArg _ (map_congr_left fun f hf => (haccounts.qname f (hthere f hf)).symm)
  · rw [← hplaces]
    exact map_congr_left fun f hf => haccounts.place? (hthere f hf)

/-- Before a function is applied, the record says so. -/
theorem apply (h : s.Says before applied) (hf : (s.types.function f).place? = some place) :
    (s.log (.applyingUncalled (s.types.function f).qname)).Says before (place :: applied) := by
  obtain ⟨placed, hnames, hplaces⟩ := h
  have hlogged : (s.log (.applyingUncalled (s.types.function f).qname)).placeholders =
      s.placeholders ++ [(s.types.function f).qname] := by
    simp [placeholders, Analysis.log]
  refine ⟨placed ++ [f], ?_, ?_⟩
  · rw [hlogged, hnames]
    simp [Analysis.log]
  · have hsame : placed.map (fun g => ((s.log (.applyingUncalled (s.types.function f).qname)).types.function g).place?) =
        applied.reverse.map some := hplaces
    rw [map_append, hsame]
    simpa [Analysis.log] using hf

end Analysis.Says

/-! ### Rounds -/

open Setting (partly follows_partly)

theorem Setting.Ends.discard {F : Setting} {α : Type} {m : Infer α} {P : α → Analysis → Prop} (h : F.Ends m s P) :
    F.Ends (discard m) s fun _ t => ∃ a, P a t := by
  have hbind : F.Ends (m >>= fun _ => pure ()) s fun _ t => ∃ a, P a t := h.bind fun a t ha => ⟨a, ha⟩
  rwa [← map_eq_pure_bind] at hbind

/-- A function that was never called is really applied, as nothing stops it. -/
theorem ends_apply_uncalled (depth : Nat) {d receiver args} (hs : s.Closed code)
    (hidle : s.running = []) (hbody : (s.types.function f).body = .source d)
    (hf : f.index < s.types.funs.size) (hnone : (s.types.function f).arrows = [])
    (hreceiver : OptionAll (Ty.Within s.sizes) receiver) (hargs : args.Within s.sizes) :
    (partly code s depth).Ends (Infer.apply depth f receiver args) s fun _ t =>
      (t.types.function f).called ∧ (t.types.function f).arrows ≠ [] := by
  cases depth with
  | zero => exact trivial
  | succ depth =>
    refine .get_bind ?_
    rw [hbody]
    refine .get_bind ?_
    have hunknown : (s.types.function f).arrow?
        (args.signature s.library d.params (s.types.function f).defaults receiver) = none := by
      rw [FunType.arrow?, hnone]
      rfl
    dsimp only
    rw [hunknown]
    dsimp only
    rw [if_neg (by simp [hidle])]
    have hsignature := hargs.signature hs.library d.params (hs.tables.function f).defaults hreceiver
    refine (Setting.ends_applyBody (F := partly code s depth) hs hbody hsignature (follows_partly code _ depth)).mono
      fun ret t ⟨_, ⟨u, hrun, ht⟩, _⟩ => ?_
    rw [ht]
    exact (Accounts.run hrun).called_leaveCall _ _ hf

theorem FunType.body_of_definition? {f : FunType} {d : FunctionDef} (h : f.definition? = some d) : f.body = .source d := by
  unfold FunType.definition? at h
  split at h
  · rename_i heq
    rw [heq, Option.some.inj h]
  · contradiction

theorem ends_applyPlaceholder_uncalled (depth : Nat) {d : FunctionDef} (hs : s.Closed code) (hidle : s.running = [])
    (hd : (s.types.function f).definition? = some d) (hf : f.index < s.types.funs.size)
    (hnone : (s.types.function f).arrows = []) :
    (partly code s depth).Ends (Infer.applyPlaceholder (Infer.apply depth) f d) s fun _ t =>
      Run code (s.log (.applyingUncalled (s.types.function f).qname)) t ∧
        (t.types.function f).called ∧ (t.types.function f).arrows ≠ [] := by
  have hends := Setting.ends_applyPlaceholder (F := partly code s depth) d hs hf (follows_partly code _ depth)
  refine (hends.mono fun _ _ h => h.1).and (.get_bind (.modify_bind ?_))
  let started := s.log (.applyingUncalled (s.types.function f).qname)
  have hstarted : started.Closed code := hs.log _
  have happly := ends_apply_uncalled depth hstarted hidle (FunType.body_of_definition? hd) hf hnone
    (Setting.within_placeholderReceiver? hstarted f)
    (Setting.within_placeholder d.params (Infer.placeholderReceiver? (s.types.function f)).isSome)
  exact (Setting.Ends.discard happly).mono fun _ t ⟨_, ht⟩ => ht

variable {batch : List FunId} {applied : List Span} {before : List String}

theorem ends_applyBatch (depth : Nat) (hs : s.Closed code) (hstands : s.Stands batch applied)
    (hnoted : s.Says before applied) (hnodup : applied.Nodup) :
    (partly code s depth).Ends (Infer.applyBatch (Infer.apply depth) batch applied) s fun applied' t =>
      t.Closed code ∧ t.Stands [] applied' ∧ t.Says before applied' ∧ applied'.Nodup := by
  induction batch generalizing s applied with
  | nil => exact ⟨hs, hstands, hnoted, hnodup⟩
  | cons f more ih =>
    refine .get_bind ?_
    dsimp only
    split
    · rename_i hnone
      exact ih hs (hstands.skip fun place hplace => by simp [FunType.place?, hnone] at hplace) hnoted hnodup
    · rename_i d hd
      have hplace : (s.types.function f).place? = some d.span.plain := by rw [FunType.place?, hd]; rfl
      split
      · rename_i hskip
        rw [Bool.or_eq_true, contains_iff_mem] at hskip
        refine ih hs (hstands.skip fun place hf => ?_) hnoted hnodup
        rwa [← Option.some.inj (hplace.symm.trans hf)]
      · rename_i hskip
        rw [Bool.or_eq_true, contains_iff_mem, not_or, Bool.not_eq_true] at hskip
        have hnone : (s.types.function f).arrows = [] := by
          by_contra harrows
          have hcalled := (hstands.returned f _ hplace).2 harrows
          simp [hskip.1] at hcalled
        have hf := TypeStore.lt_of_place? hplace
        refine (ends_applyPlaceholder_uncalled depth hs hstands.idle hd hf hnone).bind fun _ t ⟨hrun, hcalled, harrows⟩ => ?_
        have hplace' := ((Accounts.run hrun).place? hf).trans hplace
        have hstands' := ((hstands.log _).run hrun).apply hplace' hcalled harrows
        exact ih (hrun.closed (hs.log _)) hstands' ((hnoted.apply hplace).run hrun) (nodup_cons.2 ⟨hskip.2, hnodup⟩)

theorem ends_applyUncalled (depth rounds pass : Nat) (hs : s.Closed code) (hstands : s.Stands [] applied)
    (hnoted : s.Says before applied) (hnodup : applied.Nodup) :
    (partly code s depth).Ends (Infer.applyUncalled (Infer.apply depth) rounds pass applied) s fun _ t =>
      t.uncalled = [] ∧ ∃ applied', t.Stands [] applied' ∧ t.Says before applied' ∧ applied'.Nodup := by
  induction rounds generalizing s pass applied with
  | zero => exact trivial
  | succ rounds ih =>
    refine .get_bind ?_
    dsimp only
    split
    · rename_i hnone
      exact ⟨List.isEmpty_iff.1 hnone, applied, hstands, hnoted, hnodup⟩
    · let taken : Analysis := { s with uncalled := [] }
      have htaken : taken.Closed code := Work.takeUncalled.closed hs
      have hstart : Run code taken (taken.log (.uncalledPass pass s.uncalled.length)) := .step (.log _ rfl)
      have hnoted' : taken.Says before applied := hnoted
      refine .modify_bind (.modify_bind ?_)
      have hbatch := ends_applyBatch depth (hstart.closed htaken) (hstands.take.log _) (hnoted'.run hstart) hnodup
      refine Setting.Ends.bind hbatch fun applied' t ⟨ht, hstands', hnoted', hnodup'⟩ => ?_
      exact ih _ ht hstands' hnoted' hnodup'

/-! ### Whole analyses -/

theorem Analysis.stands_fresh (work : Workspace) (config : Config) : (Analysis.fresh work config).Stands [] [] := by
  have hnative : ∀ f place, ((Analysis.fresh work config).types.function f).place? ≠ some place := by
    intro f place hplace
    obtain ⟨d, hd, -⟩ := Option.map_eq_some_iff.1 hplace
    exact Analysis.native_fresh work config f d (FunType.body_of_definition? hd)
  have hidle : (Analysis.fresh work config).running = [] := by rw [Analysis.fresh_eq]
  exact ⟨hidle, fun f place hf => absurd hf (hnative f place), fun f place hf => absurd hf (hnative f place),
    forall_mem_nil _⟩

theorem Projects.stands (h : Projects code s t) (hs : s.Stands [] []) : t.Stands [] [] := by
  induction h with
  | none s => exact hs
  | @next s t u root run rest ih =>
    have hnamed : (s.named root).Stands [] [] := { hs with }
    exact ih (hnamed.run run)

/-- After loading projects and ending the analysis, no function waits, and at the place of each
definition that was executed some function was called and returned. Functions that no call reached
are applied at most once for each place. -/
theorem every_definition_is_applied {work : Workspace} {config : Config} {s t u : Analysis} {roots : List Path}
    {depth : Nat} (hstart : Analysis.start work config = .ok s)
    (hload : (roots.forM (Infer.analyze · depth)).run s = some ((), t))
    (hfinish : (Infer.finish depth).run t = some ((), u)) :
    u.uncalled = [] ∧
    (∀ f place, (u.types.function f).place? = some place → ∃ g, (u.types.function g).place? = some place ∧
      (u.types.function g).called ∧ (u.types.function g).arrows ≠ []) ∧
    ∃ (placed : List FunId) (places : List Span),
      u.placeholders = t.placeholders ++ placed.map (fun f => (u.types.function f).qname) ∧
      placed.map (fun f => (u.types.function f).place?) = places.map some ∧ places.Nodup := by
  have hs := Analysis.closed_all hstart
  obtain ⟨w, heq, -⟩ := Analysis.start_cases hstart
  have hstands : s.Stands [] [] := by
    rw [heq]
    exact Analysis.stands_fresh w config
  have hopen : s.finished = false := by rw [heq, Analysis.fresh_eq]
  have hprojects := projects_of_roots hs hload
  have ht := hprojects.work.closed hs
  have hopen := hprojects.settings.1.trans hopen
  have hstands := hprojects.stands hstands
  have hfinishing : t.finishing.Closed .all := work_finishing.closed ht
  have hstands : t.finishing.Stands [] [] := ⟨hstands.idle, hstands.returned, hstands.reached, hstands.made⟩
  have hnoted : t.finishing.Says t.placeholders [] := ⟨[], by simp [Analysis.finishing, Analysis.placeholders, Analysis.log], rfl⟩
  have hrounds := ends_applyUncalled depth depth 1 hfinishing hstands hnoted List.nodup_nil
  obtain ⟨v, ⟨huncalled, applied, hstands, ⟨placed, hnames, hplaces⟩, hnodup⟩, rfl⟩ := (ends_finish hopen hrounds).of_run hfinish
  obtain ⟨problems, stats, heq⟩ := v.concluded_eq
  have htypes : v.concluded.types = v.types := by rw [heq]; rfl
  have hplaceholders : v.concluded.placeholders = v.placeholders := by
    rw [heq]
    simp [Analysis.placeholders, Analysis.log]
  rw [htypes, hplaceholders]
  refine ⟨by rw [heq]; exact huncalled, fun f place hf => ?_, placed, applied.reverse, hnames, hplaces, ?_⟩
  · rcases hstands.reached f place hf with hcalled | hwaits | hbatch | hplace
    · exact ⟨f, hf, hcalled, (hstands.returned f place hf).1 hcalled⟩
    · simp [huncalled] at hwaits
    · contradiction
    · exact hstands.made place hplace
  · exact List.nodup_reverse.2 hnodup

/-- Functions within functions, a method, and a default that is a function, none of them called. -/
def Workspace.uncalledNests : Workspace where
  files := ({} : FileTree).addFile ⟨"/p/main.py"⟩
    "def f(a=lambda: 1):\n    def g():\n        return lambda x: x\n    return g\nclass C:\n    def m(self):\n        return f\n"

theorem every_definition_is_applied_uncalledNests : ∃ depth s t u,
    Analysis.start Workspace.uncalledNests .hermetic = .ok s ∧
    ([⟨"/p"⟩].forM (Infer.analyze · depth)).run s = some ((), t) ∧ (Infer.finish depth).run t = some ((), u) ∧
    u.uncalled = [] ∧
    ∀ f place, (u.types.function f).place? = some place → ∃ g, (u.types.function g).place? = some place ∧
      (u.types.function g).called ∧ (u.types.function g).arrows ≠ [] := by
  have hbuilt : Workspace.uncalledNests.files.Built := .addFile (.empty rfl rfl rfl) _ _
  have hstart := Analysis.start_hermetic Workspace.uncalledNests
  obtain ⟨depth, t, u, hanalyze, hfinish⟩ := exists_analysis hbuilt hstart ⟨"/p"⟩
  have hload : ([⟨"/p"⟩].forM (Infer.analyze · depth)).run
      (Analysis.fresh { Workspace.uncalledNests with cache := {} } .hermetic) = some ((), t) := by
    simpa using hanalyze
  obtain ⟨huncalled, hcovered, -⟩ := every_definition_is_applied hstart hload hfinish
  exact ⟨depth, _, t, u, hstart, hload, hfinish, huncalled, hcovered⟩

end TypeInfer
