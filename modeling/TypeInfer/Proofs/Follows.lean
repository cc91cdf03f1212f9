/-
Pieces of inference are runs. An action is judged in a `Setting`: the code that may be run, the
state from which the calls at hand were made, and what it means that the depth ran out. With
`stuck` false an action that follows its setting ends. What it does has a history, and is done
again by calls that watch the ones at hand (`Retraces`).
-/
import TypeInfer.Proofs.History
import TypeInfer.Proofs.OperatorTypes

namespace TypeInfer

open List

variable {z : Sizes} {op : Operator}

/-! ### What is read from a closed state -/

theorem firstSomeM_some {σ α β : Type} {search : α → StateM σ (Option β)} {l : List α} {v : σ} {b : β}
    (h : ((firstSomeM search l).run v).run.1 = some b) : ∃ a ∈ l, ∃ u, ((search a).run u).run.1 = some b := by
  induction l generalizing v with
  | nil => simp [firstSomeM] at h
  | cons a l ih =>
    rw [firstSomeM, StateT.run_bind, Id.run_bind] at h
    cases ha : ((search a).run v).run.1 with
    | some b' =>
      rw [ha] at h
      exact ⟨a, mem_cons_self, v, ha.trans h⟩
    | none =>
      rw [ha] at h
      obtain ⟨a', ha', u, hu⟩ := ih h
      exact ⟨a', mem_cons_of_mem a ha', u, hu⟩

namespace Analysis.Closed

variable {code : Code} {s : Analysis}

section

variable (h : s.Closed code)
include h

theorem searchClass {name : String} {depth : Nat} {c : ClassId} {visited : List ClassId} {ids : List BindingId}
    (hids : ((s.searchClass name depth c).run visited).run.1 = some ids) :
    ∀ b ∈ ids, b.index < s.scopes.bindings.size := by
  induction depth generalizing c visited with
  | zero => simp [Analysis.searchClass] at hids
  | succ depth ih =>
    simp only [Analysis.searchClass, StateT.run_bind, StateT.run_get, pure_bind] at hids
    split at hids
    · simp at hids
    · simp only [StateT.run_bind, StateT.run_modify, pure_bind] at hids
      split at hids
      · rename_i found hlocal
        obtain rfl : found = ids := by simpa using hids
        exact h.tables.lookupLocal hlocal
      · obtain ⟨_, -, _, hparent⟩ := firstSomeM_some hids
        exact ih hparent

/-- The bindings of an attribute are in the tables. -/
theorem attributeBindings {a name ids} (hids : s.attributeBindings a name = some ids) :
    ∀ b ∈ ids, b.index < s.scopes.bindings.size := by
  cases a with
  | module m => exact h.tables.lookupLocal hids
  | cls c => exact h.searchClass hids
  | inst c => exact h.searchClass hids
  | prim p => exact h.searchClass hids
  | function f => simp [Analysis.attributeBindings] at hids

theorem attributeScope? {a scope} (hscope : s.attributeScope? a = some scope) : scope.index < s.scopes.scopes.size := by
  rcases attributeScope?_cases hscope with ⟨c, -, rfl⟩ | ⟨m, -, rfl⟩
  · exact (h.tables.cls c).scope
  · exact h.tables.module m

/-- The function that a binding holds is in the tables. -/
theorem boundFunction? {b f} (hf : s.boundFunction? b = some f) : f.index < s.types.funs.size :=
  (h.tables.binding b).function hf

theorem definition {f d} (hd : (s.types.function f).definition? = some d) : code.Has (.function d) := by
  refine h.sited.source f d ?_
  unfold FunType.definition? at hd
  split at hd
  · rename_i hbody
    rw [hbody, Option.some.inj hd]
  · contradiction

/-- The receiver that a function gets is in the tables. -/
theorem receiver? (f : FunId) {found} (hfound : OptionAll (Atom.Within s.sizes) found) :
    OptionAll (Atom.Within s.sizes) ((s.types.function f).receiver? found) := by
  have howner := (h.tables.function f).owner
  unfold FunType.receiver?
  split
  · exact optionAll_none
  · exact optionAll_none
  · exact optionAll_some.2 (hfound (.inst _) rfl)
  · exact optionAll_some.2 (hfound (.cls _) rfl)
  · rename_i hsome _ _ _
    exact optionAll_some.2 (howner _ hsome)
  · exact optionAll_none
  · exact hfound

end

end Analysis.Closed

/-! ### Types that operators give -/

/-- The arguments of a call are types of the tables. -/
structure CallArgs.Within (z : Sizes) (args : CallArgs) : Prop where
  positional : ∀ t ∈ args.positional, t.Within z
  keywords : ∀ k ∈ args.keywords, k.2.Within z

theorem CallArgs.Within.mono {y z : Sizes} {args : CallArgs} (h : args.Within y) (hz : y ≤ z) : args.Within z :=
  ⟨fun t ht => (h.positional t ht).mono hz, fun k hk => (h.keywords k hk).mono hz⟩

@[simp] theorem CallArgs.within_empty : ({} : CallArgs).Within z := ⟨nofun, nofun⟩

theorem Library.within_elementType (l : Library) (t : Ty) : (l.elementType t).Within z := by
  refine Ty.within_ofAtoms fun a ha => ?_
  obtain ⟨b, -, hb⟩ := mem_filterMap.1 ha
  split at hb
  · exact Option.some.inj hb ▸ trivial
  · exact Option.some.inj hb ▸ trivial
  · split at hb
    · exact Option.some.inj hb ▸ trivial
    · contradiction
  · contradiction

theorem Atom.within_binary? {a b r : Atom} (ha : a.Within z) (hb : b.Within z)
    (h : a.binary? op b = some r) : r.Within z := by
  unfold Atom.binary? at h
  split at h
  · obtain ⟨p, -, rfl⟩ := Option.map_eq_some_iff.1 h
    trivial
  · split at h
    · exact Option.some.inj h ▸ ha
    · contradiction
  · split at h
    · exact Option.some.inj h ▸ ha
    · contradiction
  · split at h
    · exact Option.some.inj h ▸ hb
    · contradiction
  · contradiction

theorem Ty.Within.binary {t u : Ty} (ht : t.Within z) (hu : u.Within z) :
    (Ty.binary op t u).Within z := by
  intro a ha
  obtain ⟨-, x, hx, y, hy, he⟩ := Ty.mem_atoms_overPairs.1 ha
  exact Atom.within_binary? (ht x hx) (hu y hy) he

theorem Ty.within_unary (op : UnaryOperator) (t : Ty) : (Ty.unary op t).Within z := by
  unfold Ty.unary
  split
  · exact Ty.within_prim
  · refine Ty.within_ofAtoms fun a ha => ?_
    obtain ⟨b, -, hb⟩ := mem_filterMap.1 ha
    unfold Atom.unary? at hb
    split at hb
    · exact Option.some.inj hb ▸ trivial
    · exact Option.some.inj hb ▸ trivial
    · split at hb
      · contradiction
      · exact Option.some.inj hb ▸ trivial
    · split at hb
      · contradiction
      · exact Option.some.inj hb ▸ trivial
    · contradiction

theorem Infer.within_caughtInstances {t} (ht : t.Within z) :
    (Infer.caughtInstances t).Within z := by
  refine Ty.within_ofAtoms fun a ha => ?_
  obtain ⟨c, hc, rfl⟩ := mem_map.1 ha
  obtain ⟨b, hb, he⟩ := mem_filterMap.1 hc
  split at he
  · obtain rfl := Option.some.inj he
    exact ht (.cls _) hb
  · contradiction

/-- Calls to be compared with the ones at hand. There may be several, each for what happens in some code. -/
structure Watchers where
  Index : Type
  code : Index → Code
  calls : Index → Calls

namespace Watchers

variable {α : Type} {s t : Analysis} {l : List Mark}

/-- What was done has a history, and the watchers whose code has it come to the same result. -/
def Retraces (W : Watchers) (l : List Mark) (m : Calls → Infer α) (s : Analysis) (a : α) (t : Analysis) : Prop :=
  ∃ e, History l e s t ∧ ∀ i, InCode (W.code i) l e s → (m (W.calls i)).run s = some (a, t)

namespace Retraces

variable {β : Type} {W : Watchers} {u : Analysis} {l' : List Mark} {m : Calls → Infer α} {f : α → Calls → Infer β}
  {a : α} {b : β}

theorem of_run {m : Infer α} {e : List Event} (hrun : m.run s = some (a, t)) (h : History l e s t) :
    W.Retraces l (fun _ => m) s a t :=
  ⟨e, h, fun _ _ => hrun⟩

theorem aside {m : Infer α} (hrun : m.run s = some (a, t)) (h : SameRecords s t) : W.Retraces [] (fun _ => m) s a t :=
  of_run hrun (.aside h)

theorem bind (hm : W.Retraces l m s a t) (hf : W.Retraces l' (f a) t b u) :
    W.Retraces (l ++ l') (fun c => m c >>= fun a => f a c) s b u := by
  obtain ⟨e, he, hsame⟩ := hm
  obtain ⟨e', he', hsame'⟩ := hf
  refine ⟨e ++ e', he.trans he', fun i hin => ?_⟩
  rw [StateT.run_bind, hsame i hin.first]
  exact hsame' i (hin.rest he)

/-- An action that comes down to another one, from a state with the same records. -/
theorem comes_down {m' : Calls → Infer α} (h : W.Retraces l m t a u) (same : SameRecords s t)
    (heq : ∀ c, (m' c).run s = (m c).run t) : W.Retraces l m' s a u := by
  obtain ⟨e, he, hsame⟩ := h
  have haside : History [] [] s t := .aside same
  refine ⟨[] ++ e, haside.trans he, fun i hin => ?_⟩
  rw [heq]
  exact hsame i (InCode.rest (l := []) hin haside)

end Retraces

end Watchers

/-- Where an action is run. -/
structure Setting where
  code : Code
  /-- What may be said when the depth has run out. -/
  stuck : Prop
  /-- The state that the innermost application or load started from. -/
  base : Analysis
  calls : Calls
  watchers : Watchers

namespace Setting

variable {F : Setting} {α β : Type} {s t u : Analysis} {l l' : List Mark} {P Q : α → Analysis → Prop}
  {ty : Ty} {file : Path}

section

variable {m : Infer α}

/-- The action ends as said, unless it gets stuck. -/
def Ends (F : Setting) (m : Infer α) (s : Analysis) (P : α → Analysis → Prop) : Prop :=
  match m.run s with
  | none => F.stuck
  | some (a, t) => P a t

theorem Ends.mono (h : F.Ends m s P) (hQ : ∀ a t, P a t → Q a t) : F.Ends m s Q := by
  unfold Ends at h ⊢
  cases hrun : m.run s with
  | none => simpa [hrun] using h
  | some r =>
    rw [hrun] at h
    exact hQ _ _ h

theorem Ends.and (h : F.Ends m s P) (h' : F.Ends m s Q) : F.Ends m s fun a t => P a t ∧ Q a t := by
  unfold Ends at h h' ⊢
  cases hrun : m.run s with
  | none => simpa [hrun] using h
  | some r =>
    rw [hrun] at h h'
    exact ⟨h, h'⟩

theorem Ends.bind {f : α → Infer β} {R : β → Analysis → Prop} (hm : F.Ends m s P)
    (hf : ∀ a t, P a t → F.Ends (f a) t R) : F.Ends (m >>= f) s R := by
  unfold Ends at hm ⊢
  rw [StateT.run_bind]
  cases hrun : m.run s with
  | none => simpa [hrun] using hm
  | some r =>
    rw [hrun] at hm
    exact hf r.1 r.2 hm

theorem Ends.of_run {a} (h : F.Ends m s P) (hrun : m.run s = some (a, t)) : P a t := by
  unfold Ends at h
  rwa [hrun] at h

theorem Ends.of_eq {a} (hrun : m.run s = some (a, t)) (h : P a t) : F.Ends m s P := by
  unfold Ends
  rw [hrun]
  exact h

end

/-- From a closed state the action is a run with a result as said, unless it gets stuck. It meets the marks. -/
def Sat (F : Setting) (l : List Mark) (m : Calls → Infer α) (s : Analysis) (Q : α → Analysis → Prop) : Prop :=
  s.Closed F.code → Run F.code F.base s →
    F.Ends (m F.calls) s fun a t => Run F.code s t ∧ Q a t ∧ F.watchers.Retraces l m s a t

/-- The action is a run. -/
def Runs (F : Setting) (l : List Mark) (m : Calls → Infer α) (s : Analysis) : Prop := F.Sat l m s fun _ _ => True

/-- The action is a run that gives a type of the state it ends in. -/
def Gives (F : Setting) (l : List Mark) (m : Calls → Infer Ty) (s : Analysis) : Prop :=
  F.Sat l m s fun ty t => ty.Within t.sizes

namespace Sat

variable {R : β → Analysis → Prop} {m : Calls → Infer α} {f : α → Calls → Infer β}

theorem of_closed (h : s.Closed F.code → F.Sat l m s Q) : F.Sat l m s Q := fun hs => h hs hs

theorem mono (h : F.Sat l m s P) (hQ : ∀ a t, Run F.code s t → P a t → Q a t) : F.Sat l m s Q :=
  fun hs hbase => (h hs hbase).mono fun a t ⟨hrun, ha, hback⟩ => ⟨hrun, hQ a t hrun ha, hback⟩

theorem pure {a} (h : Q a s) : F.Sat [] (fun _ => Pure.pure a) s Q :=
  fun _ _ => ⟨.refl s, h, .aside rfl (.refl s)⟩

theorem append (hm : F.Sat l m s Q) (hf : ∀ a t, Run F.code s t → Q a t → F.Sat l' (f a) t R) :
    F.Sat (l ++ l') (fun c => m c >>= fun a => f a c) s R := by
  intro hs hbase
  refine (hm hs hbase).bind fun a t ⟨hrun, ha, hback⟩ => ?_
  refine (hf a t hrun ha (hrun.closed hs) (hbase.trans hrun)).mono fun b u ⟨hrun', hb, hback'⟩ => ?_
  exact ⟨hrun.trans hrun', hb, hback.bind hback'⟩

/-- No marks are met in the first part. -/
theorem bind (hm : F.Sat [] m s Q) (hf : ∀ a t, Run F.code s t → Q a t → F.Sat l (f a) t R) :
    F.Sat l (fun c => m c >>= fun a => f a c) s R :=
  hm.append hf

/-- No marks are met in the last part. -/
theorem first (hm : F.Sat l m s Q) (hf : ∀ a t, Run F.code s t → Q a t → F.Sat [] (f a) t R) :
    F.Sat l (fun c => m c >>= fun a => f a c) s R := by
  have h := hm.append hf
  rwa [append_nil] at h

theorem discard (hm : F.Sat l m s Q) : F.Runs l (fun c => discard (m c)) s :=
  hm.first fun _ _ _ _ => .pure trivial

theorem get_bind {f : Analysis → Calls → Infer β} (h : F.Sat l (f s) s R) :
    F.Sat l (fun c => get >>= fun s => f s c) s R := h

theorem modifyGet {g : Analysis → α × Analysis} {e} (hg : s.Closed F.code → Step F.code s (g s).2)
    (hQ : s.Closed F.code → Q (g s).1 (g s).2) (he : History l e s (g s).2) : F.Sat l (fun _ => modifyGet g) s Q :=
  fun hs _ => ⟨.step (hg hs), hQ hs, .of_run rfl he⟩

end Sat

theorem runs_modify {g : Analysis → Analysis} (hg : s.Closed F.code → Step F.code s (g s)) (hsame : SameRecords s (g s)) :
    F.Runs [] (fun _ => modify g) s :=
  fun hs _ => ⟨.step (hg hs), trivial, .aside rfl hsame⟩

theorem runs_forM {as : List α} {f : α → Calls → Infer Unit} (h : ∀ a ∈ as, ∀ t, Run F.code s t → F.Runs [] (f a) t) :
    F.Runs [] (fun c => as.forM fun a => f a c) s := by
  induction as generalizing s with
  | nil => exact .pure trivial
  | cons a as ih =>
    refine (h a mem_cons_self s (.refl s)).bind fun _ t hrun _ => ?_
    exact ih fun b hb u hu => h b (mem_cons_of_mem a hb) u (hrun.trans hu)

/-! ### Single steps -/

theorem runs_log {e} (he : e.entersCode = false) : F.Runs [] (fun _ => Infer.log e) s :=
  runs_modify (fun _ => .log e he) (.log s e)

theorem runs_addReferences (node : Span) {ids} (hids : ∀ b ∈ ids, b.index < s.scopes.bindings.size) :
    F.Runs [] (fun _ => Infer.addReferences node ids) s :=
  runs_modify (fun _ => .refer node hids) (.addReferences s node ids)

theorem runs_report {error} (message : String) (span : Span) (hlocal : Diagnostic.Code.isFinal error = false)
    (hd : F.code.AssignsRightly → error ≠ Diagnostic.Code.malformedNode) :
    F.Runs [.problem error span] (fun _ => Infer.report (Diagnostic.error error message span)) s :=
  fun _ _ => ⟨.step (.report _ hlocal hd), trivial, .of_run rfl (.report error message span)⟩

/-- There is no problem where one may be. -/
theorem runs_skip (error : String) (span : Span) : F.Runs [.problem error span] (fun _ => pure ()) s :=
  fun _ _ => ⟨.refl s, trivial, .of_run rfl (.pass error span)⟩

theorem runs_addReturn (hty : ty.Within s.sizes) : F.Runs [] (fun _ => Infer.addReturn ty) s := by
  refine runs_modify (fun _ => .addReturn hty) ?_
  unfold Analysis.addReturn
  split
  · exact .refl s
  · exact { SameRecords.refl s with }

theorem sat_bindIn {scope} (name : Ident) {ty} (kind : BindingKind)
    (hscope : scope.index < s.scopes.scopes.size) (hty : ty.Within s.sizes) :
    F.Sat [] (fun _ => Infer.bindIn scope name ty kind) s fun b t => b.index < t.scopes.bindings.size :=
  .modifyGet (fun _ => .bind name.name name.span kind hscope hty) (fun hs => hs.bind_id name.name name.span kind hty)
    (.aside (.bind s scope name.name name.span ty kind))

theorem runs_bindName {scope : ScopeId} (name : Ident) {ty : Ty} (kind : BindingKind)
    (hscope : scope.index < s.scopes.scopes.size) (hty : ty.Within s.sizes) :
    F.Runs [] (fun _ => Infer.bindName scope name ty kind) s :=
  .of_closed fun hs => .get_bind (sat_bindIn name kind (hs.tables.targetScope name.name hscope) hty).discard

theorem sat_newScope (kind : ScopeKind) {parent} (path : String)
    (hparent : parent.index < s.scopes.scopes.size) :
    F.Sat [] (fun _ => Infer.newScope kind parent path) s fun id t => id.index < t.scopes.scopes.size :=
  .modifyGet (fun _ => .newScope kind path hparent) (fun _ => by simp [Analysis.newScope, ScopeTable.newScope])
    (.aside (.scopes s s.references _))

theorem gives_lookupName (name : String) (site : Span) (scope : ScopeId) :
    F.Gives [.read site name] (fun _ => Infer.lookupName name site scope) s := by
  intro hs _
  cases hlookup : s.scopes.lookup scope name with
  | none =>
    have hrun : (Infer.lookupName name site scope).run s = some (.unknown, s.addUnresolved site name) := by
      simp [Infer.lookupName, hlookup]
    exact .of_eq hrun ⟨.step (.addUnresolved site name), Ty.within_unknown, .of_run hrun (.missed site hlookup)⟩
  | some ids =>
    let found := (s.addReferences site ids).addResolved site
    have hrun : (Infer.lookupName name site scope).run s = some (found.scopes.typeOf ids, found) := by
      simp [Infer.lookupName, hlookup, Infer.addReferences, found]
    have hfound : Run F.code s found := .trans (.step (.refer site (hs.tables.lookup hlookup))) (.step (.addResolved site))
    exact .of_eq hrun ⟨hfound, (hfound.closed hs).tables.typeOf ids, .of_run hrun (.found site hlookup)⟩

theorem runs_setAttribute (receiver : Ty) (attr : Ident) {value : Ty} (hvalue : value.Within s.sizes) :
    F.Runs [] (fun _ => Infer.setAttribute receiver attr value) s := by
  refine runs_forM fun a _ t hrun => .of_closed fun ht => .get_bind ?_
  cases hscope : t.attributeScope? a with
  | none => exact .pure trivial
  | some scope => exact (sat_bindIn attr .attribute (ht.attributeScope? hscope) (hrun.within hvalue)).discard

/-! ### Calls -/

/-- Applying a function of the state to types of the state follows the setting. -/
def Applies (F : Setting) : Prop :=
  ∀ {s : Analysis} {f : FunId} {receiver : Option Ty} {args : CallArgs}, f.index < s.types.funs.size →
    OptionAll (Ty.Within s.sizes) receiver → args.Within s.sizes → F.Gives [] (fun c => c.apply f receiver args) s

/-- The module that was loaded, if one was, is in the tables. -/
def LoadedIn (s : Analysis) (r : Loaded) : Prop := ∀ m, r = .ok m → m.index < s.types.modules.size

theorem LoadedIn.of_answers {r} (h : s.Answers file r) : LoadedIn s r := by
  rintro m rfl
  exact h.1

/-- From a closed state the action is a run that answers a request for a file, unless it gets stuck. It has a
history if this is a source file. -/
def Loading (F : Setting) (path : Path) (m : Calls → Infer Loaded) (s : Analysis) : Prop :=
  s.Closed F.code → Run F.code F.base s →
    F.Ends (m F.calls) s fun r t => Run F.code s t ∧ t.Answers (t.files.fullPath path) r ∧
      ∃ e, (path.isSourceFile → History [] e s t) ∧ ∀ i, InCode (F.watchers.code i) [] e s →
        DefinedIn (F.watchers.code i) t.types ∧ (m (F.watchers.calls i)).run s = some (r, t)

theorem Sat.loading {path m} (h : F.Sat [] m s fun r t => t.Answers (t.files.fullPath path) r) : F.Loading path m s := by
  intro hs hbase
  refine (h hs hbase).mono fun _ _ ⟨hrun, hr, e, he, hsame⟩ => ?_
  exact ⟨hrun, hr, e, fun _ => he, fun i hin => ⟨hin.after he, hsame i hin⟩⟩

theorem Loading.get_bind {path} {f : Analysis → Calls → Infer Loaded} (h : F.Loading path (f s) s) :
    F.Loading path (fun c => get >>= fun s => f s c) s := h

/-- Loading a file of the code follows the setting. -/
def Loads (F : Setting) : Prop :=
  ∀ {s : Analysis} {path : Path}, F.code.Reads path → F.Loading path (fun c => c.load path) s

theorem Loads.source (h : F.Loads) {path} (hsource : path.isSourceFile) :
    F.Sat [] (fun c => c.load path) s fun r t => t.Answers (t.files.fullPath path) r := by
  intro hs hbase
  refine (h (.inl hsource) hs hbase).mono fun r t ⟨hrun, hr, e, he, hsame⟩ => ?_
  exact ⟨hrun, hr, e, he hsource, fun i hin => (hsame i hin).2⟩

theorem Loads.module (h : F.Loads) {path} (hsource : path.isSourceFile) :
    F.Sat [] (fun c => c.load path) s fun r t => LoadedIn t r :=
  (h.source hsource).mono fun _ _ _ hr => .of_answers hr

/-! ### Imports -/

theorem runs_importFailed (failure : LoadFailure) (name : String) (span : Span) :
    F.Runs [.problem Diagnostic.Code.moduleNotFound span] (fun _ => Infer.importFailed failure name span) s := by
  unfold Infer.importFailed
  split
  · have hcode : Diagnostic.Code.moduleNotFound ≠ Diagnostic.Code.malformedNode := by decide
    have hlocal : Diagnostic.Code.isFinal Diagnostic.Code.moduleNotFound = false := by decide
    exact runs_report _ span hlocal fun _ => hcode
  · exact runs_skip _ span

theorem runs_bindSegment {scope} (name : Ident) (node : Span) {m}
    (hscope : OptionAll (·.index < s.scopes.scopes.size) scope)
    (hm : m.index < s.types.modules.size) : F.Runs [] (fun _ => Infer.bindSegment scope name node m) s := by
  cases scope with
  | none => exact .pure trivial
  | some scope =>
    refine (sat_bindIn _ .module (hscope scope rfl) (Ty.within_module.2 hm)).bind fun b t _ hb => ?_
    exact runs_addReferences name.span (by simpa using hb)

theorem sat_loadLibrary (first : Ident) {id scope}
    (hscope : OptionAll (·.index < s.scopes.scopes.size) scope)
    (hid : id.index < s.types.modules.size) :
    F.Sat [] (fun _ => Infer.loadLibrary first id scope) s fun r t => LoadedIn t r := by
  refine .of_closed fun hs => .get_bind ?_
  have htop : ((s.library.module? first.name).getD id).index < s.types.modules.size := by
    cases hmodule : s.library.module? first.name with
    | none => exact hid
    | some m => exact hs.library.modules _ (mem_of_lookup hmodule)
  refine (runs_bindSegment first _ hscope htop).bind fun _ t hrun _ => .pure ?_
  rintro m ⟨⟩
  exact hrun.module hid

theorem isSourceFile_segment {path file name isLast} (h : s.segment path name isLast = .file file) :
    file.isSourceFile := by
  unfold Analysis.segment at h
  split at h
  · exact Analysis.Segment.file.inj h ▸ path.isSourceFile_initFile
  · split at h
    · dsimp only at h
      split at h
      · exact Analysis.Segment.file.inj h ▸ path.isSourceFile_withFileName (Path.isSourceFile_name name)
      · contradiction
    · split at h <;> contradiction

theorem segmentScope? (hs : s.Closed F.code) (before : Option ModuleId) {scope}
    (hscope : OptionAll (·.index < s.scopes.scopes.size) scope) :
    OptionAll (·.index < s.scopes.scopes.size) (s.segmentScope? before scope) := by
  cases before with
  | none => exact hscope
  | some parent => exact optionAll_some.2 (hs.tables.module parent)

section

variable (hload : F.Loads) {scope : ScopeId}

include hload

theorem sat_loadSegments {scope} (hscope : OptionAll (·.index < s.scopes.scopes.size) scope) :
    ∀ (names : List Ident) (dir : Path) {before : Option ModuleId},
      OptionAll (·.index < s.types.modules.size) before →
      F.Sat [] (fun c => Infer.loadSegments c.load scope names dir before) s fun r t => LoadedIn t r := by
  intro names
  induction names generalizing s with
  | nil =>
    intro dir before hbefore
    cases before with
    | none => exact .pure nofun
    | some m => exact .pure fun m' he => Except.ok.inj he ▸ hbefore m rfl
  | cons name names ih =>
    intro dir before hbefore
    simp only [Infer.loadSegments]
    refine .get_bind ?_
    split
    · exact .pure nofun
    · exact ih hscope (dir.child name.name) hbefore
    · rename_i file hsegment
      refine (hload.module (isSourceFile_segment hsegment)).bind fun r t hrun hr => ?_
      have hscope := hscope.mono fun _ => hrun.scope
      cases r with
      | error failure => exact .pure nofun
      | ok m =>
        refine .of_closed fun ht => .get_bind ?_
        refine (runs_bindSegment name name.span (segmentScope? ht before hscope) (hr m rfl)).bind fun _ u hu _ => ?_
        exact ih (hscope.mono fun _ => hu.scope) _ (optionAll_some.2 (hu.module (hr m rfl)))

theorem sat_loadModule (names : List Ident) {scope}
    (hscope : OptionAll (·.index < s.scopes.scopes.size) scope) :
    F.Sat [] (fun c => Infer.loadModule c.load names scope) s fun r t => LoadedIn t r := by
  cases names with
  | nil => exact .pure nofun
  | cons first names =>
    refine .of_closed fun hs => .get_bind ?_
    split
    · rename_i id hid
      exact sat_loadLibrary first hscope (hs.library.modules _ (mem_of_lookup hid))
    · split
      · exact sat_loadSegments hload hscope _ _ optionAll_none
      · exact .pure nofun

omit hload in
theorem runs_bindUnknown (a : Alias) (kind : BindingKind)
    (hscope : scope.index < s.scopes.scopes.size) : F.Runs [] (fun _ => Infer.bindUnknown scope a kind) s := by
  unfold Infer.bindUnknown
  split
  · exact runs_bindName _ kind hscope Ty.within_unknown
  · exact .pure trivial

/-- A module is imported without another name for it. -/
theorem runs_importPath {a} (unnamed : a.asName = none) {scope}
    (hscope : scope.index < s.scopes.scopes.size) :
    F.Runs [Mark.ofAlias a] (fun c => Infer.importModule c.load a scope) s := by
  unfold Infer.importModule
  rw [unnamed]
  refine (sat_loadModule hload a.name (optionAll_some.2 hscope)).bind fun r t hrun _ => ?_
  cases r with
  | ok m => exact runs_skip _ a.span
  | error failure =>
    refine (runs_importFailed failure a.dotted a.span).first fun _ u hu _ => ?_
    exact runs_bindUnknown a .module (hu.scope (hrun.scope hscope))

omit hload in
theorem runs_importStar (m : ModuleId) (hscope : scope.index < s.scopes.scopes.size) :
    F.Runs [] (fun _ => Infer.importStar m scope) s := by
  refine .get_bind (runs_forM fun entry _ t hrun => runs_forM fun b _ u hu => ?_)
  refine .of_closed fun hclosed => .get_bind ?_
  exact runs_bindName _ _ ((hrun.trans hu).scope hscope) (hclosed.tables.binding b)

end

end Setting

end TypeInfer
