/-
Attributes are searched depth first. A class comes after its bases (`Analysis.Ranked`), so the
order of a search without a memory is told class by class (`Ranked.lineage_eq`), and to remember
what was visited changes nothing (`Ranked.searchClass`).
-/
import TypeInfer.Proofs.EveryState

namespace TypeInfer

open List

variable {code : Code} {s t start : Analysis}

/-! ### Bases are made first -/

/-- The class that the atom names comes before the given place. -/
def Atom.namesBelow (n : Nat) : Atom → Bool
  | .cls d | .inst d => d.index < n
  | _ => true

/-- Bases come before the classes that have them, and `object` is the first class. -/
structure Analysis.Ranked (s : Analysis) : Prop where
  bases : ∀ c : ClassId, ∀ base ∈ (s.types.cls c).bases, ∀ a ∈ base.atoms, a.namesBelow c.index
  object : s.library.object.index = 0

theorem Atom.Within.namesBelow {z : Sizes} {a : Atom} (h : a.Within z) : a.namesBelow z.classes := by
  cases a with
  | cls d => exact decide_eq_true h
  | inst d => exact decide_eq_true h
  | _ => rfl

namespace Analysis.Ranked

variable {work : Workspace} {config : Config}

theorem of_classes (h : s.Ranked) (hclasses : t.types.classes = s.types.classes) (hlibrary : t.library = s.library) :
    t.Ranked := by
  refine ⟨fun c => ?_, hlibrary ▸ h.object⟩
  rw [TypeStore.cls, hclasses]
  exact h.bases c

theorem step (hstep : Step code s t) (h : s.Ranked) : t.Ranked := by
  have hlibrary := hstep.settings.library
  cases hstep with
  | @defineClass d bases scope hd hbases hscope =>
    refine ⟨fun c base hbase => ?_, h.object⟩
    have hcls : (s.defineClass d bases scope).1.types.cls c = _ := s.types.cls_addClass _ c
    rw [hcls] at hbase
    split at hbase
    · rename_i hnew
      exact fun a ha => hnew ▸ (hbases base hbase a ha).namesBelow
    · exact h.bases c base hbase
  | refer node hids =>
    obtain ⟨references, scopes, heq⟩ := s.addReferences_eq node _
    exact h.of_classes (by rw [heq]) hlibrary
  | bind name node kind hscope hty =>
    obtain ⟨references, scopes, heq⟩ := s.bind_eq _ name node _ kind
    exact h.of_classes (by rw [heq]) hlibrary
  | report d hlocal hd =>
    refine h.of_classes ?_ hlibrary
    unfold Analysis.report
    split <;> rfl
  | addReturn hty =>
    refine h.of_classes ?_ hlibrary
    unfold Analysis.addReturn
    split <;> rfl
  | _ => exact h.of_classes rfl hlibrary

theorem run (hrun : Run code s t) : s.Ranked → t.Ranked :=
  hrun.relates (R := fun s t => s.Ranked → t.Ranked) (fun _ => id) (fun ih ih' h => ih' (ih h)) step
    (fun _ _ _ _ ih h => (ih (h.of_classes rfl rfl)).of_classes rfl rfl) (fun _ _ _ _ _ h => h.of_classes rfl rfl)
    fun _ _ ih h => (ih (h.of_classes rfl rfl)).of_classes rfl rfl

theorem reachable (hs : Reachable code start s) (h : start.Ranked) : s.Ranked := by
  induction hs with
  | start => exact h
  | session before session ih =>
    exact session.relates (R := fun s t => s.Ranked → t.Ranked) (fun ih ih' h => ih' (ih h)) run
      (fun _ _ _ _ _ _ h => h.of_classes rfl rfl) ih
  | enter before enters ih =>
    cases enters with
    | loaded new opens hrun => exact (run hrun (ih.of_classes rfl rfl)).of_classes rfl rfl
    | _ => exact ih.of_classes rfl rfl
  | forget before holds ih => exact ih.of_classes rfl rfl

theorem of_library {library : Library} {d : Definitions.Draft} (hd : d.Closed)
    (hobject : library.object.index = 0) :
    Ranked { work, config, library, scopes := d.scopes, types := d.types } :=
  ⟨fun c base hbase a ha => (hd.ranked c base hbase a ha).namesBelow, hobject⟩

theorem of_start (hstart : Analysis.start work config = .ok s) : s.Ranked := by
  obtain ⟨w, heq, -⟩ := Analysis.start_cases hstart
  rw [heq, Analysis.fresh_eq]
  exact of_library Library.closed_installed.1 Library.sound_installed.2.2.2

theorem parents (h : s.Ranked) {c d} (hd : d ∈ s.parents c) : d.index < c.index := by
  unfold Analysis.parents at hd
  dsimp only at hd
  split at hd
  · split at hd
    · cases hd
    · rename_i hne
      obtain rfl := mem_singleton.1 hd
      rw [h.object]
      exact Nat.pos_of_ne_zero fun hzero => hne (congrArg ClassId.mk (hzero.trans h.object.symm))
  · obtain ⟨base, hbase, hd⟩ := mem_flatMap.1 hd
    obtain ⟨a, ha, hatom⟩ := mem_filterMap.1 hd
    have hbelow := h.bases c base hbase a ha
    split at hatom
    · obtain rfl := Option.some.inj hatom
      exact of_decide_eq_true hbelow
    · cases hatom

end Analysis.Ranked

/-! ### The order of a search -/

namespace Analysis

/-- A class and those after it, as deep as given, in a search that forgets what it visited. -/
def searchOrder (s : Analysis) : Nat → ClassId → List ClassId
  | 0, _ => []
  | depth + 1, c => c :: (s.parents c).flatMap (s.searchOrder depth)

/-- A class and those after it, depth first and from left to right. -/
def lineage (s : Analysis) (c : ClassId) : List ClassId := s.searchOrder (c.index + 1) c

/-- The bindings of a name in the first class of a lineage that has it. -/
def firstOf (s : Analysis) (name : String) (c : ClassId) : Option (List BindingId) :=
  (s.lineage c).findSome? fun d => s.scopes.lookupLocal (s.types.cls d).scope name

namespace Ranked

variable {name : String} {c : ClassId}

theorem searchOrder_eq (h : s.Ranked) {depth} (hdepth : c.index < depth) :
    s.searchOrder depth c = s.lineage c := by
  have heq : ∀ (m n : Nat) (c : ClassId), c.index < m → c.index < n → s.searchOrder m c = s.searchOrder n c := by
    intro m
    induction m with
    | zero => exact fun n c hm => absurd hm (Nat.not_lt_zero _)
    | succ m ih =>
      intro n c hm hn
      obtain ⟨n, rfl⟩ := Nat.exists_eq_add_one_of_ne_zero (Nat.ne_zero_of_lt hn)
      rw [searchOrder, searchOrder]
      refine congrArg (c :: ·) (flatMap_congr fun d hd => ?_)
      have hlt := h.parents hd
      exact ih n d (by omega) (by omega)
  exact heq _ _ c hdepth (Nat.lt_succ_self _)

theorem lineage_eq (h : s.Ranked) (c : ClassId) : s.lineage c = c :: (s.parents c).flatMap s.lineage := by
  rw [lineage, searchOrder]
  exact congrArg (c :: ·) (flatMap_congr fun d hd => h.searchOrder_eq (h.parents hd))

theorem firstOf_eq (h : s.Ranked) (name : String) (c : ClassId) : s.firstOf name c =
    (s.scopes.lookupLocal (s.types.cls c).scope name).or ((s.parents c).findSome? (s.firstOf name)) := by
  have hmore (l : List ClassId) : (l.flatMap s.lineage).findSome? (fun d => s.scopes.lookupLocal (s.types.cls d).scope name) =
      l.findSome? (s.firstOf name) := by
    induction l with
    | nil => rfl
    | cons d l ih =>
      rw [flatMap_cons, findSome?_append, ih, findSome?_cons, ← firstOf]
      cases s.firstOf name d <;> rfl
  rw [firstOf, h.lineage_eq, findSome?_cons, hmore]
  cases s.scopes.lookupLocal (s.types.cls c).scope name <;> rfl

end Ranked

/-! ### The memory of a search -/

/-- What the search finds; if nothing, all that it visited was visited before or is in vain. -/
def Finds (s : Analysis) (name : String) (search : StateM (List ClassId) (Option (List BindingId)))
    (result : Option (List BindingId)) (visited : List ClassId) : Prop :=
  (search.run visited).run.1 = result ∧
    (result = none → ∀ d ∈ (search.run visited).run.2, d ∈ visited ∨ s.firstOf name d = none)

namespace Ranked

variable {name : String} {c : ClassId}

/-- What was visited and comes before a class was searched in vain, so to pass it over is right. -/
theorem finds (h : s.Ranked) {depth} (hdepth : c.index < depth) {visited}
    (hvisited : ∀ d ∈ visited, d.index ≤ c.index → s.firstOf name d = none) :
    s.Finds name (s.searchClass name depth c) (s.firstOf name c) visited := by
  induction depth generalizing c visited with
  | zero => exact absurd hdepth (Nat.not_lt_zero _)
  | succ depth ih =>
    have hparents (l : List ClassId) (hl : ∀ d ∈ l, d.index < c.index) (visited : List ClassId)
        (hvisited : ∀ d ∈ visited, d.index < c.index → s.firstOf name d = none) :
        s.Finds name (firstSomeM (s.searchClass name depth) l) (l.findSome? (s.firstOf name)) visited := by
      induction l generalizing visited with
      | nil => exact ⟨rfl, fun _ d hd => .inl hd⟩
      | cons p l ihl =>
        obtain ⟨hp, hl⟩ := forall_mem_cons.1 hl
        obtain ⟨hfound, hmore⟩ := ih (by omega) fun d hd hle => hvisited d hd (Nat.lt_of_le_of_lt hle hp)
        rw [findSome?_cons, Finds, firstSomeM, StateT.run_bind, Id.run_bind]
        cases hfirst : s.firstOf name p with
        | some ids =>
          rw [hfirst] at hfound
          rw [hfound]
          exact ⟨rfl, fun hnone => by cases hnone⟩
        | none =>
          rw [hfirst] at hfound hmore
          rw [hfound]
          have hrest := ihl hl ((s.searchClass name depth p).run visited).run.2 fun d hd hlt =>
            (hmore rfl d hd).elim (hvisited d · hlt) id
          refine ⟨hrest.1, fun hnone d hd => ?_⟩
          exact (hrest.2 hnone d hd).elim (hmore rfl d) .inr
    by_cases hc : c ∈ visited
    · have hrun : ((s.searchClass name (depth + 1) c).run visited).run = (none, visited) := by simp [searchClass, hc]
      rw [Finds, hrun, hvisited c hc (Nat.le_refl _)]
      exact ⟨rfl, fun _ d hd => .inl hd⟩
    · cases hlocal : s.scopes.lookupLocal (s.types.cls c).scope name with
      | some ids =>
        have hrun : ((s.searchClass name (depth + 1) c).run visited).run = (some ids, c :: visited) := by
          simp [searchClass, hc, hlocal]
        rw [Finds, hrun, h.firstOf_eq, hlocal]
        exact ⟨rfl, fun hnone => by cases hnone⟩
      | none =>
        have hrun : ((s.searchClass name (depth + 1) c).run visited).run =
            ((firstSomeM (s.searchClass name depth) (s.parents c)).run (c :: visited)).run := by
          simp [searchClass, hc, hlocal]
        have hresult : s.firstOf name c = (s.parents c).findSome? (s.firstOf name) := by
          rw [h.firstOf_eq, hlocal, Option.none_or]
        obtain ⟨hfound, hmore⟩ := hparents (s.parents c) (fun d => h.parents) (c :: visited) fun d hd hlt =>
          hvisited d ((mem_cons.1 hd).resolve_left fun heq => Nat.lt_irrefl _ (heq ▸ hlt)) (Nat.le_of_lt hlt)
        rw [Finds, hrun, hresult]
        refine ⟨hfound, fun hnone d hd => ?_⟩
        rcases hmore hnone d hd with hd | hd
        · rcases mem_cons.1 hd with rfl | hd
          · exact .inr (hresult.trans hnone)
          · exact .inl hd
        · exact .inr hd

end Ranked

/-- A class and those that are searched after it form one sequence, depth first, from left to right. An
attribute is what the first of them has that has the name. -/
structure SearchesDepthFirst (s : Analysis) : Prop where
  bases : ∀ c, ∀ base ∈ (s.types.cls c).bases, ∀ d, .cls d ∈ base.atoms ∨ .inst d ∈ base.atoms → d.index < c.index
  lineage : ∀ c, s.lineage c = c :: (s.parents c).flatMap s.lineage
  found : ∀ c name, c.index < s.types.classes.size → s.classAttribute c name =
    (s.lineage c).findSome? fun d => s.scopes.lookupLocal (s.types.cls d).scope name
  ends : ∀ c name, c.index < s.types.classes.size → ∀ depth, c.index < depth →
    ((s.searchClass name depth c).run []).run.1 = s.classAttribute c name

theorem Ranked.searchesDepthFirst (h : s.Ranked) : s.SearchesDepthFirst := by
  have hfinds (c : ClassId) (name : String) (depth : Nat) (hdepth : c.index < depth) :
      ((s.searchClass name depth c).run []).run.1 = s.firstOf name c :=
    (h.finds hdepth (forall_mem_nil _)).1
  refine ⟨fun c base hbase d hd => ?_, h.lineage_eq, fun c name hc => hfinds c name _ (Nat.lt_succ_of_lt hc),
    fun c name hc depth hdepth => ?_⟩
  · rcases hd with hd | hd
    · exact of_decide_eq_true (h.bases c base hbase _ hd)
    · exact of_decide_eq_true (h.bases c base hbase _ hd)
  · rw [hfinds c name depth hdepth]
    exact (hfinds c name _ (Nat.lt_succ_of_lt hc)).symm

end Analysis

/-- In every state that an analysis can be in, the bases of classes come before them, and to remember
which classes were visited makes no difference to a search. The program may be watched for this. -/
theorem attributes_are_found_depth_first {work : Workspace} {config : Config} {s t : Analysis} {demands : List Demand}
    {depth : Nat} (hstart : Analysis.start work config = .ok s)
    (hrun : (demands.forM (Demand.run ⟨Infer.apply depth, Infer.load depth⟩ depth)).run s = some ((), t)) :
    (∀ u, Reachable .all s u → u.SearchesDepthFirst) ∧ t.SearchesDepthFirst ∧
    (demands.forM fun demand => Infer.watched Analysis.SearchesDepthFirst
      (demand.run (Infer.guardedCalls Analysis.SearchesDepthFirst depth) depth)).run s = some ((), t) := by
  have hall (u : Analysis) (hu : Reachable .all s u) : u.SearchesDepthFirst :=
    (Analysis.Ranked.reachable hu (.of_start hstart)).searchesDepthFirst
  obtain ⟨hsame, ht⟩ := Demand.watched_all (Analysis.closed_all hstart) hall .start hrun
  exact ⟨hall, hall t ht, hsame⟩

/-- A class with two bases that have a base in common. -/
def Workspace.diamond : Workspace where
  files := ({} : FileTree).addFile ⟨"/p/main.py"⟩
    "class A: x = 1\nclass B(A): pass\nclass C(A): x = 2\nclass D(B, C): pass\n"

/-- The base in common comes before the second base. -/
theorem attributes_are_found_depth_first_diamond : ∃ s t, Analysis.start Workspace.diamond .hermetic = .ok s ∧
    ([Demand.grant (.file ⟨"/p/main.py"⟩)].forM (Demand.run ⟨Infer.apply 2, Infer.load 2⟩ 2)).run s = some ((), t) ∧
    ∃ c < t.types.classes.size,
      (t.lineage ⟨c⟩).map (fun d => (t.types.cls d).name) = ["D", "B", "A", "object", "C", "A", "object"] ∧
      t.classAttribute ⟨c⟩ "x" =
        (t.lineage ⟨c⟩).findSome? fun d => t.scopes.lookupLocal (t.types.cls d).scope "x" := by
  obtain ⟨t, hrun, c, hc, hlineage⟩ : ∃ t, ([Demand.grant (.file ⟨"/p/main.py"⟩)].forM
      (Demand.run ⟨Infer.apply 2, Infer.load 2⟩ 2)).run (Analysis.fresh { Workspace.diamond with cache := {} } .hermetic) =
        some ((), t) ∧ ∃ c < t.types.classes.size,
        (t.lineage ⟨c⟩).map (fun d => (t.types.cls d).name) = ["D", "B", "A", "object", "C", "A", "object"] := by
    rw [Analysis.fresh_eq]
    exact Infer.exists_of_any (by decide +kernel)
  have hstart := Analysis.start_hermetic Workspace.diamond
  obtain ⟨-, ht, -⟩ := attributes_are_found_depth_first hstart hrun
  exact ⟨_, t, hstart, hrun, c, hc, hlineage, ht.found ⟨c⟩ "x" hc⟩

end TypeInfer
