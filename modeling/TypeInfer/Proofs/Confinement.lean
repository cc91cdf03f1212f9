/-
The interpreter stays within own scopes: to be confined is a guard (`Guard.own`). That stacks are
left as they were found (`stacks_are_left_as_found`) is the case in which all scopes are own.
-/
import TypeInfer.Proofs.Guards
import TypeInfer.Proofs.OwnScopes

namespace TypeInfer

/-- Code is run in own scopes. -/
def Guard.own (lib : ScopeTable) : Guard where
  Holds s := s.Confined lib
  Own _ id := id.IsOwn lib
  own_mono _ h := h
  own_new h _ := h.scopes.scopeCount
  same h hscopes htypes hmodules := h.of_scopes (hscopes ▸ h.scopes) htypes hmodules
  refer node _ h := h.of_scopes (h.scopes.modifyBinding (.inr fun c => .addRef c node)) rfl rfl
  insert name node ty kind h hscope := h.of_scopes (h.scopes.insert hscope name node ty kind) rfl rfl
  declare hf h hscope := h.of_scopes (h.scopes.declare hscope hf) rfl rfl
  comprehension path h hscope := h.of_scopes (h.scopes.newScope (.inr hscope) path) rfl rfl
  body path h hbody := h.of_scopes (h.scopes.newScope (.inr (h.closure _ _ hbody)) path) rfl rfl
  module path h := h.of_scopes (h.scopes.newScope (.inl rfl) path) rfl rfl
  defineFunction d defaults h hscope := h.defineFunction d defaults hscope
  defineClass d bases h hscope := h.defineClass d bases hscope
  modifyFun h hscopes htypes hmodules hg := h.modifyFun hscopes htypes hmodules (fun fn => (hg fn).1) fun fn => (hg fn).2.1
  addModule h hscope := h.addModule hscope
  addLoaded file qname h hm := h.addLoaded file qname hm
  targetScope name h hscope := h.scopes.targetScope hscope name
  enclosingBlock h hscope := h.scopes.enclosingBlock hscope
  attributeScope h hscope := h.attributeScope? hscope
  loaded h hentry := h.loaded _ hentry

/-- Applications and loads stay within own scopes. -/
abbrev Calls.Stay (lib : ScopeTable) (c : Calls) : Prop := c.Keep (.own lib)

theorem Infer.stay_calls {lib : ScopeTable} (depth : Nat) : Calls.Stay lib ⟨apply depth, load depth⟩ := keep_calls depth

/-! ### Stacks -/

/-- The action, if it has a result, leaves the applications and loads in progress, the directory and the
outer frames as they were. -/
def Analysis.KeepsStacks {α : Type} (s : Analysis) (m : Infer α) : Prop := Infer.Leads m s fun _ t => SameStacks s t

/-- With an empty library every state is confined, so nothing is asked of the state. -/
theorem Infer.Keeps.keepsStacks {α : Type} {m : Infer α} (h : Infer.Keeps (.own ⟨#[], #[]⟩) m) (s : Analysis) : s.KeepsStacks m :=
  (h s (.of_empty s)).mono fun _ _ ht => ht.sameStacks

theorem Infer.KeepsAt.keepsStacks {α : Type} {p : Spot} {l : List Binder} {m : Infer α}
    (h : Infer.KeepsAt (.own ⟨#[], #[]⟩) p l m) (s : Analysis) : s.KeepsStacks m :=
  (h s (.of_empty s) (Nat.zero_le _)).mono fun _ _ ht => ht.sameStacks

/-- From any state, however deep applications and loads nest and whether they fail or not, the files
being loaded, the applications in progress, the directory and all frames below the top one are left
as they were. -/
theorem stacks_are_left_as_found (depth : Nat) (s : Analysis) :
    (∀ e scope, s.KeepsStacks (Infer.eval ⟨Infer.apply depth, Infer.load depth⟩ e scope)) ∧
    (∀ st scope, s.KeepsStacks (Infer.exec ⟨Infer.apply depth, Infer.load depth⟩ st scope)) ∧
    (∀ path, s.KeepsStacks (Infer.load depth path)) ∧
    (∀ f receiver args, s.KeepsStacks (Infer.apply depth f receiver args)) ∧
    ∀ demands : List Demand, s.KeepsStacks (demands.forM (Demand.run ⟨Infer.apply depth, Infer.load depth⟩ depth)) := by
  have hc : Calls.Stay ⟨#[], #[]⟩ ⟨Infer.apply depth, Infer.load depth⟩ := Infer.stay_calls depth
  refine ⟨fun e scope => ?_, fun st scope => ?_, fun path => ?_, fun f receiver args => ?_, fun demands => ?_⟩
  · exact ((Infer.acts_eval_all e (.ofBlock scope)).keeps hc).keepsStacks s
  · exact ((Infer.acts_exec_all st scope).keeps hc).keepsStacks s
  · exact (Infer.keeps_load hc path).keepsStacks s
  · exact (hc.apply f receiver args).keepsStacks s
  · exact (Demand.keeps demands depth).keepsStacks s

/-- Files that import each other, one that cannot be read, and a function that calls itself. -/
def Workspace.tangled : Workspace where
  files := ((({} : FileTree).addFile ⟨"/p/main.py"⟩ "import other\ndef down(x):\n    return down(x)\nv = down(1)\n").addFile
    ⟨"/p/other.py"⟩ "import main\nimport broken\n").addFile ⟨"/p/broken.py"⟩ "def (\n"

theorem stacks_are_left_as_found_tangled : ∃ (depth : Nat) (s t : Analysis),
    Analysis.start Workspace.tangled .hermetic = .ok s ∧
    ([Demand.grant (.project ⟨"/p"⟩), .finish].forM
      (Demand.run ⟨Infer.apply depth, Infer.load depth⟩ depth)).run s = some ((), t) ∧ SameStacks s t := by
  have hbuilt : Workspace.tangled.files.Built := .addFile (.addFile (.addFile (.empty rfl rfl rfl) _ _) _ _) _ _
  obtain ⟨s, hstart⟩ : ∃ s, Analysis.start Workspace.tangled .hermetic = .ok s := ⟨_, Analysis.start_hermetic _⟩
  obtain ⟨depth, t, hrun⟩ := Demand.exists_run hbuilt hstart ⟨"/p"⟩
  obtain ⟨-, -, -, -, hdemands⟩ := stacks_are_left_as_found depth s
  exact ⟨depth, s, t, hstart, hrun, hdemands _ () t hrun⟩

end TypeInfer
