/-
References in both directions. Only putting references on record and binding a name write to the
references of nodes and of bindings, so in every reachable state the one is the converse of the
other (`references_are_converse`).
-/
import TypeInfer.Proofs.EveryState
import TypeInfer.Proofs.Unused

namespace TypeInfer

open List

/-- Whether one of the nodes that refer to a binding stands at a place. -/
def Binding.isReferredFrom (b : Binding) (node : Span) : Bool := b.refs.any (·.same node)

theorem Binding.isReferredFrom_addRef (b : Binding) (node other : Span) :
    (b.addRef node).isReferredFrom other = (b.isReferredFrom other || node.same other) := by
  unfold addRef
  split
  · rename_i hthere
    obtain ⟨ref, hmem, href⟩ := any_eq_true.1 hthere
    cases hother : node.same other with
    | false => rw [Bool.or_false]
    | true =>
      -- the reference that is there stands at the same place
      have hsame : ref.same other := Span.same_iff.2 ((Span.same_iff.1 href).trans (Span.same_iff.1 hother))
      rw [Bool.or_true]
      exact any_eq_true.2 ⟨ref, hmem, hsame⟩
  · simp [isReferredFrom]

theorem Binding.mem_refs_addRef {b : Binding} {node ref : Span} (h : ref ∈ (b.addRef node).refs) : ref ∈ b.refs ∨ ref = node := by
  unfold addRef at h
  split at h
  · exact .inl h
  · exact (mem_append.1 h).imp_right mem_singleton.1

theorem Binding.pairwise_refs_addRef {b : Binding} (h : b.refs.Pairwise fun x y => x.same y = false) (node : Span) :
    (b.addRef node).refs.Pairwise fun x y => x.same y = false := by
  unfold addRef
  split
  · exact h
  · rename_i hnew
    refine pairwise_append.2 ⟨h, pairwise_singleton _ _, fun ref href ref' href' => ?_⟩
    rw [mem_singleton.1 href']
    exact Bool.eq_false_iff.2 fun hsame => hnew (any_eq_true.2 ⟨ref, href, hsame⟩)

section

variable {ids : List BindingId} {b : BindingId}

theorem mem_addOnce {i} : i ∈ (if ids.contains b then ids else ids ++ [b]) ↔ i ∈ ids ∨ i = b := by
  by_cases hthere : b ∈ ids
  · rw [if_pos (contains_iff_mem.2 hthere)]
    exact ⟨.inl, fun hi => hi.elim id (· ▸ hthere)⟩
  · rw [if_neg (mt contains_iff_mem.1 hthere), mem_append, mem_singleton]

theorem nodup_addOnce (h : ids.Nodup) : (if ids.contains b then ids else ids ++ [b]).Nodup := by
  split
  · exact h
  · rename_i hnew
    refine nodup_append.2 ⟨h, nodup_singleton b, fun i hi i' hi' => ?_⟩
    rw [mem_singleton.1 hi']
    rintro rfl
    exact hnew (contains_iff_mem.2 hi)

end

namespace Analysis

theorem binding_addReference (s : Analysis) (node : Span) {b}
    (hb : b.index < s.scopes.bindings.size) (i : BindingId) :
    (s.addReference node b).scopes.binding i =
      if b = i then (s.scopes.binding i).addRef node else s.scopes.binding i := by
  refine (ScopeTable.binding_modifyBinding s.scopes b i (·.addRef node)).trans ?_
  by_cases hi : b = i
  · rw [if_pos hi, if_pos ⟨hi, hi ▸ hb⟩]
  · rw [if_neg hi, if_neg fun hboth => hi hboth.1]

/-- A binding is listed at a node just if the node refers to it; no list is empty or has an item twice, and
no node is the library's. -/
structure CrossReferenced (s : Analysis) : Prop where
  converse : ∀ node b, b ∈ s.references.getD node [] ↔ (s.scopes.binding b).isReferredFrom node
  entries : ∀ e ∈ s.references.toList, e.1.isSynthetic = false ∧ e.2 ≠ [] ∧ e.2.Nodup
  sites : ∀ b, ∀ node ∈ (s.scopes.binding b).refs, node.isSynthetic = false
  distinct : ∀ b, (s.scopes.binding b).refs.Pairwise fun x y => x.same y = false

namespace CrossReferenced

variable {code : Code} {s t : Analysis}

section

variable (h : s.CrossReferenced)
include h

theorem congr (hreferences : t.references = s.references)
    (hrefs : ∀ b, (t.scopes.binding b).refs = (s.scopes.binding b).refs) : t.CrossReferenced where
  converse node b := by
    rw [hreferences, Binding.isReferredFrom, hrefs]
    exact h.converse node b
  entries := by
    rw [hreferences]
    exact h.entries
  sites b := by
    rw [hrefs]
    exact h.sites b
  distinct b := by
    rw [hrefs]
    exact h.distinct b

theorem nodup_references (node : Span) : (s.references.getD node []).Nodup := by
  rcases Ordered.getD_cases s.references node [] with hnone | ⟨e, he, heq⟩
  · rw [hnone]
    exact nodup_nil
  · rw [← heq]
    exact (h.entries e he).2.2

theorem addReference {node : Span} {b : BindingId} (hown : node.isSynthetic = false)
    (hb : b.index < s.scopes.bindings.size) : (s.addReference node b).CrossReferenced := by
  have hbinding := s.binding_addReference node hb
  constructor
  case converse =>
    intro other i
    have hold := h.converse other i
    change i ∈ (Ordered.update s.references node [] _).getD other [] ↔ _
    rw [Ordered.getD_update, hbinding]
    by_cases hplace : compare node other = .eq
    · -- at the node, one binding is added on both sides
      have hget : s.references.getD node [] = s.references.getD other [] := Std.TreeMap.getD_congr hplace
      rw [if_pos hplace, mem_addOnce, hget, hold]
      by_cases hi : b = i
      · rw [if_pos hi, Binding.isReferredFrom_addRef, Span.compare_eq_iff.1 hplace]
        simp [hi]
      · rw [if_neg hi]
        exact or_iff_left fun he => hi he.symm
    · -- elsewhere, nothing changes
      have hdiffers : node.same other = false := Bool.eq_false_iff.2 fun hsame => hplace (Span.compare_eq_iff.2 hsame)
      rw [if_neg hplace, hold]
      by_cases hi : b = i
      · rw [if_pos hi, Binding.isReferredFrom_addRef, hdiffers, Bool.or_false]
      · rw [if_neg hi]
  case entries =>
    intro e he
    rcases Ordered.mem_toList_update he with rfl | he
    · refine ⟨?_, ne_nil_of_mem (mem_addOnce.2 (.inr rfl)), nodup_addOnce (h.nodup_references node)⟩
      -- the node keeps the spelling of an earlier reference, if there was one
      rcases Ordered.getKeyD_cases s.references node with hkey | ⟨ids, hkey⟩
      · dsimp only
        rw [hkey]
        exact hown
      · exact (h.entries _ hkey).1
    · exact h.entries e he
  case sites =>
    intro i ref href
    rw [hbinding] at href
    split at href
    · rcases Binding.mem_refs_addRef href with href | rfl
      · exact h.sites i ref href
      · exact hown
    · exact h.sites i ref href
  case distinct =>
    intro i
    rw [hbinding]
    split
    · exact Binding.pairwise_refs_addRef (h.distinct i) node
    · exact h.distinct i

theorem addReferences (node : Span) {ids} (hids : ∀ b ∈ ids, b.index < s.scopes.bindings.size) :
    (s.addReferences node ids).CrossReferenced := by
  unfold Analysis.addReferences
  split
  · exact h
  · rename_i hown
    induction ids generalizing s with
    | nil => exact h
    | cons b ids ih =>
      obtain ⟨hb, hids⟩ := forall_mem_cons.1 hids
      refine ih (h.addReference (Bool.eq_false_iff.2 hown) hb) fun i hi => ?_
      have hsize : (s.addReference node b).scopes.bindings.size = s.scopes.bindings.size := by
        simp [Analysis.addReference, ScopeTable.addRef]
      rw [hsize]
      exact hids i hi

theorem bind (hs : s.Closed code) {scope} (name : String) (node : Span) {ty} (kind : BindingKind)
    (hty : ty.Within s.sizes) : (s.bind scope name node ty kind).1.CrossReferenced := by
  have hinserted : { s with scopes := (s.scopes.insert scope name node ty kind).1 }.CrossReferenced :=
    h.congr rfl fun b => s.scopes.refs_insert scope name node ty kind b
  obtain ⟨-, hid⟩ := hs.tables.insert scope name node kind hty
  rcases (s.bind_cases scope name node ty kind).2 with he | he <;> rw [he]
  · exact hinserted
  · exact hinserted.addReferences node (by simpa using hid)

theorem step (hs : s.Closed code) (hstep : Step code s t) : t.CrossReferenced := by
  cases hstep with
  | refer node hids => exact h.addReferences node hids
  | bind name node kind hscope hty => exact h.bind hs name node kind hty
  | report d hlocal hd =>
    unfold Analysis.report
    split
    · exact h
    · exact h.congr rfl fun _ => rfl
  | addReturn hty =>
    unfold Analysis.addReturn
    split
    · exact h
    · exact h.congr rfl fun _ => rfl
  | _ => exact h.congr rfl fun _ => rfl

theorem run (hs : s.Closed code) (hrun : Run code s t) : t.CrossReferenced := by
  induction hrun with
  | refl s => exact h
  | trans first rest ih ih' => exact ih' (ih h hs) (first.closed hs)
  | step hstep => exact h.step hs hstep
  | call body there hsignature hlength unknown idle run ih =>
    exact (ih (h.congr rfl fun _ => rfl) (hs.enterCall ..)).congr rfl fun _ => rfl
  | unread event faults new fails aside => exact h.congr rfl fun _ => rfl
  | load new opens run search joins ih ih' =>
    have hended := (Enters.loaded new opens run).closed hs
    have hfound := ih' ((ih (h.congr rfl fun _ => rfl) (hs.begun new)).congr rfl fun _ => rfl) hended
    rcases joins.step code with rfl | hstep
    · exact hfound
    · exact hfound.step (search.closed hended) hstep

theorem enters (hs : s.Closed code) (henters : Enters code s t) : t.CrossReferenced := by
  cases henters with
  | call body there hsignature hlength unknown idle => exact h.congr rfl fun _ => rfl
  | load new opens => exact h.congr rfl fun _ => rfl
  | @loaded _ file _ new opens run =>
    have hbegun : (s.begun file).CrossReferenced := h.congr rfl fun _ => rfl
    exact (hbegun.run (hs.begun new) run).congr rfl fun _ => rfl

theorem work (hs : s.Closed code) (hwork : Work code s t) : t.CrossReferenced := by
  induction hwork with
  | refl s => exact h
  | trans first rest ih ih' => exact ih' (ih h hs) (first.closed hs)
  | run run => exact h.run hs run
  | _ => exact h.congr rfl fun _ => rfl

theorem session (hs : s.Closed code) (hsession : Session code s t) : t.CrossReferenced := by
  induction hsession with
  | trans first rest ih ih' => exact ih' (ih h hs) (first.closed hs)
  | work work => exact h.work hs work
  | @report s d hfinal =>
    obtain ⟨problems, heq⟩ := s.report_eq d
    rw [heq]
    exact h.congr rfl fun _ => rfl
  | sort => exact h.congr rfl fun _ => rfl

end

theorem of_unreferred {work : Workspace} {config : Config} {library : Library} {d : Definitions.Draft} (h : d.Closed) :
    CrossReferenced { work, config, library, scopes := d.scopes, types := d.types } where
  converse node b := by
    rw [Std.TreeMap.getD_emptyc, Binding.isReferredFrom, h.unreferred]
    simp
  entries := nofun
  sites b := by
    rw [h.unreferred]
    exact nofun
  distinct b := by
    rw [h.unreferred]
    exact .nil

theorem fresh (work : Workspace) (config : Config) : (Analysis.fresh work config).CrossReferenced := by
  rw [Analysis.fresh_eq]
  exact of_unreferred Library.closed_installed.1

theorem reachable {start} (hstart : start.Closed code) (h : start.CrossReferenced)
    (hreachable : Reachable code start s) : s.CrossReferenced := by
  induction hreachable with
  | start => exact h
  | session before session ih => exact ih.session (before.closed hstart) session
  | enter before enters ih => exact ih.enters (before.closed hstart) enters
  | forget before holds ih => exact ih.congr rfl fun _ => rfl

end CrossReferenced

end Analysis

/-- A name that is bound twice, a parameter of two calls, and an attribute of two classes. -/
def Workspace.manyReferences : Workspace where
  files := ({} : FileTree).addFile ⟨"/p/main.py"⟩
    "x = 1\nx = 2\ndef f(a):\n    return a.n\nclass C:\n    n = x\nclass D:\n    n = x\nf(C())\nf(D())\nf(x)\n"

end TypeInfer
