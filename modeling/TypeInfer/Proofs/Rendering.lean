/-
When the text of a type ends. The text of a function has in it the text of what
the function returned, and nothing stops a function from returning itself: then
there is no text. That is the only way to have none, and the bound on the depth
(`describe?`) never cuts off a text that ends.
-/
import Mathlib.Data.List.Nodup
import Mathlib.Data.List.Perm.Subperm
import Mathlib.Logic.Relation
import TypeInfer.Proofs.OperatorTypes

namespace TypeInfer

open List

namespace TypeStore

variable {s : TypeStore} {t : Ty} {f : FunId} {inner outer : Ty → Option String} {depth : Nat}
  {text : String}

/-- The type has the function among its members. -/
def Shows (t : Ty) (f : FunId) : Prop := Atom.function f ∈ t.atoms

/-- The function `g` is among what `f` returned. -/
def Returns (s : TypeStore) (f g : FunId) : Prop := Shows (s.function f).returnType g

/-- The function is written in the text of the type, at any depth. -/
def Written (s : TypeStore) (t : Ty) (f : FunId) : Prop :=
  ∃ g, Shows t g ∧ Relation.ReflTransGen s.Returns g f

theorem Written.of_returns {g} (ht : Shows t f) (h : s.Written (s.function f).returnType g) :
    s.Written t g := by
  obtain ⟨k, hk, hkg⟩ := h
  exact ⟨f, ht, .head hk hkg⟩

theorem not_returns_of_arrows_nil {g} (h : (s.function f).arrows = []) : ¬ s.Returns f g := by
  simp [Returns, Shows, FunType.returnType, h, Ty.union, Ty.ofAtoms, Ordered.ofList]

/-- A function that returned something is in the store. -/
theorem index_lt_of_arrows_ne_nil (h : (s.function f).arrows ≠ []) : f.index < s.funs.size := by
  by_contra hf
  simp [function, Array.getD_eq_getD_getElem?, Array.getElem?_eq_none (Nat.le_of_not_lt hf)] at h
  exact h rfl

/-! ### One level -/

theorem isSome_describeAtom_iff {a} :
    (s.describeAtom inner a).isSome ↔ ∀ f, a = .function f → (s.function f).arrows ≠ [] →
      (inner (s.function f).returnType).isSome := by
  cases a with
  | function f => by_cases h : (s.function f).arrows = [] <;> simp [describeAtom, h]
  | _ => simp [describeAtom]

theorem isSome_describeMembers_iff :
    (s.describeMembers inner t).isSome ↔ ∀ f, Shows t f → (s.function f).arrows ≠ [] →
      (inner (s.function f).returnType).isSome := by
  rw [describeMembers]
  split
  · rename_i h
    simp [Shows, List.isEmpty_iff.1 h]
  · rw [Option.isSome_map, isSome_mapM_iff]
    simp only [isSome_describeAtom_iff, Shows]
    exact ⟨fun h f hf => h _ hf f rfl, fun h a ha f hf => h f (hf ▸ ha)⟩

theorem isSome_describeAt_succ :
    (s.describeAt (depth + 1) t).isSome ↔ ∀ f, Shows t f → (s.function f).arrows ≠ [] →
      (s.describeAt depth (s.function f).returnType).isSome :=
  isSome_describeMembers_iff

/-! ### A text that ends is found -/

section

variable (h : ∀ t text, inner t = some text → outer t = some text)
include h

theorem describeAtom_mono {a} (ha : s.describeAtom inner a = some text) : s.describeAtom outer a = some text := by
  cases a with
  | function f =>
    simp only [describeAtom] at ha ⊢
    split at ha
    · rename_i he
      rw [if_pos he, ha]
    · rename_i he
      rw [if_neg he]
      obtain ⟨ret, hret, rfl⟩ := Option.map_eq_some_iff.1 ha
      rw [h _ _ hret, Option.map_some]
  | _ => exact ha

theorem mapM_describeAtom_mono {atoms : List Atom} {texts : List String}
    (ha : atoms.mapM (s.describeAtom inner) = some texts) : atoms.mapM (s.describeAtom outer) = some texts := by
  induction atoms generalizing texts with
  | nil => exact ha
  | cons a atoms ih =>
    simp only [mapM_cons, Option.bind_eq_bind, Option.bind_eq_some_iff, Option.pure_def,
      Option.some.injEq] at ha ⊢
    obtain ⟨text, htext, more, hmore, rfl⟩ := ha
    exact ⟨text, describeAtom_mono h htext, more, ih hmore, rfl⟩

theorem describeMembers_mono (ht : s.describeMembers inner t = some text) : s.describeMembers outer t = some text := by
  simp only [describeMembers] at ht ⊢
  split at ht
  · rename_i hu
    rw [if_pos hu, ht]
  · rename_i hu
    rw [if_neg hu]
    obtain ⟨texts, htexts, rfl⟩ := Option.map_eq_some_iff.1 ht
    rw [mapM_describeAtom_mono h htexts, Option.map_some]

end

theorem describeAt_succ (h : s.describeAt depth t = some text) :
    s.describeAt (depth + 1) t = some text := by
  induction depth generalizing t text with
  | zero => exact describeMembers_mono (by simp) h
  | succ depth ih => exact describeMembers_mono (fun _ _ => ih) h

theorem describeAt_mono {more : Nat} (hd : depth ≤ more) (h : s.describeAt depth t = some text) :
    s.describeAt more t = some text := by
  induction hd with
  | refl => exact h
  | step _ ih => exact describeAt_succ ih

/-! ### Functions that lead back to themselves -/

theorem acc_of_isSome_describeAt (h : (s.describeAt depth t).isSome) (hf : Shows t f) :
    Acc (fun g k => s.Returns k g) f := by
  induction depth generalizing t f with
  | zero =>
    have harrows : (s.function f).arrows = [] := by
      by_contra hne
      simpa using isSome_describeMembers_iff.1 h f hf hne
    exact ⟨f, fun g hg => absurd hg (not_returns_of_arrows_nil harrows)⟩
  | succ depth ih =>
    by_cases harrows : (s.function f).arrows = []
    · exact ⟨f, fun g hg => absurd hg (not_returns_of_arrows_nil harrows)⟩
    · exact ⟨f, fun g hg => ih (isSome_describeAt_succ.1 h f hf harrows) hg⟩

theorem acc_of_written (h : ∀ f, Shows t f → Acc (fun g k => s.Returns k g) f) (hf : s.Written t f) :
    Acc (fun g k => s.Returns k g) f := by
  obtain ⟨g, hg, hgf⟩ := hf
  induction hgf with
  | refl => exact h g hg
  | tail _ hstep ih => exact ih.inv hstep

theorem not_cycle_of_acc (h : Acc (fun g k => s.Returns k g) f) :
    ¬ Relation.TransGen s.Returns f f := by
  induction h with
  | intro f _ ih =>
    intro hcycle
    obtain ⟨g, hfg, hgf⟩ := Relation.TransGen.head'_iff.1 hcycle
    exact ih g hfg (.tail' hgf hfg)

theorem length_le_size {fs : List FunId} (hn : fs.Nodup) (h : ∀ f ∈ fs, f.index < s.funs.size) :
    fs.length ≤ s.funs.size := by
  have hinj : Function.Injective FunId.index := fun a b hab => by
    cases a
    cases b
    simpa using hab
  have hsub : fs.map FunId.index ⊆ List.range s.funs.size := by
    intro i hi
    obtain ⟨f, hf, rfl⟩ := mem_map.1 hi
    exact mem_range.2 (h f hf)
  simpa using (subperm_of_subset (List.Nodup.map hinj hn) hsub).length_le

/-- Where there is no text, one of the functions around comes again below. -/
theorem exists_cycle {above : List FunId} (hn : above.Nodup)
    (hin : ∀ f ∈ above, f.index < s.funs.size) (hlen : s.funs.size ≤ above.length + depth)
    (habove : ∀ g ∈ above, ∀ f, Shows t f → Relation.TransGen s.Returns g f)
    (h : ¬ (s.describeAt depth t).isSome) :
    ∃ f, s.Written t f ∧ Relation.TransGen s.Returns f f := by
  induction depth generalizing t above with
  | zero =>
    rw [describeAt, isSome_describeMembers_iff] at h
    push Not at h
    obtain ⟨f, hf, harrows, -⟩ := h
    by_cases hmem : f ∈ above
    · exact ⟨f, ⟨f, hf, .refl⟩, habove f hmem f hf⟩
    · -- with this one, there would be more functions than the store has
      have := length_le_size (s := s) (nodup_cons.2 ⟨hmem, hn⟩)
        (forall_mem_cons.2 ⟨index_lt_of_arrows_ne_nil harrows, hin⟩)
      simp only [length_cons] at this
      omega
  | succ depth ih =>
    rw [isSome_describeAt_succ] at h
    push Not at h
    obtain ⟨f, hf, harrows, hnone⟩ := h
    by_cases hmem : f ∈ above
    · exact ⟨f, ⟨f, hf, .refl⟩, habove f hmem f hf⟩
    · have hbelow : ∀ g ∈ f :: above, ∀ k, Shows (s.function f).returnType k →
          Relation.TransGen s.Returns g k := by
        intro g hg k hk
        rcases mem_cons.1 hg with rfl | hg
        · exact .single hk
        · exact (habove g hg f hf).tail hk
      obtain ⟨k, hk, hcycle⟩ := @ih _ (f :: above) (nodup_cons.2 ⟨hmem, hn⟩)
        (forall_mem_cons.2 ⟨index_lt_of_arrows_ne_nil harrows, hin⟩)
        (by simp only [length_cons]; omega) hbelow hnone
      exact ⟨k, hk.of_returns hf, hcycle⟩

/-- A text at any depth is that of `describe?`; there is one exactly when no function in it leads
back to itself. -/
theorem describe?_isSome_iff_acyclic (s : TypeStore) (t : Ty) :
    (∀ depth text, s.describeAt depth t = some text → s.describe? t = some text) ∧
      ((s.describe? t).isSome ↔ ∀ f, s.Written t f → ¬ Relation.TransGen s.Returns f f) := by
  have hacyclic : ∀ depth, (s.describeAt depth t).isSome →
      ∀ f, s.Written t f → ¬ Relation.TransGen s.Returns f f := fun depth h f hf =>
    not_cycle_of_acc (acc_of_written (fun _ => acc_of_isSome_describeAt h) hf)
  have hsome : (∀ f, s.Written t f → ¬ Relation.TransGen s.Returns f f) → (s.describe? t).isSome := by
    intro h
    by_contra hnone
    obtain ⟨f, hf, hcycle⟩ := exists_cycle List.nodup_nil (by simp) (by simp) (by simp) hnone
    exact h f hf hcycle
  refine ⟨fun depth text h => ?_, hacyclic _, hsome⟩
  obtain ⟨text', h'⟩ := Option.isSome_iff_exists.1 (hsome (hacyclic depth (by simp [h])))
  -- both texts stay at a depth that is beyond both bounds
  have hl := describeAt_mono (Nat.le_max_left depth s.funs.size) h
  have hr := describeAt_mono (Nat.le_max_right depth s.funs.size) h'
  rw [h', ← hr, hl]

/-- A function that returned itself has no text. -/
example : ({ funs := #[{ (default : FunType) with arrows := [([], Ty.function ⟨0⟩)] }] } : TypeStore).describe?
    (Ty.function ⟨0⟩) = none := by
  decide

end TypeStore

end TypeInfer
