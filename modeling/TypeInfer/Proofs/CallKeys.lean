/-
The keys of applications are finitely many. What the code defines is named by its place, and what
is named by its number is a module or belongs to the library; so all keys are in a list that is
computed from the nodes of the code, the library and the number of modules (`CallKey.all`).
-/
import Mathlib.Data.List.Perm.Subperm
import TypeInfer.Proofs.Run

namespace TypeInfer

open List

/-! ### Places are ordered -/

namespace SiteAtom

def atom? : SiteAtom → Option Atom
  | .exact a => some a
  | _ => none

def node? : SiteAtom → Option Span
  | .exact _ => none
  | .cls node | .inst node | .function node => some node

theorem compare_eq_lex : (compare : SiteAtom → SiteAtom → Ordering) =
    compareLex (compareOn rank) (compareLex (compareOn atom?) (compareOn node?)) := by
  funext a b
  cases a <;> cases b <;> first
    | rfl
    | exact Ordering.then_eq.symm

instance : Std.TransOrd SiteAtom := by
  rw [Std.TransOrd, compare_eq_lex]
  infer_instance

end SiteAtom

/-! ### Types by place -/

/-- The lists of that many of the given elements. -/
def tuples {α : Type} (as : List α) : Nat → List (List α)
  | 0 => [[]]
  | n + 1 => as.flatMap fun a => (tuples as n).map (a :: ·)

theorem mem_tuples {α : Type} {as l : List α} (h : l ⊆ as) : l ∈ tuples as l.length := by
  induction l with
  | nil => exact mem_singleton_self _
  | cons a l ih =>
    obtain ⟨ha, hl⟩ := cons_subset.1 h
    exact mem_flatMap.2 ⟨a, ha, mem_map_of_mem (ih hl)⟩

def Atom.below (z : Sizes) : List Atom :=
  Prim.all.map .prim ++ ((range z.modules).map (.module ⟨·⟩) ++
    ((range z.classes).flatMap (fun i => [.cls ⟨i⟩, .inst ⟨i⟩]) ++ (range z.funs).map (.function ⟨·⟩)))

theorem Atom.Within.mem_below {z : Sizes} {a : Atom} (h : a.Within z) : a ∈ Atom.below z := by
  cases a with
  | prim p => cases p <;> simp [Atom.below, Prim.all]
  | _ id =>
    cases id
    simpa [Atom.below, Atom.Within] using h

/-- What is named by the place of the node. -/
def SiteAtom.ofNode : Node → List SiteAtom
  | .cls d => [.cls d.span, .inst d.span]
  | .function d => [.function d.span]
  | _ => []

def SiteAtom.all (nodes : List Node) (z : Sizes) : List SiteAtom := (Atom.below z).map .exact ++ nodes.flatMap ofNode

def SiteTy.all (nodes : List Node) (z : Sizes) : List SiteTy :=
  let atoms := SiteAtom.all nodes z
  .unknown :: (atoms.map .lone ++ (range (atoms.length + 1)).flatMap fun n => (tuples atoms n).map .union)

/-- The keys of applications of the node, if it is a function, to the types. -/
def CallKey.ofNode (types : List SiteTy) : Node → List CallKey
  | .function d => (tuples types d.params.length).map fun signature => ⟨d.span.plain, signature.map SiteTy.plain⟩
  | _ => []

/-- The keys of applications of functions among the nodes, to types that are named by the places of nodes or
are below the sizes. -/
def CallKey.all (nodes : List Node) (z : Sizes) : List CallKey := nodes.flatMap (ofNode (SiteTy.all nodes z))

/-- A place of the code, or something that is named by its number. -/
def SiteAtom.Known (code : Code) (z : Sizes) : SiteAtom → Prop
  | .exact a => a.Within z
  | .cls node | .inst node => ∃ d, code.Has (.cls d) ∧ d.span = node
  | .function node => ∃ d, code.Has (.function d) ∧ d.span = node

def SiteTy.atoms : SiteTy → List SiteAtom
  | .unknown => []
  | .lone a => [a]
  | .union members => members

/-- A key that an application of a definition in the code can have. -/
def CallKey.Known (code : Code) (z : Sizes) (key : CallKey) : Prop :=
  ∃ (d : FunctionDef) (signature : List SiteTy), code.Has (.function d) ∧ signature.length = d.params.length ∧
    (∀ t ∈ signature, t.atoms.Nodup ∧ ∀ a ∈ t.atoms, a.Known code z) ∧
    key = ⟨d.span.plain, signature.map SiteTy.plain⟩

section

variable {code : Code} {nodes : List Node} {z : Sizes} (hcode : ∀ n, code.Has n → n ∈ nodes)

include hcode

theorem SiteAtom.Known.mem_all {a : SiteAtom} (h : a.Known code z) : a ∈ SiteAtom.all nodes z := by
  refine mem_append.2 ?_
  cases a with
  | exact a => exact .inl (mem_map_of_mem h.mem_below)
  | _ node =>
    obtain ⟨d, hd, rfl⟩ := h
    exact .inr (mem_flatMap.2 ⟨_, hcode _ hd, by simp [ofNode]⟩)

theorem SiteTy.mem_all {t : SiteTy} (hnodup : t.atoms.Nodup) (h : ∀ a ∈ t.atoms, a.Known code z) :
    t ∈ SiteTy.all nodes z := by
  have hatoms : t.atoms ⊆ SiteAtom.all nodes z := fun a ha => (h a ha).mem_all hcode
  cases t with
  | unknown => exact mem_cons_self
  | lone a => exact mem_cons_of_mem _ (mem_append_left _ (mem_map_of_mem (hatoms mem_cons_self)))
  | union members =>
    refine mem_cons_of_mem _ (mem_append_right _ (mem_flatMap.2 ⟨_, mem_range.2 ?_, mem_map_of_mem (mem_tuples hatoms)⟩))
    exact Nat.lt_succ_of_le (subperm_of_subset hnodup hatoms).length_le

theorem CallKey.Known.mem_all {key : CallKey} (h : key.Known code z) : key ∈ CallKey.all nodes z := by
  obtain ⟨d, signature, hd, hlength, hsignature, rfl⟩ := h
  have htypes : signature ⊆ SiteTy.all nodes z := fun t ht => SiteTy.mem_all hcode (hsignature t ht).1 (hsignature t ht).2
  exact mem_flatMap.2 ⟨_, hcode _ hd, mem_map_of_mem (hlength ▸ mem_tuples htypes)⟩

end

/-! ### The types of a state by place -/

theorem Ordered.nodup_ofList {α : Type} [Ord α] [Std.TransOrd α] (xs : List α) : (ofList xs).Nodup := by
  refine (strict_ofList xs).imp fun {a b} hab => ?_
  rintro rfl
  have hself : compare a a = .eq := Std.ReflCmp.compare_self
  rw [hself] at hab
  contradiction

namespace Sited

variable {code : Code} {s : Analysis} {z : Sizes} (hmodules : s.types.modules.size ≤ z.modules)
  (hclasses : Library.sizes.classes ≤ z.classes) (hfuns : Library.sizes.funs ≤ z.funs)

include hmodules hclasses hfuns

theorem known_siteAtom (h : Sited code s.types) {a} (ha : a.Within s.sizes) :
    (s.types.siteAtom a).Known code z := by
  have hlibrary : ∀ c : ClassId, c.index < s.types.classes.size → (s.types.cls c).node = none →
      c.index < z.classes := by
    intro c hc hnone
    refine Nat.lt_of_not_le fun hle => ?_
    obtain ⟨node, hnode⟩ := h.cls c (Nat.le_trans hclasses hle) hc
    simp [hnone] at hnode
  cases a with
  | prim p => exact True.intro
  | module m => exact Nat.lt_of_lt_of_le ha hmodules
  | cls c =>
    rw [TypeStore.siteAtom]
    cases hnode : (s.types.cls c).node with
    | none => exact hlibrary c ha hnode
    | some node => exact h.node c node hnode
  | inst c =>
    rw [TypeStore.siteAtom]
    cases hnode : (s.types.cls c).node with
    | none => exact hlibrary c ha hnode
    | some node => exact h.node c node hnode
  | function f =>
    rw [TypeStore.siteAtom, FunType.definition?]
    cases hbody : (s.types.function f).body with
    | source d => exact ⟨d, h.source f d hbody, rfl⟩
    | native ret =>
      refine Nat.lt_of_not_le fun hle => ?_
      obtain ⟨d, hd⟩ := h.function f (Nat.le_trans hfuns hle) ha
      simp [hbody] at hd

theorem known_siteTy (h : Sited code s.types) {ty} (hty : ty.Within s.sizes) :
    (s.types.siteTy ty).atoms.Nodup ∧ ∀ a ∈ (s.types.siteTy ty).atoms, a.Known code z := by
  unfold TypeStore.siteTy
  split
  · exact ⟨nodup_nil, nofun⟩
  · rename_i a hatoms
    refine ⟨pairwise_singleton .., fun b hb => ?_⟩
    rw [mem_singleton.1 hb]
    exact known_siteAtom hmodules hclasses hfuns h (hty a (by simp [hatoms]))
  · refine ⟨Ordered.nodup_ofList _, fun b hb => ?_⟩
    obtain ⟨a, ha, rfl⟩ := mem_map.1 (Ordered.mem_of_mem_ofList hb)
    exact known_siteAtom hmodules hclasses hfuns h (hty a ha)

theorem known_callKey (h : Sited code s.types) {f d signature}
    (hbody : (s.types.function f).body = .source d)
    (hsignature : ∀ ty ∈ signature, ty.Within s.sizes)
    (hlength : signature.length = d.params.length) : (s.callKey d signature).Known code z := by
  refine ⟨d, signature.map s.types.siteTy, h.source f d hbody, by simpa using hlength, fun t ht => ?_, ?_⟩
  · obtain ⟨ty, hty, rfl⟩ := mem_map.1 ht
    exact known_siteTy hmodules hclasses hfuns h (hsignature ty hty)
  · simp [Analysis.callKey]

end Sited

end TypeInfer
