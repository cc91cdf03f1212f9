/-
Widening. A type is known by its set of atoms (`Ty.ext_atoms`), and widening joins the sets: types
are a semilattice whose least element is the unknown type. So the union of a list of types depends
only on which types are in the list.
-/
import Mathlib.Data.List.Sort
import Mathlib.Order.BoundedOrder.Basic
import Mathlib.Order.Lattice
import TypeInfer.Ty.Basic

namespace TypeInfer

open List

/-! ### Sets as ascending lists -/

namespace Ordered

variable {α : Type} [Ord α]

theorem mem_insert [Std.LawfulEqOrd α] {a x : α} {bs : List α} : x ∈ insert a bs ↔ x = a ∨ x ∈ bs := by
  induction bs with
  | nil => simp [insert]
  | cons b bs ih =>
    rw [insert]
    cases hab : compare a b with
    | lt => simp
    | eq =>
      obtain rfl : a = b := Std.LawfulEqCmp.eq_of_compare hab
      simp
    | gt =>
      simp only [mem_cons, ih]
      tauto

theorem mem_ofList [Std.LawfulEqOrd α] {x : α} {xs : List α} : x ∈ ofList xs ↔ x ∈ xs := by
  induction xs with
  | nil => simp [ofList]
  | cons a xs ih =>
    have hcons : ofList (a :: xs) = insert a (ofList xs) := rfl
    rw [hcons, mem_insert, ih, mem_cons]

/-- An ascending list is known by its items. -/
theorem Strict.ext [Std.TransOrd α] {xs ys : List α} (hx : Strict xs) (hy : Strict ys)
    (h : ∀ a, a ∈ xs ↔ a ∈ ys) : xs = ys := by
  have hirrefl : Std.Irrefl fun a b : α => compare a b = .lt := ⟨fun a ha => by simp at ha⟩
  have hasymm : Std.Antisymm fun a b : α => compare a b = .lt :=
    ⟨fun a b hab hba => by
      have hself := Std.TransCmp.lt_trans hab hba
      simp at hself⟩
  exact List.Pairwise.eq_of_mem_iff hx hy h

end Ordered

/-! ### Atoms -/

namespace Atom

theorem eq_of_compare {a b : Atom} (h : compare a b = .eq) : a = b := by
  have hlex : compareLex (compareOn rank) (compareOn index) a b = .eq := h
  simp only [compareLex, compareOn, Ordering.then_eq_eq, Nat.compare_eq_eq] at hlex
  obtain ⟨hrank, hindex⟩ := hlex
  cases a <;> cases b <;> simp [rank] at hrank <;> simp only [index] at hindex
  case prim.prim p q => cases p <;> cases q <;> simp [Prim.index] at hindex <;> rfl
  case module.module a b => cases a; cases b; simpa using hindex
  case cls.cls a b => cases a; cases b; simpa using hindex
  case inst.inst a b => cases a; cases b; simpa using hindex
  case function.function a b => cases a; cases b; simpa using hindex

instance : Std.LawfulEqOrd Atom := ⟨eq_of_compare⟩

end Atom

/-! ### Types by their atoms -/

namespace Ty

variable {a b t u : Ty} {x : Atom} (types : List Ty)

theorem ext_atoms (h : ∀ x, x ∈ t.atoms ↔ x ∈ u.atoms) : t = u := by
  obtain ⟨xs, hxs⟩ := t
  obtain ⟨ys, hys⟩ := u
  obtain rfl := hxs.ext hys h
  rfl

@[simp] theorem mem_atoms_ofAtoms {xs : List Atom} : x ∈ (ofAtoms xs).atoms ↔ x ∈ xs :=
  Ordered.mem_ofList

@[simp] theorem atoms_unknown : unknown.atoms = [] := rfl

@[simp] theorem atoms_ofAtom (x : Atom) : (ofAtom x).atoms = [x] := rfl

theorem mem_atoms_merge : x ∈ (a.merge b).atoms ↔ x ∈ a.atoms ∨ x ∈ b.atoms := by
  simp [merge]

theorem mem_atoms_union {types} : x ∈ (union types).atoms ↔ ∃ t ∈ types, x ∈ t.atoms := by
  simp [union]

/-- A type is at most as wide as one that has all its atoms. -/
instance : PartialOrder Ty where
  le t u := ∀ x ∈ t.atoms, x ∈ u.atoms
  le_refl _ _ hx := hx
  le_trans _ _ _ htu huv x hx := huv x (htu x hx)
  le_antisymm _ _ htu hut := ext_atoms fun x => ⟨htu x, hut x⟩

/-- Widening is the join. -/
instance : SemilatticeSup Ty where
  sup := merge
  le_sup_left _ _ _ hx := mem_atoms_merge.2 (.inl hx)
  le_sup_right _ _ _ hx := mem_atoms_merge.2 (.inr hx)
  sup_le _ _ _ htv huv x hx := (mem_atoms_merge.1 hx).elim (htv x) (huv x)

instance : OrderBot Ty where
  bot := unknown
  bot_le _ _ hx := absurd hx not_mem_nil

/-! ### Members -/

/-- A union has two members at least, and none of them is a union or unknown. -/
def IsFlat (t : Ty) : Prop :=
  t.isUnion → 2 ≤ t.members.length ∧ ∀ u ∈ t.members, u.isUnion = false ∧ u.isUnknown = false

theorem isFlat (t : Ty) : t.IsFlat := by
  intro hunion
  have hlength : 2 ≤ t.atoms.length := by simpa [isUnion] using hunion
  refine ⟨by simpa [members, hunion] using hlength, fun u hu => ?_⟩
  simp only [members, hunion, if_true, mem_map] at hu
  obtain ⟨x, -, rfl⟩ := hu
  exact ⟨rfl, rfl⟩

/-- A type that is no union is unknown or has one atom. -/
theorem cases_of_not_isUnion (h : t.isUnion = false) : t = unknown ∨ ∃ x, t = ofAtom x := by
  have hlength : t.atoms.length < 2 := by simpa [isUnion] using h
  cases hatoms : t.atoms with
  | nil => exact .inl (ext_atoms fun y => by simp [hatoms])
  | cons x more =>
    rw [hatoms, length_cons] at hlength
    obtain rfl : more = [] := eq_nil_of_length_eq_zero (by omega)
    exact .inr ⟨x, ext_atoms fun y => by simp [hatoms]⟩

theorem mem_members : u ∈ t.members ∧ u ≠ unknown ↔ ∃ x ∈ t.atoms, u = ofAtom x := by
  have hknown : ∀ x : Atom, ofAtom x ≠ unknown := fun x h => by simpa using congrArg atoms h
  cases hunion : t.isUnion with
  | true =>
    simp only [members, hunion, if_true, mem_map]
    constructor
    · rintro ⟨⟨x, hx, rfl⟩, -⟩
      exact ⟨x, hx, rfl⟩
    · rintro ⟨x, hx, rfl⟩
      exact ⟨⟨x, hx, rfl⟩, hknown x⟩
  | false =>
    simp only [members, hunion, Bool.false_eq_true, if_false, mem_singleton]
    rcases cases_of_not_isUnion hunion with rfl | ⟨x, rfl⟩
    · simp
    · simpa using fun hu : u = ofAtom x => hu ▸ hknown x

/-- A member of the wider type is one of either. -/
theorem mem_members_merge : u ∈ (a.merge b).members ∧ u ≠ unknown ↔ (u ∈ a.members ∨ u ∈ b.members) ∧ u ≠ unknown := by
  rw [or_and_right, mem_members, mem_members, mem_members]
  simp only [mem_atoms_merge, or_and_right, exists_or]

/-! ### Unions of lists -/

theorem union_cons (t : Ty) (types : List Ty) : union (t :: types) = t.merge (union types) :=
  ext_atoms fun x => by simp [mem_atoms_union, mem_atoms_merge]

theorem foldl_merge (t : Ty) (types : List Ty) : types.foldl merge t = t.merge (union types) := by
  induction types generalizing t with
  | nil => exact (sup_bot_eq t).symm
  | cons u types ih =>
    rw [foldl_cons, ih, union_cons]
    exact sup_assoc t u (union types)

theorem union_eq_foldl : union types = types.foldl merge unknown := by
  rw [foldl_merge]
  exact (bot_sup_eq (union types)).symm

/-- The union depends only on which types are in the list. -/
theorem union_congr {types types'} (h : ∀ t, t ∈ types ↔ t ∈ types') : union types = union types' :=
  ext_atoms fun x => by simp [mem_atoms_union, h]

theorem union_flatten (groups : List (List Ty)) : union groups.flatten = union (groups.map union) := by
  induction groups with
  | nil => rfl
  | cons types groups ih =>
    refine ext_atoms fun x => ?_
    rw [map_cons, union_cons, ← ih, flatten_cons]
    simp only [mem_atoms_merge, mem_atoms_union, mem_append, or_and_right, exists_or]

end Ty

end TypeInfer
