/-
Operators on unions. The members of what an operator gives are what the pairs of members give, if
every pair has the operator (`mem_atoms_overPairs`). So operators respect widening, except that one
pair without the operator makes the whole unknown. Formatting keeps text on the left if the right
operand has only primitives.
-/
import Mathlib.Data.List.ProdSigma
import TypeInfer.Library.Definitions
import TypeInfer.Proofs.Widening
import TypeInfer.Ty.Operator

namespace TypeInfer

open List

theorem isSome_mapM_iff {α β : Type} {f : α → Option β} {l : List α} :
    (l.mapM f).isSome ↔ ∀ a ∈ l, (f a).isSome := by
  induction l with
  | nil => simp
  | cons a l ih =>
    rw [mapM_cons, forall_mem_cons, ← ih]
    cases f a with
    | none => simp
    | some b => cases l.mapM f <;> simp

theorem mapM_eq_some_iff {α β : Type} {f : α → Option β} {l : List α} {r : List β} :
    l.mapM f = some r ↔ l.map f = r.map some := by
  induction l generalizing r with
  | nil => cases r <;> simp
  | cons a l ih => cases r <;> simp [Option.bind_eq_some_iff, ih]

namespace Ty

variable {f : Atom → Atom → Option Atom} {op : Operator} {a b c : Ty} {z : Atom}

/-! ### Pairs of members -/

/-- What an operation gives for every pair of members, if they all have it. -/
def overPairs (f : Atom → Atom → Option Atom) (a b : Ty) : Ty :=
  match (a.atoms.flatMap fun x => b.atoms.map fun y => (x, y)).mapM fun (x, y) => f x y with
  | some results => ofAtoms results
  | none => unknown

theorem binary_eq (op : Operator) (a b : Ty) : binary op a b = overPairs (Atom.binary? op) a b := rfl

/-- Every pair of members has the operation. -/
def Fit (f : Atom → Atom → Option Atom) (a b : Ty) : Prop := ∀ x ∈ a.atoms, ∀ y ∈ b.atoms, (f x y).isSome

theorem mem_atoms_overPairs : z ∈ (overPairs f a b).atoms ↔
    Fit f a b ∧ ∃ x ∈ a.atoms, ∃ y ∈ b.atoms, f x y = some z := by
  have hpair (p : Atom × Atom) : (p ∈ a.atoms.flatMap fun x => b.atoms.map fun y => (x, y)) ↔ p.1 ∈ a.atoms ∧ p.2 ∈ b.atoms :=
    mem_product
  have hfit : ((a.atoms.flatMap fun x => b.atoms.map fun y => (x, y)).mapM fun (x, y) => f x y).isSome ↔ Fit f a b := by
    rw [isSome_mapM_iff, Fit]
    exact ⟨fun h x hx y hy => h (x, y) ((hpair _).2 ⟨hx, hy⟩), fun h p hp => h p.1 ((hpair p).1 hp).1 p.2 ((hpair p).1 hp).2⟩
  unfold overPairs
  rw [← hfit]
  split
  · rename_i results hresults
    have hmem : z ∈ results ↔ some z ∈ results.map some := by simp
    rw [mem_atoms_ofAtoms, hmem, ← mapM_eq_some_iff.1 hresults, mem_map, hresults, Option.isSome_some]
    exact ⟨fun ⟨p, hp, hz⟩ => ⟨rfl, p.1, ((hpair p).1 hp).1, p.2, ((hpair p).1 hp).2, hz⟩,
      fun ⟨_, x, hx, y, hy, hz⟩ => ⟨(x, y), (hpair _).2 ⟨hx, hy⟩, hz⟩⟩
  · rename_i hnone
    simp [hnone]

theorem overPairs_comm (f : Atom → Atom → Option Atom) (a b : Ty) :
    overPairs f a b = overPairs (fun x y => f y x) b a := by
  refine ext_atoms fun z => ?_
  simp only [mem_atoms_overPairs, Fit]
  exact and_congr ⟨fun h y hy x hx => h x hx y hy, fun h x hx y hy => h y hy x hx⟩
    ⟨fun ⟨x, hx, y, hy, hz⟩ => ⟨y, hy, x, hx, hz⟩, fun ⟨y, hy, x, hx, hz⟩ => ⟨x, hx, y, hy, hz⟩⟩

theorem ne_unknown_iff : a ≠ unknown ↔ ∃ x, x ∈ a.atoms := by
  refine ⟨fun h => exists_mem_of_ne_nil _ fun hnil => h (ext_atoms fun x => by simp [hnil]), ?_⟩
  rintro ⟨x, hx⟩ rfl
  exact not_mem_nil hx

theorem overPairs_ne_unknown_iff (ha : a ≠ unknown) (hb : b ≠ unknown) : overPairs f a b ≠ unknown ↔ Fit f a b := by
  obtain ⟨x, hx⟩ := ne_unknown_iff.1 ha
  obtain ⟨y, hy⟩ := ne_unknown_iff.1 hb
  rw [ne_unknown_iff]
  refine ⟨fun ⟨z, hz⟩ => (mem_atoms_overPairs.1 hz).1, fun h => ?_⟩
  obtain ⟨z, hz⟩ := Option.isSome_iff_exists.1 (h x hx y hy)
  exact ⟨z, mem_atoms_overPairs.2 ⟨h, x, hx, y, hy, hz⟩⟩

theorem fit_merge : Fit f (a.merge b) c ↔ Fit f a c ∧ Fit f b c := by
  simp only [Fit, mem_atoms_merge, or_imp, forall_and]

/-- Unknown just if one of the narrower results is, and the wider of them otherwise. -/
def Joins (wide a b : Ty) : Prop :=
  (wide = unknown ↔ a = unknown ∨ b = unknown) ∧ (a ≠ unknown → b ≠ unknown → wide = a.merge b)

theorem joins_overPairs (f : Atom → Atom → Option Atom) (ha : a ≠ unknown) (hb : b ≠ unknown) (hc : c ≠ unknown) :
    Joins (overPairs f (a.merge b) c) (overPairs f a c) (overPairs f b c) := by
  have hab : a.merge b ≠ unknown := by
    obtain ⟨x, hx⟩ := ne_unknown_iff.1 ha
    exact ne_unknown_iff.2 ⟨x, mem_atoms_merge.2 (.inl hx)⟩
  refine ⟨not_iff_not.1 ?_, fun hac hbc => ext_atoms fun z => ?_⟩
  · rw [not_or]
    simp only [← ne_eq]
    rw [overPairs_ne_unknown_iff hab hc, overPairs_ne_unknown_iff ha hc, overPairs_ne_unknown_iff hb hc, fit_merge]
  · rw [overPairs_ne_unknown_iff ha hc] at hac
    rw [overPairs_ne_unknown_iff hb hc] at hbc
    simp only [mem_atoms_merge, mem_atoms_overPairs, fit_merge, hac, hbc, and_self, true_and, or_and_right, exists_or]

/-! ### Widening -/

theorem unary_merge {op} (hop : op ≠ .not) (a b : Ty) :
    unary op (a.merge b) = (unary op a).merge (unary op b) := by
  refine ext_atoms fun z => ?_
  simp only [unary, if_neg hop, mem_atoms_merge, mem_atoms_ofAtoms, mem_filterMap, or_and_right, exists_or]

/-- An operator other than `not` on the wider of two types gives the wider of its results. A binary
operator on a wider operand gives an unknown type just if it gives one for either of the two types,
and the wider of the two results otherwise. All results are flat. -/
theorem operators_respect_widening (a b c : Ty) :
    (∀ op, op ≠ .not → unary op (a.merge b) = (unary op a).merge (unary op b)) ∧
    (a ≠ unknown → b ≠ unknown → c ≠ unknown → ∀ op,
      Joins (binary op (a.merge b) c) (binary op a c) (binary op b c) ∧
      Joins (binary op c (a.merge b)) (binary op c a) (binary op c b)) ∧
    (∀ op, (unary op a).IsFlat) ∧ ∀ op, (binary op a b).IsFlat := by
  refine ⟨fun op hop => unary_merge hop a b, fun ha hb hc op => ⟨joins_overPairs _ ha hb hc, ?_⟩,
    fun op => isFlat _, fun op => isFlat _⟩
  simp only [binary_eq, overPairs_comm _ c]
  exact joins_overPairs _ ha hb hc

/-- Adding a number to a union of numbers, and to one with a text. -/
theorem operators_respect_widening_number :
    binary .add ((prim .int).merge (prim .float)) (prim .bool) = (prim .int).merge (prim .float) ∧
    binary .add ((prim .int).merge (prim .str)) (prim .bool) = unknown ∧
    unary .neg ((prim .bool).merge (prim .str)) = (unary .neg (prim .bool)).merge (unary .neg (prim .str)) := by
  obtain ⟨hunary, -⟩ := operators_respect_widening (prim .bool) (prim .str) unknown
  obtain ⟨-, hnumbers, -⟩ := operators_respect_widening (prim .int) (prim .float) (prim .bool)
  obtain ⟨-, htext, -⟩ := operators_respect_widening (prim .int) (prim .str) (prim .bool)
  refine ⟨?_, ?_, hunary .neg (by decide)⟩
  · exact (hnumbers (by decide) (by decide) (by decide) .add).1.2 (by decide) (by decide)
  · exact (htext (by decide) (by decide) (by decide) .add).1.1.2 (.inr (by decide))

/-! ### Formatting -/

theorem binary?_mod {x y} (hx : x = .prim .str ∨ x = .prim .bytes) :
    x.binary? .mod y = some z ↔ (∃ p, y = .prim p) ∧ x = z := by
  rcases hx with rfl | rfl <;> cases y <;> simp [Atom.binary?, Prim.binary?, Prim.rank?, Prim.textBinary]

/-- Where the left operand is text or bytes, formatting gives it back, whatever primitives the right one
has. If a member on the right is no primitive, such as a tuple, it gives the unknown type. -/
theorem formatting_keeps_text {left right : Ty} (hleft : ∀ x ∈ left.atoms, x = .prim .str ∨ x = .prim .bytes)
    (hright : right ≠ unknown) :
    ((∀ y ∈ right.atoms, ∃ p, y = .prim p) → binary .mod left right = left) ∧
    ((∃ y ∈ right.atoms, ∀ p, y ≠ .prim p) → binary .mod left right = unknown) := by
  refine ⟨fun hall => ext_atoms fun z => ?_, fun ⟨y, hy, hother⟩ => ?_⟩
  · have hfit : Fit (Atom.binary? .mod) left right := fun x hx y hy =>
      Option.isSome_iff_exists.2 ⟨x, (binary?_mod (hleft x hx)).2 ⟨hall y hy, rfl⟩⟩
    obtain ⟨y, hy⟩ := ne_unknown_iff.1 hright
    rw [binary_eq, mem_atoms_overPairs]
    refine ⟨fun ⟨_, x, hx, y, _, hz⟩ => ?_, fun hz => ⟨hfit, z, hz, y, hy, ?_⟩⟩
    · obtain ⟨-, rfl⟩ := (binary?_mod (hleft x hx)).1 hz
      exact hx
    · exact (binary?_mod (hleft z hz)).2 ⟨hall y hy, rfl⟩
  · refine Classical.not_not.1 fun hne => ?_
    obtain ⟨z, hz⟩ := ne_unknown_iff.1 hne
    obtain ⟨hfit, x, hx, -⟩ := mem_atoms_overPairs.1 hz
    obtain ⟨w, hw⟩ := Option.isSome_iff_exists.1 (hfit x hx y hy)
    obtain ⟨⟨p, hp⟩, -⟩ := (binary?_mod (hleft x hx)).1 hw
    exact hother p hp

/-- Text or bytes, formatted with a number or nothing. -/
theorem formatting_keeps_text_number :
    binary .mod ((prim .str).merge (prim .bytes)) ((prim .int).merge (prim .noneType)) = (prim .str).merge (prim .bytes) := by
  refine (formatting_keeps_text (fun x hx => ?_) (by decide)).1 fun y hy => ?_
  · simpa [mem_atoms_merge, prim] using hx
  · have hprim : y = .prim .int ∨ y = .prim .noneType := by simpa [mem_atoms_merge, prim] using hy
    exact hprim.elim (fun h => ⟨_, h⟩) fun h => ⟨_, h⟩

/-- A text is not formatted with a tuple. -/
theorem formatting_refuses_tuple :
    binary .mod (prim .str) (inst Library.installed.1.tuple) = unknown ∧ unknown ≠ prim .str := by
  decide

end Ty

end TypeInfer
