/-
Finite sets as strictly ascending lists: equal sets are equal lists. Tables in
the order of their keys, where keys that compare equal are one key.
-/
import Std.Data.TreeMap

namespace TypeInfer.Ordered

/-- Each item comes before all that follow it. -/
def Strict [Ord α] (xs : List α) : Prop := xs.Pairwise fun a b => compare a b = .lt

/-- Puts an item at its place; an item that is there already is kept. -/
def insert [Ord α] (a : α) : List α → List α
  | [] => [a]
  | b :: bs =>
    match compare a b with
    | .lt => a :: b :: bs
    | .eq => b :: bs
    | .gt => b :: insert a bs

def ofList [Ord α] (xs : List α) : List α := xs.foldr insert []

/-- Changes the value under a key, which is `start` at first. A key keeps the
spelling that it was first given. -/
def update [Ord α] (table : Std.TreeMap α β) (key : α) (start : β) (f : β → β) : Std.TreeMap α β :=
  table.insert (table.getKeyD key key) (f (table.getD key start))

theorem mem_of_mem_insert [Ord α] {a x : α} {bs : List α} (h : x ∈ insert a bs) :
    x = a ∨ x ∈ bs := by
  induction bs with
  | nil => simpa [insert] using h
  | cons b bs ih =>
    rw [insert] at h
    split at h
    · simpa using h
    · exact .inr h
    · rcases List.mem_cons.1 h with h | h
      · exact .inr (h ▸ List.mem_cons_self)
      · exact (ih h).imp id (List.mem_cons_of_mem b)

theorem strict_insert [Ord α] [Std.TransOrd α] (a : α) {bs : List α} (h : Strict bs) :
    Strict (insert a bs) := by
  induction bs with
  | nil => simp [insert, Strict]
  | cons b bs ih =>
    have hb := List.pairwise_cons.1 h
    rw [insert]
    split
    · rename_i hab
      refine List.pairwise_cons.2 ⟨fun x hx => ?_, h⟩
      rcases List.mem_cons.1 hx with rfl | hx
      · exact hab
      · exact Std.TransCmp.lt_trans hab (hb.1 x hx)
    · exact h
    · rename_i hab
      refine List.pairwise_cons.2 ⟨fun x hx => ?_, ih hb.2⟩
      rcases mem_of_mem_insert hx with rfl | hx
      · exact Std.OrientedCmp.gt_iff_lt.1 hab
      · exact hb.1 x hx

theorem strict_ofList [Ord α] [Std.TransOrd α] (xs : List α) : Strict (ofList xs) := by
  induction xs with
  | nil => exact List.Pairwise.nil
  | cons a xs ih => exact strict_insert a ih

end TypeInfer.Ordered
