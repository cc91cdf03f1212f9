/-
Trees of files after any changes, from the empty one. What is stored stands in a stored directory
(`FileTree.Nested`), so adding a directory may stop at the first that is stored, and a listing tells
all that stands in a directory.
-/
import TypeInfer.Proofs.Listing

namespace TypeInfer.FileTree

open List

variable {t : FileTree} {dir : Path}

/-- What can be done to a tree of files. -/
inductive Change where
  | addFile (p : Path) (text : String)
  | write (p : Path) (text : String)
  | makeDirs (p : Path)
  | removeDir (p : Path)

def change? (t : FileTree) : Change → Except FileError FileTree
  | .addFile p text => .ok (t.addFile p text)
  | .write p text => t.write p text
  | .makeDirs p => t.makeDirs p
  | .removeDir p => t.removeDir p

/-- The tree after a change, which may fail. -/
def change (t : FileTree) (c : Change) : FileTree := (t.change? c).toOption.getD t

theorem change_cases (t : FileTree) (c : Change) : t.change c = t ∨ t.change? c = .ok (t.change c) := by
  rw [change]
  cases t.change? c with
  | error e => exact .inl rfl
  | ok t' => exact .inr rfl

theorem Built.change (h : t.Built) (c : Change) : (t.change c).Built := by
  rcases t.change_cases c with heq | hok
  · rw [heq]
    exact h
  · cases c with
    | addFile p text => exact Except.ok.inj hok ▸ h.addFile p text
    | write p text => exact h.write hok
    | makeDirs p => exact h.makeDirs hok
    | removeDir p => exact h.removeDir hok

/-- No change tells what may be listed. -/
theorem denyList_change (t : FileTree) (c : Change) : (t.change c).denyList = t.denyList := by
  rcases t.change_cases c with heq | hok
  · rw [heq]
  · cases c with
    | addFile p text =>
      rw [← Except.ok.inj hok, addFile]
      cases (t.fullPath p).parent? <;> rfl
    | write p text => rw [write_eq_putFile hok]; rfl
    | makeDirs p => rw [makeDirs_eq_addDirs hok]; rfl
    | removeDir p =>
      rw [change?, removeDir] at hok
      split at hok
      · contradiction
      · rw [← Except.ok.inj hok]

/-- Around a directory that is stored all are. -/
theorem Nested.mem_dirs_of_mem_ancestorsFrom (h : t.Nested) {p d steps} (hp : p ∈ t.dirs) (hd : d ∈ p.ancestorsFrom steps) :
    d ∈ t.dirs := by
  induction steps generalizing p with
  | zero => exact mem_singleton.1 hd ▸ hp
  | succ steps ih =>
    rcases mem_cons.1 hd with rfl | hd
    · exact hp
    · cases hparent : p.parent? with
      | none => simp [hparent] at hd
      | some around =>
        rw [hparent] at hd
        exact ih (h.around p (mem_append_right _ hp) around hparent) hd

theorem Nested.entries_perm (h : t.Nested) (dir : Path) :
    (t.entries dir).Perm ((t.filePaths ++ t.dirs).filter fun p => p.parent? == some dir) := by
  refine (mergeSort_perm ..).trans (.of_eq (filter_congr fun p hp => ?_))
  rw [isChild]
  cases hparent : p.parent? == some dir with
  | false => rfl
  | true =>
    have hshorter := ((h.isResolved hp).parent (beq_iff_eq.1 hparent)).2
    have hne : p ≠ dir := fun he => Nat.lt_irrefl _ (he ▸ hshorter)
    simpa using hne

/-- A tree of files in which each file and directory is stored once and in a directory. -/
structure IsTree (t : FileTree) : Prop where
  around : ∀ p ∈ t.filePaths ++ t.dirs, ∀ dir, p.parent? = some dir → dir ∈ t.dirs
  once : t.filePaths.Nodup ∧ t.dirs.Nodup
  /-- Adding a directory leaves none around it missing. -/
  addDirs : ∀ p, ∀ d ∈ (t.fullPath p).ancestors, d ∈ (t.addDirs (t.fullPath p)).dirs
  /-- A listing tells in order what stands right in a directory, no more and no less. -/
  list : ∀ p, t.fullPath p ∈ t.dirs → ∃ entries, t.list p = .ok entries ∧
    (entries.Pairwise fun a b => compare a b ≠ .gt) ∧
    entries.Perm ((t.filePaths ++ t.dirs).filter fun q => q.parent? == some (t.fullPath p))
  /-- A change that fails changes nothing. -/
  change : ∀ c e, t.change? c = .error e → t.change c = t

theorem Built.isTree (h : t.Built) (hdeny : t.denyList = []) : t.IsTree where
  around := h.nested.around
  once := ⟨h.nested.files, h.nested.dirs⟩
  addDirs p _ hd :=
    (h.nested.addDirs (isResolved_fullPath h.rooted.cwd p)).mem_dirs_of_mem_ancestorsFrom (t.mem_addDirs_self _) hd
  list p hp := ⟨_, list_eq hdeny (contains_iff_mem.2 hp), pairwise_sorted _, h.nested.entries_perm _⟩
  change c e he := (t.change_cases c).resolve_right fun hok => by rw [he] at hok; contradiction

end TypeInfer.FileTree
