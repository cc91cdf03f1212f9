/-
What stands in a tree of files after a change. Different names in one directory
are different places, a file that is written is there with its new text, and
nothing else changes.
-/
import TypeInfer.FileTree
import TypeInfer.Proofs.Paths

namespace TypeInfer

open List

namespace Path

theorem IsResolved.ancestorsFrom {p dir : Path} {steps : Nat} (h : p.IsResolved) (hdir : dir ∈ p.ancestorsFrom steps) :
    dir.IsResolved := by
  induction steps generalizing p with
  | zero =>
    rw [mem_singleton.1 hdir]
    exact h
  | succ steps ih =>
    rw [Path.ancestorsFrom] at hdir
    rcases mem_cons.1 hdir with rfl | hdir
    · exact h
    · cases hparent : p.parent? with
      | none => simp [hparent] at hdir
      | some q =>
        rw [hparent] at hdir
        exact ih (h.parent hparent).1 hdir

end Path

namespace FileTree

/-- The directory that a path is resolved from, with the path itself. -/
def absolute (t : FileTree) (p : Path) : Path := if p.isAbsolute then p else t.cwd.join p

theorem fullPath_eq (t : FileTree) (p : Path) : t.fullPath p = Path.ofComponents (t.absolute p).steps := by
  rw [fullPath, Path.resolveFrom, absolute]
  split <;> rfl

theorem absolute_child (t : FileTree) (dir : Path) {n} (h : Path.IsName n) :
    t.absolute (dir.child n) = (t.absolute dir).child n := by
  rw [absolute, absolute, Path.isAbsolute_child dir h]
  split
  · rfl
  · rename_i hd
    exact Path.join_child _ _ h (by simpa using hd)

theorem text_fullPath_child (t : FileTree) (dir : Path) {n} (h : Path.IsName n) :
    (t.fullPath (dir.child n)).text = Path.textBefore (t.absolute dir).steps ++ n := by
  rw [fullPath_eq, absolute_child t dir h, Path.steps_child _ h, Path.text_ofComponents_concat]

/-- Different names in a directory are different places. -/
theorem fullPath_child_inj {t : FileTree} {dir : Path} {m n : String} (hm : Path.IsName m)
    (hn : Path.IsName n) (h : t.fullPath (dir.child m) = t.fullPath (dir.child n)) : m = n := by
  have htext := congrArg Path.text h
  rw [text_fullPath_child t dir hm, text_fullPath_child t dir hn, ← String.toList_inj] at htext
  rw [String.toList_append, String.toList_append, append_cancel_left_eq] at htext
  exact String.toList_inj.1 htext

theorem isSourceFile_fullPath (t : FileTree) {p} (h : p.isSourceFile) :
    (t.fullPath p).isSourceFile := by
  rw [fullPath, Path.resolveFrom]
  split
  · exact Path.isSourceFile_resolve h
  · exact Path.isSourceFile_resolve (Path.isSourceFile_join _ h)

/-! ### Changes -/

variable {t t' : FileTree} {p q : Path} {text : String}

theorem lookup_filter (keep : Path → Bool) (p : Path) (files : List (Path × String)) :
    (files.filter fun f => keep f.1).lookup p = if keep p then files.lookup p else none := by
  induction files with
  | nil => simp
  | cons f files ih =>
    obtain ⟨k, s⟩ := f
    rw [filter_cons]
    by_cases hk : p = k
    · subst hk
      cases hkeep : keep p with
      | true => simp
      | false => simp [ih, hkeep]
    · have hpk : (p == k) = false := by simpa using hk
      rw [lookup_cons, hpk, ← ih]
      cases keep k with
      | true => rw [if_pos rfl, lookup_cons, hpk]
      | false => rfl

theorem lookup_putFile (t : FileTree) (full q : Path) (text : String) :
    (t.putFile full text).files.lookup q = if q = full then some text else t.files.lookup q := by
  change (t.files.filter (fun f => f.1 != full) ++ [(full, text)]).lookup q = _
  rw [lookup_append, lookup_filter (fun k => k != full)]
  by_cases h : q = full
  · simp [h]
  · have hlast : [(full, text)].lookup q = none := by simpa [lookup_eq_none_iff] using h
    simp [h, hlast]

theorem file?_putFile (t : FileTree) (full q : Path) (text : String) :
    (t.putFile full text).file? q = if t.fullPath q = full then some text else t.file? q :=
  t.lookup_putFile full (t.fullPath q) text

theorem write_eq_putFile (h : t.write p text = .ok t') : t' = t.putFile (t.fullPath p) text := by
  unfold write at h
  split at h
  · contradiction
  · dsimp only at h
    split at h
    · split at h
      · exact (Except.ok.inj h).symm
      · contradiction
    · contradiction

theorem file?_of_file?_removeDir (h : t.removeDir p = .ok t') (hq : t'.file? q = some text) :
    t.file? q = some text := by
  unfold removeDir at h
  split at h
  · contradiction
  · obtain rfl := Except.ok.inj h
    change (t.files.filter fun f => !f.1.startsWith (t.fullPath p)).lookup (t.fullPath q) = _ at hq
    rw [lookup_filter (fun k => !k.startsWith (t.fullPath p))] at hq
    split at hq
    · exact hq
    · contradiction

@[simp] theorem file?_addDirs (t : FileTree) (dir p : Path) : (t.addDirs dir).file? p = t.file? p := rfl

theorem makeDirs_eq_addDirs (h : t.makeDirs p = .ok t') : t' = t.addDirs (t.fullPath p) := by
  unfold makeDirs at h
  dsimp only at h
  split at h
  · contradiction
  · split at h
    · contradiction
    · exact (Except.ok.inj h).symm

theorem file?_of_read (h : t.read p = .ok text) : t.file? p = some text := by
  unfold read at h
  split at h
  · contradiction
  · split at h
    · rename_i htext
      rw [htext, Except.ok.inj h]
    · contradiction

/-! ### Trees that can be built -/

theorem isAbsolute_absolute (h : t.cwd.isAbsolute) (p : Path) : (t.absolute p).isAbsolute := by
  rw [absolute]
  split
  · assumption
  · rename_i hp
    have hp : p.isAbsolute = false := by simpa using hp
    simp only [Path.join_of_relative hp, Path.isAbsolute, beq_iff_eq, String.toList_append] at h ⊢
    rcases t.cwd.lead_cases with ⟨-, hempty⟩ | ⟨-, hhead⟩
    · simp [hempty] at h
    · simp [head?_append, hhead, h]

theorem isResolved_fullPath (h : t.cwd.isAbsolute) (p : Path) : (t.fullPath p).IsResolved := by
  rw [fullPath_eq, ← Path.resolve_eq]
  exact Path.isResolved_resolve (isAbsolute_absolute h p)

theorem fullPath_of_isResolved (t : FileTree) (h : p.IsResolved) : t.fullPath p = p := by
  rw [fullPath, Path.resolveFrom, if_pos h.isAbsolute, h.resolve]

/-- Paths are seen from the root, and all that is kept is kept under its full path. -/
structure Rooted (t : FileTree) : Prop where
  cwd : t.cwd.isAbsolute
  files : ∀ f ∈ t.files, f.1.IsResolved
  dirs : ∀ d ∈ t.dirs, d.IsResolved

namespace Rooted

section

variable (h : t.Rooted)
include h

theorem fullPath (p : Path) : t.fullPath (t.fullPath p) = t.fullPath p :=
  t.fullPath_of_isResolved (isResolved_fullPath h.cwd p)

theorem addDirs {dir : Path} (hdir : dir.IsResolved) : (t.addDirs dir).Rooted := by
  refine ⟨h.cwd, h.files, fun d hd => ?_⟩
  rcases mem_append.1 hd with hd | hd
  · exact h.dirs d hd
  · exact hdir.ancestorsFrom ((takeWhile_sublist _).mem hd)

theorem putFile (hp : p.IsResolved) (text : String) : (t.putFile p text).Rooted := by
  refine ⟨h.cwd, fun f hf => ?_, h.dirs⟩
  rcases mem_append.1 hf with hf | hf
  · exact h.files f (mem_filter.1 hf).1
  · rw [mem_singleton.1 hf]
    exact hp

theorem addFile (p : Path) (text : String) : (t.addFile p text).Rooted := by
  have hfull := isResolved_fullPath h.cwd p
  rw [FileTree.addFile]
  split
  · rename_i dir hdir
    exact (h.addDirs (hfull.parent hdir).1).putFile hfull text
  · exact h.putFile hfull text

theorem write (hw : t.write p text = .ok t') : t'.Rooted := by
  rw [write_eq_putFile hw]
  exact h.putFile (isResolved_fullPath h.cwd p) text

theorem makeDirs (hm : t.makeDirs p = .ok t') : t'.Rooted := by
  rw [makeDirs_eq_addDirs hm]
  exact h.addDirs (isResolved_fullPath h.cwd p)

theorem removeDir (hr : t.removeDir p = .ok t') : t'.Rooted := by
  unfold FileTree.removeDir at hr
  split at hr
  · contradiction
  · obtain rfl := Except.ok.inj hr
    exact ⟨h.cwd, fun f hf => h.files f (mem_filter.1 hf).1, fun d hd => h.dirs d (mem_filter.1 hd).1⟩

end

end Rooted

/-- A tree that was built from the empty one, whatever the environment and whatever is denied. -/
inductive Built : FileTree → Prop where
  | empty {t : FileTree} (files : t.files = []) (dirs : t.dirs = [⟨"/"⟩]) (cwd : t.cwd.isAbsolute) : Built t
  | addFile {t : FileTree} (h : Built t) (p : Path) (text : String) : Built (t.addFile p text)
  | write {t t' : FileTree} {p : Path} {text : String} (h : Built t) (hw : t.write p text = .ok t') : Built t'
  | makeDirs {t t' : FileTree} {p : Path} (h : Built t) (hm : t.makeDirs p = .ok t') : Built t'
  | removeDir {t t' : FileTree} {p : Path} (h : Built t) (hr : t.removeDir p = .ok t') : Built t'
  | moveTo {t : FileTree} (h : Built t) {dir : Path} (hdir : dir.isAbsolute) : Built { t with cwd := dir }

theorem Built.rooted (h : Built t) : t.Rooted := by
  induction h with
  | empty files dirs cwd =>
    refine ⟨cwd, by simp [files], fun d hd => ?_⟩
    obtain rfl : d = ⟨"/"⟩ := by simpa [dirs] using hd
    exact ⟨[.root], .root, rfl⟩
  | addFile h p text ih => exact ih.addFile p text
  | write h hw ih => exact ih.write hw
  | makeDirs h hm ih => exact ih.makeDirs hm
  | removeDir h hr ih => exact ih.removeDir hr
  | moveTo h hdir ih => exact ⟨hdir, ih.files, ih.dirs⟩

end FileTree

end TypeInfer
