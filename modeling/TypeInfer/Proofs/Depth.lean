/-
Applications and loads do not nest without end. A file is loaded once, and a definition is not
applied under a key that is in progress; there are finitely many of both, so there is a depth
within which nothing gets stuck (`Bounds.Holds.follows`).
-/
import Mathlib.Data.Finset.Card
import TypeInfer.Proofs.Apply
import TypeInfer.Proofs.CallKeys
import TypeInfer.Proofs.LibraryTables

namespace TypeInfer

open List

namespace Analysis

/-- The file is being loaded, was loaded or has no tree. -/
def settled (s : Analysis) (file : Path) : Bool :=
  s.importing.contains file || (s.modules.lookup file.moduleQname).isSome || s.hasFailed file

/-- The files that may still be loaded. -/
def pending (sources : Finset Path) (s : Analysis) : Finset Path := sources.filter fun file => s.settled file = false

/-- The keys under which no application is in progress. -/
def idle (keys : Finset CallKey) (s : Analysis) : Finset CallKey := keys.filter fun key => s.running.contains key = false

theorem IsNew.not_settled {code : Code} {s : Analysis} {file : Path} (h : s.IsNew code file) : s.settled file = false := by
  rw [settled, h.idle, h.unnamed, h.faultless]
  rfl

end Analysis

variable {code : Code} {s t : Analysis} {file : Path} {sources : Finset Path}

theorem Run.settled (h : Run code s t) (hs : s.settled file) : t.settled file := by
  simp only [Analysis.settled, Bool.or_eq_true] at hs ⊢
  rcases hs with (hs | hs) | hs
  · rw [h.stacks.importing]
    exact .inl (.inl hs)
  · obtain ⟨m, hm⟩ := Option.isSome_iff_exists.1 hs
    exact .inl (.inr (Option.isSome_iff_exists.2 ⟨m, h.lookup_modules hm⟩))
  · exact .inr (h.hasFailed hs)

theorem Analysis.pending_subset (sources : Finset Path) (h : ∀ file, s.settled file → t.settled file) :
    t.pending sources ⊆ s.pending sources := by
  intro file hfile
  obtain ⟨hmem, hsettled⟩ := Finset.mem_filter.1 hfile
  refine Finset.mem_filter.2 ⟨hmem, Bool.eq_false_iff.2 fun hs => ?_⟩
  rw [h file hs] at hsettled
  contradiction

/-- Once a file is settled, one file less is pending. -/
theorem Analysis.pending_lt (h : ∀ file, s.settled file → t.settled file) (hfile : file ∈ sources)
    (hs : s.settled file = false) (ht : t.settled file) : (t.pending sources).card < (s.pending sources).card := by
  refine Finset.card_lt_card ((Finset.ssubset_iff_of_subset (pending_subset sources h)).2 ⟨file, ?_, fun hmem => ?_⟩)
  · exact Finset.mem_filter.2 ⟨hfile, hs⟩
  · have hsettled := (Finset.mem_filter.1 hmem).2
    rw [ht] at hsettled
    contradiction

theorem Run.card_pending (h : Run code s t) (sources : Finset Path) :
    (t.pending sources).card ≤ (s.pending sources).card :=
  Finset.card_le_card (Analysis.pending_subset sources fun _ => h.settled)

theorem Run.idle_eq (h : Run code s t) (keys : Finset CallKey) : t.idle keys = s.idle keys := by
  rw [Analysis.idle, Analysis.idle, h.stacks.running]

/-! ### Modules -/

/-- The source files of the tree are among the given ones. -/
def FileTree.Lists (sources : Finset Path) (t : FileTree) : Prop :=
  ∀ p, (t.fullPath p).isSourceFile → t.fileExists (t.fullPath p) → t.fullPath p ∈ sources

theorem FileTree.SameSources.lists {t t' : FileTree} (h : t.SameSources t') (ht : t.Lists sources) :
    t'.Lists sources := by
  intro p hsource hexists
  rw [h.fullPath] at hsource ⊢
  refine ht p hsource ?_
  rw [fileExists, file?, h.fullPath, h.fullPath, h.sources _ (t.isSourceFile_fullPath hsource)] at hexists
  exact hexists

/-- Not all code is in the given one, so that only source files are read. -/
def Code.IsProper (code : Code) : Prop := ∃ n, ¬ code.Has n

theorem Code.IsProper.isSourceFile (h : code.IsProper) (hreads : code.Reads file) : file.isSourceFile := by
  obtain ⟨n, hn⟩ := h
  exact hreads.resolve_right fun hall => hn (hall n)

theorem Analysis.IsNew.mem (h : s.IsNew code file) (hcode : code.IsProper) (hs : s.files.Lists sources) :
    file ∈ sources := by
  obtain ⟨path, rfl⟩ := h.full
  exact hs path (hcode.isSourceFile h.reads) h.present

theorem Analysis.settled_begun (s : Analysis) (file : Path) :
    (s.begun file).settled file ∧ ∀ f, s.settled f → (s.begun file).settled f := by
  have heq : ∀ f, (s.begun file).settled f =
      (((file :: s.importing).contains f) || (s.modules.lookup f.moduleQname).isSome || s.hasFailed f) := fun _ => rfl
  refine ⟨by simp [heq], fun f hf => ?_⟩
  simp only [settled, Bool.or_eq_true] at hf
  simp only [heq, contains_cons, Bool.or_eq_true]
  exact hf.imp_left fun h => h.imp_left .inr

theorem Analysis.modules_begun (s : Analysis) (file : Path) :
    (s.begun file).types.modules.size = s.types.modules.size + 1 := by
  change (s.types.modules.push _).size = _
  exact Array.size_push ..

/-- A file that is left is settled, as it is loaded now. -/
theorem Analysis.settled_ended (s t : Analysis) (file : Path) {f} (ht : t.settled f) :
    (s.ended file t).settled f := by
  have heq : (s.ended file t).settled f = ((t.importing.erase file).contains f ||
      (((file.moduleQname, s.nextModule) :: t.modules).lookup f.moduleQname).isSome || t.hasFailed f) := rfl
  by_cases hfile : f = file
  · subst hfile
    simp [heq]
  · simp only [settled, Bool.or_eq_true, contains_eq_mem, decide_eq_true_eq] at ht
    simp only [heq, Bool.or_eq_true, contains_eq_mem, decide_eq_true_eq, mem_erase_of_ne hfile]
    refine ht.imp_left fun h => h.imp_right fun h => ?_
    rw [lookup_cons]
    split
    · rfl
    · exact h

theorem Analysis.card_pending_ended (s t : Analysis) (file : Path) (sources : Finset Path) :
    ((s.ended file t).pending sources).card ≤ (t.pending sources).card :=
  Finset.card_le_card (Analysis.pending_subset sources fun _ => s.settled_ended t file)

/-- Entering a file makes a module and settles the file. -/
theorem Analysis.IsNew.card_pending (h : s.IsNew code file) (hcode : code.IsProper) (hs : s.files.Lists sources) :
    ((s.begun file).pending sources).card < (s.pending sources).card :=
  Analysis.pending_lt (s.settled_begun file).2 (h.mem hcode hs) h.not_settled (s.settled_begun file).1

theorem Step.modules_add_pending (h : Step code s t) (sources : Finset Path) :
    t.types.modules.size + (t.pending sources).card ≤ s.types.modules.size + (s.pending sources).card := by
  have hpending := (Run.step h).card_pending sources
  obtain ⟨_, _, _, _, _, _, _, _, _, _, rfl, -, -⟩ := h.frame
  exact Nat.add_le_add_left hpending _

/-- Each module that a run makes is paid for by a file that is pending no more. -/
theorem Run.modules_add_pending (h : Run code s t) (hcode : code.IsProper) (hs : s.files.Lists sources) :
    t.types.modules.size + (t.pending sources).card ≤ s.types.modules.size + (s.pending sources).card := by
  induction h with
  | refl s => exact Nat.le_refl _
  | trans first _ ih ih' => exact Nat.le_trans (ih' (first.files.lists hs)) (ih hs)
  | step h => exact h.modules_add_pending sources
  | call body there hsignature hlength unknown idle run ih => exact ih hs
  | @unread s file event faults new fails aside =>
    have hrun : Run code s _ := .unread event faults new fails aside
    exact Nat.add_le_add_left (hrun.card_pending sources) _
  | @load s t u v file tree new opens run search joins ih ih' =>
    have hbegun := (s.sameSources_opened file).lists hs
    have hinner := ih hbegun
    have hentered := new.card_pending hcode hs
    have hmodules := s.modules_begun file
    have hended : t.types.modules.size + ((s.ended file t).pending sources).card ≤
        t.types.modules.size + (t.pending sources).card := Nat.add_le_add_left (s.card_pending_ended t file sources) _
    have hsearch : u.types.modules.size + (u.pending sources).card ≤
        t.types.modules.size + ((s.ended file t).pending sources).card := ih' (run.files.lists hbegun)
    have hjoined : v.types.modules.size + (v.pending sources).card ≤ u.types.modules.size + (u.pending sources).card := by
      rcases joins.step code with rfl | hstep
      · exact Nat.le_refl _
      · exact hstep.modules_add_pending sources
    omega

/-! ### The bounds of an analysis -/

/-- Finite sets of files and keys, where the keys are those with types up to given sizes. -/
structure Bounds (code : Code) where
  sources : Finset Path
  sizes : Sizes
  keys : Finset CallKey
  classes : Library.sizes.classes ≤ sizes.classes
  funs : Library.sizes.funs ≤ sizes.funs
  known : ∀ key : CallKey, key.Known code sizes → key ∈ keys
  proper : code.IsProper

namespace Bounds

/-- All source files are known, and there is room for the modules of those that are pending. -/
structure Holds (b : Bounds code) (s : Analysis) : Prop where
  closed : s.Closed code
  rooted : s.files.Rooted
  sources : s.files.Lists b.sources
  room : s.types.modules.size + (s.pending b.sources).card ≤ b.sizes.modules

/-- How much can still be entered. -/
def left (b : Bounds code) (s : Analysis) : Nat := (s.pending b.sources).card + (s.idle b.keys).card

variable {b : Bounds code}

theorem Holds.run (h : b.Holds s) (hrun : Run code s t) : b.Holds t :=
  ⟨hrun.closed h.closed, hrun.files.rooted h.rooted, hrun.files.lists h.sources,
    Nat.le_trans (hrun.modules_add_pending b.proper h.sources) h.room⟩

theorem left_le (hrun : Run code s t) : b.left t ≤ b.left s := by
  rw [left, left, hrun.idle_eq]
  exact Nat.add_le_add_right (hrun.card_pending b.sources) _

/-- Entering an application takes up its key. -/
theorem Holds.left_enterCall (h : b.Holds s) {f d signature} (dir : Path)
    (hbody : (s.types.function f).body = .source d)
    (hsignature : ∀ ty ∈ signature, ty.Within s.sizes)
    (hlength : signature.length = d.params.length)
    (hidle : s.running.contains (s.callKey d signature) = false) :
    b.left (s.enterCall f (s.callKey d signature) dir) < b.left s := by
  have hmodules : s.types.modules.size ≤ b.sizes.modules := Nat.le_trans (Nat.le_add_right _ _) h.room
  have hkey := b.known _ (h.closed.sited.known_callKey hmodules b.classes b.funs hbody hsignature hlength)
  have hidle' : ((s.enterCall f (s.callKey d signature) dir).idle b.keys).card < (s.idle b.keys).card := by
    refine Finset.card_lt_card ((Finset.ssubset_iff_of_subset fun key hmem => ?_).2 ⟨s.callKey d signature, ?_, fun hmem => ?_⟩)
    · obtain ⟨hmem, hrunning⟩ := Finset.mem_filter.1 hmem
      refine Finset.mem_filter.2 ⟨hmem, Bool.eq_false_iff.2 fun hs => ?_⟩
      have hcontains : (s.enterCall f (s.callKey d signature) dir).running.contains key := by
        simp only [Analysis.enterCall, contains_cons, hs, Bool.or_true]
      rw [hcontains] at hrunning
      contradiction
    · exact Finset.mem_filter.2 ⟨hkey, hidle⟩
    · have hrunning := (Finset.mem_filter.1 hmem).2
      simp [Analysis.enterCall] at hrunning
  exact Nat.add_lt_add_left hidle' _

theorem Holds.begun (h : b.Holds s) (hnew : s.IsNew code file) : b.Holds (s.begun file) := by
  have hsame := s.sameSources_opened file
  refine ⟨h.closed.begun hnew, hsame.rooted h.rooted, hsame.lists h.sources, ?_⟩
  have hpending := hnew.card_pending b.proper h.sources
  have hmodules := s.modules_begun file
  have hroom := h.room
  omega

theorem Holds.enters {base} (h : b.Holds s) (henters : Enters code s base) :
    b.Holds base ∧ b.left base < b.left s := by
  cases henters with
  | call body there hsignature hlength unknown idle =>
    exact ⟨{ h with closed := h.closed.enterCall .. }, h.left_enterCall _ body hsignature hlength idle⟩
  | load new opens => exact ⟨h.begun new, Nat.add_lt_add_right (new.card_pending b.proper h.sources) _⟩
  | @loaded t file tree new opens run =>
    have ht := (h.begun new).run run
    have hended := s.card_pending_ended t file b.sources
    have hroom : t.types.modules.size + ((s.ended file t).pending b.sources).card ≤ b.sizes.modules :=
      Nat.le_trans (Nat.add_le_add_left hended _) ht.room
    refine ⟨⟨(Enters.loaded new opens run).closed h.closed, ht.rooted, ht.sources, hroom⟩, ?_⟩
    have hpending := Nat.lt_of_le_of_lt (run.card_pending b.sources) (new.card_pending b.proper h.sources)
    have hidle : (s.ended file t).idle b.keys = s.idle b.keys := run.idle_eq b.keys
    rw [left, left, hidle]
    exact Nat.add_lt_add_right (Nat.lt_of_le_of_lt hended hpending) _

/-- The code of a state that stays within the bounds. -/
def setting (_ : Bounds code) (depth : Nat) (base : Analysis) : Setting := .ofDepth code False base depth

/-- Within the depth that is left to enter nothing gets stuck. -/
theorem Holds.follows (h : b.Holds s) {depth} (hdepth : b.left s < depth) :
    (b.setting depth s).Follows := by
  induction depth generalizing s with
  | zero => contradiction
  | succ depth ih =>
    refine Setting.follows_ofDepth fun t base _ hrun henters => ?_
    obtain ⟨hbase, hlt⟩ := (h.run hrun).enters henters
    exact ih hbase (Nat.lt_of_lt_of_le hlt (Nat.le_trans (left_le hrun) (Nat.le_of_lt_succ hdepth)))

end Bounds

end TypeInfer
