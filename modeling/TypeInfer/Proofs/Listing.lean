/-
What is listed in a tree of files. All that is kept stands in a directory that is kept
(`FileTree.Nested`), and paths are ordered step by step. So the source files below a directory are
those below its entries, one entry after the other (`sourcesBelow_dir`).
-/
import Mathlib.Data.List.Dedup
import Mathlib.Data.List.TakeWhile
import TypeInfer.Proofs.Unused

namespace TypeInfer

open List

/-! ### Steps of resolved paths -/

namespace Path

variable {p q dir : Path}

theorem Trail.tail {c done} (h : Trail (c :: done)) (hne : done ≠ []) : Trail done := by
  cases h with
  | root => contradiction
  | up => exact .root
  | name h hn => exact h

section

variable (hp : p.IsResolved)
include hp

theorem IsResolved.ext (hq : q.IsResolved) (h : p.components = q.components) : p = q :=
  hp.eq_of_same hq (same_iff.2 h)

theorem IsResolved.parent?_eq_some_iff :
    p.parent? = some dir ↔ dir.IsResolved ∧ ∃ c, p.components = dir.components ++ [c] := by
  constructor
  · intro h
    refine ⟨(hp.parent h).1, ?_⟩
    obtain ⟨done, hdone, rfl⟩ := hp
    have hlast : ∀ {c : Component} {rest : List Component}, Trail (c :: rest) → Trail rest →
        (ofTrail (c :: rest)).parent? = some dir → ∃ c', (ofTrail (c :: rest)).components = dir.components ++ [c'] := by
      intro c rest hfull hrest hparent
      obtain rfl := Option.some.inj ((hfull.parent?_ofTrail hrest).symm.trans hparent)
      exact ⟨c, by rw [hrest.components_ofTrail, hfull.components_ofTrail, reverse_cons]⟩
    cases hdone with
    | root =>
      have hnone : (ofTrail [.root]).parent? = none := by decide
      rw [hnone] at h
      contradiction
    | up => exact hlast .up .root h
    | name hdone hn => exact hlast (hdone.name hn) hdone h
  · rintro ⟨⟨around, haround, rfl⟩, c, hc⟩
    obtain ⟨done, hdone, rfl⟩ := hp
    rw [hdone.components_ofTrail, haround.components_ofTrail, ← reverse_cons, reverse_inj] at hc
    subst hc
    exact hdone.parent?_ofTrail haround

theorem IsResolved.exists_parent {before c} (hne : before ≠ []) (h : p.components = before ++ [c]) :
    ∃ dir, p.parent? = some dir ∧ dir.IsResolved ∧ dir.components = before := by
  obtain ⟨done, hdone, rfl⟩ := hp
  rw [hdone.components_ofTrail, reverse_eq_append_iff] at h
  have hcons : done = c :: before.reverse := by simpa using h
  subst hcons
  have hbefore := hdone.tail (by simpa using hne)
  exact ⟨ofTrail before.reverse, hdone.parent?_ofTrail hbefore, ⟨_, hbefore, rfl⟩,
    by rw [hbefore.components_ofTrail, reverse_reverse]⟩

theorem IsResolved.components_ne_nil : p.components ≠ [] := by
  obtain ⟨done, hdone, rfl⟩ := hp
  rw [hdone.components_ofTrail, hdone.reverse_eq]
  exact cons_ne_nil _ _

end

theorem startsWith_iff : p.startsWith dir ↔ dir.components <+: p.components := isPrefixOf_iff_prefix

theorem compare_append (before : List Component) (xs ys : List Component) :
    compare (before ++ xs) (before ++ ys) = compare xs ys := by
  induction before with
  | nil => rfl
  | cons c before ih =>
    have hself : compare c c = .eq := Std.ReflCmp.compare_self
    rw [List.compare_eq_compareLex] at ih ⊢
    rw [cons_append, cons_append, List.compareLex_cons_cons, hself, ih]
    rfl

theorem compare_lt_of_children {a b x y : Path} {before : List Component} {c c' : Component}
    (ha : a.components = before ++ [c]) (hb : b.components = before ++ [c']) (hab : compare a b = .lt)
    (hx : x.startsWith a) (hy : y.startsWith b) : compare x y = .lt := by
  obtain ⟨xs, hxs⟩ := startsWith_iff.1 hx
  obtain ⟨ys, hys⟩ := startsWith_iff.1 hy
  have hcc : compare c c' = .lt := by
    rw [compare_eq, ha, hb, compare_append, List.compare_eq_compareLex, List.compareLex_cons_cons] at hab
    rcases Ordering.then_eq_lt.1 hab with h | ⟨-, h⟩
    · exact h
    · change Ordering.eq = .lt at h
      contradiction
  rw [compare_eq, ← hxs, ← hys, ha, hb, append_assoc, append_assoc, compare_append, List.compare_eq_compareLex,
    singleton_append, singleton_append, List.compareLex_cons_cons, hcc]
  rfl

end Path

/-! ### Trees whose directories are all there -/

namespace FileTree

variable {t t' : FileTree} {p q dir : Path}

/-- The paths of the files. -/
def filePaths (t : FileTree) : List Path := t.files.map Prod.fst

theorem mem_filePaths_iff : p ∈ t.filePaths ↔ (t.files.lookup p).isSome := by
  constructor
  · intro h
    obtain ⟨f, hf, rfl⟩ := mem_map.1 h
    cases hlookup : t.files.lookup f.1 with
    | some text => rfl
    | none => exact absurd (lookup_eq_none_iff.1 hlookup f hf) (by simp)
  · intro h
    obtain ⟨text, htext⟩ := Option.isSome_iff_exists.1 h
    exact mem_map.2 ⟨_, mem_of_lookup htext, rfl⟩

theorem fileExists_iff (h : t.fullPath p = p) : t.fileExists p ↔ p ∈ t.filePaths := by
  rw [fileExists, file?, h, mem_filePaths_iff]

theorem SameSources.mem_filePaths (h : t.SameSources t') (hsource : p.isSourceFile) :
    p ∈ t'.filePaths ↔ p ∈ t.filePaths := by
  rw [mem_filePaths_iff, mem_filePaths_iff, h.sources p hsource]

/-- All that is kept is kept once, under its full path, and in a directory that is kept. -/
structure Nested (t : FileTree) : Prop where
  rooted : t.Rooted
  files : t.filePaths.Nodup
  dirs : t.dirs.Nodup
  around : ∀ p ∈ t.filePaths ++ t.dirs, ∀ dir, p.parent? = some dir → dir ∈ t.dirs

theorem Nested.isResolved (h : t.Nested) (hp : p ∈ t.filePaths ++ t.dirs) : p.IsResolved := by
  rcases mem_append.1 hp with hp | hp
  · obtain ⟨f, hf, rfl⟩ := mem_map.1 hp
    exact h.rooted.files f hf
  · exact h.rooted.dirs p hp

/-! Trees that can be built are so. -/

/-- A directory is there once it is added. -/
theorem mem_addDirs_self (t : FileTree) (dir : Path) : dir ∈ (t.addDirs dir).dirs := by
  have hcons : ∃ rest, dir.ancestors = dir :: rest := by
    rw [Path.ancestors]
    cases dir.components.length with
    | zero => exact ⟨[], rfl⟩
    | succ steps => exact ⟨_, rfl⟩
  obtain ⟨rest, hrest⟩ := hcons
  by_cases hdir : dir ∈ t.dirs
  · exact mem_append_left _ hdir
  · refine mem_append_right _ ?_
    rw [hrest, takeWhile_cons, if_pos (by simpa using hdir)]
    exact mem_cons_self

theorem parent_mem_takeWhile {steps} (hp : p.IsResolved) (hsteps : p.components.length ≤ steps)
    (hq : q ∈ (p.ancestorsFrom steps).takeWhile fun d => !t.dirs.contains d)
    (hdir : q.parent? = some dir) :
    dir ∈ t.dirs ∨ dir ∈ (p.ancestorsFrom steps).takeWhile fun d => !t.dirs.contains d := by
  induction steps generalizing p with
  | zero => exact absurd (length_eq_zero_iff.1 (Nat.le_zero.1 hsteps)) hp.components_ne_nil
  | succ steps ih =>
    rw [Path.ancestorsFrom, takeWhile_cons] at hq ⊢
    split at hq
    · rename_i hnew
      rw [if_pos hnew]
      cases hparent : p.parent? with
      | none =>
        rw [hparent] at hq
        obtain rfl : q = p := by simpa using hq
        rw [hparent] at hdir
        contradiction
      | some around =>
        rw [hparent, Option.map_some, Option.getD_some] at hq
        rw [Option.map_some, Option.getD_some]
        obtain ⟨haround, hshorter⟩ := hp.parent hparent
        rcases mem_cons.1 hq with rfl | hq
        · obtain rfl := Option.some.inj (hparent.symm.trans hdir)
          by_cases hthere : around ∈ t.dirs
          · exact .inl hthere
          · refine .inr (mem_cons_of_mem _ ?_)
            cases steps with
            | zero => simp [Path.ancestorsFrom, hthere]
            | succ steps => simp [Path.ancestorsFrom, hthere]
        · exact (ih haround (by omega) hq).imp_right (mem_cons_of_mem _)
    · contradiction

/-- The directories around a path are shorter and shorter. -/
theorem nodup_ancestorsFrom (steps : Nat) (hp : p.IsResolved) :
    (p.ancestorsFrom steps).Nodup ∧ ∀ q ∈ p.ancestorsFrom steps, q.components.length ≤ p.components.length := by
  induction steps generalizing p with
  | zero => simp [Path.ancestorsFrom]
  | succ steps ih =>
    rw [Path.ancestorsFrom]
    cases hparent : p.parent? with
    | none => simp
    | some around =>
      obtain ⟨haround, hshorter⟩ := hp.parent hparent
      obtain ⟨hnodup, hlength⟩ := ih haround
      rw [Option.map_some, Option.getD_some]
      refine ⟨nodup_cons.2 ⟨fun hmem => ?_, hnodup⟩, fun q hq => ?_⟩
      · exact absurd (hlength p hmem) (Nat.not_le.2 hshorter)
      · rcases mem_cons.1 hq with rfl | hq
        · exact Nat.le_refl _
        · exact Nat.le_of_lt (Nat.lt_of_le_of_lt (hlength q hq) hshorter)

namespace Nested

theorem addDirs (h : t.Nested) (hdir : dir.IsResolved) : (t.addDirs dir).Nested := by
  have hadded : ∀ q ∈ dir.ancestors.takeWhile fun d => !t.dirs.contains d, q ∉ t.dirs := fun q hq => by
    simpa using mem_takeWhile_imp hq
  refine ⟨h.rooted.addDirs hdir, h.files, ?_, fun p hp around haround => ?_⟩
  · refine nodup_append'.2 ⟨h.dirs, ?_, fun q hq hq' => hadded q hq' hq⟩
    exact (nodup_ancestorsFrom _ hdir).1.sublist (takeWhile_sublist _)
  · change p ∈ t.filePaths ++ (t.dirs ++ _) at hp
    rw [← append_assoc] at hp
    rcases mem_append.1 hp with hp | hp
    · exact mem_append_left _ (h.around p hp around haround)
    · exact mem_append.2 (parent_mem_takeWhile hdir (Nat.le_refl _) hp haround)

theorem putFile (h : t.Nested) (hp : p.IsResolved) (hdir : ∀ dir, p.parent? = some dir → dir ∈ t.dirs) (text : String) :
    (t.putFile p text).Nested := by
  have hpaths : (t.putFile p text).filePaths = t.filePaths.filter (· != p) ++ [p] := by
    rw [filePaths, FileTree.putFile, map_append, filePaths, filter_map]
    rfl
  refine ⟨h.rooted.putFile hp text, ?_, h.dirs, fun q hq around haround => ?_⟩
  · rw [hpaths]
    refine nodup_append'.2 ⟨h.files.filter _, nodup_singleton p, fun q hq hq' => ?_⟩
    rw [mem_singleton.1 hq', mem_filter] at hq
    simp at hq
  · rw [hpaths] at hq
    rcases mem_append.1 hq with hq | hq
    · rcases mem_append.1 hq with hq | hq
      · exact h.around q (mem_append_left _ (mem_filter.1 hq).1) around haround
      · rw [mem_singleton.1 hq] at haround
        exact hdir around haround
    · exact h.around q (mem_append_right _ hq) around haround

theorem removeDir (h : t.Nested) (hr : t.removeDir p = .ok t') : t'.Nested := by
  have hrooted := h.rooted.removeDir hr
  unfold FileTree.removeDir at hr
  split at hr
  · contradiction
  · obtain rfl := Except.ok.inj hr
    have hpaths : (t.files.filter fun f => !f.1.startsWith (t.fullPath p)).map Prod.fst =
        t.filePaths.filter fun f => !f.startsWith (t.fullPath p) := by
      rw [filePaths, filter_map]
      rfl
    refine ⟨hrooted, ?_, h.dirs.filter _, fun q hq around haround => ?_⟩
    · rw [filePaths, hpaths]
      exact h.files.filter _
    · -- what is below the directory around is below the one that is removed, if that is
      rw [filePaths, hpaths, ← filter_append] at hq
      obtain ⟨hq, hkept⟩ := mem_filter.1 hq
      refine mem_filter.2 ⟨h.around q hq around haround, ?_⟩
      obtain ⟨-, c, hc⟩ := (h.isResolved hq).parent?_eq_some_iff.1 haround
      rw [Bool.not_eq_true', Bool.eq_false_iff, ne_eq, Path.startsWith_iff] at hkept ⊢
      rw [hc] at hkept
      exact fun hbelow => hkept (hbelow.trans (prefix_append _ _))

end Nested

theorem Built.nested (h : t.Built) : t.Nested := by
  induction h with
  | @empty t files dirs cwd =>
    refine ⟨(Built.empty files dirs cwd).rooted, by simp [filePaths, files], by simp [dirs], fun p hp dir hdir => ?_⟩
    obtain rfl : p = ⟨"/"⟩ := by simpa [filePaths, files, dirs] using hp
    have hnone : Path.parent? ⟨"/"⟩ = none := by decide
    rw [hnone] at hdir
    contradiction
  | @addFile t h p text ih =>
    have hfull := isResolved_fullPath ih.rooted.cwd p
    rw [FileTree.addFile]
    split
    · rename_i dir hdir
      refine (ih.addDirs (hfull.parent hdir).1).putFile hfull (fun around haround => ?_) text
      obtain rfl := Option.some.inj (hdir.symm.trans haround)
      exact t.mem_addDirs_self dir
    · rename_i hnone
      exact ih.putFile hfull (fun around haround => absurd (hnone.symm.trans haround) (by simp)) text
  | @write t t' p text h hw ih =>
    have hfull := isResolved_fullPath ih.rooted.cwd p
    have heq := write_eq_putFile hw
    unfold FileTree.write at hw
    split at hw
    · contradiction
    · dsimp only at hw
      split at hw
      · rename_i dir hdir
        split at hw
        · rename_i hthere
          rw [heq]
          refine ih.putFile hfull (fun around haround => ?_) text
          obtain rfl := Option.some.inj (hdir.symm.trans haround)
          exact contains_iff_mem.1 hthere
        · contradiction
      · contradiction
  | makeDirs h hm ih =>
    rw [makeDirs_eq_addDirs hm]
    exact ih.addDirs (isResolved_fullPath ih.rooted.cwd _)
  | removeDir h hr ih => exact ih.removeDir hr
  | moveTo h hdir ih => exact { ih with rooted := ⟨hdir, ih.rooted.files, ih.rooted.dirs⟩ }

/-! ### Listings -/

/-- Paths in order. -/
def sorted (paths : List Path) : List Path := paths.mergeSort fun a b => compare a b != .gt

theorem mem_sorted {paths} : p ∈ sorted paths ↔ p ∈ paths := mem_mergeSort

theorem pairwise_sorted (paths : List Path) : (sorted paths).Pairwise fun a b => compare a b ≠ .gt := by
  have htrans : ∀ a b c : Path, (compare a b != .gt) = true → (compare b c != .gt) = true → (compare a c != .gt) = true := by
    intro a b c hab hbc
    simp only [bne_iff_ne, ne_eq, ← Ordering.isLE_iff_ne_gt] at hab hbc ⊢
    exact Std.TransCmp.isLE_trans hab hbc
  have htotal : ∀ a b : Path, (compare a b != .gt || compare b a != .gt) = true := by
    intro a b
    have hswap : compare b a = (compare a b).swap := Std.OrientedCmp.eq_swap
    rw [hswap]
    cases compare a b <;> rfl
  exact (pairwise_mergeSort htrans htotal paths).imp fun h => by simpa using h

theorem strict_of_nodup {paths : List Path} (hpaths : paths.Pairwise fun a b => compare a b ≠ .gt) (hnodup : paths.Nodup)
    (hresolved : ∀ p ∈ paths, p.IsResolved) : Ordered.Strict paths := by
  refine (hpaths.and hnodup).imp_of_mem fun {a b} ha hb hab => ?_
  cases hcompare : compare a b with
  | lt => rfl
  | gt => exact absurd hcompare hab.1
  | eq =>
    rw [Path.compare_eq] at hcompare
    exact absurd ((hresolved a ha).ext (hresolved b hb) (Std.LawfulEqCmp.eq_of_compare hcompare)) hab.2

/-- In order an item that comes again comes right away. -/
theorem eq_cons_of_sorted {paths} (hresolved : ∀ q ∈ p :: paths, q.IsResolved)
    (hsorted : (p :: paths).Pairwise fun a b => compare a b ≠ .gt) (hmem : p ∈ paths) :
    ∃ more, paths = p :: more := by
  cases paths with
  | nil => contradiction
  | cons q more =>
    obtain ⟨hfirst, hrest⟩ := pairwise_cons.1 hsorted
    refine ⟨more, ?_⟩
    rcases mem_cons.1 hmem with rfl | hmem
    · rfl
    · have hle := hfirst q mem_cons_self
      have hge := (pairwise_cons.1 hrest).1 p hmem
      have hswap : compare q p = (compare p q).swap := Std.OrientedCmp.eq_swap
      have heq : compare p q = .eq := by
        cases hcompare : compare p q with
        | eq => rfl
        | gt => exact absurd hcompare hle
        | lt =>
          rw [hswap, hcompare] at hge
          exact absurd rfl hge
      rw [Path.compare_eq] at heq
      rw [(hresolved p mem_cons_self).ext (hresolved q (by simp)) (Std.LawfulEqCmp.eq_of_compare heq)]

/-- The source files at or below a path, in order. -/
def sourcesBelow (t : FileTree) (p : Path) : List Path :=
  sorted (t.filePaths.filter fun f => f.isSourceFile && f.startsWith p)

theorem mem_sourcesBelow : q ∈ t.sourcesBelow p ↔ q ∈ t.filePaths ∧ q.isSourceFile ∧ q.startsWith p := by
  rw [sourcesBelow, mem_sorted, mem_filter, Bool.and_eq_true]

theorem source_of_mem_sourcesBelow (h : q ∈ t.sourcesBelow p) : q ∈ t.filePaths ∧ q.isSourceFile := by
  obtain ⟨hq, hsource, -⟩ := mem_sourcesBelow.1 h
  exact ⟨hq, hsource⟩

theorem Nested.strict_sourcesBelow (h : t.Nested) (p : Path) : Ordered.Strict (t.sourcesBelow p) := by
  refine strict_of_nodup (pairwise_sorted _) ((mergeSort_perm ..).nodup_iff.2 (h.files.filter _)) fun q hq => ?_
  exact h.isResolved (mem_append_left _ (mem_sourcesBelow.1 hq).1)

theorem SameSources.sourcesBelow (h : t.SameSources t') (ht : t.Nested) (ht' : t'.Nested) (p : Path) :
    t'.sourcesBelow p = t.sourcesBelow p := by
  refine (ht'.strict_sourcesBelow p).ext (ht.strict_sourcesBelow p) fun q => ?_
  rw [mem_sourcesBelow, mem_sourcesBelow]
  constructor
  · rintro ⟨hq, hsource, hbelow⟩
    exact ⟨(h.mem_filePaths hsource).1 hq, hsource, hbelow⟩
  · rintro ⟨hq, hsource, hbelow⟩
    exact ⟨(h.mem_filePaths hsource).2 hq, hsource, hbelow⟩

/-- What stands right in a directory, in order. -/
def entries (t : FileTree) (dir : Path) : List Path := sorted ((t.filePaths ++ t.dirs).filter (isChild dir))

theorem list_eq (hdeny : t.denyList = []) (hp : t.dirExists p) : t.list p = .ok (t.entries (t.fullPath p)) := by
  have hdenied : isDenied t.denyList p = false := by rw [hdeny]; rfl
  rw [dirExists] at hp
  rw [list, hdenied, if_neg Bool.false_ne_true]
  dsimp only
  rw [if_pos hp]
  rfl

namespace Nested

variable {x : Path}

section

variable (h : t.Nested)
include h

theorem mem_entries_iff (hdir : dir.IsResolved) : q ∈ t.entries dir ↔
    q ∈ t.filePaths ++ t.dirs ∧ ∃ c, q.components = dir.components ++ [c] := by
  rw [entries, mem_sorted, mem_filter, isChild, Bool.and_eq_true, beq_iff_eq, bne_iff_ne]
  constructor
  · rintro ⟨hq, hparent, -⟩
    exact ⟨hq, ((h.isResolved hq).parent?_eq_some_iff.1 hparent).2⟩
  · rintro ⟨hq, c, hc⟩
    refine ⟨hq, (h.isResolved hq).parent?_eq_some_iff.2 ⟨hdir, c, hc⟩, ?_⟩
    rintro rfl
    simpa using congrArg List.length hc

theorem exists_dir_of_append {before after} (hne : before ≠ []) (hx : x ∈ t.dirs)
    (hcomponents : x.components = before ++ after) : ∃ d ∈ t.dirs, d.components = before := by
  induction after using List.reverseRecOn generalizing x with
  | nil => exact ⟨x, hx, by simpa using hcomponents⟩
  | append_singleton after c ih =>
    rw [← append_assoc] at hcomponents
    obtain ⟨dir, hparent, -, hdir⟩ := (h.rooted.dirs x hx).exists_parent (by simp [hne]) hcomponents
    exact ih (h.around x (mem_append_right _ hx) dir hparent) hdir

theorem exists_entry (hdir : dir ∈ t.dirs) (hx : x ∈ t.filePaths) (hbelow : x.startsWith dir) (hne : x ≠ dir) :
    ∃ e ∈ t.entries dir, x.startsWith e := by
  have hres := h.rooted.dirs dir hdir
  have hresx := h.isResolved (mem_append_left _ hx)
  obtain ⟨after, hafter⟩ := Path.startsWith_iff.1 hbelow
  cases after with
  | nil => exact absurd (hresx.ext hres (by simpa using hafter.symm)) hne
  | cons c after =>
    induction after using List.reverseRecOn with
    | nil =>
      exact ⟨x, (h.mem_entries_iff hres).2 ⟨mem_append_left _ hx, c, hafter.symm⟩,
        Path.startsWith_iff.2 prefix_rfl⟩
    | append_singleton after c' =>
      -- the directory around `x` is there, and so is its ancestor right in `dir`
      have hlast : x.components = (dir.components ++ c :: after) ++ [c'] := by rw [← hafter]; simp
      obtain ⟨around, hparent, -, haround⟩ := hresx.exists_parent (by simp) hlast
      have hthere := h.around x (mem_append_left _ hx) around hparent
      have hsteps : around.components = (dir.components ++ [c]) ++ after := by rw [haround]; simp
      obtain ⟨e, he, hcomponents⟩ := h.exists_dir_of_append (by simp) hthere hsteps
      refine ⟨e, (h.mem_entries_iff hres).2 ⟨mem_append_right _ he, c, hcomponents⟩, Path.startsWith_iff.2 ?_⟩
      rw [hcomponents, hlast]
      exact ⟨after ++ [c'], by simp⟩

theorem sourcesBelow_dir (hdir : dir ∈ t.dirs) (hapart : ∀ f ∈ t.filePaths, f.isSourceFile → f ∉ t.dirs) :
    t.sourcesBelow dir = (t.entries dir).dedup.flatMap t.sourcesBelow := by
  have hres := h.rooted.dirs dir hdir
  have hentry : ∀ e ∈ t.entries dir, e.IsResolved ∧ ∃ c, e.components = dir.components ++ [c] := fun e he =>
    have hmem := (h.mem_entries_iff hres).1 he
    ⟨h.isResolved hmem.1, hmem.2⟩
  have hentries : Ordered.Strict (t.entries dir).dedup :=
    strict_of_nodup ((pairwise_sorted _).sublist (dedup_sublist _)) (nodup_dedup _)
      fun e he => (hentry e (mem_dedup.1 he)).1
  refine (h.strict_sourcesBelow dir).ext ?_ fun q => ?_
  · refine pairwise_flatMap.2 ⟨fun e _ => h.strict_sourcesBelow e, hentries.imp_of_mem fun {a b} ha hb hab x hx y hy => ?_⟩
    obtain ⟨-, c, hc⟩ := hentry a (mem_dedup.1 ha)
    obtain ⟨-, c', hc'⟩ := hentry b (mem_dedup.1 hb)
    exact Path.compare_lt_of_children hc hc' hab (mem_sourcesBelow.1 hx).2.2 (mem_sourcesBelow.1 hy).2.2
  · simp only [mem_flatMap, mem_dedup, mem_sourcesBelow]
    constructor
    · rintro ⟨hq, hsource, hbelow⟩
      obtain ⟨e, he, hqe⟩ := h.exists_entry hdir hq hbelow (by rintro rfl; exact hapart q hq hsource hdir)
      exact ⟨e, he, hq, hsource, hqe⟩
    · rintro ⟨e, he, hq, hsource, hqe⟩
      obtain ⟨-, c, hc⟩ := hentry e he
      refine ⟨hq, hsource, Path.startsWith_iff.2 (.trans ?_ (Path.startsWith_iff.1 hqe))⟩
      rw [hc]
      exact prefix_append _ _

/-- Below a file that is no directory there is nothing. -/
theorem sourcesBelow_file (hp : p ∈ t.filePaths) (hnot : p ∉ t.dirs) :
    t.sourcesBelow p = if p.isSourceFile then [p] else [] := by
  have hres := h.isResolved (mem_append_left _ hp)
  have honly : ∀ q ∈ t.filePaths, q.startsWith p → q = p := by
    intro q hq hbelow
    have hresq := h.isResolved (mem_append_left _ hq)
    obtain ⟨after, hafter⟩ := Path.startsWith_iff.1 hbelow
    induction after using List.reverseRecOn with
    | nil => exact hresq.ext hres (by simpa using hafter.symm)
    | append_singleton after c =>
      have hlast : q.components = (p.components ++ after) ++ [c] := by rw [← hafter, append_assoc]
      obtain ⟨around, hparent, -, haround⟩ := hresq.exists_parent (by simp [hres.components_ne_nil]) hlast
      obtain ⟨d, hd, hcomponents⟩ := h.exists_dir_of_append hres.components_ne_nil
        (h.around q (mem_append_left _ hq) around hparent) haround
      exact absurd ((h.rooted.dirs d hd).ext hres hcomponents ▸ hd) hnot
  refine (h.strict_sourcesBelow p).ext ?_ fun q => ?_
  · split
    · exact pairwise_singleton _ _
    · exact List.Pairwise.nil
  · rw [mem_sourcesBelow]
    constructor
    · rintro ⟨hq, hsource, hbelow⟩
      obtain rfl := honly q hq hbelow
      rw [if_pos hsource]
      exact mem_singleton_self q
    · intro hq
      split at hq
      · rename_i hsource
        obtain rfl := mem_singleton.1 hq
        exact ⟨hp, hsource, Path.startsWith_iff.2 prefix_rfl⟩
      · contradiction

end

end Nested

/-! ### Counting -/

/-- No path is both a file and a directory. -/
def Apart (t : FileTree) : Prop := ∀ p ∈ t.filePaths, p ∉ t.dirs

theorem Nested.nodup_entries (h : t.Nested) (hapart : t.Apart) (dir : Path) : (t.entries dir).Nodup := by
  refine (mergeSort_perm ..).nodup_iff.2 (List.Nodup.filter _ ?_)
  exact nodup_append'.2 ⟨h.files, h.dirs, hapart⟩

/-- The count of source files tells how many there are. -/
theorem Nested.countSources_eq (h : t.Nested) (hapart : t.Apart) (hdeny : t.denyList = []) (levels : Nat)
    (hp : t.dirExists p ∨ p ∈ t.filePaths) (hlevels : t.below (t.fullPath p) < levels) :
    t.countSources levels p = (t.sourcesBelow (t.fullPath p)).length := by
  induction levels generalizing p with
  | zero => exact absurd hlevels (Nat.not_lt_zero _)
  | succ levels ih =>
    change (if t.dirExists p then _ else _) = _
    cases hexists : t.dirExists p with
    | true =>
      have hdir : t.fullPath p ∈ t.dirs := contains_iff_mem.1 hexists
      rw [if_pos rfl, list_eq hdeny hexists, h.sourcesBelow_dir hdir fun f hf _ => hapart f hf,
        dedup_eq_self.2 (h.nodup_entries hapart _), length_flatMap]
      refine congrArg List.sum (map_congr_left fun e he => ?_)
      have hmem := ((h.mem_entries_iff (h.rooted.dirs _ hdir)).1 he).1
      have hfull : t.fullPath e = e := t.fullPath_of_isResolved (h.isResolved hmem)
      have hbelow := h.rooted.list (list_eq hdeny hexists) he
      have hentry := ih (p := e) ?_ (by omega)
      · rw [hentry, hfull]
      · rw [dirExists, hfull, contains_iff_mem]
        exact (mem_append.1 hmem).symm
    | false =>
      have hfile := hp.resolve_left (by simp [hexists])
      have hfull := t.fullPath_of_isResolved (h.isResolved (mem_append_left _ hfile))
      rw [if_neg Bool.false_ne_true, hfull, h.sourcesBelow_file hfile (hapart p hfile)]
      split <;> rfl

end FileTree

end TypeInfer
