/-
Names of modules. The name of a source file is its path without what makes it a source file, with
dots between the steps and `%20` for the dots. It can be read back, but for backslashes, `%20` and
names that only end in `__init__.py`: names agree just if what they are read back to does
(`moduleQname_eq_iff`).
-/
import Mathlib.Data.List.Infix
import TypeInfer.Proofs.Paths

namespace TypeInfer

open List

namespace Path

variable {c : Char} (cs : List Char) {p : Path}

/-! ### Reading a name back -/

/-- What divides the steps in a name. -/
def isSeparator (c : Char) : Bool := c == '/' || c == '\\'

/-- What a stretch of a path says in a name: a backslash is a separator, `%20` is a dot. -/
def spoken : List Char → List Char
  | '%' :: '2' :: '0' :: cs => '.' :: spoken cs
  | c :: cs => (if c == '\\' then '/' else c) :: spoken cs
  | [] => []

/-- What the name of a module says of its path. -/
def readBack : List Char → List Char
  | '%' :: '2' :: '0' :: cs => '.' :: readBack cs
  | c :: cs => (if c == '.' then '/' else c) :: readBack cs
  | [] => []

theorem qnameChar_of_isSeparator (h : isSeparator c) : qnameChar c = ['.'] := by
  unfold isSeparator at h
  rw [qnameChar, if_neg, if_pos h]
  rintro hdot
  obtain rfl := beq_iff_eq.1 hdot
  contradiction

theorem qnameChar_dot : qnameChar '.' = ['%', '2', '0'] := rfl

theorem qnameChar_other (hdot : c ≠ '.') (hsep : isSeparator c = false) : qnameChar c = [c] := by
  unfold isSeparator at hsep
  rw [qnameChar, if_neg (by simpa using hdot), if_neg (by simp [hsep])]

theorem eq_cons_of_flatMap_qnameChar {cs rest} (hdot : c ≠ '.') (hpercent : c ≠ '%')
    (h : cs.flatMap qnameChar = c :: rest) :
    ∃ cs', cs = c :: cs' ∧ rest = cs'.flatMap qnameChar := by
  cases cs with
  | nil => simp at h
  | cons d cs =>
    rw [flatMap_cons] at h
    by_cases hd : d = '.'
    · rw [hd, qnameChar_dot] at h
      exact absurd (List.cons.inj h).1.symm hpercent
    · cases hsep : isSeparator d with
      | true =>
        rw [qnameChar_of_isSeparator hsep] at h
        exact absurd (List.cons.inj h).1.symm hdot
      | false =>
        rw [qnameChar_other hd hsep] at h
        obtain ⟨rfl, rfl⟩ := List.cons.inj h
        exact ⟨cs, rfl, rfl⟩

section

-- The equations are made here, once for the lemmas that open the function.
attribute [local simp] readBack

theorem readBack_dot : readBack ('.' :: cs) = '/' :: readBack cs := by
  rw [readBack]
  · rfl
  · intro cs' h
    simp at h

theorem readBack_cons {cs} (hdot : c ≠ '.') (h : ∀ cs', ¬ (c = '%' ∧ cs = '2' :: '0' :: cs')) :
    readBack (c :: cs) = c :: readBack cs := by
  rw [readBack]
  · rw [if_neg (by simpa using hdot)]
  · rintro cs' rfl rfl
    exact h cs' ⟨rfl, rfl⟩

end

/-- A name is read back to what the path says in it. -/
theorem readBack_flatMap : readBack (cs.flatMap qnameChar) = spoken cs := by
  fun_induction spoken cs with
  | case1 cs ih =>
    change readBack ('%' :: '2' :: '0' :: cs.flatMap qnameChar) = _
    rw [readBack, ih]
  | case2 c cs hplain ih =>
    rw [flatMap_cons, ← ih]
    by_cases hdot : c = '.'
    · subst hdot
      rfl
    · cases hsep : isSeparator c with
      | true =>
        rw [qnameChar_of_isSeparator hsep, singleton_append, readBack_dot]
        unfold isSeparator at hsep
        rcases Bool.or_eq_true_iff.1 hsep with hslash | hback
        · obtain rfl := beq_iff_eq.1 hslash
          rfl
        · rw [if_pos hback]
      | false =>
        have hback : ¬ (c == '\\') = true := by
          unfold isSeparator at hsep
          simp only [Bool.or_eq_false_iff] at hsep
          simp [hsep.2]
        rw [qnameChar_other hdot hsep, singleton_append, if_neg hback]
        refine readBack_cons hdot ?_
        -- what follows a percent sign in the name was written there in the path
        rintro rest ⟨rfl, hrest⟩
        obtain ⟨cs', rfl, hcs'⟩ := eq_cons_of_flatMap_qnameChar (by decide) (by decide) hrest
        obtain ⟨cs'', rfl, -⟩ := eq_cons_of_flatMap_qnameChar (by decide) (by decide) hcs'.symm
        exact hplain cs'' rfl rfl
  | case3 => rfl

/-- What the path says in its name has that name. -/
theorem flatMap_spoken : (spoken cs).flatMap qnameChar = cs.flatMap qnameChar := by
  fun_induction spoken cs with
  | case1 cs ih =>
    rw [flatMap_cons, ih]
    rfl
  | case2 c cs hplain ih =>
    rw [flatMap_cons, flatMap_cons, ih]
    split
    · rename_i hback
      obtain rfl := beq_iff_eq.1 hback
      rfl
    · rfl
  | case3 => rfl

theorem flatMap_qnameChar_eq_iff {a b} :
    a.flatMap qnameChar = b.flatMap qnameChar ↔ spoken a = spoken b := by
  constructor
  · intro h
    rw [← readBack_flatMap, h, readBack_flatMap]
  · intro h
    rw [← flatMap_spoken, h, flatMap_spoken]

theorem dropWhile_flatMap_qnameChar :
    (cs.flatMap qnameChar).dropWhile (· == '.') = (cs.dropWhile isSeparator).flatMap qnameChar := by
  induction cs with
  | nil => rfl
  | cons c cs ih =>
    rw [flatMap_cons, dropWhile_cons]
    cases hsep : isSeparator c with
    | true =>
      rw [qnameChar_of_isSeparator hsep, if_pos rfl, ← ih]
      rfl
    | false =>
      rw [if_neg Bool.false_ne_true, flatMap_cons]
      by_cases hdot : c = '.'
      · subst hdot
        rfl
      · rw [qnameChar_other hdot hsep, singleton_append, dropWhile_cons, if_neg (by simpa using hdot)]

/-- The path of a source file without what makes it one and without the root. -/
def moduleCore (p : Path) : List Char := p.moduleStem.dropWhile isSeparator

theorem moduleQname_eq_iff (p q : Path) : p.moduleQname = q.moduleQname ↔ spoken p.moduleCore = spoken q.moduleCore := by
  rw [moduleQname, moduleQname, String.ofList_inj, dropWhile_flatMap_qnameChar, dropWhile_flatMap_qnameChar,
    flatMap_qnameChar_eq_iff]
  rfl

/-! ### Resolved paths in which every character stands for itself -/

theorem dropWhile_slash {rest} (h : ∀ c, rest.head? = some c → isSeparator c = false) :
    ('/' :: rest).dropWhile isSeparator = rest := by
  rw [dropWhile_cons, if_pos (show isSeparator '/' = true from rfl)]
  cases rest with
  | nil => rfl
  | cons c rest => rw [dropWhile_cons, h c rfl, if_neg Bool.false_ne_true]

/-- After the root a resolved path goes on with a step. -/
theorem Trail.text_ofTrail {done} (h : Trail done) :
    ∃ rest, (ofTrail done).text.toList = '/' :: rest ∧ rest.head? ≠ some '/' ∧ (done ≠ [.root] → rest ≠ []) := by
  induction h with
  | root => exact ⟨[], by decide, by decide, fun h => absurd rfl h⟩
  | up => exact ⟨['.', '.'], by decide, by decide, fun _ => by decide⟩
  | @name done n h hn ih =>
    obtain ⟨rest, htext, hrest, hne⟩ := ih
    have hname : n.toList ≠ [] := fun he => hn.2.1 (String.toList_eq_nil_iff.1 he)
    rw [h.ofTrail_name hn, child_eq _ hn]
    by_cases hroot : done = [.root]
    · subst hroot
      exact ⟨n.toList, by rw [String.toList_append]; rfl, fun he => hn.1 (mem_of_head? he), fun _ => hname⟩
    · rw [h.lead_eq_append hroot]
      refine ⟨rest ++ '/' :: n.toList, by simp [htext], ?_, by simp⟩
      rw [head?_append_of_ne_nil rest (hne hroot)]
      exact hrest

theorem IsResolved.text_eq (h : p.IsResolved) :
    ∃ rest, p.text.toList = '/' :: rest ∧ rest.head? ≠ some '/' := by
  obtain ⟨done, hdone, rfl⟩ := h
  obtain ⟨rest, htext, hrest, -⟩ := hdone.text_ofTrail
  exact ⟨rest, htext, hrest⟩

theorem not_isSeparator (hslash : c ≠ '/') (hback : c ≠ '\\') : isSeparator c = false := by
  simp [isSeparator, hslash, hback]

theorem IsResolved.eq_slash_dropWhile {stretch} (h : p.IsResolved) (hback : '\\' ∉ stretch)
    (hstretch : stretch <+: p.text.toList) (hne : stretch ≠ []) :
    stretch = '/' :: stretch.dropWhile isSeparator := by
  obtain ⟨rest, htext, hrest⟩ := h.text_eq
  rw [htext] at hstretch
  rcases prefix_cons_iff.1 hstretch with rfl | ⟨inner, rfl, hinner⟩
  · contradiction
  · rw [dropWhile_slash]
    intro c hc
    refine not_isSeparator ?_ fun he => hback (mem_cons_of_mem _ (he ▸ mem_of_head? hc))
    rintro rfl
    obtain ⟨more, rfl⟩ := hinner
    rw [head?_append, hc, Option.some_or] at hrest
    contradiction

theorem IsResolved.exists_child (h : p.IsResolved) (hsource : p.isSourceFile) :
    ∃ (dir : Path) (n : String), dir.IsResolved ∧ IsName n ∧ p = dir.child n := by
  obtain ⟨done, hdone, rfl⟩ := h
  cases hdone with
  | root => exact absurd hsource (by decide)
  | up => exact absurd hsource (by decide)
  | @name done n h hn => exact ⟨ofTrail done, n, ⟨done, h, rfl⟩, hn, h.ofTrail_name hn⟩

theorem ext_toList {q} (h : p.text.toList = q.text.toList) : p = q := by
  obtain ⟨text⟩ := p
  obtain ⟨text'⟩ := q
  rw [mk.injEq]
  exact String.toList_inj.1 h

theorem text_isPrefix_lead (p : Path) : p.text.toList <+: p.lead.toList := by
  rw [lead]
  split
  · exact prefix_rfl
  · rw [String.toList_append]
    exact prefix_append _ _

theorem isName_packageInit : IsName packageInit := ⟨by decide, by decide, by decide, by decide⟩

theorem fileName?_child (dir : Path) {n : String} (hn : IsName n) : (dir.child n).fileName? = some n := by
  rw [fileName?, components_child dir hn, getLast?_concat]

end Path

namespace Text

theorem stripEnd?_append (a tail : List Char) : stripEnd? tail (a ++ tail) = some a := by
  rw [stripEnd?, if_pos (isSuffixOf_iff_suffix.2 (suffix_append a tail))]
  simp

theorem stripEnd?_eq_none {tail cs} (h : ¬ tail <:+ cs) : stripEnd? tail cs = none := by
  rw [stripEnd?, if_neg (by rwa [isSuffixOf_iff_suffix])]

theorem trimEndOf_concat {set} (cs : List Char) {c} (h : c ∈ set) :
    trimEndOf set (cs ++ [c]) = trimEndOf set cs := by
  simp [trimEndOf, h]

theorem trimEndOf_eq_self {set cs} (h : ∀ c, cs.getLast? = some c → c ∉ set) :
    trimEndOf set cs = cs := by
  rw [trimEndOf]
  cases hcs : cs.reverse with
  | nil => simpa using hcs.symm
  | cons c rest =>
    have hc : c ∉ set := h c (by rw [← head?_reverse, hcs, head?_cons])
    rw [dropWhile_cons, if_neg (by simpa using hc), ← hcs, reverse_reverse]

end Text

namespace Path

variable {p : Path}

/-- A path without a backslash, without `%20`, and without a file name that merely ends like that of a
package. -/
structure IsOrdinary (p : Path) : Prop where
  slashes : '\\' ∉ p.text.toList
  escapes : ¬ "%20".toList <:+: p.text.toList
  inits : packageInit.toList <:+ p.text.toList → p.isPackageInit

theorem spoken_eq_self {cs} (hback : '\\' ∉ cs) (hescape : ¬ "%20".toList <:+: cs) :
    spoken cs = cs := by
  fun_induction spoken cs with
  | case1 cs ih => exact absurd (prefix_append _ cs).isInfix hescape
  | case2 c cs hplain ih =>
    rw [mem_cons, not_or] at hback
    rw [ih hback.2 fun h => hescape (h.trans (suffix_cons c cs).isInfix), if_neg]
    simpa using Ne.symm hback.1
  | case3 => rfl

/-- The file of a package is named like its directory. -/
theorem IsResolved.text_eq_moduleCore {dir : Path} (h : dir.IsResolved) (hback : '\\' ∉ dir.text.toList) :
    dir.text.toList = '/' :: dir.initFile.moduleCore := by
  obtain ⟨rest, htext, -⟩ := h.text_eq
  have hcore : dir.initFile.moduleCore = dir.text.toList.dropWhile isSeparator := by
    rw [initFile, child_eq dir isName_packageInit, moduleCore, moduleStem]
    simp only [String.toList_append, Text.stripEnd?_append]
    -- only the root ends in a separator of its own
    by_cases hlast : dir.text.toList.getLast? = some '/'
    · obtain ⟨done, hdone, rfl⟩ := h
      by_cases hroot : done = [.root]
      · subst hroot
        decide
      · have hlead := hdone.lead_eq_append hroot
        rw [lead, if_pos (by simp [hlast])] at hlead
        simpa using congrArg (·.toList.length) hlead
    · have hlead : dir.lead = dir.text ++ "/" := by
        have hne : dir.text ≠ "" := fun he => by simp [he] at htext
        rw [lead, if_neg (by simp [hlast, hne])]
      rw [hlead, String.toList_append, show "/".toList = ['/'] from rfl, Text.trimEndOf_concat _ (by decide),
        Text.trimEndOf_eq_self]
      intro c hc hset
      rcases mem_cons.1 hset with rfl | hset
      · exact hlast hc
      · exact hback (mem_singleton.1 hset ▸ mem_of_getLast? hc)
  rw [hcore]
  exact h.eq_slash_dropWhile hback prefix_rfl (by simp [htext])

/-- A module is named like its file without the suffix. -/
theorem IsOrdinary.text_eq_moduleCore (h : p.IsOrdinary) (hp : p.IsResolved)
    (hsource : p.isSourceFile) (hinit : p.isPackageInit = false) :
    p.text.toList = '/' :: p.moduleCore ++ sourceSuffix.toList := by
  obtain ⟨stem, hstem⟩ := isSuffixOf_iff_suffix.1 hsource
  have hcut : Text.stripEnd? packageInit.toList p.text.toList = none :=
    Text.stripEnd?_eq_none fun hsuffix => by simp [h.inits hsuffix] at hinit
  have hne : stem ≠ [] := by
    rintro rfl
    obtain ⟨rest, htext, -⟩ := hp.text_eq
    rw [htext] at hstem
    exact absurd (List.cons.inj hstem).1 (by decide)
  have hslash := hp.eq_slash_dropWhile (fun hb => h.slashes (hstem ▸ mem_append_left _ hb)) ⟨_, hstem⟩ hne
  have hcore : p.moduleCore = stem.dropWhile isSeparator := by
    rw [moduleCore, moduleStem]
    simp only [hcut]
    rw [← hstem, Text.stripEnd?_append, Option.getD_some]
  rw [hcore, ← hslash, hstem]

/-- The name of an ordinary source file says where it is: `X.py` or the file of the package `X`, for the one
`X` that the name leads to. -/
theorem IsOrdinary.cases (h : p.IsOrdinary) (hp : p.IsResolved) (hsource : p.isSourceFile) :
    (p.isPackageInit = false ∧ p.text.toList = '/' :: p.moduleCore ++ sourceSuffix.toList) ∨
    ∃ dir : Path, dir.IsResolved ∧ dir.text.toList = '/' :: p.moduleCore ∧ p = dir.initFile := by
  cases hinit : p.isPackageInit with
  | false => exact .inl ⟨rfl, h.text_eq_moduleCore hp hsource hinit⟩
  | true =>
    obtain ⟨dir, n, hdir, hn, rfl⟩ := hp.exists_child hsource
    rw [isPackageInit, fileName?_child dir hn, beq_iff_eq] at hinit
    obtain rfl := Option.some.inj hinit
    have hback : '\\' ∉ dir.text.toList := by
      refine fun hmem => h.slashes ?_
      rw [child_eq dir hn, String.toList_append]
      exact mem_append_left _ (dir.text_isPrefix_lead.subset hmem)
    exact .inr ⟨dir, hdir, hdir.text_eq_moduleCore hback, rfl⟩

theorem IsOrdinary.spoken_moduleCore (h : p.IsOrdinary) (hp : p.IsResolved)
    (hsource : p.isSourceFile) : spoken p.moduleCore = p.moduleCore := by
  have hpart : p.moduleCore <:+: p.text.toList := by
    rcases h.cases hp hsource with ⟨-, htext⟩ | ⟨dir, -, hdir, heq⟩
    · exact ⟨['/'], sourceSuffix.toList, htext.symm⟩
    · have hlead : dir.text.toList <+: p.text.toList := by
        rw [heq, initFile, child_eq dir isName_packageInit, String.toList_append]
        exact dir.text_isPrefix_lead.trans (prefix_append _ _)
      exact ((suffix_cons '/' p.moduleCore).isInfix).trans (hdir ▸ hlead).isInfix
  exact spoken_eq_self (fun hmem => h.slashes (hpart.subset hmem)) fun he => h.escapes (he.trans hpart)

/-- `p` is a module `X.py`, and `q` the file of a package `X` beside it. -/
def Beside (p q : Path) : Prop :=
  p.isPackageInit = false ∧ ∃ x : Path, x.IsResolved ∧ p = ⟨x.text ++ sourceSuffix⟩ ∧ q = x.initFile

theorem Beside.moduleCore_eq {q : Path} (h : Beside p q) (hp : p.IsOrdinary)
    (hresolved : p.IsResolved) (hsource : p.isSourceFile) : p.moduleCore = q.moduleCore := by
  obtain ⟨hinit, x, hx, rfl, rfl⟩ := h
  have htext := hp.text_eq_moduleCore hresolved hsource hinit
  rw [String.toList_append, append_cancel_right_eq] at htext
  have hback : '\\' ∉ x.text.toList := fun hmem => hp.slashes (by simp [hmem])
  exact (List.cons.inj (htext.symm.trans (hx.text_eq_moduleCore hback))).2

/-- Two ordinary source files are named alike only as a module and a package beside it. -/
theorem IsOrdinary.moduleQname_eq_iff {q} (hp : p.IsOrdinary) (hq : q.IsOrdinary)
    (hpr : p.IsResolved) (hqr : q.IsResolved) (hps : p.isSourceFile) (hqs : q.isSourceFile)
    (hne : p ≠ q) : p.moduleQname = q.moduleQname ↔ Beside p q ∨ Beside q p := by
  rw [Path.moduleQname_eq_iff, hp.spoken_moduleCore hpr hps, hq.spoken_moduleCore hqr hqs]
  constructor
  · intro hcore
    rcases hp.cases hpr hps with ⟨hpi, hpt⟩ | ⟨x, hx, hxt, hpx⟩ <;>
      rcases hq.cases hqr hqs with ⟨hqi, hqt⟩ | ⟨y, hy, hyt, hqy⟩
    · exact absurd (ext_toList (hpt.trans (hcore ▸ hqt.symm))) hne
    · exact .inl ⟨hpi, y, hy, ext_toList (by simp [hpt, hyt, hcore]), hqy⟩
    · exact .inr ⟨hqi, x, hx, ext_toList (by simp [hqt, hxt, hcore]), hpx⟩
    · have hxy : x = y := ext_toList (hxt.trans (hcore ▸ hyt.symm))
      exact absurd (hpx.trans (hxy ▸ hqy.symm)) hne
  · rintro (h | h)
    · exact h.moduleCore_eq hp hpr hps
    · exact (h.moduleCore_eq hq hqr hqs).symm

theorem isResolved_of_resolve_eq (habsolute : p.isAbsolute) (h : p.resolve = p) : p.IsResolved :=
  h ▸ isResolved_resolve habsolute

/-- Different source files are named alike just if their paths say the same once a backslash is read as a
separator and `%20` as a dot. Where neither has such a character, nor a file name that merely ends in
`__init__.py`, this is so for a module `X.py` and the package `X` beside it, and for no others. -/
theorem modules_named_alike {p q : Path} (hp : p.isAbsolute ∧ p.resolve = p ∧ p.isSourceFile)
    (hq : q.isAbsolute ∧ q.resolve = q ∧ q.isSourceFile) (hne : p ≠ q) :
    (p.moduleQname = q.moduleQname ↔ spoken p.moduleCore = spoken q.moduleCore) ∧
    (p.IsOrdinary → q.IsOrdinary → (p.moduleQname = q.moduleQname ↔ Beside p q ∨ Beside q p)) := by
  refine ⟨moduleQname_eq_iff p q, fun hpo hqo => ?_⟩
  exact hpo.moduleQname_eq_iff hqo (isResolved_of_resolve_eq hp.1 hp.2.1) (isResolved_of_resolve_eq hq.1 hq.2.1)
    hp.2.2 hq.2.2 hne

theorem modules_named_alike_beside :
    Beside ⟨"/a.b/x.py"⟩ ⟨"/a.b/x/__init__.py"⟩ ∧ moduleQname ⟨"/a.b/x.py"⟩ = moduleQname ⟨"/a.b/x/__init__.py"⟩ := by
  have hbeside : Beside ⟨"/a.b/x.py"⟩ ⟨"/a.b/x/__init__.py"⟩ :=
    ⟨by decide +kernel, ⟨"/a.b/x"⟩, isResolved_of_resolve_eq (by decide +kernel) (by decide +kernel),
      by decide +kernel, by decide +kernel⟩
  have hsame := modules_named_alike (p := ⟨"/a.b/x.py"⟩) (q := ⟨"/a.b/x/__init__.py"⟩)
    ⟨by decide +kernel, by decide +kernel, by decide +kernel⟩ ⟨by decide +kernel, by decide +kernel, by decide +kernel⟩
    (by decide)
  exact ⟨hbeside, (hsame.2 ⟨by decide +kernel, by decide +kernel, by decide +kernel⟩
    ⟨by decide +kernel, by decide +kernel, by decide +kernel⟩).2 (.inl hbeside)⟩

/-- Different source files are named alike, and neither is that of a package. -/
def Collide (p q : Path) : Prop :=
  (p.isAbsolute ∧ p.resolve = p ∧ p.isSourceFile ∧ p.isPackageInit = false) ∧
  (q.isAbsolute ∧ q.resolve = q ∧ q.isSourceFile ∧ q.isPackageInit = false) ∧ p ≠ q ∧ p.moduleQname = q.moduleQname

/-- A file name that ends like that of a package, a dot that is written out and a backslash. -/
theorem modules_named_alike_by_accident : Collide ⟨"/p/x.py"⟩ ⟨"/p/x__init__.py"⟩ ∧
    Collide ⟨"/p/x.y.py"⟩ ⟨"/p/x%20y.py"⟩ ∧ Collide ⟨"/p/x/y.py"⟩ ⟨"/p/x\\y.py"⟩ := by
  unfold Collide
  decide +kernel

end Path

end TypeInfer
