/-
Which definitions are reported as unused. A site has a binding for each time its code was run. It is
reported once if it has reportable bindings and none of them is referred to, and not at all
otherwise (`unused_reports_are_exact`); a binding that holds a class or function counts on neither
side.
-/
import TypeInfer.Proofs.Findings

namespace TypeInfer

open List

/-! ### Places -/

/-- A file, however it is spelled, with offsets, lines and columns. -/
abbrev Place := List Component × Nat × Nat × Nat × Nat × Nat × Nat

instance : DecidableEq Place :=
  have : DecidableEq (Nat × Nat × Nat × Nat × Nat) := inferInstance
  inferInstance

/-- Where a span stands. -/
def Span.place (a : Span) : Place :=
  (a.file.components, a.start, a.stop, a.startLine, a.startCol, a.endLine, a.endCol)

theorem Span.same_iff {a b : Span} : a.same b ↔ a.place = b.place := by
  simp only [Span.same, Span.place, Bool.and_eq_true, beq_iff_eq, Path.same_iff, Prod.mk.injEq]
  constructor
  · rintro ⟨⟨⟨⟨⟨⟨h1, h2⟩, h3⟩, h4⟩, h5⟩, h6⟩, h7⟩
    exact ⟨h7, h1, h2, h3, h4, h5, h6⟩
  · rintro ⟨h7, h1, h2, h3, h4, h5, h6⟩
    exact ⟨⟨⟨⟨⟨⟨h1, h2⟩, h3⟩, h4⟩, h5⟩, h6⟩, h7⟩

instance : Std.LawfulEqOrd Component where
  compare_self := Std.ReflCmp.compare_self
  eq_of_compare {a b} h := by
    obtain ⟨hrank, htext⟩ := compareLex_eq_eq.1 h
    have hrank : a.rank = b.rank := Std.LawfulEqCmp.eq_of_compare hrank
    have htext : a.text = b.text := Std.LawfulEqCmp.eq_of_compare htext
    cases a <;> cases b <;> simp_all [Component.rank, Component.text]

/-- Spans that are one key in a table stand at one place. -/
theorem Span.compare_eq_iff {a b : Span} : compare a b = .eq ↔ a.same b := by
  have hcompare : compare a b = .eq ↔ a.place = b.place := by
    change (compareLex _ _) a b = .eq ↔ _
    simp only [compareLex_eq_eq, compareOn, Path.compare_eq, Std.LawfulEqCmp.compare_eq_iff_eq, Span.place, Prod.mk.injEq]
  rw [hcompare, Span.same_iff]

/-! ### One item of each kind -/

section

variable {α κ : Type} {r : α → α → Bool}

theorem mem_of_mem_eraseDupsBy {a : α} {l : List α} (h : a ∈ l.eraseDupsBy r) : a ∈ l := by
  induction hn : l.length using Nat.strongRecOn generalizing l with
  | ind n ih =>
    cases l with
    | nil => exact h
    | cons b l =>
      have hlt : (l.filter fun c => decide (r c b = false)).length < n := by
        rw [← hn]
        exact Nat.lt_succ_of_le (length_filter_le ..)
      rw [eraseDupsBy_cons] at h
      rcases mem_cons.1 h with rfl | h
      · exact mem_cons_self
      · exact mem_cons_of_mem b (mem_filter.1 (ih _ hlt h rfl)).1

/-- Of the items that are alike, one is kept. -/
theorem countP_eraseDupsBy (key : α → κ) (hr : ∀ a b, r a b ↔ key a = key b) (a : α) (l : List α) :
    (l.eraseDupsBy r).countP (r a) = if l.any (r a) then 1 else 0 := by
  induction hn : l.length using Nat.strongRecOn generalizing l with
  | ind n ih =>
    cases l with
    | nil => rfl
    | cons b l =>
      have hlt : (l.filter fun c => decide (r c b = false)).length < n := by
        rw [← hn]
        exact Nat.lt_succ_of_le (length_filter_le ..)
      rw [eraseDupsBy_cons, countP_cons, ih _ hlt _ rfl, any_cons]
      by_cases hab : r a b
      · -- all others that are like `a` were erased
        have hnone : (l.filter fun c => decide (r c b = false)).any (r a) = false := by
          refine any_eq_false.2 fun c hc hac => ?_
          have hcb := of_decide_eq_true (mem_filter.1 hc).2
          rw [(hr c b).2 (((hr a c).1 hac).symm.trans ((hr a b).1 hab))] at hcb
          contradiction
        rw [hnone, hab]
        rfl
      · -- none that is like `a` was erased
        have hsame : (l.filter fun c => decide (r c b = false)).any (r a) = l.any (r a) := by
          rw [Bool.eq_iff_iff, any_eq_true, any_eq_true]
          constructor
          · rintro ⟨c, hc, hac⟩
            exact ⟨c, (mem_filter.1 hc).1, hac⟩
          · rintro ⟨c, hc, hac⟩
            refine ⟨c, mem_filter.2 ⟨hc, decide_eq_true (Bool.eq_false_iff.2 fun hcb => hab ?_)⟩, hac⟩
            exact (hr a b).2 (((hr a c).1 hac).trans ((hr c b).1 hcb))
        rw [hsame, Bool.eq_false_iff.2 hab]
        rfl

end

/-! ### Sites of definitions -/

namespace Analysis

variable (node : Span) (name : String)

/-- The site of a binding. -/
def siteOf (b : Binding) : DefinitionSite := (b.node, b.name)

theorem DefinitionSite.same_iff {a b : DefinitionSite} : a.same b ↔ (a.1.place, a.2) = (b.1.place, b.2) := by
  simp only [DefinitionSite.same, Bool.and_eq_true, Span.same_iff, beq_iff_eq, Prod.mk.injEq]

/-- The bindings of a definition that are worth a report. -/
def reportableAt (s : Analysis) (node : Span) (name : String) : List Binding :=
  s.scopes.bindings.toList.filter fun b => isReportable b && DefinitionSite.same (node, name) (siteOf b)

variable (s : Analysis)

theorem mem_reportableAt {s : Analysis} {node : Span} {name : String} {b : Binding} :
    b ∈ s.reportableAt node name ↔
      b ∈ s.scopes.bindings.toList ∧ isReportable b ∧ DefinitionSite.same (node, name) (siteOf b) := by
  rw [reportableAt, mem_filter, Bool.and_eq_true]

/-- An unused site is the site of a reportable binding. -/
theorem exists_of_mem_unusedSites {s : Analysis} {site : DefinitionSite} (h : site ∈ s.unusedSites) :
    ∃ b ∈ s.scopes.bindings.toList, isReportable b ∧ site = siteOf b := by
  have hsite := mem_of_mem_eraseDupsBy (mem_mergeSort.1 (mem_filter.1 h).1)
  obtain ⟨b, hb, rfl⟩ := mem_map.1 hsite
  obtain ⟨hmem, hreportable⟩ := mem_filter.1 (mem_filter.1 hb).1
  exact ⟨b, hmem, hreportable, rfl⟩

theorem any_sites (q : Binding → Bool) (node : Span) (name : String) :
    (((s.scopes.bindings.toList.filter isReportable).filter q).map siteOf).any (DefinitionSite.same (node, name)) =
      (s.reportableAt node name).any q := by
  rw [Bool.eq_iff_iff, any_eq_true, any_eq_true]
  constructor
  · rintro ⟨_, hmem, hsame⟩
    obtain ⟨b, hb, rfl⟩ := mem_map.1 hmem
    obtain ⟨hb, hq⟩ := mem_filter.1 hb
    obtain ⟨hb, hreportable⟩ := mem_filter.1 hb
    exact ⟨b, mem_reportableAt.2 ⟨hb, hreportable, hsame⟩, hq⟩
  · rintro ⟨b, hb, hq⟩
    obtain ⟨hb, hreportable, hsame⟩ := mem_reportableAt.1 hb
    exact ⟨siteOf b, mem_map_of_mem (mem_filter.2 ⟨mem_filter.2 ⟨hb, hreportable⟩, hq⟩), hsame⟩

theorem countP_sitesOf (bindings : List Binding) (site : DefinitionSite) :
    (sitesOf bindings).countP site.same = if (bindings.map siteOf).any site.same then 1 else 0 := by
  rw [sitesOf, List.Perm.countP_eq _ (mergeSort_perm ..)]
  exact countP_eraseDupsBy (fun site => (site.1.place, site.2)) (fun _ _ => DefinitionSite.same_iff) ..

/-- A site is unused once if it has reportable bindings and none is referred to, and else never. -/
theorem countP_unusedSites :
    s.unusedSites.countP (DefinitionSite.same (node, name)) =
      if (s.reportableAt node name).any (!·.isReferenced) ∧ (s.reportableAt node name).any Binding.isReferenced = false
      then 1 else 0 := by
  let bindings := s.scopes.bindings.toList.filter isReportable
  let used := (bindings.filter Binding.isReferenced).map siteOf
  let sites := sitesOf (bindings.filter (!·.isReferenced))
  have hcount : sites.countP (DefinitionSite.same (node, name)) =
      if (s.reportableAt node name).any (!·.isReferenced) then 1 else 0 := by
    rw [← s.any_sites]
    exact countP_sitesOf ..
  have hused : used.any (DefinitionSite.same (node, name)) = (s.reportableAt node name).any Binding.isReferenced :=
    s.any_sites ..
  -- sites that are alike are used alike
  have hlike : ∀ site, DefinitionSite.same (node, name) site → used.any site.same = used.any (DefinitionSite.same (node, name)) := by
    intro site hsite
    refine congrArg used.any (funext fun other => ?_)
    rw [Bool.eq_iff_iff, DefinitionSite.same_iff, DefinitionSite.same_iff, ← DefinitionSite.same_iff.1 hsite]
  change (sites.filter fun site => !used.any site.same).countP _ = _
  rw [countP_filter, ← hused]
  by_cases hany : used.any (DefinitionSite.same (node, name))
  · rw [if_neg (by simp [hany]), countP_eq_zero]
    intro site _ hsite
    rw [Bool.and_eq_true] at hsite
    simp [hlike site hsite.1, hany] at hsite
  · have hsame : sites.countP (fun site => DefinitionSite.same (node, name) site && !used.any site.same) =
        sites.countP (DefinitionSite.same (node, name)) := by
      refine countP_congr fun site _ => ?_
      rw [Bool.and_eq_true]
      refine ⟨And.left, fun hsite => ⟨hsite, ?_⟩⟩
      rw [hlike site hsite, Bool.eq_false_iff.2 hany]
      rfl
    rw [hsame, hcount, Bool.eq_false_iff.2 hany]
    simp

end Analysis

/-! ### Reports -/

section

variable {α β : Type} [Ord α] [Std.TransOrd α] (t : Std.TreeMap α (List β))

theorem flatMap_filter_key {k k'} (hk : compare k' k = .eq) :
    (t.toList.filter fun e => compare k' e.1 == .eq).flatMap Prod.snd = t.getD k [] := by
  have hdistinct := t.distinct_keys_toList.filter fun e => compare k' e.1 == .eq
  have hmem : ∀ e, e ∈ t.toList.filter (fun e => compare k' e.1 == .eq) ↔ e ∈ t.toList ∧ compare k' e.1 = .eq := by
    simp
  have hfound : ∀ v, t[k]? = some v ↔ ∃ e ∈ t.toList.filter (fun e => compare k' e.1 == .eq), e.2 = v := by
    intro v
    rw [Std.TreeMap.getElem?_eq_some_iff_exists_compare_eq_eq_and_mem_toList]
    constructor
    · rintro ⟨k'', hcompare, hentry⟩
      exact ⟨(k'', v), (hmem _).2 ⟨hentry, Std.TransCmp.eq_trans hk hcompare⟩, rfl⟩
    · rintro ⟨⟨k'', v⟩, hentry, rfl⟩
      obtain ⟨hentry, hcompare⟩ := (hmem _).1 hentry
      exact ⟨k'', Std.TransCmp.eq_trans (Std.OrientedCmp.eq_symm hk) hcompare, hentry⟩
  generalize t.toList.filter (fun e => compare k' e.1 == .eq) = entries at hdistinct hmem hfound
  rw [Std.TreeMap.getD_eq_getD_getElem?]
  match entries with
  | [] =>
    cases hget : t[k]? with
    | none => rfl
    | some v =>
      obtain ⟨e, he, -⟩ := (hfound v).1 hget
      contradiction
  | [e] =>
    rw [(hfound e.2).2 ⟨e, mem_singleton_self e, rfl⟩]
    simp
  | e :: e' :: rest =>
    have he := ((hmem e).1 mem_cons_self).2
    have he' := ((hmem e').1 (mem_cons_of_mem e mem_cons_self)).2
    exact absurd (Std.TransCmp.eq_trans (Std.OrientedCmp.eq_symm he) he')
      ((pairwise_cons.1 hdistinct).1 e' mem_cons_self)

theorem perm_update (k : α) (b : β) :
    ((Ordered.update t k [] (· ++ [b])).toList.flatMap Prod.snd).Perm (b :: t.toList.flatMap Prod.snd) := by
  let _ : BEq α := ⟨fun a b => compare a b == .eq⟩
  have : Std.LawfulBEqCmp (compare : α → α → Ordering) := ⟨fun {a b} => (beq_iff_eq (a := compare a b)).symm⟩
  have hk : compare (t.getKeyD k k) k = .eq := Ordered.compare_getKeyD t k
  have hinsert : (Ordered.update t k [] (· ++ [b])).toList.Perm
      ((t.getKeyD k k, t.getD k [] ++ [b]) :: t.toList.filter fun e => !(compare (t.getKeyD k k) e.1 == .eq)) := by
    refine Std.TreeMap.toList_insert_perm.trans (List.Perm.of_eq (congrArg _ (filter_congr fun e _ => ?_)))
    rw [decide_not, Bool.decide_eq_true]
    rfl
  have hsplit := filter_append_perm (fun e => compare (t.getKeyD k k) e.1 == .eq) t.toList
  have hall := hsplit.flatMap_right Prod.snd
  rw [flatMap_append, flatMap_filter_key t hk] at hall
  refine (hinsert.flatMap_right Prod.snd).trans ?_
  rw [flatMap_cons, append_assoc]
  exact (perm_middle).trans (hall.cons b)

end

namespace Analysis

variable (s : Analysis)

/-- All problems in the code. -/
def found : List Diagnostic := s.problemsByFile.flatMap Prod.snd

theorem diagnostics_eq : s.diagnostics = s.failuresByFile.flatMap Prod.snd ++ s.found := flatMap_append

theorem perm_found_report (d : Diagnostic) :
    (s.report d).found.Perm ([d].filter (!·.span.isSynthetic) ++ s.found) := by
  unfold report
  split
  · rename_i hlibrary
    simp [hlibrary]
  · rename_i hown
    rw [filter_cons_of_pos (by simpa using hown)]
    exact perm_update s.problems d.span.file d

theorem perm_found_reports {α : Type} (l : List α) (d : α → Diagnostic) :
    (l.foldl (fun s a => s.report (d a)) s).found.Perm ((l.map d).filter (!·.span.isSynthetic) ++ s.found) := by
  induction l generalizing s with
  | nil => exact .refl _
  | cons a l ih =>
    refine (ih (s.report (d a))).trans (((s.perm_found_report (d a)).append_left _).trans ?_)
    have hsplit : ((a :: l).map d).filter (!·.span.isSynthetic) =
        [d a].filter (!·.span.isSynthetic) ++ (l.map d).filter (!·.span.isSynthetic) := filter_append [d a] _
    rw [hsplit, ← append_assoc]
    exact perm_append_comm.append_right _

theorem perm_found_sortProblems : s.sortProblems.found.Perm s.found := by
  rw [found, found, problemsByFile, sortProblems, Std.TreeMap.toList_map, flatMap_map]
  exact List.Perm.flatMap_left _ fun e _ => mergeSort_perm ..

/-- The report on a site that is never used. -/
def unusedWarning (site : DefinitionSite) : Diagnostic :=
  Diagnostic.warning Diagnostic.Code.unusedVariable ("unused variable: " ++ site.2) site.1

/-- No site that is never used lies in the library. -/
theorem filter_unusedWarnings :
    (s.unusedSites.map unusedWarning).filter (!·.span.isSynthetic) = s.unusedSites.map unusedWarning := by
  refine filter_eq_self.2 fun d hd => ?_
  obtain ⟨site, hsite, rfl⟩ := mem_map.1 hd
  obtain ⟨b, -, hreportable, rfl⟩ := exists_of_mem_unusedSites hsite
  simp only [isReportable, Bool.and_eq_true] at hreportable
  exact hreportable.1.1.1.1

theorem perm_found_reportUnused : s.reportUnused.found.Perm (s.unusedSites.map unusedWarning ++ s.found) := by
  have hfound := s.perm_found_reports s.unusedSites unusedWarning
  rwa [filter_unusedWarnings] at hfound

end Analysis

/-- The problem is that the definition of a name at a node is never used. -/
def Diagnostic.isUnusedAt (node : Span) (name : String) (d : Diagnostic) : Bool :=
  d.code == Diagnostic.Code.unusedVariable && node.same d.span && d.message == "unused variable: " ++ name

theorem Analysis.isUnusedAt_unusedWarning (node : Span) (name : String) (site : DefinitionSite) :
    (Analysis.unusedWarning site).isUnusedAt node name = DefinitionSite.same (node, name) site := by
  rw [Bool.eq_iff_iff]
  simp only [Diagnostic.isUnusedAt, unusedWarning, Diagnostic.warning, DefinitionSite.same, Bool.and_eq_true, beq_iff_eq,
    String.append_right_inj]
  exact ⟨fun ⟨⟨_, hspan⟩, hname⟩ => ⟨hspan, hname.symm⟩, fun ⟨hspan, hname⟩ => ⟨⟨trivial, hspan⟩, hname.symm⟩⟩

/-! ### The end of an analysis -/

variable {code : Code} {s t : Analysis}

theorem Work.config (h : Work code s t) : t.config = s.config :=
  (Session.work h).relates (R := fun s t => t.config = s.config) (fun ih ih' => ih'.trans ih)
    (fun run => run.settings.config) fun _ _ _ _ _ _ => rfl

/-- The problem is something else than a definition that is never used. -/
def Diagnostic.IsOther (d : Diagnostic) : Prop := d.code ≠ Diagnostic.Code.unusedVariable

theorem Work.none_unused (h : Work code s t) (hs : s.AllFound Diagnostic.IsOther) : t.AllFound Diagnostic.IsOther := by
  refine Analysis.AllFound.work (fun d hlocal _ hcode => ?_) (fun d hfile hcode => ?_) hs h
  · rw [hcode] at hlocal
    revert hlocal
    decide
  · rcases hfile with hfault | hunreadable
    · rw [Diagnostic.IsFault, hcode] at hfault
      revert hfault
      decide
    · rw [hunreadable] at hcode
      revert hcode
      decide

namespace Analysis

theorem AllFound.reportUnresolved (h : s.AllFound Diagnostic.IsOther) :
    s.reportUnresolved.AllFound Diagnostic.IsOther := by
  have hother : Diagnostic.Code.unresolvedName ≠ Diagnostic.Code.unusedVariable := by decide
  unfold Analysis.reportUnresolved
  generalize s.unresolvedSites = sites
  induction sites generalizing s with
  | nil => exact h
  | cons site sites ih => exact ih (h.report hother)

/-- At the end a warning is added for each unused site, and an error for each unresolved name. -/
theorem perm_diagnostics_concluded (hreport : s.config.reportUnused) :
    s.concluded.diagnostics.Perm (s.unusedSites.map unusedWarning ++ s.reportUnresolved.diagnostics) := by
  obtain ⟨problems, heq⟩ : ∃ problems, s.reportUnresolved = { s with problems } := reports_eq _ _ s
  obtain ⟨problems', stats, heq'⟩ := s.concluded_eq
  have hreported : s.reported = s.reportUnresolved.reportUnused := if_pos (by rwa [heq])
  have hsites : s.reportUnresolved.unusedSites = s.unusedSites := by rw [heq]; rfl
  have hfailures : s.concluded.failuresByFile = s.reportUnresolved.failuresByFile := by rw [heq, heq']; rfl
  have hfound : s.concluded.found.Perm (s.unusedSites.map unusedWarning ++ s.reportUnresolved.found) := by
    rw [← hsites]
    refine s.reported.perm_found_sortProblems.trans ?_
    rw [hreported]
    exact s.reportUnresolved.perm_found_reportUnused
  rw [diagnostics_eq, diagnostics_eq, hfailures]
  refine (hfound.append_left _).trans ?_
  rw [← append_assoc, ← append_assoc]
  exact perm_append_comm.append_right _

/-- The report on a name that was never found. -/
def unresolvedError (entry : Span × String) : Diagnostic :=
  Diagnostic.error Diagnostic.Code.unresolvedName ("unresolved name: " ++ entry.2) entry.1

/-- What is found in the code at the end: what was found before, the unresolved names and, if asked for, the
unused sites. -/
theorem perm_found_concluded (s : Analysis) : s.concluded.found.Perm
    ((if s.config.reportUnused then s.unusedSites.map unusedWarning else []) ++
      ((s.unresolvedSites.map unresolvedError).filter (!·.span.isSynthetic) ++ s.found)) := by
  obtain ⟨problems, heq⟩ : ∃ problems, s.reportUnresolved = { s with problems } := reports_eq _ _ s
  have hconfig : s.reportUnresolved.config = s.config := by rw [heq]
  have hsites : s.reportUnresolved.unusedSites = s.unusedSites := by rw [heq]; rfl
  have hunresolved := s.perm_found_reports s.unresolvedSites unresolvedError
  refine s.reported.perm_found_sortProblems.trans ?_
  rw [reported, hconfig]
  split
  · have hunused := s.reportUnresolved.perm_found_reportUnused
    rw [hsites] at hunused
    exact hunused.trans (hunresolved.append_left _)
  · exact hunresolved

theorem countP_diagnostics_concluded (hreport : s.config.reportUnused) (hs : s.AllFound Diagnostic.IsOther)
    (node : Span) (name : String) : s.concluded.diagnostics.countP (Diagnostic.isUnusedAt node name) =
      if (s.reportableAt node name).any (!·.isReferenced) ∧ (s.reportableAt node name).any Binding.isReferenced = false
      then 1 else 0 := by
  have hothers : s.reportUnresolved.diagnostics.countP (Diagnostic.isUnusedAt node name) = 0 := by
    refine countP_eq_zero.2 fun d hd hunused => hs.reportUnresolved.diagnostics d hd ?_
    simp only [Diagnostic.isUnusedAt, Bool.and_eq_true, beq_iff_eq] at hunused
    exact hunused.1.1
  have hsites : Diagnostic.isUnusedAt node name ∘ unusedWarning = DefinitionSite.same (node, name) :=
    funext (isUnusedAt_unusedWarning node name)
  rw [(perm_diagnostics_concluded hreport).countP_eq, countP_append, countP_map, hothers, hsites,
    countP_unusedSites]
  rfl

end Analysis

/-- **Unused definitions are reported exactly.** After projects were loaded and the
analysis was ended, a definition is reported as unused once if it has reportable bindings
and none of these is referred to, and never otherwise; and nothing but definitions with
reportable bindings is reported as unused. -/
theorem unused_reports_are_exact {work : Workspace} {config : Config} {s t u : Analysis} {roots : List Path}
    {depth : Nat} (hstart : Analysis.start work config = .ok s)
    (hload : (roots.forM (Infer.analyze · depth)).run s = some ((), t))
    (hfinish : (Infer.finish depth).run t = some ((), u)) (hreport : config.reportUnused) :
    (∀ node name, u.reportableAt node name ≠ [] → (∀ b ∈ u.reportableAt node name, b.isReferenced = false) →
      u.diagnostics.countP (Diagnostic.isUnusedAt node name) = 1) ∧
    (∀ node name, u.reportableAt node name = [] ∨ (∃ b ∈ u.reportableAt node name, b.isReferenced) →
      u.diagnostics.countP (Diagnostic.isUnusedAt node name) = 0) ∧
    ∀ d ∈ u.diagnostics, d.code = Diagnostic.Code.unusedVariable →
      ∃ b ∈ u.scopes.bindings.toList, Analysis.isReportable b ∧ d = Analysis.unusedWarning (Analysis.siteOf b) := by
  have hs := Analysis.closed_all hstart
  obtain ⟨w, heq, -⟩ := Analysis.start_cases hstart
  have hopen : s.finished = false := by rw [heq, Analysis.fresh_eq]
  have hconfig : s.config = config := by rw [heq, Analysis.fresh_eq]
  have hnone : s.AllFound Diagnostic.IsOther := by
    rw [heq]
    exact .fresh w config
  have hprojects := projects_of_roots hs hload
  have hclosed := hprojects.work.closed hs
  obtain ⟨v, hwork, rfl⟩ := concluded_of_finish hclosed (hprojects.settings.1.trans hopen) hfinish
  have hwork := hprojects.work.trans hwork
  have hreport : v.config.reportUnused := by rwa [hwork.config, hconfig]
  have hother := hwork.none_unused hnone
  have hscopes : v.concluded.scopes = v.scopes := by
    obtain ⟨problems, stats, heq⟩ := v.concluded_eq
    rw [heq]
    rfl
  have hcount := Analysis.countP_diagnostics_concluded hreport hother
  simp only [Analysis.reportableAt, hscopes]
  refine ⟨fun node name hsome hunused => ?_, fun node name hused => ?_, fun d hd hcode => ?_⟩
  · rw [hcount, if_pos]
    obtain ⟨b, hb⟩ := List.exists_mem_of_ne_nil _ hsome
    refine ⟨List.any_eq_true.2 ⟨b, hb, by simp [hunused b hb]⟩, List.any_eq_false.2 fun b hb => ?_⟩
    simp [hunused b hb]
  · rw [hcount, if_neg]
    rintro ⟨hsome, hnone⟩
    rcases hused with hempty | ⟨b, hb, hreferenced⟩
    · rw [Analysis.reportableAt, hempty] at hsome
      contradiction
    · exact List.any_eq_false.1 hnone b hb hreferenced
  · rcases List.mem_append.1 ((Analysis.perm_diagnostics_concluded hreport).mem_iff.1 hd) with hd | hd
    · obtain ⟨site, hsite, rfl⟩ := List.mem_map.1 hd
      obtain ⟨b, hb, hreportable, rfl⟩ := Analysis.exists_of_mem_unusedSites hsite
      exact ⟨b, hb, hreportable, rfl⟩
    · exact absurd hcode (hother.reportUnresolved.diagnostics d hd)

/-- A name that is bound twice by calls of one function, to a number and to a function. -/
def Workspace.twiceBound : Workspace where
  files := ({} : FileTree).addFile ⟨"/p/main.py"⟩
    "def make(v):\n    class C:\n        attr = v\n    return C\ndef g():\n    pass\nA = make(1)\nB = make(g)\nB.attr\nA\n"

theorem unused_reports_are_exact_twiceBound : ∃ depth s t u,
    Analysis.start Workspace.twiceBound .hermetic = .ok s ∧ Config.hermetic.reportUnused ∧
    ([⟨"/p"⟩].forM (Infer.analyze · depth)).run s = some ((), t) ∧ (Infer.finish depth).run t = some ((), u) ∧
    (∀ node name, u.reportableAt node name ≠ [] → (∀ b ∈ u.reportableAt node name, b.isReferenced = false) →
      u.diagnostics.countP (Diagnostic.isUnusedAt node name) = 1) ∧
    ∀ node name, u.reportableAt node name = [] ∨ (∃ b ∈ u.reportableAt node name, b.isReferenced) →
      u.diagnostics.countP (Diagnostic.isUnusedAt node name) = 0 := by
  have hbuilt : Workspace.twiceBound.files.Built := .addFile (.empty rfl rfl rfl) _ _
  have hstart := Analysis.start_hermetic Workspace.twiceBound
  obtain ⟨depth, t, u, hanalyze, hfinish⟩ := exists_analysis hbuilt hstart ⟨"/p"⟩
  have hload : ([⟨"/p"⟩].forM (Infer.analyze · depth)).run
      (Analysis.fresh { Workspace.twiceBound with cache := {} } .hermetic) = some ((), t) := by
    simpa using hanalyze
  obtain ⟨honce, hnever, -⟩ := unused_reports_are_exact hstart hload hfinish rfl
  exact ⟨depth, _, t, u, hstart, rfl, hload, hfinish, honce, hnever⟩

end TypeInfer
